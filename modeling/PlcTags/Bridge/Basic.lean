import PlcTags.Bridge.Poll

/-!
# The bridge

One controller, the values registered on it, and the pollers that read them. Values are polled once
a merge pass has published them; a value registered later is published at once.

* `Bridge.ofConfig` starts from a configuration; the other functions are what can be asked of a
  bridge.
* `Bridge.write` writes a value through its own tag, or through one made for this write when its tag
  serves other values too.
-/

namespace PlcTags

/-- A bridge. `published` is what pollers see, `latest` the last sample of each value; `running`
tells whether the pollers run, `stopped` whether they were ever stopped. -/
structure Bridge where
  config : Config
  plc : Plc
  registry : Registry
  pollers : List PollerConfig
  published : Option Snapshot := none
  latest : List (ValueId × Sample) := []
  running : Bool := false
  stopped : Bool := false

namespace Bridge

/-- A bridge to a controller with a usable configuration. Its values draw their identifiers from a
supply. -/
def ofConfig (ids : ValueId.Supply) (config : Config) (plc : Plc) : Except ConfigError Bridge :=
  config.validate.map fun _ =>
    { config := config
      plc := plc
      registry := config.pollers.foldl (fun r poller => (r.addPoller poller.name).1) { ids := ids }
      pollers := config.pollers }

/-- The bridge with other structures, and the first one that failed. The others can be used. -/
def loadStructs (b : Bridge) (defs : Layout.Definitions) :
    Bridge × Except Layout.DefinitionError Unit :=
  let table := Layout.Table.compile defs
  ({ b with registry := b.registry.setStructs table },
    match table.failures.head? with
    | some failure => .error failure.2
    | none => .ok ())

/-- The bridge with one more poller. -/
def createPoller (b : Bridge) (poller : PollerConfig) : Except BridgeError Bridge :=
  match poller.validate with
  | .error cause => .error (.config cause)
  | .ok () =>
    match b.registry.addPoller poller.name with
    | (_, false) => .error (.config (.duplicatePoller poller.name))
    | (registry, true) =>
      .ok { b with registry := registry, pollers := b.pollers ++ [poller] }

/-- Keeps a sample as the last one of its value. -/
def keep (b : Bridge) (sample : Sample) : Bridge :=
  { b with latest := Keyed.assign sample.id sample b.latest }

/-- Publishes the registered values. -/
def publish (b : Bridge) : Bridge :=
  { b with published := some b.registry.snapshot }

/-- The sample of a value before its first poll. -/
def firstSample (v : Registered) : Sample :=
  match v.creationError with
  | some cause => .failure v.id .commError cause.message
  | none => .failure v.id .configError "not polled yet"

/-- The bridge with one more value. -/
def register (b : Bridge) (text : String) : Except DescriptorError (Bridge × Registered) :=
  (b.registry.register b.plc b.config.route text).map fun added =>
    let (registry, plc, value) := added
    let next := { b with registry := registry, plc := plc }.keep (firstSample value)
    (if registry.optimised then next.publish else next, value)

/-- The bridge after a merge pass, whose outcome is published. -/
def merge (b : Bridge) : Bridge × MergeReport :=
  let (registry, plc, report) := b.registry.merge b.plc b.config.route b.config.mergeThreshold
  ({ b with registry := registry, plc := plc }.publish, report)

/-- How a group is polled. -/
def pollOptions (b : Bridge) (spread : Bool) : PollOptions :=
  ⟨b.config.readTimeoutMs, b.config.zone, spread⟩

/-- Polls the published values of a group. -/
def pollPublished (b : Bridge) (snapshot : Snapshot) (group : String) (spread : Bool) :
    Bridge × List Sample :=
  let (plc, samples) := Poll.run b.plc (snapshot.group group) (b.pollOptions spread) b.stopped
  (samples.foldl keep { b with plc := plc }, samples)

/-- Does a poller spread its requests? The group of the values without a poller does not. -/
def spreads? (b : Bridge) (group : String) : Option Bool :=
  if group = initPoller then some false
  else (b.pollers.find? fun poller => poller.name == group).map PollerConfig.spread

/-- Polls a group once. -/
def poll (b : Bridge) (group : String) : Except BridgeError (Bridge × List Sample) :=
  match b.published, b.spreads? group with
  | none, _ => .error .notInitialised
  | some _, none => .error (.unknownPoller group)
  | some snapshot, some spread => .ok (b.pollPublished snapshot group spread)

/-- The bridge after every group was polled once. -/
def pollAll (b : Bridge) (snapshot : Snapshot) : Bridge :=
  let first := (b.pollPublished snapshot initPoller false).1
  b.pollers.foldl (fun b poller => (b.pollPublished snapshot poller.name poller.spread).1) first

/-- Starts the pollers, after a merge pass if none has run, and lets each poll once. Running pollers
are left alone, and stopped ones do not poll again. -/
def start (b : Bridge) : Bridge :=
  if b.running then b
  else
    let merged := { (if b.published.isNone then b.merge.1 else b) with running := true }
    match merged.published with
    | some snapshot => if merged.stopped then merged else merged.pollAll snapshot
    | none => merged

/-- Stops the pollers for good. -/
def stop (b : Bridge) : Bridge :=
  { b with running := false, stopped := true }

/-- The last sample of a value. -/
def latest? (b : Bridge) (id : ValueId) : Option Sample :=
  Keyed.find? id b.latest

/-- Reads a tag, changes the field of a value in its buffer, and writes the tag. -/
def writeThrough (plc : Plc) (tag : TagRef) (d : Descriptor) (value : Value)
    (options : DecodeOptions) (timeoutMs : Nat) : Plc × Except BridgeError Unit :=
  let (read, readStatus) := plc.startRead tag.handle
  match read.await tag.handle readStatus timeoutMs, read.bufferOf tag.handle with
  | .error cause, _ => (read, .error (.transport cause))
  | .ok (), .error fault => (read, .error (.decode (.buffer fault)))
  | .ok (), .ok buffer =>
    let (changed, outcome) := encode buffer d value options
    let encoded := read.setBuffer tag.handle changed
    match outcome with
    | .error cause => (encoded, .error (.decode cause))
    | .ok () =>
      let (written, writeStatus) := encoded.startWrite tag.handle
      (written, (written.await tag.handle writeStatus timeoutMs).mapError .transport)

/-- The descriptor of a value in its own tag. -/
def ownDescriptor (v : Registered) : Descriptor :=
  { v.descriptor with offset := v.elementOffset.getD v.descriptor.offset }

/-- The tag of a value, if it serves no other value. -/
def ownTag? (r : Registry) (v : Registered) : Option TagRef :=
  if r.sharesTag v.id || v.state.sharesBuffer then none else v.tag

/-- Writes a value. A tag made for the write is destroyed whatever comes of it. -/
def write (b : Bridge) (id : ValueId) (value : Value) : Bridge × Except BridgeError Unit :=
  match b.registry.find? id with
  | none => (b, .error (.unknownValue id))
  | some v =>
    let through := fun plc tag =>
      writeThrough plc tag (ownDescriptor v) value ⟨false, b.config.zone⟩ b.config.readTimeoutMs
    match ownTag? b.registry v with
    | some tag =>
      let (plc, outcome) := through b.plc tag
      ({ b with plc := plc }, outcome)
    | none =>
      match b.plc.create v.connection with
      | (plc, .error cause) => ({ b with plc := plc }, .error (.transport cause))
      | (plc, .ok tag) =>
        let (written, outcome) := through plc tag
        ({ b with plc := written.destroy tag.handle }, outcome)

end Bridge

end PlcTags

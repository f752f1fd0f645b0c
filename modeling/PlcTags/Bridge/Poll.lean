import PlcTags.Bridge.Error

/-!
# Polling a group

First all reads are started, one for each tag that a value of the group may read; then the values are
taken in the order of registration, and each is decoded from its tag once the read of the tag has
completed. The first outcome that is seen of a read holds for all values that share the tag. A poll
that is stopped gives no samples.

* `readers` are the handles that are read, each once.
* `issueAll` starts the reads, `observe` looks at the outcome of one.
* `collect` makes a sample of every value.
-/

namespace PlcTags

/-- How a group is polled: the time limit, the zone of the controller clock, and whether the reads
are spread over the period. -/
structure PollOptions where
  timeoutMs : Nat
  zone : BitVec 64
  spread : Bool
  deriving DecidableEq, Repr

/-- The outcome of an operation that was started on a tag: it is awaited up to the time limit. -/
def Plc.await (plc : Plc) (handle : Nat) (started : TagStatus) (timeoutMs : Nat) :
    Except TransportError Unit :=
  match started with
  | .failed code => .error (.status handle code)
  | _ =>
    match plc.status handle with
    | .ok => .ok ()
    | .failed code => .error (.status handle code)
    | .pending => .error (.timeout handle timeoutMs)

namespace Poll

/-- The tags that are read: those of the values that start reads, each once. -/
def readers (values : List Registered) : List Nat :=
  (Registry.handles (values.filter Registered.readFlag)).eraseDups

/-- The reads that are started. A stopped poll that spreads its reads stops after the first. -/
def started (values : List Registered) (options : PollOptions) (stopped : Bool) : List Nat :=
  let handles := readers values
  if stopped && options.spread then handles.take 1 else handles

/-- The reads that were seen to complete: their outcomes, by the handles of their tags. -/
abbrev Completions := List (Nat × Except TransportError Unit)

/-- Starts the read of a tag. A failure that comes at once completes it. -/
def issue (plc : Plc) (seen : Completions) (handle : Nat) : Plc × Completions :=
  match plc.startRead handle with
  | (after, .failed code) => (after, Keyed.assign handle (.error (.status handle code)) seen)
  | (after, _) => (after, seen)

/-- Starts the reads of tags. -/
def issueAll (plc : Plc) (handles : List Nat) : Plc × Completions :=
  handles.foldl (fun state handle => issue state.1 state.2 handle) (plc, [])

/-- Looks at the read of a tag, unless it was seen to complete before. -/
def observe (plc : Plc) (seen : Completions) (handle : Nat) : Completions :=
  match Keyed.find? handle seen with
  | some _ => seen
  | none =>
    match plc.status handle with
    | .ok => Keyed.assign handle (.ok ()) seen
    | .failed code => Keyed.assign handle (.error (.status handle code)) seen
    | .pending => seen

/-- The outcome of a value whose tag has been read. -/
def decodeSample (plc : Plc) (options : PollOptions) (v : Registered) (handle : Nat) : Sample :=
  let decoded := liftFault (plc.bufferOf handle) >>= fun buffer =>
    decode buffer v.descriptor ⟨v.state.sharesBuffer, options.zone⟩
  match decoded with
  | .ok value => .success v.id value
  | .error cause => .failure v.id .decodeError cause.message

/-- The samples of values, one after the other. A read that has not completed is out of time. -/
def collect (plc : Plc) (options : PollOptions) (seen : Completions) :
    List Registered → List Sample
  | [] => []
  | v :: rest =>
    match v.tag with
    | none =>
      .failure v.id .commError (v.creationError.getD .noTag).message ::
        collect plc options seen rest
    | some tag =>
      let seen := observe plc seen tag.handle
      let sample :=
        match Keyed.find? tag.handle seen with
        | some (.ok ()) => decodeSample plc options v tag.handle
        | some (.error cause) => .failure v.id .commError cause.message
        | none =>
          .failure v.id .timeout (TransportError.timeout tag.handle options.timeoutMs).message
      sample :: collect plc options seen rest

/-- The controller after a poll of values, and a sample of each. -/
def run (plc : Plc) (values : List Registered) (options : PollOptions) (stopped : Bool) :
    Plc × List Sample :=
  let (after, seen) := issueAll plc (started values options stopped)
  (after, if stopped then [] else collect after options seen values)

end Poll

end PlcTags

import PlcTags.Proofs.Bridge.Readings
import PlcTags.Proofs.Bridge.Steps
import PlcTags.Proofs.Registry.Reached

/-!
# Every polled value is fresh

Reads are started for some of the values of a group only, yet every value of it is decoded. After a
merge pass a poll still reads each tag of the group, once, and no other tag; and it does so before
it decodes anything. So what a sample tells was read in that very poll.

* `Bridge.Reached`: the bridges that are reached, and whether they went through a merge pass.
* `Bridge.Reached.published`: pollers see a sound registry, the one of the bridge.
* `Registry.Sound.mem_readers`: a poll of a group reads the tags of all its values.
* `FreshPoll`: what a poll does.
-/

namespace PlcTags

open Poll

/-! ## Reached bridges -/

/-- **The bridges that are reached** from a configuration and a supply of identifiers, and whether a
merge pass has published their values. Outside the bridge the memory of the controller and the names
that it refuses may change at any time. -/
inductive Bridge.Reached : (merged : Bool) → Bridge → Prop
  | ofConfig {ids : ValueId.Supply} {config : Config} {plc : Plc} {b : Bridge}
      (h : Bridge.ofConfig ids config plc = .ok b) : Reached false b
  | outside {merged : Bool} {b : Bridge} (memory : List (String × Buffer)) (refused : List String)
      (h : Reached merged b) :
      Reached merged { b with plc := { b.plc with memory := memory, refused := refused } }
  | loadStructs {merged : Bool} {b : Bridge} (defs : Layout.Definitions) (h : Reached merged b) :
      Reached merged (b.loadStructs defs).1
  | createPoller {merged : Bool} {b next : Bridge} {poller : PollerConfig} (h : Reached merged b)
      (hadded : b.createPoller poller = .ok next) : Reached merged next
  | register {merged : Bool} {b next : Bridge} {text : String} {v : Registered}
      (h : Reached merged b) (hadded : b.register text = .ok (next, v)) : Reached merged next
  | merge {merged : Bool} {b : Bridge} (h : Reached merged b) : Reached true b.merge.1
  | poll {merged : Bool} {b next : Bridge} {group : String} {samples : List Sample}
      (h : Reached merged b) (hpolled : b.poll group = .ok (next, samples)) : Reached merged next
  | write {merged : Bool} {b : Bridge} (id : ValueId) (value : Value) (h : Reached merged b) :
      Reached merged (b.write id value).1
  | start {merged : Bool} {b : Bridge} (hidle : b.running = false) (h : Reached merged b) :
      Reached true b.start
  | stop {merged : Bool} {b : Bridge} (h : Reached merged b) : Reached merged b.stop

namespace Bridge

/-- Nothing has changed but the controller and what is kept of the samples. -/
structure Continues (next b : Bridge) : Prop where
  config : next.config = b.config
  registry : next.registry = b.registry
  published : next.published = b.published

variable {b next last : Bridge}

theorem Continues.trans (h : last.Continues next) (h' : next.Continues b) : last.Continues b :=
  ⟨h.config.trans h'.config, h.registry.trans h'.registry, h.published.trans h'.published⟩

theorem continues_foldl {α : Type} {step : Bridge → α → Bridge}
    (h : ∀ b x, (step b x).Continues b) (xs : List α) (b : Bridge) :
    (xs.foldl step b).Continues b := by
  induction xs generalizing b with
  | nil => exact ⟨rfl, rfl, rfl⟩
  | cons x rest ih => exact (ih (step b x)).trans (h b x)

theorem continues_pollPublished (b : Bridge) (snapshot : Snapshot) (group : String)
    (spread : Bool) : (b.pollPublished snapshot group spread).1.Continues b :=
  ⟨config_pollPublished b snapshot group spread, registry_pollPublished b snapshot group spread,
    foldl_keep_eq Bridge.published (fun _ _ => rfl) _ _⟩

theorem continues_pollAll (b : Bridge) (snapshot : Snapshot) :
    (b.pollAll snapshot).Continues b := by
  have hstep : ∀ (b : Bridge) (poller : PollerConfig),
      (b.pollPublished snapshot poller.name poller.spread).1.Continues b :=
    fun b poller => continues_pollPublished b snapshot poller.name poller.spread
  exact (continues_foldl hstep b.pollers _).trans
    (continues_pollPublished b snapshot initPoller false)

theorem continues_write (b : Bridge) (id : ValueId) (value : Value) :
    (b.write id value).1.Continues b :=
  ⟨part_write Bridge.config (fun _ _ => rfl) b id value,
    part_write Bridge.registry (fun _ _ => rfl) b id value,
    part_write Bridge.published (fun _ _ => rfl) b id value⟩

/-- **What holds of a reached bridge**: its registry is reached, and once a pass has published the
values, pollers see all of them. -/
structure Sound (merged : Bool) (b : Bridge) : Prop where
  registry : ∃ parsed passes, Registry.Reached b.config.route parsed passes b.registry b.plc
  published : merged = true → b.published = some b.registry.snapshot ∧ b.registry.optimised = true
  unpublished : merged = false → b.published = none ∧ b.registry.optimised = false

variable {merged : Bool}

theorem Sound.continues (h : b.Sound merged) (hnext : next.Continues b) : next.Sound merged := by
  obtain ⟨parsed, passes, hreached⟩ := h.registry
  refine ⟨⟨parsed, passes, ?_⟩, fun hmerged => ?_, fun hmerged => ?_⟩
  · rw [hnext.config, hnext.registry]
    exact hreached.outside next.plc
  · rw [hnext.published, hnext.registry]
    exact h.published hmerged
  · rw [hnext.published, hnext.registry]
    exact h.unpublished hmerged

/-- The pollers of a registry and its structures may change at any time. -/
theorem Sound.scope (h : b.Sound merged) (pollers : List String) (structs : Layout.Table)
    (configs : List PollerConfig) :
    Sound merged { b with
      registry := { b.registry with pollers := pollers, structs := structs }
      pollers := configs } := by
  obtain ⟨parsed, passes, hreached⟩ := h.registry
  exact ⟨⟨parsed, passes, hreached.scope pollers structs⟩, h.published, h.unpublished⟩

theorem exists_addPoller (r : Registry) (name : String) :
    ∃ pollers, (r.addPoller name).1 = { r with pollers := pollers } := by
  unfold Registry.addPoller
  split
  · exact ⟨r.pollers, rfl⟩
  · exact ⟨_, rfl⟩

theorem exists_foldl_addPoller (configs : List PollerConfig) (r : Registry) :
    ∃ pollers, configs.foldl (fun r poller => (r.addPoller poller.name).1) r =
      { r with pollers := pollers } := by
  induction configs generalizing r with
  | nil => exact ⟨r.pollers, rfl⟩
  | cons config rest ih =>
    obtain ⟨pollers, hfirst⟩ := exists_addPoller r config.name
    obtain ⟨all, hall⟩ := ih (r.addPoller config.name).1
    rw [List.foldl_cons, hall, hfirst]
    exact ⟨all, rfl⟩

/-- A configuration starts with an empty registry. -/
theorem exists_ofConfig {ids : ValueId.Supply} {config : Config} {plc : Plc}
    (h : ofConfig ids config plc = .ok b) : ∃ pollers, b =
      { config := config
        plc := plc
        registry := { ids := ids, pollers := pollers }
        pollers := config.pollers } := by
  obtain ⟨_, -, rfl⟩ := map_eq_ok_iff.mp h
  obtain ⟨pollers, hpollers⟩ := exists_foldl_addPoller config.pollers { ids := ids }
  exact ⟨pollers, by rw [hpollers]⟩

theorem sound_ofConfig {ids : ValueId.Supply} {config : Config} {plc : Plc}
    (h : ofConfig ids config plc = .ok b) : b.Sound false := by
  obtain ⟨pollers, rfl⟩ := exists_ofConfig h
  exact ⟨⟨[], 0, (Registry.Reached.start ids plc).scope pollers .empty⟩,
    (fun hmerged => nomatch hmerged), fun _ => ⟨rfl, rfl⟩⟩

theorem Sound.createPoller (h : b.Sound merged) {poller : PollerConfig}
    (hadded : b.createPoller poller = .ok next) : next.Sound merged := by
  rw [createPoller_eq_ok hadded]
  exact h.scope _ b.registry.structs _

/-- A value that is registered after a pass is published at once. -/
theorem Sound.register (h : b.Sound merged) {text : String} {v : Registered}
    (hadded : b.register text = .ok (next, v)) : next.Sound merged := by
  obtain ⟨parsed, passes, hreached⟩ := h.registry
  obtain ⟨registry, plc, hregister, rfl⟩ := added_eq_ok hadded
  obtain ⟨d, _, hparse, -, -, hregistry⟩ := register_eq_ok hregister
  have hnext := hreached.register hparse hregister
  have hoptimised : registry.optimised = b.registry.optimised := by
    rw [hregistry, Registry.optimised_append]
  unfold withAdded
  cases merged with
  | true =>
    have htrue := hoptimised.trans (h.published rfl).2
    dsimp only
    rw [if_pos htrue]
    exact ⟨⟨_, _, hnext⟩, fun _ => ⟨rfl, htrue⟩, (fun hmerged => nomatch hmerged)⟩
  | false =>
    obtain ⟨hpublished, hfalse⟩ := h.unpublished rfl
    dsimp only
    rw [if_neg (by rw [hoptimised, hfalse]; decide)]
    exact ⟨⟨_, _, hnext⟩, (fun hmerged => nomatch hmerged),
      fun _ => ⟨hpublished, hoptimised.trans hfalse⟩⟩

theorem Sound.merge (h : b.Sound merged) : b.merge.1.Sound true := by
  obtain ⟨parsed, passes, hreached⟩ := h.registry
  have hnext := hreached.merge MergePass.plc b.config.mergeThreshold
  rw [Registry.mergeAmid_plc] at hnext
  have hoptimised := hnext.optimised (Nat.succ_pos passes)
  unfold Bridge.merge
  revert hnext hoptimised
  generalize b.registry.merge b.plc b.config.route b.config.mergeThreshold = outcome
  intro hnext hoptimised
  exact ⟨⟨parsed, passes + 1, hnext⟩, fun _ => ⟨rfl, hoptimised⟩, (fun hmerged => nomatch hmerged)⟩

/-- The first polls of pollers that start. -/
theorem Sound.firstPolls (h : b.Sound true) :
    Sound true (match b.published with
      | some snapshot => if b.stopped then b else b.pollAll snapshot
      | none => b) := by
  rw [(h.published rfl).1]
  dsimp only
  split
  · exact h
  · exact h.continues (continues_pollAll b _)

/-- Starting the pollers runs a pass if there was none. -/
theorem Sound.start (h : b.Sound merged) (hidle : b.running = false) : b.start.Sound true := by
  have hmerged : Sound true { (if b.published.isNone then b.merge.1 else b) with
      running := true } := by
    cases merged with
    | false =>
      rw [(h.unpublished rfl).1]
      exact h.merge.continues ⟨rfl, rfl, rfl⟩
    | true =>
      rw [(h.published rfl).1]
      exact h.continues ⟨rfl, rfl, rfl⟩
  unfold Bridge.start
  rw [hidle, if_neg Bool.false_ne_true]
  exact hmerged.firstPolls

/-- **Reached bridges are sound.** -/
theorem Reached.sound (h : Reached merged b) : b.Sound merged := by
  induction h with
  | ofConfig h => exact sound_ofConfig h
  | outside memory refused _ ih => exact ih.continues ⟨rfl, rfl, rfl⟩
  | @loadStructs _ b defs _ ih => exact ih.scope b.registry.pollers _ b.pollers
  | createPoller _ hadded ih => exact ih.createPoller hadded
  | register _ hadded ih => exact ih.register hadded
  | merge _ ih => exact ih.merge
  | poll _ hpolled ih =>
    obtain ⟨snapshot, spread, -, -, rfl, -⟩ := poll_eq_ok hpolled
    exact ih.continues (continues_pollPublished _ _ _ _)
  | write id value _ ih => exact ih.continues (continues_write _ id value)
  | start hidle _ ih => exact ih.start hidle
  | stop _ ih => exact ih.continues ⟨rfl, rfl, rfl⟩

theorem Reached.numbered (h : Reached merged b) : b.registry.Numbered := by
  obtain ⟨_, _, hregistry⟩ := h.sound.registry
  exact hregistry.sound.numbered

end Bridge

/-! ## What a poll reads -/

theorem Plc.readCount_startRead (plc : Plc) (handle : Nat) (name : String) :
    (plc.startRead handle).1.readCount name =
      plc.readCount name + if (plc.tag? handle).map PlcTag.name = some name then 1 else 0 := by
  unfold startRead
  cases htag : plc.tag? handle with
  | none => rfl
  | some tag =>
    show (Keyed.find? name
      (Keyed.assign tag.name (plc.readCount tag.name + 1) plc.reads)).getD 0 = _
    rw [Keyed.find?_assign, Option.map_some]
    by_cases hname : name = tag.name
    · rw [if_pos hname, if_pos (congrArg some hname.symm), Option.getD_some, hname]
    · rw [if_neg hname, if_neg fun h => hname (Option.some.inj h).symm]
      rfl

/-- **Every read is counted** under the name of its tag. -/
theorem readCount_readAll (plc : Plc) (handles : List Nat) (name : String) :
    (readAll plc handles).readCount name = plc.readCount name +
      handles.countP fun handle => (plc.tag? handle).map PlcTag.name = some name := by
  induction handles generalizing plc with
  | nil => rfl
  | cons handle rest ih =>
    have hname : ∀ other, ((plc.startRead handle).1.tag? other).map PlcTag.name =
        (plc.tag? other).map PlcTag.name := by
      intro other
      rw [Plc.tag?_startRead, Option.map_map]
      congr 1
      funext tag
      show (if other = handle then plc.afterRead tag else tag).name = tag.name
      split
      · exact Plc.name_afterRead plc tag
      · rfl
    show (readAll (plc.startRead handle).1 rest).readCount name = _
    rw [ih, Plc.readCount_startRead, List.countP_cons]
    simp only [hname, decide_eq_true_eq]
    omega

section

variable {route : String} {parsed : List Descriptor} {r : Registry} {v : Registered}

/-- **Somebody of the poller reads the tag of a value**: the value itself, or a master. -/
theorem Registry.Sound.exists_reader (h : r.Sound route parsed) (hv : v ∈ r.values) :
    ∃ m ∈ r.values, m.poller = v.poller ∧ m.handle? = v.handle? ∧ m.readFlag = true := by
  obtain ⟨d, hd⟩ := h.exists_sound hv
  cases hstate : v.state with
  | optimised =>
    obtain ⟨m, hm, hreads⟩ := h.readers v hv hstate
    obtain ⟨dm, hdm⟩ := h.exists_sound hm
    have hmerged := hdm.merged (by rw [hreads.master]; rfl)
    exact ⟨m, hm, hreads.poller, hreads.handle, hmerged.2.trans (by rw [hreads.master]; rfl)⟩
  | master =>
    have hmerged := hd.merged (by rw [hstate]; rfl)
    exact ⟨v, hv, rfl, rfl, hmerged.2.trans (by rw [hstate]; rfl)⟩
  | _ => exact ⟨v, hv, rfl, rfl, (hd.unmerged (by rw [hstate]; rfl)).reads⟩

/-- **A poll of a group of a sound registry reads the tags of all its values.** Values that start no
reads rely on a master of their group. -/
theorem Registry.Sound.mem_readers (h : r.Sound route parsed) (group : String) (handle : Nat) :
    handle ∈ Poll.readers (r.snapshot.group group) ↔
      handle ∈ Registry.handles (r.snapshot.group group) := by
  unfold Poll.readers
  rw [List.mem_eraseDups]
  constructor
  · intro hmem
    obtain ⟨v, hv, hhandle⟩ := List.mem_filterMap.mp hmem
    exact List.mem_filterMap.mpr ⟨v, (List.mem_filter.mp hv).1, hhandle⟩
  · intro hmem
    obtain ⟨v, hv, hhandle⟩ := List.mem_filterMap.mp hmem
    obtain ⟨hvalue, hgroup⟩ := List.mem_filter.mp hv
    obtain ⟨m, hm, hpoller, hsame, hreads⟩ := h.exists_reader hvalue
    have hingroup : m ∈ r.snapshot.group group :=
      List.mem_filter.mpr ⟨hm, by rw [hpoller]; exact hgroup⟩
    exact List.mem_filterMap.mpr ⟨m, List.mem_filter.mpr ⟨hingroup, hreads⟩, hsame.trans hhandle⟩

end

/-! ## Fresh polls -/

/-- **A poll that is fresh**: it takes values on a controller to samples, and leaves another
controller. -/
structure FreshPoll (plc after : Plc) (values : List Registered) (options : PollOptions)
    (samples : List Sample) : Prop where
  /-- No tag is read twice. -/
  once : (readers values).Nodup
  /-- The tags that are read are those that the values refer to. -/
  tags : ∀ handle, handle ∈ readers values ↔ handle ∈ Registry.handles values
  /-- The controller is asked for these reads only. -/
  reads : after = readAll plc (readers values)
  /-- It counts one read for each of the tags, under its name. -/
  counts : ∀ name, after.readCount name = plc.readCount name +
    (readers values).countP fun handle => (plc.tag? handle).map PlcTag.name = some name
  /-- No other tag changes. -/
  others : ∀ handle, handle ∉ Registry.handles values → after.tag? handle = plc.tag? handle
  /-- All values are decoded when the reads are done. -/
  decoded : samples = values.map (sampleOf after options)
  /-- A good sample is decoded from a tag whose read in this poll has completed: its buffer is what
  that read has left. -/
  fresh : ∀ sample ∈ samples, sample.quality = .ok → ∃ v ∈ values, ∃ ref tag value,
    v.tag = some ref ∧ ref.handle ∈ readers values ∧ plc.tag? ref.handle = some tag ∧
      (plc.afterRead tag).status = .ok ∧
      decode ((plc.stored? tag.name).getD tag.buffer) v.descriptor
        ⟨v.state.sharesBuffer, options.zone⟩ = .ok value ∧
      sample = .success v.id value

/-- A read that has completed has left what is stored. -/
theorem Plc.buffer_afterRead {plc : Plc} {tag : PlcTag} (h : (plc.afterRead tag).status = .ok) :
    (plc.afterRead tag).buffer = (plc.stored? tag.name).getD tag.buffer := by
  unfold afterRead at h ⊢
  split at h
  · cases h
  · next htimeout =>
    split at h
    · cases h
    · next herror => rw [if_neg htimeout, if_neg herror]

theorem TransportError.quality_ne_ok (cause : TransportError) : cause.quality ≠ .ok := by
  cases cause <;> exact nofun

theorem Plc.await_eq_ok {plc : Plc} {handle timeoutMs : Nat}
    (h : plc.await handle .pending timeoutMs = .ok ()) :
    ∃ tag, plc.tag? handle = some tag ∧ tag.status = .ok := by
  cases htag : plc.tag? handle with
  | none => simp [Plc.await, Plc.status, htag] at h
  | some tag =>
    refine ⟨tag, rfl, ?_⟩
    simp only [Plc.await, Plc.status, htag] at h
    split at h
    · assumption
    · cases h
    · cases h

theorem reading_ok {options : PollOptions} {v : Registered} {stored : Buffer}
    (h : (reading options v stored).quality = .ok) : ∃ value,
      decode stored v.descriptor ⟨v.state.sharesBuffer, options.zone⟩ = .ok value ∧
      reading options v stored = .success v.id value := by
  unfold reading at h ⊢
  split
  · next value hdecode => exact ⟨value, hdecode, rfl⟩
  · next cause hdecode =>
    rw [hdecode] at h
    cases h

/-- **A good sample is decoded from the tag of its value**, whose last operation has completed. -/
theorem sampleOf_ok {plc : Plc} {options : PollOptions} {v : Registered}
    (h : (sampleOf plc options v).quality = .ok) : ∃ ref tag value, v.tag = some ref ∧
      plc.tag? ref.handle = some tag ∧ tag.status = .ok ∧
      decode tag.buffer v.descriptor ⟨v.state.sharesBuffer, options.zone⟩ = .ok value ∧
      sampleOf plc options v = .success v.id value := by
  unfold sampleOf at h ⊢
  cases href : v.tag with
  | none =>
    rw [href] at h
    cases h
  | some ref =>
    rw [href] at h
    dsimp only at h ⊢
    cases hawait : plc.await ref.handle .pending options.timeoutMs with
    | error cause =>
      rw [hawait] at h
      exact absurd h cause.quality_ne_ok
    | ok =>
      obtain ⟨tag, htag, hstatus⟩ := Plc.await_eq_ok hawait
      have hreading : decodeSample plc options v ref.handle = reading options v tag.buffer := by
        unfold decodeSample Plc.bufferOf
        rw [htag]
        rfl
      rw [hawait, hreading] at h
      rw [hreading]
      obtain ⟨value, hdecode, hsuccess⟩ := reading_ok h
      exact ⟨ref, tag, value, rfl, htag, hstatus, hdecode, hsuccess⟩

/-- A poll of a sound registry is fresh. -/
theorem Registry.Sound.freshPoll {route : String} {parsed : List Descriptor} {r : Registry}
    (h : r.Sound route parsed) (plc : Plc) (group : String) (options : PollOptions) :
    FreshPoll plc (Poll.run plc (r.snapshot.group group) options false).1
      (r.snapshot.group group) options (Poll.run plc (r.snapshot.group group) options false).2 := by
  have hmem := h.mem_readers group
  rw [Poll.run_eq_map]
  constructor
  case once => exact nodup_eraseDups _
  case tags => exact hmem
  case reads => rfl
  case counts => exact readCount_readAll plc _
  case others =>
    intro handle hother
    have hunread : handle ∉ Poll.readers (r.snapshot.group group) :=
      fun hread => hother ((hmem handle).mp hread)
    show (readAll plc (Poll.readers _)).tag? handle = _
    rw [tag?_readAll]
    cases plc.tag? handle with
    | none => rfl
    | some tag => exact congrArg some (if_neg hunread)
  case decoded => rfl
  case fresh =>
    intro sample hsample hok
    obtain ⟨v, hv, rfl⟩ := List.mem_map.mp hsample
    obtain ⟨ref, read, value, href, hread, hstatus, hdecode, heq⟩ := sampleOf_ok hok
    have hhandle : ref.handle ∈ Poll.readers (r.snapshot.group group) := (hmem _).mpr
      (List.mem_filterMap.mpr ⟨v, hv, congrArg (Option.map TagRef.handle) href⟩)
    have hlive : (readAll plc (Poll.readers (r.snapshot.group group))).tag? ref.handle =
        some read := hread
    rw [tag?_readAll, Option.map_eq_some_iff] at hlive
    obtain ⟨tag, htag, hafter⟩ := hlive
    rw [if_pos hhandle] at hafter
    subst hafter
    rw [Plc.buffer_afterRead hstatus] at hdecode
    exact ⟨v, hv, ref, tag, value, href, hhandle, htag, hstatus, hdecode, heq⟩

def pumpConfig : Config where
  schemaVersion := 1
  gateway := "10.0.0.1"
  path := "1,0"

/-- A bridge with one more value, whose tag is a new one. -/
def watched (b : Bridge) (d : Descriptor) : Bridge :=
  let after := enrolled (b.registry, b.plc) d
  { b with registry := after.1, plc := after.2 }.keep (Bridge.firstSample
    (b.registry.newValue pumpRoute d (.ok ⟨b.plc.created + 1, d.connection pumpRoute⟩)))

theorem Bridge.Reached.watched {merged : Bool} {b : Bridge} {d : Descriptor} {text : String}
    (h : Reached merged b) (hroute : b.config.route = pumpRoute)
    (hfirst : b.registry.optimised = false)
    (hparse : Descriptor.parse b.registry.scope text = .ok d)
    (hnew : Registry.tagAmong? b.registry.values (d.connection pumpRoute) = none)
    (hadmits : b.plc.admits (tagNameOf (d.connection pumpRoute)) = true) :
    Reached merged (watched b d) := by
  have hsame : (enrolled (b.registry, b.plc) d).1.optimised = false := hfirst
  have hadded : b.register text = .ok (PlcTags.watched b d, b.registry.newValue pumpRoute d
      (.ok ⟨b.plc.created + 1, d.connection pumpRoute⟩)) := by
    unfold Bridge.register
    rw [hroute, register_enrolled (b.registry, b.plc) hparse hnew hadmits]
    simp only [Except.map, hsame, Bool.false_eq_true, if_false]
    rfl
  exact h.register hadded

def idleBridge : Bridge where
  config := pumpConfig
  plc := {}
  registry := { ids := .counting }
  pollers := []

def pumpMemory : List (String × Buffer) :=
  [("Pump", [10, 0, 20, 0]), ("Level", [7, 0, 0, 0])]

/-- The values of the pump, merged, and what the controller stores for them afterwards. -/
def pumpBridge : Bridge :=
  let merged := ([pumpSpeed, pumpLoad, sumpLevel].foldl watched idleBridge).merge.1
  { merged with plc := { merged.plc with memory := pumpMemory, refused := [] } }

/-- The values of the pump before they are merged. -/
theorem reached_watchedPump :
    Bridge.Reached false ([pumpSpeed, pumpLoad, sumpLevel].foldl watched idleBridge) := by
  have hidle : Bridge.ofConfig .counting pumpConfig {} = .ok idleBridge := rfl
  have hspeed := (Bridge.Reached.ofConfig hidle).watched (by decide +kernel) rfl parse_pumpSpeed
    (by decide +kernel) (by decide +kernel)
  have hload := hspeed.watched (by decide +kernel) rfl parse_pumpLoad (by decide +kernel)
    (by decide +kernel)
  exact hload.watched (by decide +kernel) rfl parse_sumpLevel (by decide +kernel)
    (by decide +kernel)

theorem reached_pumpBridge : Bridge.Reached true pumpBridge := by
  have hmerged : Bridge.Reached true
      ([pumpSpeed, pumpLoad, sumpLevel].foldl watched idleBridge).merge.1 :=
    reached_watchedPump.merge
  exact hmerged.outside pumpMemory []

end PlcTags

import PlcTags.Proofs.Bridge.Readings

/-!
# Values are polled independently

The values of a group that use one tag, or have none, have the samples that they would have if they
were polled without the others. Nothing that happens to another tag shows in them: whether it lives,
completes, answers with an error or holds octets that cannot be decoded.

* `Poll.sampleOf_congr`: a sample depends on the tag of its value.
* `Poll.mem_readers_users`: whether a tag is read depends on the values that use it.
* `IndependentPoll`: what a poll does; `poll_independent`: every poll that is not stopped does it.
-/

namespace PlcTags

namespace Poll

variable {plc next : Plc} {values : List Registered} {v : Registered} {options : PollOptions}

/-- The values of a group that use a tag, or those that have none. -/
def users (handle : Option Nat) (values : List Registered) : List Registered :=
  values.filter fun v => v.handle? = handle

/-- **A sample depends on the tag of its value** and on no other. -/
theorem sampleOf_congr (h : ∀ handle, v.handle? = some handle →
    next.tag? handle = plc.tag? handle) : sampleOf next options v = sampleOf plc options v := by
  unfold sampleOf
  cases htag : v.tag with
  | none => rfl
  | some ref =>
    dsimp only
    have hsame := h ref.handle (congrArg (Option.map TagRef.handle) htag)
    have hstatus : next.status ref.handle = plc.status ref.handle := by
      unfold Plc.status
      rw [hsame]
    have hbuffer : next.bufferOf ref.handle = plc.bufferOf ref.handle := by
      unfold Plc.bufferOf
      rw [hsame]
    unfold decodeSample Plc.await
    rw [hstatus, hbuffer]

theorem mem_readers_iff {handle : Nat} : handle ∈ readers values ↔
    ∃ v ∈ values, v.readFlag = true ∧ v.handle? = some handle := by
  unfold readers Registry.handles
  rw [List.mem_eraseDups, List.mem_filterMap]
  constructor
  · rintro ⟨v, hv, hhandle⟩
    obtain ⟨hmem, hreads⟩ := List.mem_filter.mp hv
    exact ⟨v, hmem, hreads, hhandle⟩
  · rintro ⟨v, hmem, hreads, hhandle⟩
    exact ⟨v, List.mem_filter.mpr ⟨hmem, hreads⟩, hhandle⟩

/-- **Whether a tag is read depends on the values that use it.** -/
theorem mem_readers_users {handle : Nat} :
    handle ∈ readers (users (some handle) values) ↔ handle ∈ readers values := by
  rw [mem_readers_iff, mem_readers_iff]
  constructor
  · rintro ⟨v, hv, hreader⟩
    exact ⟨v, (List.mem_filter.mp hv).1, hreader⟩
  · rintro ⟨v, hv, hreader⟩
    exact ⟨v, List.mem_filter.mpr ⟨hv, decide_eq_true hreader.2⟩, hreader⟩

/-- After the reads of a poll, a tag is as after the reads of a poll of its users alone. -/
theorem tag?_readAll_users (plc : Plc) (values : List Registered) (handle : Nat) :
    (readAll plc (readers (users (some handle) values))).tag? handle =
      (readAll plc (readers values)).tag? handle := by
  rw [tag?_readAll, tag?_readAll]
  simp only [mem_readers_users]

/-- **The samples of the users of a tag** are those of a poll of these values alone. -/
theorem map_sampleOf_users (plc : Plc) (values : List Registered) (options : PollOptions)
    (handle : Option Nat) :
    (users handle values).map (sampleOf (readAll plc (readers (users handle values))) options) =
      (users handle values).map (sampleOf (readAll plc (readers values)) options) := by
  refine List.map_congr_left fun v hv => sampleOf_congr fun own hown => ?_
  have hhandle : v.handle? = handle := of_decide_eq_true (List.mem_filter.mp hv).2
  rw [← hhandle, hown]
  exact tag?_readAll_users plc values own

end Poll

/-- The outcomes of some elements among the outcomes of all. -/
theorem map_snd_filter_zip {α β : Type} (f : α → β) (p : α → Bool) (xs : List α) :
    ((xs.zip (xs.map f)).filter fun entry => p entry.1).map Prod.snd = (xs.filter p).map f := by
  induction xs with
  | nil => rfl
  | cons x rest ih =>
    rw [List.map_cons, List.zip_cons_cons, List.filter_cons, List.filter_cons]
    dsimp only
    split_ifs
    · rw [List.map_cons, List.map_cons, ih]
    · exact ih

/-- How many samples of a quality were counted. -/
def PollStats.count (stats : PollStats) : Quality → Nat
  | .ok => stats.ok
  | .timeout => stats.timeout
  | .commError => stats.commError
  | .decodeError => stats.decodeError
  | .configError => stats.configError

/-- Every sample is counted under its quality. -/
theorem PollStats.count_ofSamples (samples : List Sample) (quality : Quality) :
    (ofSamples samples).count quality =
      samples.countP fun sample => sample.quality = quality := by
  cases quality <;> rfl

/-- No sample is counted twice, and none is left out. -/
theorem PollStats.total_ofSamples (samples : List Sample) :
    (ofSamples samples).ok + (ofSamples samples).timeout + (ofSamples samples).commError +
      (ofSamples samples).decodeError + (ofSamples samples).configError = samples.length := by
  induction samples with
  | nil => rfl
  | cons sample rest ih =>
    unfold ofSamples at ih ⊢
    simp only [List.countP_cons, List.length_cons, decide_eq_true_eq] at ih ⊢
    cases sample.quality <;> simp <;> omega

/-- **A poll that treats values independently**: what it tells of values, and how it counts it. -/
structure IndependentPoll (plc : Plc) (values : List Registered) (options : PollOptions)
    (samples : List Sample) (stats : PollStats) : Prop where
  /-- There is one sample of each value, in their order. -/
  inOrder : samples.map Sample.id = values.map Registered.id
  /-- The values that use a tag, or have none, have the samples of a poll of these values alone. -/
  alone : ∀ handle : Option Nat,
    ((values.zip samples).filter fun entry => entry.1.handle? = handle).map Prod.snd =
      (Poll.run plc (Poll.users handle values) options false).2
  /-- Every sample is counted under its quality, and under no other. -/
  classes : ∀ quality, stats.count quality =
    samples.countP fun sample => sample.quality = quality
  counted : stats.ok + stats.timeout + stats.commError + stats.decodeError + stats.configError =
    stats.total
  total : stats.total = values.length

/-- **Values are polled independently**: in a poll of any group of any snapshot that is not stopped,
on any controller, with any number of other values, whatever becomes of them. -/
theorem poll_independent (plc : Plc) (snapshot : Snapshot) (group : String)
    (options : PollOptions) : IndependentPoll plc (snapshot.group group) options
      (Poll.run plc (snapshot.group group) options false).2
      (PollStats.ofSamples (Poll.run plc (snapshot.group group) options false).2) := by
  generalize snapshot.group group = values
  have hsamples : ∀ values, (Poll.run plc values options false).2 =
      values.map (Poll.sampleOf (Poll.readAll plc (Poll.readers values)) options) := by
    intro values
    rw [Poll.run_eq_map]
    rfl
  constructor
  case inOrder =>
    rw [hsamples, List.map_map]
    exact List.map_congr_left fun v _ => Poll.id_sampleOf _ _ v
  case alone =>
    intro handle
    rw [hsamples, hsamples, Poll.map_sampleOf_users]
    exact map_snd_filter_zip _ (fun v => v.handle? = handle) values
  case classes => exact PollStats.count_ofSamples _
  case counted => exact PollStats.total_ofSamples _
  case total =>
    rw [hsamples]
    exact List.length_map _

end PlcTags

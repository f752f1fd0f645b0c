import PlcTags.Proofs.Bridge.Polls
import PlcTags.Proofs.Registry.Enrolled

/-!
# What polls read

When reading the tag of every value gives what the controller stores under its name, polls tell the
memory of the controller: a sample depends on the value and on what is stored, not on the polls
before (`sweep_eq`).

* `reading`: the sample of a value whose tag holds given octets.
* `Readable`: every value has such a tag, and somebody of its group reads it.
* `sweep`: the samples of polls that follow each other.
-/

namespace PlcTags

open Poll

/-! ## Reads -/

@[simp] theorem memory_readAll (plc : Plc) (handles : List Nat) :
    (readAll plc handles).memory = plc.memory := by
  unfold readAll
  induction handles generalizing plc with
  | nil => rfl
  | cons handle rest ih => rw [List.foldl_cons, ih, Plc.memory_startRead]

/-- **All reads**: the tags that are read hold the answer, the others what they held. -/
theorem tag?_readAll (plc : Plc) (handles : List Nat) (handle : Nat) :
    (readAll plc handles).tag? handle = (plc.tag? handle).map fun tag =>
      if handle ∈ handles then plc.afterRead tag else tag := by
  induction handles generalizing plc with
  | nil =>
    show plc.tag? handle = _
    cases plc.tag? handle <;> simp
  | cons first rest ih =>
    have hmemory := Plc.memory_startRead plc first
    show (readAll (plc.startRead first).1 rest).tag? handle = _
    rw [ih, Plc.tag?_startRead, Option.map_map]
    congr 1
    funext tag
    show (if handle ∈ rest then
        (plc.startRead first).1.afterRead (if handle = first then plc.afterRead tag else tag)
      else if handle = first then plc.afterRead tag else tag) = _
    rw [Plc.afterRead_congr hmemory]
    by_cases hfirst : handle = first
    · by_cases hrest : handle ∈ rest
      · rw [if_pos hrest, if_pos hfirst, if_pos (List.mem_cons_of_mem _ hrest),
          Plc.afterRead_afterRead]
      · rw [if_neg hrest, if_pos hfirst, if_pos (List.mem_cons.mpr (Or.inl hfirst))]
    · by_cases hrest : handle ∈ rest
      · rw [if_pos hrest, if_neg hfirst, if_pos (List.mem_cons_of_mem _ hrest)]
      · rw [if_neg hrest, if_neg hfirst, if_neg fun h => (List.mem_cons.mp h).elim hfirst hrest]

theorem Plc.Backs.readAll {plc : Plc} {ref : TagRef} (h : plc.Backs ref) (handles : List Nat) :
    (Poll.readAll plc handles).Backs ref := by
  obtain ⟨tag, htag, hname⟩ := h
  refine ⟨_, by rw [tag?_readAll, htag]; rfl, ?_⟩
  show (if _ then _ else _ : PlcTag).name = _
  split
  · rw [Plc.name_afterRead, hname]
  · exact hname

theorem mem_readers {values : List Registered} {v : Registered} {ref : TagRef} (hv : v ∈ values)
    (hreads : v.readFlag = true) (href : v.tag = some ref) : ref.handle ∈ readers values := by
  unfold readers
  rw [List.mem_eraseDups]
  exact List.mem_filterMap.mpr
    ⟨v, List.mem_filter.mpr ⟨hv, hreads⟩, congrArg (Option.map TagRef.handle) href⟩

/-! ## Samples -/

/-- **The sample of a value** whose tag holds some octets. -/
def reading (options : PollOptions) (v : Registered) (stored : Buffer) : Sample :=
  match decode stored v.descriptor ⟨v.state.sharesBuffer, options.zone⟩ with
  | .ok value => .success v.id value
  | .error cause => .failure v.id .decodeError cause.message

/-- What the controller stores under the name of the tag that a value is read from. -/
def Plc.storedFor (plc : Plc) (v : Registered) : Buffer :=
  (v.tag.bind fun ref => plc.stored? (tagNameOf ref.connection)).getD []

/-- **All values can be read**: each has a live tag under a name that answers, and a value of its
group starts the reads of that tag. -/
def Readable (plc : Plc) (values : List Registered) : Prop :=
  ∀ v ∈ values, ∃ ref stored, v.tag = some ref ∧ plc.Backs ref ∧
    plc.Answers (tagNameOf ref.connection) stored ∧
    ∃ reader ∈ values, reader.poller = v.poller ∧ reader.readFlag = true ∧ reader.tag = some ref

variable {plc : Plc} {values : List Registered}

theorem Readable.readAll (h : Readable plc values) (handles : List Nat) :
    Readable (Poll.readAll plc handles) values := by
  intro v hv
  obtain ⟨ref, stored, href, hbacks, hanswers, hreader⟩ := h v hv
  refine ⟨ref, stored, href, hbacks.readAll handles, ⟨?_, hanswers.completes, hanswers.wellFormed⟩,
    hreader⟩
  unfold Plc.stored?
  rw [memory_readAll]
  exact hanswers.memory

/-- A value whose tag was read tells what is stored. -/
theorem sampleOf_readAll {v : Registered} {ref : TagRef} {stored : Buffer} {handles : List Nat}
    (options : PollOptions) (href : v.tag = some ref) (hbacks : plc.Backs ref)
    (hanswers : plc.Answers (tagNameOf ref.connection) stored) (hread : ref.handle ∈ handles) :
    sampleOf (readAll plc handles) options v = reading options v stored := by
  obtain ⟨tag, htag, hname⟩ := hbacks
  have hafter : (readAll plc handles).tag? ref.handle = some ⟨tag.name, .ok, stored⟩ := by
    rw [tag?_readAll, htag, Option.map_some, if_pos hread,
      Plc.Answers.afterRead (hname.symm ▸ hanswers)]
  have hawait : (readAll plc handles).await ref.handle .pending options.timeoutMs = .ok () := by
    simp [Plc.await, Plc.status, hafter]
  unfold sampleOf
  rw [href]
  simp only [hawait]
  unfold decodeSample Plc.bufferOf
  rw [hafter]
  rfl

/-- **One poll** of a group tells what is stored for its values. -/
theorem run_eq (h : Readable plc values) (poller : String) (options : PollOptions) :
    Poll.run plc ((Snapshot.mk values).group poller) options false =
      (readAll plc (readers ((Snapshot.mk values).group poller)),
        ((Snapshot.mk values).group poller).map fun v =>
          reading options v (plc.storedFor v)) := by
  rw [run_eq_map]
  refine Prod.ext rfl (List.map_congr_left fun v hv => ?_)
  obtain ⟨hmem, hpoller⟩ := List.mem_filter.mp hv
  obtain ⟨ref, stored, href, hbacks, hanswers, reader, hreader, hgroup, hreads, htag⟩ := h v hmem
  have hread : reader ∈ (Snapshot.mk values).group poller :=
    List.mem_filter.mpr ⟨hreader, by rw [hgroup]; exact hpoller⟩
  have hstored : plc.storedFor v = stored := by
    unfold Plc.storedFor
    rw [href, Option.bind_some, hanswers.memory, Option.getD_some]
  rw [hstored]
  exact sampleOf_readAll options href hbacks hanswers (mem_readers hread hreads htag)

/-! ## Polls that follow each other -/

/-- The samples of polls, each of a group with its options, none of them stopped. -/
def sweep (snapshot : Snapshot) : Plc → List (String × PollOptions) → List (List Sample)
  | _, [] => []
  | plc, (group, options) :: rest =>
    let (after, samples) := Poll.run plc (snapshot.group group) options false
    samples :: sweep snapshot after rest

/-- **Polls tell what is stored**, however many came before. -/
theorem sweep_eq (h : Readable plc values) (polls : List (String × PollOptions)) :
    sweep ⟨values⟩ plc polls = polls.map fun poll =>
      ((Snapshot.mk values).group poll.1).map fun v => reading poll.2 v (plc.storedFor v) := by
  induction polls generalizing plc with
  | nil => rfl
  | cons poll rest ih =>
    have hstored : ∀ handles v, (readAll plc handles).storedFor v = plc.storedFor v := by
      intro handles v
      unfold Plc.storedFor Plc.stored?
      rw [memory_readAll]
    rw [sweep, run_eq h, List.map_cons]
    show _ :: sweep _ (readAll _ _) _ = _
    rw [ih (h.readAll _)]
    simp only [hstored]

end PlcTags

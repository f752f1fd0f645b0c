import PlcTags.Bridge.Poll
import PlcTags.Proofs.Transport.Tags

/-!
# What a poll comes to

A poll remembers the reads that it has seen to complete. While it collects its samples nothing
changes on the controller, so what it remembers of a read is what it would see if it looked again:
every value has the sample that it would have alone (`Poll.run_eq_map`).

* `Poll.readAll`: the controller when all reads were started.
* `Poll.sampleOf`: the sample of a value then.
* `Poll.Agrees`: what is remembered of the reads agrees with the controller.
-/

namespace PlcTags.Poll

/-- The controller after the reads of tags. -/
def readAll (plc : Plc) (handles : List Nat) : Plc :=
  handles.foldl (fun plc handle => (plc.startRead handle).1) plc

/-- The outcome of a value when all reads are done. -/
def sampleOf (plc : Plc) (options : PollOptions) (v : Registered) : Sample :=
  match v.tag with
  | none => .failure v.id .commError (v.creationError.getD .noTag).message
  | some tag =>
    match plc.await tag.handle .pending options.timeoutMs with
    | .ok () => decodeSample plc options v tag.handle
    | .error cause => .failure v.id cause.quality cause.message

@[simp] theorem id_sampleOf (plc : Plc) (options : PollOptions) (v : Registered) :
    (sampleOf plc options v).id = v.id := by
  unfold sampleOf
  split
  · rfl
  · split
    · unfold decodeSample
      dsimp only
      split <;> rfl
    · rfl

/-- **What was seen of the reads agrees with the controller**: a read that was seen to complete has
completed, with the outcome that was seen. -/
def Agrees (plc : Plc) (seen : Completions) : Prop :=
  ∀ handle outcome, Keyed.find? handle seen = some outcome → match plc.status handle with
    | .ok => outcome = .ok ()
    | .failed code => outcome = .error (.status handle code)
    | .pending => False

variable {plc : Plc} {seen : Completions} {handle : Nat}

/-! ## Starting reads -/

/-- Failures that come at once are those of tags that do not live. -/
def Dead (plc : Plc) (seen : Completions) : Prop :=
  ∀ handle outcome, Keyed.find? handle seen = some outcome → plc.tag? handle = none ∧
    outcome = .error (.status handle TagFault.nullHandle.code)

theorem fst_issue (plc : Plc) (seen : Completions) (handle : Nat) :
    (issue plc seen handle).1 = (plc.startRead handle).1 := by
  unfold issue
  split <;> next heq => rw [heq]

theorem Dead.issue (h : Dead plc seen) (handle : Nat) :
    Dead (issue plc seen handle).1 (issue plc seen handle).2 := by
  have hgone : ∀ other, plc.tag? other = none → (plc.startRead handle).1.tag? other = none := by
    intro other hother
    rw [Plc.tag?_startRead, hother, Option.map_none]
  cases htag : plc.tag? handle with
  | none =>
    have hissue : Poll.issue plc seen handle =
        (plc, Keyed.assign handle (.error (.status handle TagFault.nullHandle.code)) seen) := by
      unfold Poll.issue Plc.startRead
      rw [htag]
    intro other outcome hfind
    rw [hissue] at hfind ⊢
    dsimp only at hfind ⊢
    rw [Keyed.find?_assign] at hfind
    split_ifs at hfind with heq
    · subst heq
      exact ⟨htag, (Option.some.inj hfind).symm⟩
    · exact h other outcome hfind
  | some tag =>
    have hissue : (Poll.issue plc seen handle).2 = seen := by
      unfold Poll.issue Plc.startRead
      rw [htag]
    intro other outcome hfind
    rw [hissue] at hfind
    rw [fst_issue]
    obtain ⟨hnone, houtcome⟩ := h other outcome hfind
    exact ⟨hgone other hnone, houtcome⟩

/-- All reads: induction on those that are left. -/
theorem issueAll_spec (plc : Plc) (handles : List Nat) :
    (issueAll plc handles).1 = readAll plc handles ∧
      Dead (issueAll plc handles).1 (issueAll plc handles).2 := by
  have hfold : ∀ (handles : List Nat) (state : Plc × Completions), Dead state.1 state.2 →
      (handles.foldl (fun state handle => issue state.1 state.2 handle) state).1 =
          readAll state.1 handles ∧
        Dead (handles.foldl (fun state handle => issue state.1 state.2 handle) state).1
          (handles.foldl (fun state handle => issue state.1 state.2 handle) state).2 := by
    intro handles
    induction handles with
    | nil => exact fun state h => ⟨rfl, h⟩
    | cons handle rest ih =>
      intro state h
      obtain ⟨hread, hdead⟩ := ih _ (h.issue handle)
      rw [fst_issue] at hread
      exact ⟨hread, hdead⟩
  exact hfold handles (plc, []) nofun

theorem Dead.agrees (h : Dead plc seen) : Agrees plc seen := by
  intro handle outcome hfind
  obtain ⟨hnone, houtcome⟩ := h handle outcome hfind
  unfold Plc.status
  rw [hnone]
  exact houtcome

/-! ## Collecting samples -/

/-- Looking at one more read. -/
theorem Agrees.observe (h : Agrees plc seen) (handle : Nat) :
    Agrees plc (observe plc seen handle) := by
  have hadd : ∀ outcome, (match plc.status handle with
      | .ok => outcome = .ok ()
      | .failed code => outcome = .error (.status handle code)
      | .pending => False) → Agrees plc (Keyed.assign handle outcome seen) := by
    intro outcome houtcome other found hfind
    rw [Keyed.find?_assign] at hfind
    split_ifs at hfind with heq
    · subst heq
      cases hfind
      exact houtcome
    · exact h other found hfind
  unfold Poll.observe
  split
  · exact h
  · split
    · next hstatus => exact hadd _ (by rw [hstatus])
    · next code hstatus => exact hadd _ (by rw [hstatus])
    · exact h

/-- **What is known of a read after looking at it** is what the controller says. -/
theorem Agrees.find?_observe (h : Agrees plc seen) (handle : Nat) :
    Keyed.find? handle (Poll.observe plc seen handle) = match plc.status handle with
      | .ok => some (.ok ())
      | .failed code => some (.error (.status handle code))
      | .pending => none := by
  unfold Poll.observe
  cases hfind : Keyed.find? handle seen with
  | some outcome =>
    have hagrees := h handle outcome hfind
    dsimp only
    rw [hfind]
    split at hagrees
    · rw [hagrees]
    · rw [hagrees]
    · exact hagrees.elim
  | none =>
    cases plc.status handle with
    | ok => exact (Keyed.find?_assign _ _ _ _).trans (if_pos rfl)
    | failed code => exact (Keyed.find?_assign _ _ _ _).trans (if_pos rfl)
    | pending => exact hfind

/-- **Collecting samples** gives every value the sample that it has alone. -/
theorem Agrees.collect_eq (h : Agrees plc seen) (options : PollOptions)
    (values : List Registered) :
    collect plc options seen values = values.map (sampleOf plc options) := by
  induction values generalizing seen with
  | nil => rfl
  | cons v rest ih =>
    rw [List.map_cons, collect, sampleOf]
    cases v.tag with
    | none => exact congrArg _ (ih h)
    | some tag =>
      dsimp only
      rw [ih (h.observe tag.handle), h.find?_observe]
      unfold Plc.await
      cases plc.status tag.handle <;> rfl

/-- **A poll** starts the reads, and then gives every value its sample. -/
theorem run_eq_map (plc : Plc) (values : List Registered) (options : PollOptions)
    (stopped : Bool) : run plc values options stopped =
      (readAll plc (started values options stopped), if stopped then []
        else values.map (sampleOf (readAll plc (started values options stopped)) options)) := by
  obtain ⟨hread, hdead⟩ := issueAll_spec plc (started values options stopped)
  have hcollect := hdead.agrees.collect_eq options values
  rw [← hread, ← hcollect]
  rfl

end PlcTags.Poll

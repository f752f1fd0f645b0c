import PlcTags.Proofs.Transport.Live
import PlcTags.Transport.Slots

/-!
# References to tags

The slots that hold a tag are the references to it. What one request does to the tags that live and
to the slots that hold them.

* `Slots.Ends`: the request destroys a tag by its handle, or takes the last reference to it.
* `Slots.Refilled`: slots hold other tags, and those are destroyed whose last reference has gone.
  `Slots.Placed.put`, `Slots.Placed.drop`: so it is when a tag is put into a slot or dropped.
* `Slots.Owned`: every live tag stands in a slot, and slots hold handles that were given.
* `Slots.Owned.served`: **what a request does**. Those tags live afterwards that lived before and that
  it does not end, and the one that it creates.
-/

namespace PlcTags

namespace Plc

variable {plc : Plc} {handle : Nat}

theorem mem_live_destroy (plc : Plc) (handle other : Nat) :
    other ∈ (plc.destroy handle).live ↔ other ∈ plc.live ∧ other ≠ handle := by
  rw [mem_live_iff, mem_live_iff, tag?_destroy]
  by_cases heq : other = handle <;> simp [heq]

theorem sameTags_changed {outcome : Except TagFault Plc}
    (h : ∀ next, outcome = .ok next → next.SameTags plc) :
    (plc.changed outcome).1.SameTags plc := by
  cases outcome with
  | ok next => exact h next rfl
  | error fault => exact .refl plc

theorem sameTags_edit (plc : Plc) (handle : Nat) (edit : Buffer → Except TagFault Buffer) :
    (plc.changed (plc.edit? handle edit)).1.SameTags plc := by
  refine sameTags_changed fun next hnext => ?_
  obtain ⟨buffer, -, rfl⟩ := map_eq_ok_iff.mp hnext
  exact sameTags_setBuffer plc handle buffer

/-- An access leaves the tags that live. -/
theorem sameTags_access (plc : Plc) (handle : Nat) (access : Access) :
    (plc.access handle access).1.SameTags plc := by
  cases access with
  | size | bit | scalar | octets | string => exact .refl plc
  | setBit | setScalar | setOctets => exact sameTags_edit plc handle _
  | setString offset value =>
    refine sameTags_changed fun next hnext => ?_
    unfold setString? at hnext
    split at hnext
    · cases hnext
    · obtain ⟨buffer, -, hnext⟩ := bind_eq_ok_iff.mp hnext
      obtain ⟨written, -, hnext⟩ := bind_eq_ok_iff.mp hnext
      cases hnext
      exact sameTags_setBuffer plc handle written

end Plc

namespace Slots

variable {s : Slots} {slot : String} {ref : TagRef} {handle : Nat}
  {entries : List (String × TagRef)} {new? : Option TagRef}

/-! ## Slots that hold a tag -/

theorem holds_of_tag? (h : s.tag? slot = some ref) : s.holds ref.handle = true :=
  List.any_eq_true.mpr ⟨(slot, ref), Keyed.mem_of_find? h, beq_self_eq_true _⟩

theorem holds_iff (hnames : (s.slots.map Prod.fst).Nodup) : s.holds handle = true ↔
    ∃ slot ref, s.tag? slot = some ref ∧ ref.handle = handle := by
  constructor
  · intro h
    obtain ⟨⟨slot, ref⟩, hentry, heq⟩ := List.any_eq_true.mp h
    exact ⟨slot, ref, Keyed.find?_of_mem hnames hentry, beq_iff_eq.mp heq⟩
  · rintro ⟨slot, ref, htag, rfl⟩
    exact holds_of_tag? htag

/-- A tag is destroyed if it left its last slot, and otherwise nothing happens. -/
theorem release_cases (s : Slots) (left : Option TagRef) : s.release left = s ∨
    ∃ handle, s.release left = { s with plc := s.plc.destroy handle } := by
  unfold release
  split
  · exact .inl rfl
  · next ref =>
    split
    · exact .inl rfl
    · exact .inr ⟨ref.handle, rfl⟩

@[simp] theorem slots_release (s : Slots) (left : Option TagRef) :
    (s.release left).slots = s.slots := by
  obtain h | ⟨handle, h⟩ := s.release_cases left <;> rw [h]

theorem holds_congr {next : Slots} (h : next.slots = s.slots) (handle : Nat) :
    next.holds handle = s.holds handle := by
  unfold holds
  rw [h]

@[simp] theorem holds_release (s : Slots) (left : Option TagRef) (handle : Nat) :
    (s.release left).holds handle = s.holds handle :=
  holds_congr (slots_release s left) handle

@[simp] theorem created_release (s : Slots) (left : Option TagRef) :
    (s.release left).plc.created = s.plc.created := by
  obtain h | ⟨handle, h⟩ := s.release_cases left
  · rw [h]
  · rw [h, Plc.created_destroy]

theorem balanced_release (h : s.plc.Balanced) (left : Option TagRef) :
    (s.release left).plc.Balanced := by
  obtain hsame | ⟨handle, hgone⟩ := s.release_cases left
  · rwa [hsame]
  · rw [hgone]
    exact h.destroy handle

/-- A tag that left a slot lives on if another slot holds it, and all other tags do. -/
theorem mem_live_release (s : Slots) (left : Option TagRef) (handle : Nat) :
    handle ∈ (s.release left).plc.live ↔ handle ∈ s.plc.live ∧
      ¬ (left.map TagRef.handle = some handle ∧ s.holds handle = false) := by
  cases left with
  | none => simp [release]
  | some ref =>
    unfold release
    dsimp only
    split
    · next hheld =>
      refine ⟨fun h => ⟨h, ?_⟩, And.left⟩
      rintro ⟨heq, hfree⟩
      rw [Option.some.inj heq, hfree] at hheld
      cases hheld
    · next hfree =>
      rw [Bool.not_eq_true] at hfree
      rw [Plc.mem_live_destroy]
      refine and_congr_right fun _ => not_congr ⟨?_, fun h => (Option.some.inj h.1).symm⟩
      rintro rfl
      exact ⟨rfl, hfree⟩

/-! ## A slot gets another tag -/

/-- **The controller keeps account of its tags, and slots hold handles that were given.** -/
structure Placed (s : Slots) : Prop where
  balanced : s.plc.Balanced
  names : (s.slots.map Prod.fst).Nodup
  given : ∀ handle, s.holds handle = true → handle ≤ s.plc.created

/-- **Slots hold other tags**, and those that none holds any more have been destroyed. -/
structure Refilled (next s : Slots) : Prop where
  placed : next.Placed
  created : next.plc.created = s.plc.created
  live : ∀ handle, handle ∈ next.plc.live ↔
    handle ∈ s.plc.live ∧ ¬ (s.holds handle = true ∧ next.holds handle = false)

/-- The slots with other entries, after the tag that was in a slot has been released. -/
def refill (s : Slots) (slot : String) (entries : List (String × TagRef)) : Slots :=
  { s with slots := entries }.release (s.tag? slot)

/-- What one slot holds changes. A tag that is not held any more was in that slot, so it is released
and destroyed. -/
theorem Placed.refill (h : s.Placed) (hnames : (entries.map Prod.fst).Nodup)
    (hfind : ∀ other, Keyed.find? other entries = if other = slot then new? else s.tag? other)
    (hnew : ∀ ref, new? = some ref → ref.handle ≤ s.plc.created) :
    (s.refill slot entries).Refilled s := by
  have hslots : (s.refill slot entries).slots = entries := slots_release _ _
  have hholds : ∀ handle, (s.refill slot entries).holds handle =
      { s with slots := entries }.holds handle := fun handle => holds_congr hslots handle
  have hnext : ∀ handle, (s.refill slot entries).holds handle = true ↔
      ∃ other ref, Keyed.find? other entries = some ref ∧ ref.handle = handle := by
    intro handle
    rw [hholds, holds_iff hnames]
    rfl
  have hcreated : (s.refill slot entries).plc.created = s.plc.created := created_release _ _
  refine ⟨⟨?_, hslots.symm ▸ hnames, fun handle hheld => ?_⟩, hcreated, fun handle => ?_⟩
  · have hbalanced : { s with slots := entries }.plc.Balanced := h.balanced
    exact balanced_release hbalanced _
  · obtain ⟨other, ref, hother, rfl⟩ := (hnext handle).mp hheld
    rw [hcreated]
    rw [hfind] at hother
    split at hother
    · exact hnew ref hother
    · exact h.given _ (holds_of_tag? hother)
  · -- a tag that is held by another slot stays, so the one that goes was in this slot
    rw [Slots.refill, mem_live_release, ← Slots.refill, ← hholds]
    refine and_congr_right fun _ => not_congr (and_congr_left fun hfree => ?_)
    constructor
    · intro hleft
      obtain ⟨ref, htag, rfl⟩ := Option.map_eq_some_iff.mp hleft
      exact holds_of_tag? htag
    · intro hheld
      obtain ⟨other, ref, htag, rfl⟩ := (holds_iff h.names).mp hheld
      by_cases heq : other = slot
      · rw [← heq, htag]
        rfl
      · have hstill : (s.refill slot entries).holds ref.handle = true :=
          (hnext _).mpr ⟨other, ref, by rw [hfind, if_neg heq, htag], rfl⟩
        rw [hstill] at hfree
        cases hfree

theorem holds_put (s : Slots) (slot : String) (ref : TagRef) :
    (s.put slot ref).holds ref.handle = true := by
  have hslot : { s with slots := Keyed.assign slot ref s.slots }.tag? slot = some ref :=
    (Keyed.find?_assign _ _ _ _).trans (if_pos rfl)
  rw [put, holds_release]
  exact holds_of_tag? hslot

theorem Placed.put (h : s.Placed) (slot : String) (ref : TagRef)
    (hgiven : ref.handle ≤ s.plc.created) : (s.put slot ref).Refilled s :=
  h.refill (Keyed.nodup_keys_assign h.names slot ref)
    (fun other => Keyed.find?_assign slot other ref s.slots)
    fun _ hnew => Option.some.inj hnew ▸ hgiven

theorem Placed.drop (h : s.Placed) (slot : String) : (s.drop slot).Refilled s :=
  h.refill (Keyed.nodup_keys_remove h.names slot)
    (fun other => Keyed.find?_remove slot other s.slots) fun _ hnew => nomatch hnew

/-! ## Requests -/

/-- The handle that a request gives: that of the tag it creates. -/
def given? (s : Slots) : Request → Option Nat
  | .create slot connection => (s.create slot connection).2.toOption.map TagRef.handle
  | _ => none

/-- **A request ends a tag**: it destroys it by its handle, or it takes the last reference to it. -/
def Ends (s : Slots) (request : Request) (handle : Nat) : Prop :=
  request = .destroy handle ∨ s.holds handle = true ∧ (s.serve request).holds handle = false

/-- **Every live tag stands in a slot.** -/
structure Owned (s : Slots) : Prop extends s.Placed where
  held : ∀ handle ∈ s.plc.live, s.holds handle = true

/-- **What a request does to the tags**: it ends some that lived, or creates one with the next
handle. -/
structure Served (s : Slots) (request : Request) : Prop where
  owned : (s.serve request).Owned
  live : ∀ handle, handle ∈ (s.serve request).plc.live ↔
    handle ∈ s.plc.live ∧ ¬ s.Ends request handle ∨ s.given? request = some handle
  given : s.given? request = none ∧ (s.serve request).plc.created = s.plc.created ∨
    s.given? request = some (s.plc.created + 1) ∧
      (s.serve request).plc.created = s.plc.created + 1

theorem Placed.not_holds_new (h : s.Placed) : s.holds (s.plc.created + 1) = false :=
  Bool.eq_false_iff.mpr fun hheld => absurd (h.given _ hheld) (Nat.not_succ_le_self _)

/-- A tag that lives on after a refill is still held. -/
theorem Owned.holds_of_live {next : Slots} (h : s.Owned) (hlive : handle ∈ s.plc.live)
    (hstill : ¬ (s.holds handle = true ∧ next.holds handle = false)) :
    next.holds handle = true :=
  (Bool.eq_false_or_eq_true _).resolve_right fun hfree => hstill ⟨h.held handle hlive, hfree⟩

/-! What each kind of request does. -/

/-- A request that changes neither the slots nor which tags live. -/
theorem Owned.served_of_sameTags (h : s.Owned) {request : Request}
    (hslots : (s.serve request).slots = s.slots) (hplc : (s.serve request).plc.SameTags s.plc)
    (hgiven : s.given? request = none) (hother : ∀ handle, request ≠ .destroy handle) :
    s.Served request := by
  have hholds := fun handle => holds_congr hslots handle
  have hends : ∀ handle, ¬ s.Ends request handle := by
    rintro handle (heq | ⟨hheld, hfree⟩)
    · exact hother handle heq
    · rw [hholds, hheld] at hfree
      cases hfree
  refine ⟨⟨⟨hplc.balanced h.balanced, hslots.symm ▸ h.names, fun handle hheld => ?_⟩,
    fun handle hlive => ?_⟩, fun handle => ?_, .inl ⟨hgiven, hplc.created⟩⟩
  · rw [hplc.created]
    exact h.given handle (hholds handle ▸ hheld)
  · rw [hholds]
    exact h.held handle (hplc.live ▸ hlive)
  · simp [hplc.live, hends, hgiven]

/-- A request that only changes what slots hold. -/
theorem Owned.served_of_refilled (h : s.Owned) {request : Request}
    (hnext : (s.serve request).Refilled s) (hgiven : s.given? request = none)
    (hother : ∀ handle, request ≠ .destroy handle) : s.Served request := by
  refine ⟨⟨hnext.placed, fun handle hin => ?_⟩, fun handle => ?_, .inl ⟨hgiven, hnext.created⟩⟩
  · obtain ⟨hbefore, hstill⟩ := (hnext.live handle).mp hin
    exact h.holds_of_live hbefore hstill
  · rw [hnext.live]
    simp [Ends, hother, hgiven]

theorem Owned.served_destroy (h : s.Owned) (handle : Nat) : s.Served (.destroy handle) := by
  have hholds : ∀ other, (s.serve (.destroy handle)).holds other = s.holds other := fun _ => rfl
  have hcreated : (s.serve (.destroy handle)).plc.created = s.plc.created :=
    Plc.created_destroy s.plc handle
  have hlive : ∀ other, other ∈ (s.serve (.destroy handle)).plc.live ↔
      other ∈ s.plc.live ∧ other ≠ handle := Plc.mem_live_destroy s.plc handle
  refine ⟨⟨⟨h.balanced.destroy handle, h.names, fun other hheld => ?_⟩, fun other hin => ?_⟩,
    fun other => ?_, .inl ⟨rfl, hcreated⟩⟩
  · rw [hcreated]
    exact h.given other hheld
  · exact h.held other ((hlive other).mp hin).1
  · have hends : s.Ends (.destroy handle) other ↔ other = handle := by
      simp [Ends, hholds, @eq_comm _ other]
    rw [hlive, hends]
    simp [given?]

theorem create_eq (s : Slots) (slot connection : String) : s.create slot connection =
    if s.plc.admits (tagNameOf connection) then
      ({ s with plc := s.plc.withNew connection }.put slot ⟨s.plc.created + 1, connection⟩,
        .ok ⟨s.plc.created + 1, connection⟩)
    else (s, .error (.createFailed connection TagFault.notFound.code)) := by
  unfold create
  rw [Plc.create_eq]
  split_ifs <;> rfl

theorem Placed.withNew (h : s.Placed) (connection : String) :
    { s with plc := s.plc.withNew connection }.Placed where
  balanced := h.balanced.withNew connection
  names := h.names
  given handle hheld := (h.given handle hheld).trans (Nat.le_succ _)

/-- **Creating a tag in a slot**: the tag that was there is released after the new one has been
created. -/
theorem Owned.served_create (h : s.Owned) (slot connection : String) :
    s.Served (.create slot connection) := by
  by_cases hadmits : s.plc.admits (tagNameOf connection) = true
  · have hcreate := (create_eq s slot connection).trans (if_pos hadmits)
    have hgiven : s.given? (.create slot connection) = some (s.plc.created + 1) := by
      rw [given?, hcreate]
      rfl
    have hserve : s.serve (.create slot connection) =
        { s with plc := s.plc.withNew connection }.put slot ⟨s.plc.created + 1, connection⟩ := by
      rw [serve, hcreate]
    have hput := (h.withNew connection).put slot ⟨s.plc.created + 1, connection⟩ le_rfl
    rw [← hserve] at hput
    have hlive : ∀ handle, handle ∈ (s.serve (.create slot connection)).plc.live ↔
        (handle ∈ s.plc.live ∨ handle = s.plc.created + 1) ∧ ¬ (s.holds handle = true ∧
          (s.serve (.create slot connection)).holds handle = false) := by
      intro handle
      rw [hput.live, h.balanced.live_withNew, List.mem_append, List.mem_singleton]
      rfl
    refine ⟨⟨hput.placed, fun handle hin => ?_⟩, fun handle => ?_, .inr ⟨hgiven, hput.created⟩⟩
    · obtain ⟨hbefore | rfl, hstill⟩ := (hlive handle).mp hin
      · exact h.holds_of_live hbefore hstill
      · rw [hserve]
        exact holds_put _ slot ⟨s.plc.created + 1, connection⟩
    · rw [hlive, hgiven, Option.some.injEq]
      by_cases hnew : handle = s.plc.created + 1
      · simp [hnew, h.not_holds_new]
      · simp [hnew, Ne.symm hnew, Ends]
  · have hcreate := (create_eq s slot connection).trans (if_neg hadmits)
    refine h.served_of_sameTags ?_ ?_ ?_ nofun
    · rw [serve, hcreate]
    · rw [serve, hcreate]
      exact .refl _
    · rw [given?, hcreate]
      rfl

theorem slots_operate (s : Slots) (target : Target) (operation : Plc → Nat → Plc) :
    (s.operate target operation).slots = s.slots := by
  unfold operate
  split <;> rfl

theorem sameTags_operate (target : Target) {operation : Plc → Nat → Plc}
    (h : ∀ handle, (operation s.plc handle).SameTags s.plc) :
    (s.operate target operation).plc.SameTags s.plc := by
  unfold operate
  split
  · exact .refl _
  · exact h _

/-- **Every request** keeps the tags owned, ends some of them or gives a new handle. -/
theorem Owned.served (h : s.Owned) (request : Request) : s.Served request := by
  cases request with
  | store name octets => exact h.served_of_sameTags rfl ⟨rfl, rfl, rfl⟩ rfl nofun
  | refuse name => exact h.served_of_sameTags rfl ⟨rfl, rfl, rfl⟩ rfl nofun
  | create slot connection => exact h.served_create slot connection
  | share slot other =>
    cases htag : s.tag? slot with
    | none =>
      have hserve : s.serve (.share slot other) = s := by rw [serve, share, htag]; rfl
      exact h.served_of_sameTags (by rw [hserve]) (by rw [hserve]; exact .refl _) rfl nofun
    | some ref =>
      have hserve : s.serve (.share slot other) = s.put other ref := by
        rw [serve, share, htag]
        rfl
      have hput := h.put other ref (h.given _ (holds_of_tag? htag))
      exact h.served_of_refilled (hserve ▸ hput) rfl nofun
  | drop slot => exact h.served_of_refilled (h.toPlaced.drop slot) rfl nofun
  | read target =>
    exact h.served_of_sameTags (slots_operate _ _ _)
      (sameTags_operate target (Plc.sameTags_startRead s.plc)) rfl nofun
  | write target =>
    exact h.served_of_sameTags (slots_operate _ _ _)
      (sameTags_operate target (Plc.sameTags_startWrite s.plc)) rfl nofun
  | access target access =>
    exact h.served_of_sameTags (slots_operate _ _ _)
      (sameTags_operate target fun handle => Plc.sameTags_access s.plc handle access) rfl nofun
  | destroy handle => exact h.served_destroy handle

end Slots

end PlcTags

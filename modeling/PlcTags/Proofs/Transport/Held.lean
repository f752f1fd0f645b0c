import PlcTags.Proofs.Transport.Tags

/-!
# Tags that are held

A tag that somebody holds lives under the name in its creation text, and its handle has been given
away, so no tag that is created later takes its place.

* `Plc.Holds`: the controller has such a tag.
* `Plc.Upholds`: a later controller has all tags of an earlier one, under the same names.
* `Plc.Grows`: and nothing else has changed, as when a tag is created.
* `Plc.OnlyAt`: an operation on one tag leaves the others exactly as they are. Reading, writing and
  changing a buffer are such operations.
-/

namespace PlcTags.Plc

variable {plc next last : Plc} {ref : TagRef} {handle other : Nat}

/-- The name of the live tag of a handle. -/
def nameOf? (plc : Plc) (handle : Nat) : Option String :=
  (plc.tag? handle).map PlcTag.name

/-- **The tag is held**: it lives under the name in its creation text, and its handle has been
given. -/
structure Holds (plc : Plc) (ref : TagRef) : Prop where
  given : ref.handle ≤ plc.created
  backs : plc.Backs ref

/-- **Held tags stay held**: later controllers have the tags of all handles that were given, under
the same names. -/
structure Upholds (next plc : Plc) : Prop where
  created : plc.created ≤ next.created
  names : ∀ handle ≤ plc.created, next.nameOf? handle = plc.nameOf? handle

/-- **More tags**, and nothing else. -/
structure Grows (next plc : Plc) : Prop where
  upholds : next.Upholds plc
  memory : next.memory = plc.memory
  refused : next.refused = plc.refused

/-- **Only one tag has changed**, and it has kept its name. -/
structure OnlyAt (handle : Nat) (next plc : Plc) : Prop where
  created : next.created = plc.created
  others : ∀ other, other ≠ handle → next.tag? other = plc.tag? other
  name : next.nameOf? handle = plc.nameOf? handle

theorem backs_iff : plc.Backs ref ↔ plc.nameOf? ref.handle = some (tagNameOf ref.connection) :=
  Option.map_eq_some_iff.symm

/-- What can be created depends on what is refused. -/
theorem admits_congr (h : next.refused = plc.refused) (name : String) :
    next.admits name = plc.admits name := by
  unfold admits
  rw [h]

/-! ## Held tags stay held -/

theorem Upholds.refl (plc : Plc) : plc.Upholds plc := ⟨le_rfl, fun _ _ => rfl⟩

theorem Upholds.trans (h : last.Upholds next) (h' : next.Upholds plc) : last.Upholds plc :=
  ⟨h'.created.trans h.created, fun handle hgiven =>
    (h.names handle (hgiven.trans h'.created)).trans (h'.names handle hgiven)⟩

theorem Upholds.holds (h : next.Upholds plc) (href : plc.Holds ref) : next.Holds ref where
  given := href.given.trans h.created
  backs := by rw [backs_iff, h.names _ href.given, ← backs_iff]; exact href.backs

theorem Grows.refl (plc : Plc) : plc.Grows plc := ⟨.refl plc, rfl, rfl⟩

theorem Grows.trans (h : last.Grows next) (h' : next.Grows plc) : last.Grows plc :=
  ⟨h.upholds.trans h'.upholds, h.memory.trans h'.memory, h.refused.trans h'.refused⟩

/-- A new tag has a handle of its own. -/
theorem upholds_withNew (plc : Plc) (connection : String) : (plc.withNew connection).Upholds plc where
  created := Nat.le_succ _
  names handle hgiven := by
    unfold nameOf?
    rw [tag?_withNew, if_neg (by omega)]

theorem holds_withNew (plc : Plc) (connection : String) :
    (plc.withNew connection).Holds ⟨plc.created + 1, connection⟩ :=
  ⟨le_rfl, backs_withNew plc connection⟩

/-- **A creation** keeps the tags that are held, and if it succeeds it gives one that is. -/
theorem create_grows {connection : String} {outcome : Except TransportError TagRef}
    (h : plc.create connection = (next, outcome)) :
    next.Grows plc ∧ ∀ ref, outcome = .ok ref → next.Holds ref := by
  cases outcome with
  | error cause =>
    rw [create_eq_error h]
    exact ⟨.refl plc, fun ref href => by cases href⟩
  | ok made =>
    obtain ⟨-, rfl, rfl⟩ := create_eq_ok h
    refine ⟨⟨upholds_withNew plc connection, rfl, rfl⟩, fun ref href => ?_⟩
    cases href
    exact holds_withNew plc connection

@[simp] theorem created_destroy (plc : Plc) (handle : Nat) :
    (plc.destroy handle).created = plc.created := by
  unfold destroy
  split <;> rfl

@[simp] theorem refused_destroy (plc : Plc) (handle : Nat) :
    (plc.destroy handle).refused = plc.refused := by
  unfold destroy
  split <;> rfl

/-- Whatever no destruction changes stays when tags are not kept. -/
theorem keepOnly_eq_of_destroy {α : Type} (part : Plc → α)
    (hpart : ∀ plc handle, part (destroy plc handle) = part plc) (plc : Plc) (kept : List Nat) :
    part (plc.keepOnly kept) = part plc := by
  unfold keepOnly
  induction plc.live.filter fun handle => !kept.contains handle generalizing plc with
  | nil => rfl
  | cons handle rest ih => rw [List.foldl_cons, ih, hpart]

@[simp] theorem created_keepOnly (plc : Plc) (kept : List Nat) :
    (plc.keepOnly kept).created = plc.created :=
  keepOnly_eq_of_destroy created created_destroy plc kept

@[simp] theorem refused_keepOnly (plc : Plc) (kept : List Nat) :
    (plc.keepOnly kept).refused = plc.refused :=
  keepOnly_eq_of_destroy refused refused_destroy plc kept

/-- Destroying a tag whose handle was given later keeps the others. -/
theorem Upholds.destroy (h : next.Upholds plc) (hlater : plc.created < handle) :
    (next.destroy handle).Upholds plc where
  created := h.created.trans (created_destroy next handle).ge
  names other hgiven := by
    have hne : other ≠ handle := by omega
    rw [← h.names other hgiven, nameOf?, tag?_destroy, if_neg hne, nameOf?]

/-- Kept tags are held as before. -/
theorem Holds.keepOnly (h : plc.Holds ref) {kept : List Nat} (hkept : ref.handle ∈ kept) :
    (plc.keepOnly kept).Holds ref where
  given := h.given.trans (created_keepOnly plc kept).ge
  backs := by
    obtain ⟨tag, htag, hname⟩ := h.backs
    exact ⟨tag, (tag?_keepOnly_of_mem hkept).trans htag, hname⟩

/-! ## Operations on one tag -/

namespace OnlyAt

theorem refl (handle : Nat) (plc : Plc) : OnlyAt handle plc plc := ⟨rfl, fun _ _ => rfl, rfl⟩

theorem trans (h : OnlyAt handle last next) (h' : OnlyAt handle next plc) :
    OnlyAt handle last plc :=
  ⟨h.created.trans h'.created,
    fun other hother => (h.others other hother).trans (h'.others other hother),
    h.name.trans h'.name⟩

theorem upholds (h : OnlyAt handle next plc) : next.Upholds plc where
  created := h.created.ge
  names other _ := by
    by_cases heq : other = handle
    · rw [heq, h.name]
    · rw [nameOf?, h.others other heq, nameOf?]

end OnlyAt

theorem tag?_setTag (plc : Plc) (handle : Nat) (tag : PlcTag) (other : Nat) :
    (plc.setTag handle tag).tag? other = if other = handle then some tag else plc.tag? other :=
  Keyed.find?_assign _ _ _ _

/-- Replacing a tag by one of the same name. -/
theorem onlyAt_setTag {tag : PlcTag} (h : plc.nameOf? handle = some tag.name) :
    OnlyAt handle (plc.setTag handle tag) plc where
  created := rfl
  others other hother := (tag?_setTag plc handle tag other).trans (if_neg hother)
  name := by rw [nameOf?, tag?_setTag, if_pos rfl, h, Option.map_some]

theorem onlyAt_startRead (plc : Plc) (handle : Nat) :
    OnlyAt handle (plc.startRead handle).1 plc where
  created := by unfold startRead; split <;> rfl
  others other hother := by
    rw [tag?_startRead]
    simp only [if_neg hother, Option.map_id']
  name := by
    rw [nameOf?, tag?_startRead, Option.map_map, nameOf?]
    congr 1
    funext tag
    exact (congrArg PlcTag.name (if_pos rfl)).trans (name_afterRead plc tag)

/-! What the operations do to the tag itself. -/

theorem exists_startRead {tag : PlcTag} (h : plc.tag? handle = some tag) : ∃ read,
    plc.startRead handle = (read, .pending) ∧ read.memory = plc.memory ∧
      read.tag? handle = some (plc.afterRead tag) := by
  have hmemory := memory_startRead plc handle
  have hafter := tag?_startRead plc handle handle
  rw [h, Option.map_some, if_pos rfl] at hafter
  have hstatus : (plc.startRead handle).2 = .pending := by
    unfold startRead
    rw [h]
  exact ⟨_, Prod.ext rfl hstatus, hmemory, hafter⟩

@[simp] theorem memory_setBuffer (plc : Plc) (handle : Nat) (buffer : Buffer) :
    (plc.setBuffer handle buffer).memory = plc.memory := by
  unfold setBuffer
  split <;> rfl

theorem tag?_setBuffer {tag : PlcTag} (h : plc.tag? handle = some tag) (buffer : Buffer) :
    (plc.setBuffer handle buffer).tag? handle = some { tag with buffer := buffer } := by
  unfold setBuffer
  rw [h]
  exact (tag?_setTag _ _ _ _).trans (if_pos rfl)

/-- A write that completes stores the buffer of the tag. -/
theorem exists_startWrite {tag : PlcTag} (h : plc.tag? handle = some tag)
    (hcompletes : nameHas "timeout" tag.name = false) : ∃ written,
      plc.startWrite handle = (written, .pending) ∧
        written.memory = Keyed.assign tag.name tag.buffer plc.memory ∧
        written.tag? handle = some { tag with status := .ok } := by
  have hwrite : plc.startWrite handle =
      ((plc.store tag.name tag.buffer).setTag handle { tag with status := .ok }, .pending) := by
    unfold startWrite
    rw [h]
    dsimp only
    rw [if_neg (by rw [hcompletes]; exact Bool.false_ne_true)]
  exact ⟨_, hwrite, rfl, (tag?_setTag _ _ _ _).trans (if_pos rfl)⟩

/-! The other tags and the name stay. -/

theorem onlyAt_setBuffer (plc : Plc) (handle : Nat) (buffer : Buffer) :
    OnlyAt handle (plc.setBuffer handle buffer) plc := by
  unfold setBuffer
  split
  · exact .refl handle plc
  · next tag htag => exact onlyAt_setTag (congrArg (Option.map PlcTag.name) htag)

theorem onlyAt_startWrite (plc : Plc) (handle : Nat) :
    OnlyAt handle (plc.startWrite handle).1 plc := by
  unfold startWrite
  split
  · exact .refl handle plc
  · next tag htag =>
    have hname : plc.nameOf? handle = some tag.name := congrArg (Option.map PlcTag.name) htag
    split_ifs
    · exact onlyAt_setTag hname
    · have hstored : OnlyAt handle (plc.store tag.name tag.buffer) plc :=
        ⟨rfl, fun _ _ => rfl, rfl⟩
      exact OnlyAt.trans (onlyAt_setTag hname) hstored

end PlcTags.Plc

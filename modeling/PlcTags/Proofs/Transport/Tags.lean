import Mathlib.Order.Nat
import Mathlib.Tactic.SplitIfs
import PlcTags.Descriptor.Basic
import PlcTags.Proofs.Outcome
import PlcTags.Transport.Plc

/-!
# Tags on the controller

What creating, reading and destroying does to the live tags.

* `tagNameOf_connectionText`: the name in a creation text does not depend on the element count and
  the options.
* `Plc.Fresh`: no live tag has a handle that is still to be given.
* `Plc.Backs`: a tag that its user holds lives, under the name in its creation text.
* `Plc.Answers`: reading a tag of a name completes with what is stored.
-/

namespace PlcTags

open PlcTags.Text

/-! ## Names -/

/-- The name of the tags that are created for a tag name on a route. -/
def tagName (route tag : String) : String :=
  tagNameOf (connectionText route tag 1 "")

/-- What stands behind `name=` in the segments of a creation text. -/
def named (segments : List (List Char)) : List (List Char) :=
  segments.filterMap fun segment => "name=".toList.isPrefixOf? segment

theorem tagNameOf_eq (connection : String) : tagNameOf connection =
    String.ofList ((named (connection.toList.splitOn '&')).head?.getD []) := rfl

/-- The segment with the tag name is named. -/
theorem exists_named (tag : List Char) :
    ∃ first rest, named (("name=".toList ++ tag).splitOn '&') = first :: rest := by
  obtain ⟨first, rest, hsplit⟩ := List.exists_cons_of_ne_nil (List.splitOn_ne_nil '&' tag)
  refine ⟨first, named rest, ?_⟩
  have hsegments : ("name=".toList ++ tag).splitOn '&' = ("name=".toList ++ first) :: rest := by
    simp [List.splitOn_cons_eq_if_modifyHead, hsplit]
  rw [hsegments, named, List.filterMap_cons]
  rfl

theorem toList_connectionText (route tag : String) (count : Nat) (extras : String) :
    (connectionText route tag count extras).toList = route.toList ++ '&' ::
      (("name=".toList ++ tag.toList) ++ '&' ::
        ("elem_count=".toList ++ ((toString count).toList ++ extras.toList))) := by
  unfold connectionText
  simp only [String.toList_append]
  show route.toList ++ "&name=".toList ++ tag.toList ++ "&elem_count=".toList ++ _ ++ _ = _
  simp

theorem tagNameOf_connectionText (route tag : String) (count : Nat) (extras : String) :
    tagNameOf (connectionText route tag count extras) = tagName route tag := by
  have hhead : ∀ count extras,
      (named ((connectionText route tag count extras).toList.splitOn '&')).head? =
        (named (route.toList.splitOn '&') ++
          named (("name=".toList ++ tag.toList).splitOn '&')).head? := by
    intro count extras
    obtain ⟨first, rest, hnamed⟩ := exists_named tag.toList
    rw [toList_connectionText, List.splitOn_append_cons_self, List.splitOn_append_cons_self, named,
      List.filterMap_append, List.filterMap_append]
    show (named _ ++ (named _ ++ named _)).head? = _
    rw [hnamed, List.cons_append, List.head?_append, List.head?_append]
    rfl
  rw [tagName, tagNameOf_eq, tagNameOf_eq, hhead, hhead]

namespace Plc

variable {plc next : Plc} {handle other : Nat} {name connection : String} {tag : PlcTag}
  {ref : TagRef}

/-! ## Live tags -/

/-- **No live tag has a handle that is still to be given.** -/
def Fresh (plc : Plc) : Prop :=
  ∀ handle tag, plc.tag? handle = some tag → handle ≤ plc.created

/-- **The tag lives** under the name in its creation text. -/
def Backs (plc : Plc) (ref : TagRef) : Prop :=
  ∃ tag, plc.tag? ref.handle = some tag ∧ tag.name = tagNameOf ref.connection

/-- Later controllers have the tags of earlier ones, under the same names. -/
def Extends (next plc : Plc) : Prop :=
  ∀ handle tag, plc.tag? handle = some tag → next.tag? handle = some tag

theorem Extends.refl (plc : Plc) : plc.Extends plc := fun _ _ h => h

theorem Extends.backs (h : next.Extends plc) (href : plc.Backs ref) : next.Backs ref := by
  obtain ⟨tag, htag, hname⟩ := href
  exact ⟨tag, h _ _ htag, hname⟩

/-- What a new tag holds. -/
def newTag (plc : Plc) (connection : String) : PlcTag :=
  let name := tagNameOf connection
  ⟨name, .ok, (plc.stored? name).getD (List.replicate defaultSize 0)⟩

/-- The controller with one more tag. -/
def withNew (plc : Plc) (connection : String) : Plc :=
  { plc with
    tags := Keyed.assign (plc.created + 1) (plc.newTag connection) plc.tags
    created := plc.created + 1 }

theorem create_eq (plc : Plc) (connection : String) : plc.create connection =
    if plc.admits (tagNameOf connection) then
      (plc.withNew connection, .ok ⟨plc.created + 1, connection⟩)
    else (plc, .error (.createFailed connection TagFault.notFound.code)) := rfl

/-- What is created for a tag name does not depend on the options. -/
theorem create_connectionText (plc : Plc) (route tag : String) (count : Nat) (extras : String) :
    plc.create (connectionText route tag count extras) =
      if plc.admits (tagName route tag) then
        (plc.withNew (connectionText route tag 1 ""),
          .ok ⟨plc.created + 1, connectionText route tag count extras⟩)
      else (plc, .error (.createFailed (connectionText route tag count extras)
        TagFault.notFound.code)) := by
  rw [create_eq, withNew, withNew, newTag, newTag, tagNameOf_connectionText,
    tagNameOf_connectionText]

/-- **A creation that succeeds** gives one more tag, under the next handle. -/
theorem create_eq_ok (h : plc.create connection = (next, .ok ref)) :
    plc.admits (tagNameOf connection) = true ∧ next = plc.withNew connection ∧
      ref = ⟨plc.created + 1, connection⟩ := by
  rw [create_eq] at h
  split at h
  · next hadmits =>
    obtain ⟨rfl, href⟩ := Prod.mk.inj h
    exact ⟨hadmits, rfl, (Except.ok.inj href).symm⟩
  · cases (Prod.mk.inj h).2

/-- A creation that fails changes nothing. -/
theorem create_eq_error {cause : TransportError}
    (h : plc.create connection = (next, .error cause)) : next = plc := by
  rw [create_eq] at h
  split at h
  · cases (Prod.mk.inj h).2
  · exact (Prod.mk.inj h).1.symm

theorem tag?_withNew (plc : Plc) (connection : String) (handle : Nat) :
    (plc.withNew connection).tag? handle =
      if handle = plc.created + 1 then some (plc.newTag connection) else plc.tag? handle :=
  Keyed.find?_assign _ _ _ _

theorem Fresh.extends_withNew (h : plc.Fresh) (connection : String) :
    (plc.withNew connection).Extends plc := by
  intro handle tag htag
  have hle := h handle tag htag
  rw [tag?_withNew, if_neg (by omega), htag]

theorem Fresh.withNew (h : plc.Fresh) (connection : String) : (plc.withNew connection).Fresh := by
  intro handle tag htag
  rw [tag?_withNew] at htag
  show handle ≤ plc.created + 1
  split at htag
  · next heq => exact heq.le
  · exact (h handle tag htag).trans (Nat.le_succ _)

theorem backs_withNew (plc : Plc) (connection : String) :
    (plc.withNew connection).Backs ⟨plc.created + 1, connection⟩ :=
  ⟨plc.newTag connection, (tag?_withNew plc connection _).trans (if_pos rfl), rfl⟩

/-! ## Destroying -/

theorem tag?_destroy (plc : Plc) (handle other : Nat) :
    (plc.destroy handle).tag? other = if other = handle then none else plc.tag? other := by
  unfold destroy
  cases htag : plc.tag? handle with
  | none =>
    by_cases heq : other = handle
    · rw [if_pos heq]
      exact heq ▸ htag
    · rw [if_neg heq]
  | some tag => exact Keyed.find?_remove handle other plc.tags

@[simp] theorem memory_destroy (plc : Plc) (handle : Nat) :
    (plc.destroy handle).memory = plc.memory := by
  unfold destroy
  split <;> rfl

@[simp] theorem memory_keepOnly (plc : Plc) (kept : List Nat) :
    (plc.keepOnly kept).memory = plc.memory := by
  unfold keepOnly
  induction plc.live.filter fun handle => !kept.contains handle generalizing plc with
  | nil => rfl
  | cons handle rest ih => rw [List.foldl_cons, ih, memory_destroy]

/-- What is left of the tags when some are destroyed. -/
theorem tag?_foldl_destroy (gone : List Nat) (plc : Plc) (handle : Nat) :
    (gone.foldl destroy plc).tag? handle = if handle ∈ gone then none else plc.tag? handle := by
  induction gone generalizing plc with
  | nil => simp
  | cons first rest ih =>
    rw [List.foldl_cons, ih, tag?_destroy]
    by_cases hfirst : handle = first <;> simp [hfirst]

/-- **Kept tags stay** as they are, and no others. -/
theorem tag?_keepOnly (plc : Plc) (kept : List Nat) (handle : Nat) :
    (plc.keepOnly kept).tag? handle = if handle ∈ kept then plc.tag? handle else none := by
  rw [keepOnly, tag?_foldl_destroy]
  by_cases hkept : handle ∈ kept
  · simp [hkept]
  · by_cases hlive : handle ∈ plc.live
    · simp [hkept, hlive]
    · have hnone : plc.tag? handle = none :=
        Option.not_isSome_iff_eq_none.mp fun hsome => hlive (Keyed.isSome_find?_iff.mp hsome)
      simp [hkept, hlive, hnone]

theorem tag?_keepOnly_of_mem {kept : List Nat} (h : handle ∈ kept) :
    (plc.keepOnly kept).tag? handle = plc.tag? handle := by
  rw [tag?_keepOnly, if_pos h]

/-! ## Reading -/

/-- **Reading tags of a name gives what is stored**: something is, and the name does not tell of a
fault. -/
structure Answers (plc : Plc) (name : String) (stored : Buffer) : Prop where
  memory : plc.stored? name = some stored
  completes : nameHas "timeout" name = false
  wellFormed : nameHas "error" name = false

theorem Answers.afterRead {stored : Buffer} (h : plc.Answers tag.name stored) :
    plc.afterRead tag = ⟨tag.name, .ok, stored⟩ := by
  unfold Plc.afterRead
  rw [h.completes, h.wellFormed, h.memory]
  rfl

@[simp] theorem name_afterRead (plc : Plc) (tag : PlcTag) :
    (plc.afterRead tag).name = tag.name := by
  unfold afterRead
  split_ifs <;> rfl

/-- A second read changes nothing more. -/
theorem afterRead_afterRead (plc : Plc) (tag : PlcTag) :
    plc.afterRead (plc.afterRead tag) = plc.afterRead tag := by
  unfold afterRead
  by_cases htimeout : nameHas "timeout" tag.name = true
  · simp only [if_pos htimeout]
  · by_cases herror : nameHas "error" tag.name = true
    · simp only [if_neg htimeout, if_pos herror]
    · simp only [if_neg htimeout, if_neg herror]
      cases plc.stored? tag.name <;> rfl

@[simp] theorem memory_startRead (plc : Plc) (handle : Nat) :
    (plc.startRead handle).1.memory = plc.memory := by
  unfold startRead
  split <;> rfl

theorem afterRead_congr {plc next : Plc} (h : next.memory = plc.memory) (tag : PlcTag) :
    next.afterRead tag = plc.afterRead tag := by
  unfold afterRead stored?
  rw [h]

theorem tag?_startRead (plc : Plc) (handle other : Nat) : (plc.startRead handle).1.tag? other =
    (plc.tag? other).map fun tag => if other = handle then plc.afterRead tag else tag := by
  unfold startRead
  cases htag : plc.tag? handle with
  | none =>
    by_cases heq : other = handle
    · rw [heq, htag]; rfl
    · simp [heq]
  | some tag =>
    show Keyed.find? other (Keyed.assign handle (plc.afterRead tag) plc.tags) = _
    rw [Keyed.find?_assign]
    by_cases heq : other = handle
    · rw [if_pos heq, heq, htag]
      simp
    · rw [if_neg heq]
      simp [heq, tag?]

end Plc

end PlcTags

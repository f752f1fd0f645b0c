import PlcTags.Plan.Groups

/-!
# Array slices

The second level of merging. Groups of one poller whose parents are elements of one array form a
family; neighbouring elements of a family are read together as slices of the array, as many elements
at a time as one message carries.

* `arrayElement?` reads `name[12]` as an array and an index.
* `Family.slices` covers the elements greedily, and leaves out elements that stay alone.
* `Slice.rebase?` moves an offset within an element to the offset within the slice.
-/

namespace PlcTags

open PlcTags.Text

/-- The array and the index of a tag that is an element of a one-dimensional array. -/
def arrayElement? (tag : String) : Option (String × Nat) := do
  let inner ← dropLast? ']' tag.toList
  let (array, digits) ← cutLast? '[' inner
  if array.isEmpty || array.getLast? == some ']' then none
  else
    let index ← unsigned? wordLimit digits
    pure (String.ofList array, index)

/-- Groups of one poller whose parents are elements of one array: index and group number of each, by
ascending index. -/
structure Family where
  poller : String
  array : String
  elements : List (Nat × Nat)
  deriving DecidableEq, Repr

/-- Elements `start` to `start + count - 1` of an array, read together; the elements that are used
are listed. -/
structure Slice where
  start : Nat
  count : Nat
  elements : List (Nat × Nat)
  deriving DecidableEq, Repr

/-- A group as an element of an array: poller and array, index and group number. -/
structure ArrayMember where
  key : String × String
  element : Nat × Nat
  deriving DecidableEq, Repr

namespace ArrayMember

/-- The numbered group as an element of an array. -/
def ofGroup? (numbered : Group × Nat) : Option ArrayMember :=
  (arrayElement? numbered.1.parent).map fun found =>
    ⟨(numbered.1.poller, found.1), (found.2, numbered.2)⟩

end ArrayMember

namespace Family

/-- Order by index, then by group number. -/
def before (a b : Nat × Nat) : Bool :=
  a.1 < b.1 || (a.1 == b.1 && a.2 ≤ b.2)

/-- The elements with a key, by ascending index. -/
def ofKey (members : List ArrayMember) (key : String × String) : Family where
  poller := key.1
  array := key.2
  elements := ((members.filter fun m => m.key == key).map ArrayMember.element).mergeSort before

/-- The families among groups: at least two elements each, in the order of their first groups. -/
def ofGroups (groups : List Group) : List Family :=
  let members := groups.zipIdx.filterMap ArrayMember.ofGroup?
  ((members.map ArrayMember.key).eraseDups.map (ofKey members)).filter fun family =>
    1 < family.elements.length

end Family

namespace Slice

/-- The slice that starts at an element and holds others after it. -/
def ofElements (first : Nat × Nat) (others : List (Nat × Nat)) : Slice where
  start := first.1
  count := ((others.getLast?.getD first).1 - first.1) + 1
  elements := first :: others

/-- Cutting elements of ascending index into slices of fewer than `reach` indices. -/
def cover (reach : Nat) : List (Nat × Nat) → List Slice
  | [] => []
  | first :: rest =>
    let fits := fun (element : Nat × Nat) => decide (element.1 - first.1 < reach)
    ofElements first (rest.takeWhile fits) :: cover reach (rest.dropWhile fits)
termination_by elements => elements.length
decreasing_by exact Nat.lt_succ_of_le (List.dropWhile_suffix _).length_le

/-- The offset in the slice of an offset within one of its elements, unless it leaves the 64-bit
addresses. A bit offset moves eight times as far. -/
def rebase? (slice : Slice) (index elementSize offset : Nat) (bitAddressed : Bool) : Option Nat :=
  if index < slice.start then none
  else
    let bytes := (index - slice.start) * elementSize
    let step := if bitAddressed then 8 * bytes else bytes
    if bytes < wordLimit ∧ step < wordLimit ∧ offset + step < wordLimit then some (offset + step)
    else none

end Slice

namespace Family

/-- How many elements of a size one message carries. -/
def perSlice (elementSize : Nat) : Nat :=
  messageCapacity / elementSize

/-- The slices of a family whose elements have a size: none if fewer than two fit a message, and
none for an element without neighbours. -/
def slices (family : Family) (elementSize : Nat) : List Slice :=
  if elementSize = 0 ∨ perSlice elementSize < 2 then []
  else (Slice.cover (perSlice elementSize) family.elements).filter fun slice =>
    1 < slice.elements.length

end Family

end PlcTags

import PlcTags.Layout.Error
import PlcTags.Layout.Token

/-!
# Leaf offsets

Where each primitive of an expanded structure lies. One pass over the tokens carries a cursor: the
start of the last leaf, the bytes to pass before the next one, the alignment that the boundaries in
between ask for, and the open regions.

* A leaf starts at the next multiple of its alignment and of the alignments of the structures that
  begin or end before it; a structure is aligned as its widest-aligned leaf.
* Truth values directly in an array share bytes, eight to a byte; every boundary and every other
  leaf ends such a run, and the next leaf starts in a fresh byte.
* `roundUp?_eq_some`: rounding up finds the next multiple.

Positions and offsets are exact numbers, and nothing keeps them within words of 64 bits.
-/

namespace PlcTags.Layout

/-- Where a leaf lies: at a byte, or at a bit, counted as eight times the byte plus the bit. -/
inductive LeafOffset
  | byte (position : Nat)
  | bit (position : Nat)
  deriving DecidableEq, Repr

namespace LeafOffset

/-- The number of the byte or of the bit. -/
def position : LeafOffset → Nat
  | .byte position | .bit position => position

/-- Does it count bits? -/
def isBit : LeafOffset → Bool
  | .byte _ => false
  | .bit _ => true

end LeafOffset

/-- The least multiple of `alignment` that is not below `position`. -/
def roundUp? (position alignment : Nat) : Option Nat :=
  if alignment = 0 then none else some ((position + alignment - 1) / alignment * alignment)

/-- The largest alignment of a primitive before the end of the outermost of `levels`, or zero when
that region never ends. The list tells of each open region whether it is an array, the innermost
first; `found` is the largest alignment so far. -/
def regionAlignment : (levels : List Bool) → (found : Nat) → List Token → Nat
  | [], found, _ => found
  | _ :: _, _, [] => 0
  | inArray :: outer, found, .primitive kind :: rest =>
    regionAlignment (inArray :: outer) (max found (kind.alignment (kind.isBool && inArray))) rest
  | levels, found, .enter boundary :: rest => regionAlignment (boundary.isArray :: levels) found rest
  | _ :: outer, found, .leave _ :: rest => regionAlignment outer found rest

/-- An open region: is it an array, and the alignment of what it holds. -/
structure Region where
  isArray : Bool
  alignment : Nat
  deriving DecidableEq, Repr

/-- The state between two tokens. `position` is the start of the last leaf, `pending` the bytes to
pass before the next one, `required` the alignment asked for since the last leaf, `bit` the bits used
of a shared byte, and `placed` counts the leaves. -/
structure Cursor where
  position : Nat := 0
  pending : Nat := 0
  required : Nat := 0
  bit : Nat := 0
  regions : List Region := []
  placed : Nat := 0
  deriving DecidableEq, Repr

namespace Cursor

/-- A shared byte that was begun is finished. -/
def endRun (c : Cursor) : Cursor :=
  if 0 < c.bit then { c with bit := 0, pending := 1 } else c

/-- A boundary of a structure asks for the alignment of what it bounds, one of an array does not. -/
def require (c : Cursor) (boundary : Boundary) (alignment : Nat) : Cursor :=
  if boundary.isArray then c else { c with required := max c.required alignment }

/-- The beginning of a region that holds leaves of the given alignment. -/
def enter (c : Cursor) (boundary : Boundary) (alignment : Nat) : Cursor :=
  let next := c.endRun.require boundary alignment
  { next with regions := ⟨boundary.isArray, alignment⟩ :: next.regions }

/-- The end of the innermost region. An end without a beginning bounds nothing. -/
def leave (c : Cursor) (boundary : Boundary) : Cursor :=
  let alignment := match c.regions with
    | [] => 0
    | region :: _ => region.alignment
  let next := c.endRun.require boundary alignment
  { next with regions := next.regions.tail }

/-- Is a leaf of this kind packed into bits here? -/
def packs (c : Cursor) (kind : Primitive) : Bool :=
  kind.isBool && (c.regions.head?.map Region.isArray).getD false

/-- The byte at which a leaf starts. At the very beginning nothing has to be aligned. -/
def start? (c : Cursor) (alignment : Nat) : Option Nat :=
  let position := c.position + c.pending
  if position = 0 then some 0 else roundUp? position (max c.required alignment)

/-- The state after a leaf that shares the byte at `position`. -/
def afterBit (c : Cursor) (position : Nat) : Cursor :=
  { c with
    position := position
    pending := if c.bit = 7 then 1 else 0
    required := 0
    bit := if c.bit = 7 then 0 else c.bit + 1
    placed := c.placed + 1 }

/-- The state after a leaf of `width` bytes at `position`. -/
def afterBytes (c : Cursor) (position width : Nat) : Cursor :=
  { c with position := position, pending := width, required := 0, placed := c.placed + 1 }

/-- A leaf: where it lies, and the state after it. -/
def place? (c : Cursor) (kind : Primitive) : Option (LeafOffset × Cursor) :=
  if c.packs kind then
    (c.start? (kind.alignment true)).map fun position =>
      (.bit (8 * position + c.bit), c.afterBit position)
  else
    let ended := c.endRun
    (ended.start? (kind.alignment false)).map fun position =>
      (.byte position, ended.afterBytes position kind.width)

end Cursor

/-- The offsets of the leaves among the tokens, from a state on. -/
def offsetsFrom (owner : String) : Cursor → List Token → Except DefinitionError (List LeafOffset)
  | _, [] => .ok []
  | c, .enter boundary :: rest =>
    offsetsFrom owner (c.enter boundary (regionAlignment [boundary.isArray] 0 rest)) rest
  | c, .leave boundary :: rest => offsetsFrom owner (c.leave boundary) rest
  | c, .primitive kind :: rest =>
    match c.place? kind with
    | none => .error (.alignmentFailure owner c.placed)
    | some (offset, next) => (offsetsFrom owner next rest).map (offset :: ·)

/-- The offsets of the leaves of an expanded structure, in order. -/
def offsets (owner : String) (tokens : List Token) : Except DefinitionError (List LeafOffset) :=
  offsetsFrom owner {} tokens

/-- Rounding up finds a multiple at or after the position, less than one alignment away. -/
theorem roundUp?_eq_some {position alignment rounded : Nat}
    (h : roundUp? position alignment = some rounded) :
    alignment ∣ rounded ∧ position ≤ rounded ∧ rounded < position + alignment := by
  unfold roundUp? at h
  split at h
  · simp at h
  · next ha =>
    simp only [Option.some.injEq] at h
    subst h
    have h1 := Nat.div_add_mod (position + alignment - 1) alignment
    have h2 := Nat.mod_lt (position + alignment - 1) (Nat.pos_of_ne_zero ha)
    refine ⟨Nat.dvd_mul_left _ _, ?_, ?_⟩ <;>
      · rw [Nat.mul_comm]
        omega

end PlcTags.Layout

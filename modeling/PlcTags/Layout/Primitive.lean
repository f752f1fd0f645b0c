/-!
# Primitive types

The leaves of a structure: what a member is when it is neither an array nor a structure. Widths and
alignments are those of the controller's memory.

* `Primitive.ofKeyword?_keyword`: a fixed keyword names its type.
* `Primitive.alignment_pos`: every alignment is positive.
-/

namespace PlcTags.Layout

/-- A leaf type; a string has a capacity in bytes. -/
inductive Primitive
  | bool
  | sint
  | usint
  | int
  | uint
  | dint
  | udint
  | lint
  | ulint
  | real
  | lreal
  | word
  | dword
  | lword
  | time
  | string (capacity : Nat)
  deriving DecidableEq, Repr

namespace Primitive

/-- The type of a fixed keyword; keywords are upper case. Dates are times. -/
def ofKeyword? (keyword : String) : Option Primitive :=
  match keyword with
  | "BOOL" => some .bool
  | "SINT" => some .sint
  | "USINT" => some .usint
  | "INT" => some .int
  | "UINT" => some .uint
  | "DINT" => some .dint
  | "UDINT" => some .udint
  | "LINT" => some .lint
  | "ULINT" => some .ulint
  | "REAL" => some .real
  | "LREAL" => some .lreal
  | "WORD" => some .word
  | "DWORD" => some .dword
  | "LWORD" => some .lword
  | "TIME" => some .time
  | "DATE_AND_TIME" => some .time
  | _ => none

/-- The text of a type. -/
def keyword : Primitive → String
  | .bool => "BOOL"
  | .sint => "SINT"
  | .usint => "USINT"
  | .int => "INT"
  | .uint => "UINT"
  | .dint => "DINT"
  | .udint => "UDINT"
  | .lint => "LINT"
  | .ulint => "ULINT"
  | .real => "REAL"
  | .lreal => "LREAL"
  | .word => "WORD"
  | .dword => "DWORD"
  | .lword => "LWORD"
  | .time => "TIME"
  | .string capacity => s!"STRING[{capacity}]"

/-- The bytes of one element standing alone. -/
def width : Primitive → Nat
  | .sint | .usint => 1
  | .bool | .int | .uint | .word => 2
  | .dint | .udint | .real | .dword => 4
  | .lint | .ulint | .lreal | .lword | .time => 8
  | .string capacity => capacity

/-- Is it a truth value? -/
def isBool : Primitive → Bool
  | .bool => true
  | _ => false

/-- What the position of an element must be a multiple of: its width, but one byte for strings and
for truth values packed into bits. -/
def alignment (packed : Bool) : Primitive → Nat
  | .bool => if packed then 1 else 2
  | .string _ => 1
  | kind => kind.width

theorem alignment_pos (packed : Bool) (kind : Primitive) : 0 < kind.alignment packed := by
  cases kind <;> cases packed <;> simp [alignment, width]

theorem ofKeyword?_keyword {kind : Primitive} (h : ∀ capacity, kind ≠ .string capacity) :
    ofKeyword? kind.keyword = some kind := by
  cases kind with
  | string capacity => exact absurd rfl (h capacity)
  | _ => rfl

end Primitive

end PlcTags.Layout

/-!
# Data types

The types that a value can be declared with. A structure is read as bytes.

* `DataType.ofKeyword?_keyword`: every type is found by its keyword.
-/

namespace PlcTags

/-- The declared type of a value. -/
inductive DataType
  | bool
  | sint
  | usint
  | int
  | uint
  | dint
  | udint
  | lint
  | ulint
  | real
  | lreal
  | string
  | word
  | dword
  | lword
  | udt
  | time
  deriving DecidableEq, Repr

namespace DataType

/-- The type of a keyword; keywords are upper case. -/
def ofKeyword? (keyword : String) : Option DataType :=
  match keyword with
  | "BOOL" => some .bool
  | "SINT" => some .sint
  | "USINT" => some .usint
  | "INT" => some .int
  | "UINT" => some .uint
  | "DINT" => some .dint
  | "UDINT" => some .udint
  | "LINT" => some .lint
  | "ULINT" => some .ulint
  | "REAL" => some .real
  | "LREAL" => some .lreal
  | "STRING" => some .string
  | "WORD" => some .word
  | "DWORD" => some .dword
  | "LWORD" => some .lword
  | "UDT" => some .udt
  | "TIME" => some .time
  | _ => none

/-- The keyword of a type. -/
def keyword : DataType → String
  | .bool => "BOOL"
  | .sint => "SINT"
  | .usint => "USINT"
  | .int => "INT"
  | .uint => "UINT"
  | .dint => "DINT"
  | .udint => "UDINT"
  | .lint => "LINT"
  | .ulint => "ULINT"
  | .real => "REAL"
  | .lreal => "LREAL"
  | .string => "STRING"
  | .word => "WORD"
  | .dword => "DWORD"
  | .lword => "LWORD"
  | .udt => "UDT"
  | .time => "TIME"

/-- The bytes of one element in a tag; strings and structures have no fixed width. -/
def width? : DataType → Option Nat
  | .sint | .usint => some 1
  | .bool | .int | .uint | .word => some 2
  | .dint | .udint | .real | .dword => some 4
  | .lint | .ulint | .lreal | .lword | .time => some 8
  | .string | .udt => none

/-- Do tags of this type take options for strings? -/
def carriesStrings : DataType → Bool
  | .string | .udt => true
  | _ => false

/-- Can several elements of an array be read as one value? -/
def supportsSlices : DataType → Bool
  | .string | .lint | .ulint => false
  | _ => true

theorem ofKeyword?_keyword (type : DataType) : ofKeyword? type.keyword = some type := by
  cases type <;> rfl

end DataType

/-- The data bytes that one message of the controller protocol can carry. -/
def messageCapacity : Nat := 1994

end PlcTags

import PlcTags.Number.Shortest
import PlcTags.Text.Hex
import PlcTags.Value.Scalar

/-!
# Values

What is read from a tag or written to one, and its text for people.
-/

namespace PlcTags

/-- A typed value. -/
inductive Value
  | bool (flag : Bool)
  | number (scalar : Scalar)
  | text (value : String)
  | bytes (octets : List UInt8)
  | array (items : List Value)
  deriving BEq, Inhabited, Repr

/-- The text of a scalar: integers in decimal, floats as their shortest decimal. -/
def Scalar.display (s : Scalar) : String :=
  match s.type, s.word with
  | .integer signed _, word => if signed then toString word.toInt else toString word.toNat
  | .binary32, word => Number.binary32.text word.toNat
  | .binary64, word => Number.binary64.text word.toNat

namespace Value

mutual

/-- The text of a value: flags as digits, octets as hexadecimal pairs, arrays in brackets. -/
def display : Value → String
  | .bool flag => if flag then "1" else "0"
  | .number scalar => scalar.display
  | .text value => value
  | .bytes octets =>
    String.intercalate " " (octets.map fun b => String.ofList (Text.Hex.octet b))
  | .array items => "[" ++ String.intercalate ", " (displays items) ++ "]"

/-- The texts of values. -/
def displays : List Value → List String
  | [] => []
  | item :: rest => display item :: displays rest

end

/-- Several values make an array, a single one stands alone. -/
def ofItems : List Value → Value
  | [item] => item
  | items => .array items

/-- The elements that a value brings: the items of an array, or itself. -/
def elements : Value → List Value
  | .array items => items
  | value => [value]

end Value

end PlcTags

import PlcTags.Json.Printer
import PlcTags.Json.Reader
import PlcTags.Value.Basic

/-!
# Values in JSON

A value is an object with its kind under `type` and its content under `value`, or an array of the
two. Other fields are ignored. Content that an object has before its tag is kept until the kind is
known, and the tags below it have more forms.

* `Value.toJson?` writes a value; floats have no JSON text.
* `Value.ofJson?` reads a value. Integers may stand for floats, but not the other way round.
-/

namespace PlcTags

/-- The kind of a value. -/
inductive Kind
  | bool
  | number (type : ScalarType)
  | text
  | bytes
  | array
  deriving DecidableEq, Repr

namespace Kind

/-- The name of a kind. -/
def name : Kind → String
  | .bool => "Bool"
  | .number (.integer true .one) => "Int8"
  | .number (.integer false .one) => "UInt8"
  | .number (.integer true .two) => "Int16"
  | .number (.integer false .two) => "UInt16"
  | .number (.integer true .four) => "Int32"
  | .number (.integer false .four) => "UInt32"
  | .number (.integer true .eight) => "Int64"
  | .number (.integer false .eight) => "UInt64"
  | .number .binary32 => "Float32"
  | .number .binary64 => "Float64"
  | .text => "Text"
  | .bytes => "Bytes"
  | .array => "Array"

/-- All kinds. -/
def all : List Kind :=
  [.bool,
   .number (.integer true .one), .number (.integer false .one),
   .number (.integer true .two), .number (.integer false .two),
   .number (.integer true .four), .number (.integer false .four),
   .number (.integer true .eight), .number (.integer false .eight),
   .number .binary32, .number .binary64,
   .text, .bytes, .array]

/-- The kind of a name. -/
def ofName? (name : String) : Option Kind :=
  all.find? fun kind => kind.name == name

/-- The kind of a number: kinds are counted from zero. -/
def ofNumber? (n : Int) : Option Kind :=
  if 0 ≤ n then all[n.toNat]? else none

end Kind

namespace Value

/-- The kind of a value. -/
def kind : Value → Kind
  | .bool _ => .bool
  | .number scalar => .number scalar.type
  | .text _ => .text
  | .bytes _ => .bytes
  | .array _ => .array

/-- The object of a kind and a content. -/
def tagged (kind : Kind) (content : Json) : Json :=
  .record [("type", .string kind.name), ("value", content)]

mutual

/-- The JSON form of a value without floats. -/
def toJson? : Value → Option Json
  | .bool flag => some (tagged .bool (.bool flag))
  | .number scalar => scalar.toInt?.map fun n => tagged (.number scalar.type) (.int n)
  | .text value => some (tagged .text (.string value))
  | .bytes octets => some (tagged .bytes (.array (octets.map fun b => .int b.toNat)))
  | .array items => (toJsons? items).map fun items => tagged .array (.array items)

/-- The JSON forms of values without floats. -/
def toJsons? : List Value → Option (List Json)
  | [] => some []
  | item :: rest => do
    let first ← toJson? item
    let others ← toJsons? rest
    pure (first :: others)

end

/-- The compact JSON text of a value without floats. -/
def jsonText? (value : Value) : Option String :=
  value.toJson?.map Json.compact

/-- When a part is read: at once, or kept until the kind of the value around it is known. Tags in kept
parts have more forms. -/
inductive Reading
  | atOnce
  | kept
  deriving DecidableEq, Repr

/-- The kind that the tag of an object names: a text, or an object whose one field, under the name of
the kind, is null. In a kept part an object without fields does for null. -/
def kindOfTag? (reading : Reading) (depth : Nat) : Json → Option Kind
  | .string name => Kind.ofName? name
  | .object [(some name, .null)] => if 0 < depth then Kind.ofName? name else none
  | .object [(some name, .object [])] => if reading = .kept then Kind.ofName? name else none
  | _ => none

/-- The kind that the first item of an array names: a text, or in a kept part the number of the
kind. -/
def kindOfItem? (reading : Reading) : Json → Option Kind
  | .string name => Kind.ofName? name
  | .number n => if reading = .kept then n.toInt?.bind Kind.ofNumber? else none
  | _ => none

/-- The number that a JSON number gives in a type. -/
def numberOfJson? (type : ScalarType) (n : Json.Number) : Option Value :=
  match type with
  | .integer _ _ => (n.toInt?.bind (Scalar.ofInt? type)).map .number
  | .binary32 => n.single?.map fun word => .number ⟨.binary32, BitVec.ofNat _ word⟩
  | .binary64 => n.double?.map fun word => .number ⟨.binary64, BitVec.ofNat _ word⟩

/-- The octets of an array of numbers. -/
def octetsOfJson? (items : List Json) : Option (List UInt8) :=
  items.mapM fun item => (item.toNatBelow? 256).map UInt8.ofNat

/-- The parts of a value: its kind, and its content with the way to read it. -/
structure Tagged where
  kind : Kind
  content : Json
  reading : Reading

/-- Does the content of an object come before its tag? -/
def contentFirst (fields : List (Option String × Json)) : Bool :=
  (fields.find? fun field => field.1 == some "type" || field.1 == some "value").any fun field =>
    field.1 == some "value"

/-- The parts of an object. Content that comes before the tag is kept, and for that all of it must be
readable. -/
def taggedFields? (reading : Reading) (depth : Nat) (fields : List (Option String × Json)) :
    Option Tagged := do
  let tag ← (← Json.single? "type" fields)
  let content ← (← Json.single? "value" fields)
  let kind ← kindOfTag? reading depth tag
  if contentFirst fields then
    if content.readable depth then pure ⟨kind, content, .kept⟩ else none
  else pure ⟨kind, content, reading⟩

/-- The parts of a JSON form. -/
def tagged? (reading : Reading) (depth : Nat) : Json → Option Tagged
  | .array [tag, content] =>
    (kindOfItem? reading tag).map fun kind => ⟨kind, content, reading⟩
  | .object fields =>
    if fields.all fun field => field.1.isSome then taggedFields? reading depth fields else none
  | _ => none

/-- The value of a JSON form that may nest to a depth. -/
def ofJsonWithin? : (depth : Nat) → Reading → Json → Option Value
  | 0, _, _ => none
  | depth + 1, reading, json => do
    let parts ← tagged? reading depth json
    match parts.kind, parts.content with
    | .bool, .bool flag => some (.bool flag)
    | .number type, .number n => numberOfJson? type n
    | .text, .string value => some (.text value)
    | .bytes, .array items =>
      if 0 < depth then (octetsOfJson? items).map .bytes else none
    | .array, .array items =>
      match depth with
      | 0 => none
      | inner + 1 => (items.mapM (ofJsonWithin? inner parts.reading)).map .array
    | _, _ => none

/-- The value of a JSON form. -/
def ofJson? (json : Json) : Option Value :=
  ofJsonWithin? Json.depthLimit .atOnce json

/-- The value that a JSON text writes. -/
def ofJsonText? (text : String) : Option Value :=
  (Json.parse? text).bind ofJson?

end Value

end PlcTags

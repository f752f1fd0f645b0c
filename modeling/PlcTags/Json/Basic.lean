import PlcTags.Json.Number

/-!
# JSON values

A value keeps what a strict reader has to know: numbers as they are written, the fields of an object
in their order with repetitions, and whether a text had escapes that leave half a surrogate pair.
Such a text has no characters; it is kept so that it can be skipped.
-/

namespace PlcTags

/-- A JSON value. -/
inductive Json
  | null
  | bool (value : Bool)
  | number (value : Json.Number)
  | string (value : String)
  | unpaired
  | array (items : List Json)
  | object (fields : List (Option String × Json))
  deriving Inhabited, Repr

namespace Json

/-- How deep arrays and objects that are read may nest. -/
def depthLimit : Nat := 127

/-- A whole number. -/
def int (n : Int) : Json :=
  .number (.ofInt n)

/-- An object with given fields. -/
def record (fields : List (String × Json)) : Json :=
  .object (fields.map fun field => (some field.1, field.2))

mutual

/-- Every part of the value can be read: it nests within the limit, its numbers are not too large,
and its texts have characters. -/
def readable (depth : Nat) : Json → Bool
  | .null | .bool _ | .string _ => true
  | .number n => n.double?.isSome
  | .unpaired => false
  | .array items => match depth with
    | 0 => false
    | inner + 1 => readableItems inner items
  | .object fields => match depth with
    | 0 => false
    | inner + 1 => readableFields inner fields

/-- Every item can be read. -/
def readableItems (depth : Nat) : List Json → Bool
  | [] => true
  | item :: rest => readable depth item && readableItems depth rest

/-- Every field can be read. -/
def readableFields (depth : Nat) : List (Option String × Json) → Bool
  | [] => true
  | (key, value) :: rest => key.isSome && readable depth value && readableFields depth rest

end

/-- The value of a field that must not be repeated: nothing if it is, `some none` if it is absent. -/
def single? (name : String) (fields : List (Option String × Json)) : Option (Option Json) :=
  match fields.filter fun field => field.1 == some name with
  | [] => some none
  | [field] => some (some field.2)
  | _ => none

/-- The fields of a record in the order of their names. A record is an object, whose other fields
are ignored, or an array, whose items stand in that order and may be missing at the end. -/
def fields? (names : List String) : Json → Option (List (Option Json))
  | .object fields =>
    if fields.all fun field => field.1.isSome then names.mapM fun name => single? name fields
    else none
  | .array items =>
    if items.length ≤ names.length then
      some (items.map some ++ List.replicate (names.length - items.length) none)
    else none
  | _ => none

/-- A text with characters. -/
def toText? : Json → Option String
  | .string value => some value
  | _ => none

/-- A truth value. -/
def toBool? : Json → Option Bool
  | .bool value => some value
  | _ => none

/-- A whole number within bounds. -/
def toIntWithin? (low high : Int) : Json → Option Int
  | .number n => n.toInt?.filter fun i => low ≤ i ∧ i ≤ high
  | _ => none

/-- A whole number from zero to below a bound. -/
def toNatBelow? (bound : Nat) (value : Json) : Option Nat :=
  (value.toIntWithin? 0 (bound - 1)).map Int.toNat

/-- The items of an array. -/
def toItems? : Json → Option (List Json)
  | .array items => some items
  | _ => none

end Json

end PlcTags

import PlcTags.Layout.Error
import PlcTags.Layout.Primitive
import PlcTags.Text.Blank
import PlcTags.Text.Numeral
import PlcTags.Text.Split

/-!
# Members

A member of a structure is one element or an array of elements, and an element is a primitive or
another structure. Its text is a keyword, `STRING[n]`, the name of a structure, or
`ARRAY[low..high] OF element`.

* `Member.parse` reads a member text; `Member.text` writes it.
* `Member.declared` is how many elements the bounds enclose, `Member.count` how many a layout holds.

Bounds and capacities fit words of 64 bits (`Text.wordLimit`), and the elements are counted in such a
word too. An array over all indices of a word declares one element more than that, and its count wraps
to zero.
-/

namespace PlcTags.Layout

open PlcTags.Text

/-- What a member or an array holds. -/
inductive Element
  | primitive (kind : Primitive)
  | struct (name : String)
  deriving DecidableEq, Repr

/-- A member of a structure; both bounds of an array belong to it. -/
inductive Member
  | single (element : Element)
  | array (low high : Nat) (element : Element)
  deriving DecidableEq, Repr

/-- The text of an element. -/
def Element.text : Element → String
  | .primitive kind => kind.keyword
  | .struct name => name

/-- The capacity in `STRING[n]`: at least one, blanks around the number allowed. -/
def stringCapacity? (text : List Char) : Option Nat := do
  let opened ← "STRING[".toList.isPrefixOf? text
  let inner ← dropLast? ']' opened
  (unsigned? wordLimit (trim inner)).filter (1 ≤ ·)

/-- An element: a keyword, a string with its capacity, or the name of a structure. Everything that
begins with `STRING` is meant as a string. -/
def Element.parse (owner : String) (text : List Char) : Except DefinitionError Element :=
  match Primitive.ofKeyword? (String.ofList text) with
  | some kind => .ok (.primitive kind)
  | none =>
    if "STRING".toList.isPrefixOf text then
      match stringCapacity? text with
      | some capacity => .ok (.primitive (.string capacity))
      | none => .error (.malformedString owner (String.ofList text))
    else .ok (.struct (String.ofList text))

/-- The element text after the bounds: `OF`, at least one blank, and what is left without blanks at
its ends. -/
def elementText? (tail : List Char) : Option (List Char) := do
  let after ← "OF".toList.isPrefixOf? (tail.dropWhile isBlank)
  let first ← after.head?
  if isBlank first then
    let element := trim after
    if element.isEmpty then none else some element
  else none

/-- The parts of an array text after its opening bracket: the bounds and the element. -/
def arrayParts (rest : List Char) : Except ArrayFault (Nat × Nat × List Char) := do
  let (bounds, tail) ← (cut? ']' rest).elim (.error .unclosed) .ok
  let (lowText, highText) ← (cutAt? ['.', '.'] bounds).elim (.error .noBounds) .ok
  let low ← (unsigned? wordLimit (trim lowText)).elim (.error .badLow) .ok
  let high ← (unsigned? wordLimit (trim highText)).elim (.error .badHigh) .ok
  if high < low then .error .reversed
  else
    let element ← (elementText? tail).elim (.error .noElement) .ok
    if "ARRAY".toList.isPrefixOf element then .error .nested
    else .ok (low, high, element)

namespace Member

/-- How many elements the bounds of a member declare. -/
def declared : Member → Nat
  | .single _ => 1
  | .array low high _ => high - low + 1

/-- **The count of a member**: the declared elements in a word of 64 bits, which wraps. -/
def count (member : Member) : Nat :=
  member.declared % wordLimit

/-- A member text without blanks at its ends. -/
def parseTrimmed (owner : String) (text : List Char) : Except DefinitionError Member :=
  if text.isEmpty then .error (.emptyMember owner)
  else
    match "ARRAY[".toList.isPrefixOf? text with
    | none => (Element.parse owner text).map .single
    | some rest =>
      match arrayParts rest with
      | .error fault => .error (.malformedArray owner (String.ofList text) fault)
      | .ok (low, high, element) => (Element.parse owner element).map (.array low high)

/-- A member text of the structure `owner`. -/
def parse (owner text : String) : Except DefinitionError Member :=
  parseTrimmed owner (trim text.toList)

/-- The text of a member. -/
def text : Member → String
  | .single element => element.text
  | .array low high element => s!"ARRAY[{low}..{high}] OF " ++ element.text

end Member

end PlcTags.Layout

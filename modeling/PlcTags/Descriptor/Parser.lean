import PlcTags.Descriptor.Basic
import PlcTags.Layout.Table

/-!
# Reading descriptors

The text of a value is five words, with the poller before them if there is one:
`[@poller] tag type count offset options`. Words stand between spaces and tabs; backslashes come in
pairs, and blanks between the two of a pair belong to the word.

* `Descriptor.parse` reads a text against the known pollers and structures.
-/

namespace PlcTags

open PlcTags.Text

/-- The words from inside a text: whether a backslash is open, and the word begun, last character
first. -/
def wordsFrom (escaped : Bool) (word : List Char) :
    List Char → Except DescriptorError (List String)
  | [] =>
    if escaped then .error .unclosedEscape
    else .ok (if word.isEmpty then [] else [String.ofList word.reverse])
  | c :: rest =>
    if c = '\\' then wordsFrom (!escaped) word rest
    else if (c = ' ' ∨ c = '\t') ∧ !escaped then
      if word.isEmpty then wordsFrom escaped [] rest
      else (wordsFrom escaped [] rest).map (String.ofList word.reverse :: ·)
    else wordsFrom escaped (c :: word) rest

/-- The words of a text. -/
def words (text : String) : Except DescriptorError (List String) :=
  wordsFrom false [] text.toList

/-- The index in the first brackets of a tag name: a whole number from one on. A name without
brackets has none. -/
def startIndex? (tag : String) : Except DescriptorError (Option Nat) :=
  match cut? '[' tag.toList with
  | none => .ok none
  | some (_, opened) =>
    match cut? ']' opened with
    | none => .error (.unclosedIndex tag)
    | some (raw, _) =>
      match signed? (trim raw) with
      | some index =>
        if 1 ≤ index then .ok (some index.toNat)
        else .error (.invalidStartIndex tag (String.ofList raw))
      | none => .error (.invalidStartIndex tag (String.ofList raw))

/-- How many elements of a type fit one message. -/
def sliceLimit (type : DataType) : Nat :=
  messageCapacity / type.width?.getD 1

/-- The element count of a value. More than one needs an indexed tag, a type that allows it, and
room in one message. -/
def sliceCount (raw : String) (indexed : Bool) (type : DataType) : Except DescriptorError Nat :=
  if raw = "none" then .ok 1
  else
    match (signed? raw.toList).filter (0 ≤ ·) with
    | none => .error (.invalidSliceCount raw)
    | some number =>
      let count := number.toNat
      if count ≤ 1 then .ok 1
      else if !indexed then .error (.sliceWithoutIndex count)
      else if !type.supportsSlices then .error (.sliceNotSupported type count)
      else if sliceLimit type < count then .error (.sliceTooLarge type count (sliceLimit type))
      else .ok count

/-- What a descriptor is read against. -/
structure Scope where
  pollers : List String
  structs : Layout.Table

/-- The poller that a text names, and the words after it. -/
def pollerWord (pollers : List String) (found : List String) :
    Except DescriptorError (Option String × List String) :=
  match found with
  | [] => .error .empty
  | first :: rest =>
    match first.toList with
    | '@' :: nameChars =>
      let name := String.ofList nameChars
      if name = initPoller then .error (.reservedPoller name)
      else if name ∈ pollers then .ok (some name, rest)
      else .error (.unknownPoller name)
    | _ => .ok (none, found)

/-- The place that an offset source gives. -/
def OffsetSource.locate (source : OffsetSource) (structs : Layout.Table) :
    Except DescriptorError Layout.LeafOffset :=
  match source with
  | .unspecified => .ok (.byte 0)
  | .literal offset => .ok (.byte offset)
  | .leaf name path =>
    match structs.resolve name path with
    | .ok offset => .ok offset
    | .error cause => .error (.offset cause)

namespace Descriptor

/-- The descriptor of the five words after the poller. -/
def ofFields (scope : Scope) (poller : Option String) (tag keyword count offset options : String) :
    Except DescriptorError Descriptor := do
  let startIndex ← startIndex? tag
  let type ← (DataType.ofKeyword? keyword).elim (.error (.unknownDataType keyword)) .ok
  let count ← sliceCount count startIndex.isSome type
  let source ← OffsetSource.parse offset
  let place ← source.locate scope.structs
  let attributes ← Attributes.parse options type
  pure
    { poller := poller
      tag := tag
      startIndex := startIndex
      type := type
      count := count
      source := source
      offset := place.position
      bitAddressed := place.isBit
      attributes := attributes
      extras := attributes.render type }

/-- The descriptor that a text declares. -/
def parse (scope : Scope) (text : String) : Except DescriptorError Descriptor := do
  let found ← words text
  let (poller, fields) ← pollerWord scope.pollers found
  match fields with
  | [tag, keyword, count, offset, options] =>
    ofFields scope poller tag keyword count offset options
  | _ => .error (.wrongFieldCount 5 fields.length)

end Descriptor

end PlcTags

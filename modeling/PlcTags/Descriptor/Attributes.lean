import PlcTags.Descriptor.Error
import PlcTags.Text.Blank
import PlcTags.Text.Numeral
import PlcTags.Text.Split

/-!
# Attributes

The options at the end of a descriptor, `key=value` pairs between `&`. Some steer how a value is
read and never reach the controller; the others are rendered into the connection string, pairs that
the library does not know first and in their order.

* `Attributes.parse` reads the options of a value of a type.
* `Attributes.render` writes what goes into the connection string.
-/

namespace PlcTags

open PlcTags.Text

/-- How strings lie in a tag. The two sizes are words of 32 bits. -/
structure StringConventions where
  zeroTerminated : Bool
  fixedLength : Bool
  counted : Bool
  countWordBytes : Nat
  padToMultipleBytes : Nat
  deriving DecidableEq, Repr

namespace StringConventions

/-- A string tag of its own: a count of two bytes, then the characters. -/
def lengthFirst : StringConventions :=
  ⟨false, false, true, 2, 0⟩

/-- A string inside a structure: its full capacity, ended by a zero. -/
def inPlace : StringConventions :=
  ⟨true, true, false, 0, 0⟩

end StringConventions

/-- The options of a value. -/
structure Attributes where
  allowPacking : Bool
  strings : StringConventions
  maxCapacity : Option Nat
  readSize : Option Nat
  readAsString : Bool
  optimise : Bool
  passthrough : List (String × String)
  deriving DecidableEq, Repr

namespace Attributes

/-- What holds without options. A value that may be merged has its strings in place. -/
def defaults (optimise : Bool) : Attributes where
  allowPacking := true
  strings := if optimise then .inPlace else .lengthFirst
  maxCapacity := none
  readSize := none
  readAsString := false
  optimise := optimise
  passthrough := []

/-- The options of a tag made for merged reads. -/
def sharedParent (allowPacking : Bool) : Attributes :=
  { defaults true with allowPacking := allowPacking }

/-- A pair of an option text: what stands before and after the first equals sign, without blanks
around, and neither empty. -/
def pair? (segment : List Char) : Except DescriptorError (String × String) :=
  match cut? '=' segment with
  | some (key, value) =>
    if (trim key).isEmpty || (trim value).isEmpty then
      .error (.invalidExtra (String.ofList segment) .notPair)
    else .ok (String.ofList (trim key), String.ofList (trim value))
  | none => .error (.invalidExtra (String.ofList segment) .notPair)

/-- The pairs of an option text. Nothing, `none` and `0` mean no options, and empty segments are
skipped. -/
def pairs (text : String) : Except DescriptorError (List (String × String)) :=
  let content := trim text.toList
  if content.isEmpty || content == "none".toList || content == ['0'] then .ok []
  else ((content.splitOn '&').filter fun segment => !segment.isEmpty).mapM pair?

/-- A flag is `0` or `1`. -/
def flag? (key value : String) : Except DescriptorError Bool :=
  if value = "0" then .ok false
  else if value = "1" then .ok true
  else .error (.invalidExtra s!"{key}={value}" .notFlag)

/-- A count is an unsigned numeral of 64 bits. -/
def count? (key value : String) : Except DescriptorError Nat :=
  match unsigned? wordLimit value.toList with
  | some count => .ok count
  | none => .error (.invalidExtra s!"{key}={value}" .notCount)

/-- A number cut to 32 bits. -/
def low32 (n : Nat) : Nat :=
  n % halfWordLimit

/-- The options with one more pair. Reading as text is for times only, and a string capacity is kept
only for types with strings; a key that is not known is passed on. -/
def apply (type : DataType) (attrs : Attributes) (pair : String × String) :
    Except DescriptorError Attributes :=
  let (key, value) := pair
  match key with
  | "optimise" => .ok attrs
  | "offset_read_size" => (count? key value).map fun n => { attrs with readSize := some n }
  | "read_as_string" => (flag? key value).map fun b =>
      if b && type != .time then attrs else { attrs with readAsString := b }
  | "allow_packing" => (flag? key value).map fun b => { attrs with allowPacking := b }
  | "str_is_zero_terminated" => (flag? key value).map fun b =>
      { attrs with strings := { attrs.strings with zeroTerminated := b } }
  | "str_is_fixed_length" => (flag? key value).map fun b =>
      { attrs with strings := { attrs.strings with fixedLength := b } }
  | "str_is_counted" => (flag? key value).map fun b =>
      { attrs with strings := { attrs.strings with counted := b } }
  | "str_count_word_bytes" => (count? key value).map fun n =>
      { attrs with strings := { attrs.strings with countWordBytes := low32 n } }
  | "str_pad_to_multiple_bytes" => (count? key value).map fun n =>
      { attrs with strings := { attrs.strings with padToMultipleBytes := low32 n } }
  | "str_max_capacity" => (count? key value).map fun n =>
      if type.carriesStrings then
        { attrs with maxCapacity := some n, passthrough := attrs.passthrough ++ [pair] }
      else attrs
  | _ => .ok { attrs with passthrough := attrs.passthrough ++ [pair] }

/-- May the value be merged? The last `optimise` pair decides. -/
def optimiseFlag (pairs : List (String × String)) : Except DescriptorError Bool :=
  match pairs.reverse.find? fun pair => pair.1 == "optimise" with
  | some (key, value) => flag? key value
  | none => .ok false

/-- The options that a text gives to a value of a type. -/
def parse (text : String) (type : DataType) : Except DescriptorError Attributes := do
  let found ← pairs text
  let optimise ← optimiseFlag found
  found.foldlM (apply type) (defaults optimise)

/-- A flag as a digit. -/
def flagText (b : Bool) : String :=
  if b then "1" else "0"

/-- The rendered pairs: those passed on, packing, and for types with strings how strings lie. -/
def renderedPairs (attrs : Attributes) (type : DataType) : List (String × String) :=
  attrs.passthrough ++ [("allow_packing", flagText attrs.allowPacking)] ++
    if type.carriesStrings then
      [("str_is_zero_terminated", flagText attrs.strings.zeroTerminated),
       ("str_is_fixed_length", flagText attrs.strings.fixedLength),
       ("str_is_counted", flagText attrs.strings.counted),
       ("str_count_word_bytes", toString attrs.strings.countWordBytes),
       ("str_pad_to_multiple_bytes", toString attrs.strings.padToMultipleBytes)]
    else []

/-- What goes to the end of the connection string. -/
def render (attrs : Attributes) (type : DataType) : String :=
  String.join ((attrs.renderedPairs type).map fun pair => s!"&{pair.1}={pair.2}")

end Attributes

end PlcTags

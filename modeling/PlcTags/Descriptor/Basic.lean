import PlcTags.Descriptor.Attributes
import PlcTags.Descriptor.OffsetSource

/-!
# Value descriptors

What a value is: who polls it, the tag that holds it, its type and element count, and where it lies.

* `dottedParent?` cuts a tag name at its last dot outside brackets.
* `Descriptor.connection` is the text that creates the tag of a value.
-/

namespace PlcTags

/-- The poller of values that name none; they are read once, after the merge pass. -/
def initPoller : String := "driverInitPoller"

/-- What stands before the last dot at bracket depth zero, from a depth on. A closing bracket
without an opening one does not count. -/
def beforeLastDot? (depth : Nat) : List Char → Option (List Char)
  | [] => none
  | c :: rest =>
    let inner := if c = '[' then depth + 1 else if c = ']' then depth - 1 else depth
    match beforeLastDot? inner rest with
    | some before => some (c :: before)
    | none => if c = '.' ∧ depth = 0 then some [] else none

/-- The tag that a dotted name is a member of. -/
def dottedParent? (tag : String) : Option String :=
  ((beforeLastDot? 0 tag.toList).filter fun parent => !parent.isEmpty).map String.ofList

/-- The creation text of a tag: the route to the controller, the tag, its element count, and the
rendered options. -/
def connectionText (route tag : String) (count : Nat) (extras : String) : String :=
  s!"{route}&name={tag}&elem_count={count}" ++ extras

/-- A value as its text declares it. The offset counts bits when the value is bit addressed. -/
structure Descriptor where
  poller : Option String
  tag : String
  startIndex : Option Nat
  type : DataType
  count : Nat
  source : OffsetSource
  offset : Nat
  bitAddressed : Bool
  attributes : Attributes
  extras : String
  deriving DecidableEq, Repr

namespace Descriptor

/-- The poller that reads the value. -/
def pollerName (d : Descriptor) : String :=
  d.poller.getD initPoller

/-- The elements of the tag of the value. A tag for merged reads holds one. -/
def elementCount (d : Descriptor) : Nat :=
  if d.attributes.optimise then 1 else d.count

/-- The tag that could serve the value together with others: its own one if it may be merged, else
the one that its name is a member of. -/
def parent? (d : Descriptor) : Option String :=
  if d.attributes.optimise then some d.tag else dottedParent? d.tag

/-- Does the offset tell where the value lies in the structure that its name is a member of? -/
def liesInParent (d : Descriptor) : Bool :=
  !d.attributes.optimise && (dottedParent? d.tag).isSome

/-- The creation text of the value's own tag. -/
def connection (d : Descriptor) (route : String) : String :=
  connectionText route d.tag d.elementCount d.extras

end Descriptor

end PlcTags

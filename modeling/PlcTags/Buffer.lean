import PlcTags.Text.Utf8
import PlcTags.Value.Scalar

/-!
# Tag buffers

The octets of a tag, and typed access to them. An access that does not lie within the buffer fails
and changes nothing.

* `read?` and `write?` are the two accesses that all others are made of, apart from single bits.
* `length_write`: a write keeps the length.
-/

namespace PlcTags

/-- Why an access to a tag fails, by the code of the tag library. -/
inductive TagFault
  | badReply
  | notFound
  | nullHandle
  | outOfBounds
  deriving DecidableEq, Repr

namespace TagFault

/-- The code of a fault. -/
def code : TagFault → Int
  | .badReply => -8
  | .notFound => -19
  | .nullHandle => -25
  | .outOfBounds => -27

/-- The name of a code. -/
def codeText (code : Int) : String :=
  if code = -8 then "PLCTAG_ERR_BAD_REPLY"
  else if code = -19 then "PLCTAG_ERR_NOT_FOUND"
  else if code = -25 then "PLCTAG_ERR_NULL_PTR"
  else if code = -27 then "PLCTAG_ERR_OUT_OF_BOUNDS"
  else s!"PLCTAG_ERR_{code}"

/-- The name of a fault. -/
def text (fault : TagFault) : String :=
  codeText fault.code

/-- The text of a failed buffer access. -/
def accessMessage (fault : TagFault) : String :=
  s!"buffer access failed ({fault.code}): {fault.text}"

end TagFault

/-- The octets of a tag. -/
abbrev Buffer := List UInt8

namespace Buffer

/-- The octets of a stretch. -/
def read? (buffer : Buffer) (offset length : Nat) : Except TagFault (List UInt8) :=
  if offset + length ≤ buffer.length then .ok ((buffer.drop offset).take length)
  else .error .outOfBounds

/-- The buffer with other octets from a position on. -/
def write? (buffer : Buffer) (offset : Nat) (octets : List UInt8) : Except TagFault Buffer :=
  if offset + octets.length ≤ buffer.length then
    .ok (buffer.take offset ++ octets ++ buffer.drop (offset + octets.length))
  else .error .outOfBounds

/-- A bit, counted from the lowest bit of the first octet. -/
def bit? (buffer : Buffer) (index : Nat) : Except TagFault Bool :=
  match buffer[index / 8]? with
  | some octet => .ok (octet.toNat.testBit (index % 8))
  | none => .error .outOfBounds

/-- An octet with one bit set or cleared. -/
def withBit (octet : UInt8) (index : Nat) (flag : Bool) : UInt8 :=
  let mask : UInt8 := UInt8.ofNat (Number.twoTo index)
  if flag then octet ||| mask else octet &&& ~~~mask

/-- The buffer with one bit set or cleared. -/
def setBit? (buffer : Buffer) (index : Nat) (flag : Bool) : Except TagFault Buffer :=
  match buffer[index / 8]? with
  | some octet => .ok (buffer.set (index / 8) (withBit octet (index % 8) flag))
  | none => .error .outOfBounds

/-- The scalar at a position. -/
def scalar? (buffer : Buffer) (offset : Nat) (type : ScalarType) : Except TagFault Scalar :=
  (buffer.read? offset type.bytes).map (Scalar.ofOctets type)

/-- The buffer with a scalar at a position. -/
def setScalar? (buffer : Buffer) (offset : Nat) (scalar : Scalar) : Except TagFault Buffer :=
  buffer.write? offset scalar.toOctets

/-- The largest length of a counted string. -/
def stringLimit : Nat := 65535

/-- The counted string at a position: two octets of length, then its octets. -/
def string? (buffer : Buffer) (offset : Nat) : Except TagFault String := do
  let count ← buffer.read? offset 2
  let octets ← buffer.read? (offset + 2) (ofOctets count)
  pure (String.ofList (Text.Utf8.decode octets))

/-- The buffer with a counted string at a position. -/
def setString? (buffer : Buffer) (offset : Nat) (value : String) : Except TagFault Buffer :=
  let text := Text.Utf8.encode value.toList
  if text.length ≤ stringLimit then buffer.write? offset (octets 2 text.length ++ text)
  else .error .outOfBounds

theorem length_write {buffer changed : Buffer} {offset : Nat} {octets : List UInt8}
    (h : buffer.write? offset octets = .ok changed) : changed.length = buffer.length := by
  unfold write? at h
  split at h
  · next hle =>
    cases h
    simp only [List.length_append, List.length_take, List.length_drop]
    omega
  · cases h

end Buffer

end PlcTags

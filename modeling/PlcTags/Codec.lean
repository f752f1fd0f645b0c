import PlcTags.Buffer
import PlcTags.Calendar
import PlcTags.Descriptor.Basic
import PlcTags.Value.Basic

/-!
# Decoding and encoding

Values out of tag buffers and into them. Numbers have their little end first. A flag that is not
bit addressed is the lowest bit of two octets. A string in a shared buffer, or of a tag for merged
reads, has a fixed capacity and ends at its first zero; other strings begin with their length. A time
counts nanoseconds from 1970.

* `decode` reads the field of a descriptor from a buffer.
* `encode` writes a value into the field. Elements are written one after the other, so those before
  an error stay written; a value of the wrong number of elements writes nothing.
* Element offsets are addresses of 64 bits: one that would not fit is an error, never another
  element.
-/

namespace PlcTags

open PlcTags.Text (wordLimit)

/-- Why a value cannot be decoded or encoded. -/
inductive DecodeError
  | buffer (fault : TagFault)
  | outOfRange (offset length size : Nat)
  | timeOutOfRange (nanos : Nat)
  | typeMismatch (type : DataType) (got : String)
  | offsetOverflow (base index : Nat)
  | elementCount (expected got : Nat)
  deriving DecidableEq, Repr

namespace DecodeError

/-- The text of an error. -/
def message : DecodeError → String
  | .buffer fault => "decode error: " ++ fault.accessMessage
  | .outOfRange offset length size =>
    s!"decode error: {length} bytes at offset {offset} exceed buffer of {size} bytes"
  | .timeOutOfRange nanos => s!"decode error: TIME value {nanos} ns is out of range"
  | .typeMismatch type got => s!"decode error: cannot write {got} into " ++ type.keyword
  | .offsetOverflow base index =>
    s!"decode error: element {index} past offset {base} overflows the buffer address range"
  | .elementCount expected got => s!"decode error: expected {expected} elements, got {got}"

end DecodeError

/-- How a buffer is to be read: does it serve several values, and how many hours the controller
clock is ahead. -/
structure DecodeOptions where
  shared : Bool := false
  zone : BitVec 64 := 0
  deriving DecidableEq, Repr

/-- A buffer fault as the reason of a failed decoding. -/
def liftFault {α : Type} : Except TagFault α → Except DecodeError α
  | .ok a => .ok a
  | .error fault => .error (.buffer fault)

namespace Descriptor

/-- Where the field of a value starts. In its own tag a member of a structure starts at the
beginning. -/
def base (d : Descriptor) (options : DecodeOptions) : Nat :=
  if !options.shared && d.liesInParent then 0 else d.offset

/-- How many elements are read and written. -/
def elements (d : Descriptor) : Nat :=
  max d.count 1

/-- The capacity of a string that lies in place. -/
def stringCapacity? (d : Descriptor) (options : DecodeOptions) : Option Nat :=
  if options.shared || d.attributes.optimise then d.attributes.maxCapacity else none

end Descriptor

/-- The address of an element. -/
def elementOffset (base index width : Nat) : Except DecodeError Nat :=
  if index * width < wordLimit ∧ base + index * width < wordLimit then .ok (base + index * width)
  else .error (.offsetOverflow base index)

/-- The bit of a flag: consecutive bits when bit addressed, else the lowest bit of two octets. -/
def flagBit (bitAddressed : Bool) (base index : Nat) : Except DecodeError Nat :=
  if bitAddressed then
    if base + index < wordLimit then .ok (base + index) else .error (.offsetOverflow base index)
  else
    match elementOffset base index 2 with
    | .ok offset =>
      if 8 * offset < wordLimit then .ok (8 * offset) else .error (.offsetOverflow base index)
    | .error cause => .error cause

/-- The text of a controller time. -/
def timeText (nanos : Nat) (zone : BitVec 64) : Except DecodeError String :=
  match Calendar.Instant.text? (Calendar.plcInstant nanos zone) with
  | some text => .ok text
  | none => .error (.timeOutOfRange nanos)

/-! ## Decoding -/

/-- The elements from an index on, as many as are left. -/
def readElements (read : Nat → Except DecodeError Value) :
    (left index : Nat) → Except DecodeError (List Value)
  | 0, _ => .ok []
  | left + 1, index => do
    let value ← read index
    let rest ← readElements read left (index + 1)
    pure (value :: rest)

/-- A flag. -/
def decodeFlag (buffer : Buffer) (bitAddressed : Bool) (base index : Nat) :
    Except DecodeError Value := do
  let position ← flagBit bitAddressed base index
  let flag ← liftFault (buffer.bit? position)
  pure (.bool flag)

/-- A scalar. -/
def decodeScalar (buffer : Buffer) (type : ScalarType) (base index : Nat) :
    Except DecodeError Value := do
  let offset ← elementOffset base index type.bytes
  let scalar ← liftFault (buffer.scalar? offset type)
  pure (.number scalar)

/-- A time: its eight octets, or its text. -/
def decodeTime (buffer : Buffer) (asText : Bool) (zone : BitVec 64) (base index : Nat) :
    Except DecodeError Value := do
  let offset ← elementOffset base index 8
  let octets ← liftFault (buffer.read? offset 8)
  if asText then
    let text ← timeText (ofOctets octets) zone
    pure (.text text)
  else pure (.bytes octets)

/-- A string: counted, or of fixed capacity and then cut at the end of the buffer and at its first
zero. -/
def decodeString (buffer : Buffer) (capacity : Option Nat) (base : Nat) :
    Except DecodeError Value :=
  match capacity with
  | none => (liftFault (buffer.string? base)).map .text
  | some capacity =>
    if buffer.length ≤ base then .error (.outOfRange base capacity buffer.length)
    else do
      let octets ← liftFault (buffer.read? base (min capacity (buffer.length - base)))
      pure (.text (String.ofList (Text.Utf8.decode (octets.takeWhile (· ≠ 0)))))

/-- The octets of a structure: as many as told, else up to the end of the buffer. -/
def decodeUdt (buffer : Buffer) (readSize : Option Nat) (base : Nat) : Except DecodeError Value :=
  let length := readSize.getD (buffer.length - base)
  if base + length ≤ buffer.length then (liftFault (buffer.read? base length)).map .bytes
  else .error (.outOfRange base length buffer.length)

/-- The value of a descriptor in a buffer. -/
def decode (buffer : Buffer) (d : Descriptor) (options : DecodeOptions) :
    Except DecodeError Value :=
  let base := d.base options
  match d.type, ScalarType.ofDataType? d.type with
  | .string, _ => decodeString buffer (d.stringCapacity? options) base
  | .udt, _ => decodeUdt buffer d.attributes.readSize base
  | .bool, _ =>
    (readElements (decodeFlag buffer d.bitAddressed base) d.elements 0).map .ofItems
  | .time, _ => do
    let _ ← elementOffset base d.elements 8
    let values ← readElements
      (decodeTime buffer d.attributes.readAsString options.zone base) d.elements 0
    pure (.ofItems values)
  | _, some type => do
    let _ ← elementOffset base d.elements type.bytes
    let values ← readElements (decodeScalar buffer type base) d.elements 0
    pure (.ofItems values)
  | type, none => .error (.typeMismatch type "numeric read")

/-! ## Encoding -/

/-- Writing elements from an index on: the buffer after them, and the error that stopped it. -/
def writeElements (write : Buffer → Nat → Value → Except DecodeError Buffer) (buffer : Buffer)
    (index : Nat) : List Value → Buffer × Except DecodeError Unit
  | [] => (buffer, .ok ())
  | value :: rest =>
    match write buffer index value with
    | .ok changed => writeElements write changed (index + 1) rest
    | .error cause => (buffer, .error cause)

/-- The buffer with a flag. -/
def encodeFlag (mismatch : DecodeError) (bitAddressed : Bool) (base : Nat) (buffer : Buffer)
    (index : Nat) (value : Value) : Except DecodeError Buffer :=
  match value with
  | .bool flag => do
    let position ← flagBit bitAddressed base index
    liftFault (buffer.setBit? position flag)
  | _ => .error mismatch

/-- The buffer with a scalar. -/
def encodeScalar (mismatch : DecodeError) (type : ScalarType) (base : Nat) (buffer : Buffer)
    (index : Nat) (value : Value) : Except DecodeError Buffer :=
  match value with
  | .number scalar =>
    match scalar.as? type with
    | some stored => do
      let offset ← elementOffset base index type.bytes
      liftFault (buffer.setScalar? offset stored)
    | none => .error mismatch
  | _ => .error mismatch

/-- A write that does nothing when it fails. -/
def wholeWrite (buffer : Buffer) : Except DecodeError Buffer → Buffer × Except DecodeError Unit
  | .ok changed => (changed, .ok ())
  | .error cause => (buffer, .error cause)

/-- Octets cut or filled with zeros to a length. -/
def fitted (length : Nat) (octets : List UInt8) : List UInt8 :=
  octets.take length ++ List.replicate (length - octets.length) 0

/-- The buffer with a string. -/
def encodeString (buffer : Buffer) (capacity : Option Nat) (base : Nat) (text : String) :
    Except DecodeError Buffer :=
  match capacity with
  | none => liftFault (buffer.setString? base text)
  | some capacity =>
    if base + capacity ≤ buffer.length then
      liftFault (buffer.write? base (fitted capacity (Text.Utf8.encode text.toList)))
    else .error (.outOfRange base capacity buffer.length)

/-- The elements of a value written with `write`, if there are as many as the descriptor has. -/
def encodeElements (write : Buffer → Nat → Value → Except DecodeError Buffer) (buffer : Buffer)
    (expected : Nat) (value : Value) : Buffer × Except DecodeError Unit :=
  if value.elements.length = expected then writeElements write buffer 0 value.elements
  else (buffer, .error (.elementCount expected value.elements.length))

/-- The buffer after writing the value of a descriptor, and the error if it failed. -/
def encode (buffer : Buffer) (d : Descriptor) (value : Value) (options : DecodeOptions) :
    Buffer × Except DecodeError Unit :=
  let base := d.base options
  let mismatch := DecodeError.typeMismatch d.type value.display
  match d.type, ScalarType.ofDataType? d.type with
  | .string, _ =>
    match value with
    | .text text => wholeWrite buffer (encodeString buffer (d.stringCapacity? options) base text)
    | _ => (buffer, .error mismatch)
  | .udt, _ | .time, _ =>
    match value with
    | .bytes octets => wholeWrite buffer (liftFault (buffer.write? base octets))
    | _ => (buffer, .error mismatch)
  | .bool, _ => encodeElements (encodeFlag mismatch d.bitAddressed base) buffer d.elements value
  | _, some type => encodeElements (encodeScalar mismatch type base) buffer d.elements value
  | _, none => (buffer, .error mismatch)

end PlcTags

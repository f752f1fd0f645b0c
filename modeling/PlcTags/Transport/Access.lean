import PlcTags.Transport.Plc

/-!
# Accesses to the buffers of tags

What may be asked of the buffer of a tag, and what is answered. An access that fails changes nothing:
one that does not lie within the buffer, and any at all if the handle has no tag.

* `Plc.access`: the controller after an access, and its answer.
-/

namespace PlcTags

/-- What may be asked of the buffer of a tag. -/
inductive Access
  | size
  | bit (index : Nat)
  | setBit (index : Nat) (flag : Bool)
  | scalar (offset : Nat) (type : ScalarType)
  | setScalar (offset : Nat) (scalar : Scalar)
  | octets (offset length : Nat)
  | setOctets (offset : Nat) (octets : List UInt8)
  | string (offset : Nat)
  | setString (offset : Nat) (value : String)
  deriving DecidableEq, Repr

/-- What is answered. A change that was made answers nothing more. -/
inductive Access.Answer
  | done
  | size (length : Nat)
  | bit (flag : Bool)
  | scalar (scalar : Scalar)
  | octets (octets : List UInt8)
  | string (value : String)
  deriving DecidableEq, Repr

namespace Plc

/-- What is read off the buffer of a live tag. -/
def look (plc : Plc) (handle : Nat) (read : Buffer → Except TagFault Access.Answer) :
    Plc × Except TagFault Access.Answer :=
  (plc, plc.bufferOf handle >>= read)

/-- The controller with a changed buffer for a live tag. -/
def edit? (plc : Plc) (handle : Nat) (edit : Buffer → Except TagFault Buffer) :
    Except TagFault Plc :=
  (plc.bufferOf handle >>= edit).map (plc.setBuffer handle)

/-- The controller after a change, or as it was if the change failed. -/
def changed (plc : Plc) : Except TagFault Plc → Plc × Except TagFault Access.Answer
  | .ok next => (next, .ok .done)
  | .error fault => (plc, .error fault)

/-- The controller after an access to the tag of a handle, and the answer. -/
def access (plc : Plc) (handle : Nat) : Access → Plc × Except TagFault Access.Answer
  | .size => plc.look handle fun buffer => .ok (.size buffer.length)
  | .bit index => plc.look handle fun buffer => (buffer.bit? index).map .bit
  | .setBit index flag => plc.changed (plc.edit? handle (·.setBit? index flag))
  | .scalar offset type => plc.look handle fun buffer => (buffer.scalar? offset type).map .scalar
  | .setScalar offset scalar => plc.changed (plc.edit? handle (·.setScalar? offset scalar))
  | .octets offset length => plc.look handle fun buffer => (buffer.read? offset length).map .octets
  | .setOctets offset octets => plc.changed (plc.edit? handle (·.write? offset octets))
  | .string offset => plc.look handle fun buffer => (buffer.string? offset).map .string
  | .setString offset value => plc.changed (plc.setString? handle offset value)

end Plc

end PlcTags

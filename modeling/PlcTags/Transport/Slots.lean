import PlcTags.Transport.Access

/-!
# Shared tags

Tags under names of their users' choice. A tag may stand in several slots, and it is destroyed when
it leaves the last one.

* `Slots.serve`: what can be asked of a controller whose tags stand in slots, and what becomes of it.
-/

namespace PlcTags

/-- A controller and the slots that hold tags of it. -/
structure Slots where
  plc : Plc := {}
  slots : List (String × TagRef) := []
  deriving DecidableEq, Repr

namespace Slots

/-- The tag in a slot. -/
def tag? (s : Slots) (slot : String) : Option TagRef :=
  Keyed.find? slot s.slots

/-- Is a handle in some slot? -/
def holds (s : Slots) (handle : Nat) : Bool :=
  s.slots.any fun entry => entry.2.handle == handle

/-- A tag that left a slot is destroyed if no other slot holds it. -/
def release (s : Slots) (left : Option TagRef) : Slots :=
  match left with
  | none => s
  | some tag => if s.holds tag.handle then s else { s with plc := s.plc.destroy tag.handle }

/-- Puts a tag into a slot, and releases the tag that was there. -/
def put (s : Slots) (slot : String) (tag : TagRef) : Slots :=
  { s with slots := Keyed.assign slot tag s.slots }.release (s.tag? slot)

/-- Creates a tag in a slot. A failure leaves the slot as it was. -/
def create (s : Slots) (slot connection : String) : Slots × Except TransportError TagRef :=
  match s.plc.create connection with
  | (plc, .ok tag) => ({ s with plc := plc }.put slot tag, .ok tag)
  | (plc, .error cause) => ({ s with plc := plc }, .error cause)

/-- Puts the tag of a slot into another one too. -/
def share (s : Slots) (slot other : String) : Option Slots :=
  (s.tag? slot).map fun tag => s.put other tag

/-- Empties a slot. -/
def drop (s : Slots) (slot : String) : Slots :=
  { s with slots := Keyed.remove slot s.slots }.release (s.tag? slot)

/-! ## Requests -/

/-- How a tag is named: by a slot that holds it, or by its handle. -/
inductive Target
  | slot (name : String)
  | handle (handle : Nat)
  deriving DecidableEq, Repr

/-- What can be asked. A tag may be destroyed by its handle while slots hold it. -/
inductive Request
  | store (name : String) (octets : Buffer)
  | refuse (name : String)
  | create (slot connection : String)
  | share (slot other : String)
  | drop (slot : String)
  | read (target : Target)
  | write (target : Target)
  | access (target : Target) (access : Access)
  | destroy (handle : Nat)
  deriving DecidableEq, Repr

/-- The handle of a target, if it names one. -/
def handle? (s : Slots) : Target → Option Nat
  | .slot name => (s.tag? name).map TagRef.handle
  | .handle handle => some handle

/-- The slots after an operation on the tag of a target. -/
def operate (s : Slots) (target : Target) (operation : Plc → Nat → Plc) : Slots :=
  match s.handle? target with
  | none => s
  | some handle => { s with plc := operation s.plc handle }

/-- The slots after a request. -/
def serve (s : Slots) : Request → Slots
  | .store name octets => { s with plc := s.plc.store name octets }
  | .refuse name => { s with plc := s.plc.refuse name }
  | .create slot connection => (s.create slot connection).1
  | .share slot other => (s.share slot other).getD s
  | .drop slot => s.drop slot
  | .read target => s.operate target fun plc handle => (plc.startRead handle).1
  | .write target => s.operate target fun plc handle => (plc.startWrite handle).1
  | .access target access => s.operate target fun plc handle => (plc.access handle access).1
  | .destroy handle => { s with plc := s.plc.destroy handle }

end Slots

end PlcTags

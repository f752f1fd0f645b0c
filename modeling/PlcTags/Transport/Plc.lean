import PlcTags.Keyed
import PlcTags.Text.Split
import PlcTags.Transport.Error

/-!
# The controller

A controller held in memory: what it stores under tag names, and the tags that were created on it. A
tag has a buffer of its own; a read fills the buffer from the controller, a write stores it there.
Handles count from one and are never given twice. A handle is a number of 32 bits with a sign, and the
counter here does not wrap as one of that width would, so it stands for it as long as fewer than
`Plc.handleLimit` tags are created on a controller.

Names decide what goes wrong: tags named `missing` cannot be created, reads and writes of tags named
`timeout` never complete, and reads of tags named `error` answer with a bad reply.

* `Plc.create`, `Plc.startRead`, `Plc.startWrite` and `Plc.destroy` are all that changes the tags.
* `Plc.bufferOf` is the buffer of a live tag.
-/

namespace PlcTags

open PlcTags.Text

/-- How far the last operation on a tag has come. -/
inductive TagStatus
  | pending
  | ok
  | failed (code : Int)
  deriving DecidableEq, Repr

/-- A tag as the controller sees it. -/
structure PlcTag where
  name : String
  status : TagStatus
  buffer : Buffer
  deriving DecidableEq, Repr

/-- A created tag as its user sees it. -/
structure TagRef where
  handle : Nat
  connection : String
  deriving DecidableEq, Repr

/-- A controller, its live tags by handle, and what has been asked of it. -/
structure Plc where
  tags : List (Nat × PlcTag) := []
  memory : List (String × Buffer) := []
  refused : List String := []
  created : Nat := 0
  destroyed : Nat := 0
  reads : List (String × Nat) := []
  deriving DecidableEq, Repr

/-- The tag name in a creation text: the first part that starts with `name=`, or nothing. -/
def tagNameOf (connection : String) : String :=
  let named := (connection.toList.splitOn '&').filterMap fun segment =>
    "name=".toList.isPrefixOf? segment
  String.ofList (named.head?.getD [])

/-- Does a name hold a word? -/
def nameHas (word name : String) : Bool :=
  occursIn word.toList name.toList

namespace Plc

/-- The bound of handles, which have 32 bits and a sign. -/
def handleLimit : Nat := 2147483648

/-- The length of a buffer for which nothing is stored. -/
def defaultSize : Nat := 64

/-- What is stored under a name. -/
def stored? (plc : Plc) (name : String) : Option Buffer :=
  Keyed.find? name plc.memory

/-- The controller with other octets under a name. -/
def store (plc : Plc) (name : String) (octets : Buffer) : Plc :=
  { plc with memory := Keyed.assign name octets plc.memory }

/-- The controller that refuses tags of a name. -/
def refuse (plc : Plc) (name : String) : Plc :=
  { plc with refused := name :: plc.refused }

/-- The live tag of a handle. -/
def tag? (plc : Plc) (handle : Nat) : Option PlcTag :=
  Keyed.find? handle plc.tags

/-- The handles of live tags. -/
def live (plc : Plc) : List Nat :=
  plc.tags.map Prod.fst

/-- How often tags of a name were read. -/
def readCount (plc : Plc) (name : String) : Nat :=
  (Keyed.find? name plc.reads).getD 0

/-- Can a tag of this name be created? -/
def admits (plc : Plc) (name : String) : Bool :=
  !nameHas "missing" name && !plc.refused.contains name

/-- A new tag, if the controller lets it be created. -/
def create (plc : Plc) (connection : String) : Plc × Except TransportError TagRef :=
  let name := tagNameOf connection
  if plc.admits name then
    let handle := plc.created + 1
    let buffer := (plc.stored? name).getD (List.replicate defaultSize 0)
    ({ plc with
        tags := Keyed.assign handle ⟨name, .ok, buffer⟩ plc.tags
        created := handle },
      .ok ⟨handle, connection⟩)
  else (plc, .error (.createFailed connection TagFault.notFound.code))

/-- The controller with a changed tag. -/
def setTag (plc : Plc) (handle : Nat) (tag : PlcTag) : Plc :=
  { plc with tags := Keyed.assign handle tag plc.tags }

/-- A live tag after a read. -/
def afterRead (plc : Plc) (tag : PlcTag) : PlcTag :=
  if nameHas "timeout" tag.name then { tag with status := .pending }
  else if nameHas "error" tag.name then { tag with status := .failed TagFault.badReply.code }
  else { tag with status := .ok, buffer := (plc.stored? tag.name).getD tag.buffer }

/-- Starts a read. The answer comes at once only if there is no such tag. -/
def startRead (plc : Plc) (handle : Nat) : Plc × TagStatus :=
  match plc.tag? handle with
  | none => (plc, .failed TagFault.nullHandle.code)
  | some tag =>
    let counted :=
      { plc with reads := Keyed.assign tag.name (plc.readCount tag.name + 1) plc.reads }
    (counted.setTag handle (plc.afterRead tag), .pending)

/-- Starts a write. The answer comes at once only if there is no such tag. -/
def startWrite (plc : Plc) (handle : Nat) : Plc × TagStatus :=
  match plc.tag? handle with
  | none => (plc, .failed TagFault.nullHandle.code)
  | some tag =>
    if nameHas "timeout" tag.name then
      (plc.setTag handle { tag with status := .pending }, .pending)
    else
      ((plc.store tag.name tag.buffer).setTag handle { tag with status := .ok }, .pending)

/-- How far the last operation on a tag has come. -/
def status (plc : Plc) (handle : Nat) : TagStatus :=
  match plc.tag? handle with
  | none => .failed TagFault.nullHandle.code
  | some tag => tag.status

/-- The controller without a tag. A handle without a tag changes nothing. -/
def destroy (plc : Plc) (handle : Nat) : Plc :=
  match plc.tag? handle with
  | none => plc
  | some _ =>
    { plc with tags := Keyed.remove handle plc.tags, destroyed := plc.destroyed + 1 }

/-- The controller without the live tags whose handles are not kept. -/
def keepOnly (plc : Plc) (kept : List Nat) : Plc :=
  (plc.live.filter fun handle => !kept.contains handle).foldl destroy plc

/-- The buffer of a live tag. -/
def bufferOf (plc : Plc) (handle : Nat) : Except TagFault Buffer :=
  match plc.tag? handle with
  | none => .error .nullHandle
  | some tag => .ok tag.buffer

/-- The controller with another buffer for a live tag. -/
def setBuffer (plc : Plc) (handle : Nat) (buffer : Buffer) : Plc :=
  match plc.tag? handle with
  | none => plc
  | some tag => plc.setTag handle { tag with buffer := buffer }

/-- The controller with a counted string in the buffer of a tag. That the string is not too long is
looked at before the tag. -/
def setString? (plc : Plc) (handle offset : Nat) (value : String) : Except TagFault Plc :=
  if Buffer.stringLimit < (Utf8.encode value.toList).length then .error .outOfBounds
  else do
    let buffer ← plc.bufferOf handle
    let changed ← buffer.setString? offset value
    pure (plc.setBuffer handle changed)

/-- How many tags were created, how many were destroyed, and how many live. -/
def counts (plc : Plc) : Nat × Nat × Nat :=
  (plc.created, plc.destroyed, plc.tags.length)

end Plc

end PlcTags

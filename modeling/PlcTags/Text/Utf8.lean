/-!
# UTF-8

Characters as octets. Writing is the standard's encoding. Reading never fails: it runs over the
octets with the unfinished character as its state, and puts one replacement character for each
maximal run of octets that begins a character and cannot be continued.
-/

namespace PlcTags.Text.Utf8

/-- The octets of a text. -/
def encode (text : List Char) : List UInt8 :=
  text.flatMap String.utf8EncodeChar

/-- What stands for octets that are no character. -/
def replacement : Char := '\uFFFD'

/-- A character begun but not finished: the bits read, how many octets are still owed, and the
bounds of the next one. -/
structure Pending where
  bits : Nat
  owed : Nat
  low : Nat
  high : Nat
  deriving DecidableEq, Repr

/-- What a first octet means. -/
inductive Lead
  | char (c : Char)
  | more (pending : Pending)
  | invalid
  deriving DecidableEq, Repr

/-- The first octet tells the length of its character; the bounds of the second octet exclude long
forms, surrogates and numbers above the last code point. -/
def lead (octet : Nat) : Lead :=
  if octet < 0x80 then .char (Char.ofNat octet)
  else if octet < 0xC2 then .invalid
  else if octet < 0xE0 then .more ⟨octet - 0xC0, 1, 0x80, 0xBF⟩
  else if octet = 0xE0 then .more ⟨0, 2, 0xA0, 0xBF⟩
  else if octet = 0xED then .more ⟨0xD, 2, 0x80, 0x9F⟩
  else if octet < 0xF0 then .more ⟨octet - 0xE0, 2, 0x80, 0xBF⟩
  else if octet = 0xF0 then .more ⟨0, 3, 0x90, 0xBF⟩
  else if octet < 0xF4 then .more ⟨octet - 0xF0, 3, 0x80, 0xBF⟩
  else if octet = 0xF4 then .more ⟨4, 3, 0x80, 0x8F⟩
  else .invalid

/-- Reading from a fresh octet: the characters finished by it, and the new state. -/
def begin (octet : Nat) : List Char × Option Pending :=
  match lead octet with
  | .char c => ([c], none)
  | .more pending => ([], some pending)
  | .invalid => ([replacement], none)

/-- Reading one octet: an octet that cannot continue the pending character replaces it and is read
afresh. -/
def step (state : Option Pending) (octet : Nat) : List Char × Option Pending :=
  match state with
  | none => begin octet
  | some p =>
    if p.low ≤ octet ∧ octet ≤ p.high then
      let bits := 64 * p.bits + (octet - 0x80)
      if p.owed = 1 then ([Char.ofNat bits], none)
      else ([], some ⟨bits, p.owed - 1, 0x80, 0xBF⟩)
    else
      let fresh := begin octet
      (replacement :: fresh.1, fresh.2)

/-- The characters that the octets give from a state on. -/
def decodeFrom : Option Pending → List UInt8 → List Char
  | none, [] => []
  | some _, [] => [replacement]
  | state, octet :: rest =>
    let next := step state octet.toNat
    next.1 ++ decodeFrom next.2 rest

/-- The text of the octets. -/
def decode (octets : List UInt8) : List Char :=
  decodeFrom none octets

end PlcTags.Text.Utf8

/-!
# Hexadecimal octets

An octet is written as two lower-case digits, high half first. `ofHex?_toHex`: reading what was
written gives the octets back.
-/

namespace PlcTags.Text.Hex

/-- The digit of a number below sixteen. -/
def digitChar (n : Nat) : Char :=
  if n < 10 then Char.ofNat ('0'.toNat + n) else Char.ofNat ('a'.toNat + (n - 10))

/-- The value of a hexadecimal digit, in either case. -/
def digit? (c : Char) : Option Nat :=
  if '0' ≤ c ∧ c ≤ '9' then some (c.toNat - '0'.toNat)
  else if 'a' ≤ c ∧ c ≤ 'f' then some (c.toNat - 'a'.toNat + 10)
  else if 'A' ≤ c ∧ c ≤ 'F' then some (c.toNat - 'A'.toNat + 10)
  else none

/-- The two digits of an octet. -/
def octet (b : UInt8) : List Char :=
  [digitChar (b.toNat / 16), digitChar (b.toNat % 16)]

/-- The digits of octets, without separators. -/
def toHex (octets : List UInt8) : List Char :=
  octets.flatMap octet

/-- The octets that pairs of digits write. -/
def ofHex? : List Char → Option (List UInt8)
  | [] => some []
  | [_] => none
  | h :: l :: rest => do
    let high ← digit? h
    let low ← digit? l
    let octets ← ofHex? rest
    pure (UInt8.ofNat (16 * high + low) :: octets)

/-- The last digits of a number, high digits first, in a field of fixed width. -/
def padded (width n : Nat) : List Char :=
  match width with
  | 0 => []
  | w + 1 => padded w (n / 16) ++ [digitChar (n % 16)]

/-- The number that hexadecimal digits write. -/
def number? (text : List Char) : Option Nat :=
  if text.isEmpty then none
  else text.foldlM (fun n c => (digit? c).map (16 * n + ·)) 0

theorem digit?_digitChar {n : Nat} (h : n < 16) : digit? (digitChar n) = some n := by
  have : ∀ m : Fin 16, digit? (digitChar m) = some m.val := by decide
  exact this ⟨n, h⟩

theorem ofHex?_toHex (octets : List UInt8) : ofHex? (toHex octets) = some octets := by
  induction octets with
  | nil => rfl
  | cons b rest ih =>
    have hb : b.toNat < 256 := b.toNat_lt
    have hh : digit? (digitChar (b.toNat / 16)) = some (b.toNat / 16) := digit?_digitChar (by omega)
    have hl : digit? (digitChar (b.toNat % 16)) = some (b.toNat % 16) := digit?_digitChar (by omega)
    simp only [toHex] at ih
    simp only [toHex, List.flatMap_cons, octet, List.cons_append, List.nil_append, ofHex?, hh, hl, ih]
    show some (UInt8.ofNat (16 * (b.toNat / 16) + b.toNat % 16) :: rest) = some (b :: rest)
    rw [Nat.div_add_mod, UInt8.ofNat_toNat]

end PlcTags.Text.Hex

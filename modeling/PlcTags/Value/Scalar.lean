import PlcTags.DataType
import PlcTags.Number.Binary

/-!
# Scalars

Numbers as words of fixed width: integers with or without sign, and the two float formats. A scalar
is a type and a word of that many bits, so every scalar is in range, and its octets, little end
first, do not depend on what the word means.

* `ofOctets_octets`: reading the octets of a number gives the number back.
* `Scalar.as?` converts a scalar to a type: integers only if they fit, floats by rounding.
-/

namespace PlcTags

open Number (twoTo twoTo_zero twoTo_add_eight)

/-- The widths of integers. -/
inductive Width
  | one
  | two
  | four
  | eight
  deriving DecidableEq, Repr

/-- The octets of a width. -/
def Width.bytes : Width → Nat
  | .one => 1
  | .two => 2
  | .four => 4
  | .eight => 8

/-- What a word stands for. -/
inductive ScalarType
  | integer (signed : Bool) (width : Width)
  | binary32
  | binary64
  deriving DecidableEq, Repr

namespace ScalarType

/-- The octets of a word. -/
def bytes : ScalarType → Nat
  | .integer _ width => width.bytes
  | .binary32 => 4
  | .binary64 => 8

/-- The bits of a word. -/
def bits (type : ScalarType) : Nat :=
  8 * type.bytes

/-- The type in which a declared type is stored; flags, strings and structures are not scalars. -/
def ofDataType? : DataType → Option ScalarType
  | .sint => some (.integer true .one)
  | .usint => some (.integer false .one)
  | .int => some (.integer true .two)
  | .uint | .word => some (.integer false .two)
  | .dint => some (.integer true .four)
  | .udint | .dword => some (.integer false .four)
  | .lint => some (.integer true .eight)
  | .ulint | .lword | .time => some (.integer false .eight)
  | .real => some .binary32
  | .lreal => some .binary64
  | .bool | .string | .udt => none

end ScalarType

/-- The lowest octets of a number, little end first. -/
def octets : (count n : Nat) → List UInt8
  | 0, _ => []
  | count + 1, n => UInt8.ofNat (n % 256) :: octets count (n / 256)

/-- The number of octets, little end first. -/
def ofOctets : List UInt8 → Nat
  | [] => 0
  | b :: rest => b.toNat + 256 * ofOctets rest

theorem length_octets (count n : Nat) : (octets count n).length = count := by
  induction count generalizing n with
  | zero => rfl
  | succ count ih => simp [octets, ih]

theorem ofOctets_octets (count n : Nat) : ofOctets (octets count n) = n % twoTo (8 * count) := by
  induction count generalizing n with
  | zero => simp [octets, ofOctets, twoTo_zero, Nat.mod_one]
  | succ count ih =>
    have hb : (UInt8.ofNat (n % 256)).toNat = n % 256 := by
      rw [UInt8.toNat_ofNat']
      omega
    rw [octets, ofOctets, ih, hb, Nat.mul_succ, twoTo_add_eight, Nat.mod_mul]

theorem octets_ofOctets (bs : List UInt8) : octets bs.length (ofOctets bs) = bs := by
  induction bs with
  | nil => rfl
  | cons b rest ih =>
    have hb := b.toNat_lt
    rw [List.length_cons, octets, ofOctets, show (b.toNat + 256 * ofOctets rest) / 256 =
      ofOctets rest by omega, ih, show (b.toNat + 256 * ofOctets rest) % 256 = b.toNat by omega]
    simp

/-- A number as a word of its type. -/
structure Scalar where
  type : ScalarType
  word : BitVec type.bits
  deriving DecidableEq, Repr

namespace Scalar

/-- The octets of a scalar, little end first. -/
def toOctets (s : Scalar) : List UInt8 :=
  octets s.type.bytes s.word.toNat

/-- The scalar in octets, little end first. -/
def ofOctets (type : ScalarType) (bs : List UInt8) : Scalar :=
  ⟨type, BitVec.ofNat _ (PlcTags.ofOctets bs)⟩

/-- The value of an integer. -/
def toInt? (s : Scalar) : Option Int :=
  match s.type with
  | .integer signed _ => some (if signed then s.word.toInt else s.word.toNat)
  | _ => none

/-- The least and the largest integer of a type, if it has integers. -/
def bounds? : ScalarType → Option (Int × Int)
  | .integer signed width =>
    let bits := 8 * width.bytes
    some (if signed then (-twoTo (bits - 1), twoTo (bits - 1) - 1) else (0, twoTo bits - 1))
  | _ => none

/-- The integer as a word of an integer type that holds it. -/
def ofInt? (type : ScalarType) (n : Int) : Option Scalar :=
  match bounds? type with
  | some (low, high) => if low ≤ n ∧ n ≤ high then some ⟨type, BitVec.ofInt _ n⟩ else none
  | none => none

/-- The value in double precision. -/
def toDouble (s : Scalar) : Nat :=
  match s.type, s.word with
  | .integer signed _, word =>
    Number.binary64.ofInt (if signed then word.toInt else word.toNat)
  | .binary32, word => Number.binary32.convert Number.binary64 word.toNat
  | .binary64, word => word.toNat

/-- The scalar as another type. Integers must fit, and floats are no integers; everything becomes a
float through double precision. -/
def as? (s : Scalar) (type : ScalarType) : Option Scalar :=
  match type with
  | .integer _ _ => s.toInt?.bind (ofInt? type)
  | .binary32 =>
    some ⟨.binary32, BitVec.ofNat _ (Number.binary64.convert Number.binary32 s.toDouble)⟩
  | .binary64 => some ⟨.binary64, BitVec.ofNat _ s.toDouble⟩

end Scalar

end PlcTags

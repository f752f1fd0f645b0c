import PlcTags.Number.Binary
import PlcTags.Text.Numeral

/-!
# JSON numbers

A number keeps the digits it was written with, because a whole number, a fraction and an exponent
are read differently.

* `Number.toInt?`: a number without fraction and exponent that fits 64 bits is an integer; `-0` is
  not one.
* `Number.double?`: every number has a value in double precision, unless it is too large. The digits
  are gathered into 64 bits and then scaled by a power of ten, so long decimals may differ from the
  nearest double in the last place.
-/

namespace PlcTags.Json

open PlcTags.Number (binary64 tenTo int64Least)

/-- A number as it is written. The fraction is empty when there is no point. -/
structure Number where
  negative : Bool
  whole : List Char
  fraction : List Char
  exponent : Option (Bool × List Char)
  deriving DecidableEq, Repr

namespace Number

/-- A whole number in its shortest form. -/
def ofInt (n : Int) : Number where
  negative := n < 0
  whole := Nat.toDigits 10 n.natAbs
  fraction := []
  exponent := none

/-- Gathering digits into 64 bits: the number gathered, and the digits left when the next one would
not fit. -/
def gather (n : Nat) : List Char → Nat × List Char
  | [] => (n, [])
  | c :: rest =>
    let next := 10 * n + (c.toNat - '0'.toNat)
    if next < Text.wordLimit then gather next rest else (n, c :: rest)

/-- The value of a whole number that fits the 64-bit words, signed or not. -/
def toInt? (n : Number) : Option Int :=
  if n.fraction.isEmpty && n.exponent.isNone then
    let (magnitude, left) := gather 0 n.whole
    if !left.isEmpty then none
    else if !n.negative then some magnitude
    else if 0 < magnitude ∧ int64Least ≤ -magnitude then some (-magnitude)
    else none
  else none

/-- The product of two magnitude words of finite numbers. -/
def product (a b : Nat) : Nat :=
  match binary64.unpack a, binary64.unpack b with
  | .finite _ m p, .finite _ n q => binary64.nearest (m * n) 1 (p + q)
  | _, _ => binary64.infinityWord

/-- The quotient of two magnitude words of finite numbers, the second not zero. -/
def quotient (a b : Nat) : Nat :=
  match binary64.unpack a, binary64.unpack b with
  | .finite _ m p, .finite _ n q => binary64.nearest m n (p - q)
  | _, _ => binary64.infinityWord

/-- The magnitude word nearest to a power of ten. -/
def tenWord (n : Nat) : Nat :=
  binary64.nearest (tenTo n) 1 0

/-- A magnitude word scaled by a power of ten, at most 308 decimal places at a time; nothing when it
grows too large. -/
def scaleTen (word : Nat) (exponent : Int) : Option Nat :=
  if 0 ≤ exponent then
    if exponent ≤ 308 then
      let scaled := product word (tenWord exponent.toNat)
      if scaled = binary64.infinityWord then none else some scaled
    else if word = 0 then some 0
    else none
  else if -308 ≤ exponent then some (quotient word (tenWord (-exponent).toNat))
  else if word = 0 then some 0
  else scaleTen (quotient word (tenWord 308)) (exponent + 308)
termination_by exponent.natAbs
decreasing_by omega

/-- The bound of decimal exponents. -/
def exponentLimit : Nat := 2147483648

/-- A decimal exponent held within 32 bits. -/
def clampExponent (n : Int) : Int :=
  max (-exponentLimit) (min n (exponentLimit - 1))

/-- The magnitude of a number in double precision. -/
def magnitude? (n : Number) : Option Nat :=
  let (whole, leftWhole) := gather 0 n.whole
  let (significand, leftFraction) := gather whole n.fraction
  let place : Int := leftWhole.length - (n.fraction.length - leftFraction.length : Nat)
  let word := binary64.nearest significand 1 0
  match n.exponent with
  | none => scaleTen word place
  | some (below, digits) =>
    let shift := (Text.digits? digits).getD 0
    if shift < exponentLimit then
      scaleTen word (clampExponent (if below then place - shift else place + shift))
    else if significand ≠ 0 ∧ !below then none
    else some 0

/-- The word of a number in double precision. -/
def double? (n : Number) : Option Nat :=
  match n.toInt? with
  | some i => some (binary64.ofInt i)
  | none => n.magnitude?.map (binary64.withSign n.negative)

/-- The word of a number in single precision: integers are rounded once, other numbers through
double precision. -/
def single? (n : Number) : Option Nat :=
  match n.toInt? with
  | some i => some (PlcTags.Number.binary32.ofInt i)
  | none => n.double?.map (binary64.convert PlcTags.Number.binary32)

/-- The characters of a number. -/
def text (n : Number) : List Char :=
  (if n.negative then ['-'] else []) ++ n.whole ++
    (if n.fraction.isEmpty then [] else '.' :: n.fraction) ++
    (match n.exponent with
      | none => []
      | some (below, digits) => 'e' :: ((if below then ['-'] else []) ++ digits))

end Number

end PlcTags.Json

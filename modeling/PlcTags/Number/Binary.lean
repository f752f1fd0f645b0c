import PlcTags.Number.Power

/-!
# Binary floating point

The interchange formats of 32 and 64 bits over `Nat`: what a word means, and the word nearest to a
quotient. All arithmetic is exact and rounds once, to nearest with ties to even, so nothing here
depends on the machine's floats.

* `Format.unpack` reads a word as a NaN, an infinity, or `± significand · 2 ^ exponent`.
* `Format.nearest` gives the magnitude word nearest to `num / den · 2 ^ scale`. Magnitude words are
  ordered as the magnitudes they stand for, so a significand that rounds up to the next power of two
  carries into the exponent field by itself.
-/

namespace PlcTags.Number

/-- The widths of the two fields below the sign. -/
structure Format where
  fractionBits : Nat
  exponentBits : Nat
  deriving DecidableEq, Repr

/-- Single precision. -/
def binary32 : Format := ⟨23, 8⟩

/-- Double precision. -/
def binary64 : Format := ⟨52, 11⟩

/-- What a word stands for. -/
inductive Unpacked
  | nan (negative : Bool) (payload : Nat)
  | infinity (negative : Bool)
  | finite (negative : Bool) (significand : Nat) (exponent : Int)
  deriving DecidableEq, Repr

/-- The quotient rounded to nearest, a tie to the even neighbour. -/
def roundEven (num den : Nat) : Nat :=
  let floor := num / den
  let twice := 2 * (num % den)
  if twice < den then floor
  else if den < twice then floor + 1
  else floor + floor % 2

namespace Format

/-- The exponent of the last place of the smallest numbers. -/
def unitExponent (f : Format) : Int :=
  2 - twoTo (f.exponentBits - 1) - f.fractionBits

/-- The magnitude word of infinity. -/
def infinityWord (f : Format) : Nat :=
  (twoTo f.exponentBits - 1) * twoTo f.fractionBits

/-- The weight of the sign bit. -/
def signWeight (f : Format) : Nat :=
  twoTo (f.fractionBits + f.exponentBits)

/-- A magnitude word with its sign. -/
def withSign (f : Format) (negative : Bool) (magnitude : Nat) : Nat :=
  (if negative then f.signWeight else 0) + magnitude

/-- The meaning of a word. -/
def unpack (f : Format) (word : Nat) : Unpacked :=
  let negative := word / f.signWeight % 2 == 1
  let fraction := word % twoTo f.fractionBits
  let biased := word / twoTo f.fractionBits % twoTo f.exponentBits
  if biased = twoTo f.exponentBits - 1 then
    if fraction = 0 then .infinity negative else .nan negative fraction
  else if biased = 0 then .finite negative fraction f.unitExponent
  else .finite negative (twoTo f.fractionBits + fraction) (f.unitExponent + biased - 1)

/-- The magnitude word nearest to a quotient; beyond the largest number it is infinity. -/
def nearestQuotient (f : Format) (num den : Nat) : Nat :=
  if num = 0 then 0
  else
    let estimate : Int := (num.log2 : Int) - den.log2
    let reached := if 0 ≤ estimate then den * twoTo estimate.toNat ≤ num
      else den ≤ num * twoTo (-estimate).toNat
    let top : Int := if reached then estimate else estimate - 1
    let exponent := max f.unitExponent (top - f.fractionBits)
    let significand :=
      if 0 ≤ exponent then roundEven num (den * twoTo exponent.toNat)
      else roundEven (num * twoTo (-exponent).toNat) den
    min f.infinityWord ((exponent - f.unitExponent).toNat * twoTo f.fractionBits + significand)

/-- The magnitude word nearest to `num / den · 2 ^ scale`. -/
def nearest (f : Format) (num den : Nat) (scale : Int) : Nat :=
  if 0 ≤ scale then f.nearestQuotient (num * twoTo scale.toNat) den
  else f.nearestQuotient num (den * twoTo (-scale).toNat)

/-- The word nearest to an integer. -/
def ofInt (f : Format) (n : Int) : Nat :=
  f.withSign (n < 0) (f.nearest n.natAbs 1 0)

/-- The quiet NaN with a sign and a payload. -/
def quietNan (f : Format) (negative : Bool) (payload : Nat) : Nat :=
  f.withSign negative (f.infinityWord + twoTo (f.fractionBits - 1) +
    payload % twoTo (f.fractionBits - 1))

/-- The word of another format nearest to a word of this one. A NaN stays quiet and keeps the high
bits of its payload. -/
def convert (source target : Format) (word : Nat) : Nat :=
  match source.unpack word with
  | .nan negative payload =>
    target.quietNan negative
      (payload * twoTo target.fractionBits / twoTo source.fractionBits)
  | .infinity negative => target.withSign negative target.infinityWord
  | .finite negative significand exponent =>
    target.withSign negative (target.nearest significand 1 exponent)

/-- Is the word a NaN? -/
def isNan (f : Format) (word : Nat) : Bool :=
  match f.unpack word with
  | .nan _ _ => true
  | _ => false

end Format

/-- The whole number nearest to `significand · 2 ^ exponent`, a half going up. -/
def roundHalfUp (significand : Nat) (exponent : Int) : Nat :=
  if 0 ≤ exponent then significand * twoTo exponent.toNat
  else
    let den := twoTo (-exponent).toNat
    (2 * significand + den) / (2 * den)

/-- A number held between the bounds of a 64-bit signed word. -/
def clampInt64 (n : Int) : Int :=
  max int64Least (min n int64Largest)

/-- A word multiplied by a positive whole number, rounded to the format, then to the nearest integer
with halves away from zero, and held within 64 bits. A NaN counts as zero. -/
def Format.scaledToInt64 (f : Format) (word factor : Nat) : Int :=
  match f.unpack word with
  | .nan _ _ => 0
  | .infinity negative => if negative then int64Least else int64Largest
  | .finite negative significand exponent =>
    match f.unpack (f.nearest (significand * factor) 1 exponent) with
    | .finite _ rounded power =>
      let magnitude : Int := roundHalfUp rounded power
      clampInt64 (if negative then -magnitude else magnitude)
    | _ => if negative then int64Least else int64Largest

end PlcTags.Number

import PlcTags.Number.Binary

/-!
# Shortest decimal text

The shortest decimal that reads back as a given binary number, written positionally.

A number `m · 2 ^ q` owns the interval of reals that round to it; its ends belong to it when `m` is
even. For one digit, two digits and so on, the decimal grid with that many digits has two neighbours
of the number. The first grid with a neighbour inside the interval wins; of two neighbours inside,
the nearer one is taken, and the upper one at equal distance.
-/

namespace PlcTags.Number

/-- The interval of one number: every bound is a multiple of `2 ^ (exponent - 2)`. -/
structure Interval where
  low : Nat
  value : Nat
  high : Nat
  closed : Bool
  exponent : Int
  deriving DecidableEq, Repr

/-- The reals that round to a positive number of a format. The gap below a power of two is half as
wide as the gap above it, except at the smallest exponent. -/
def Format.interval (f : Format) (significand : Nat) (exponent : Int) : Interval where
  low := if significand = twoTo f.fractionBits ∧ f.unitExponent < exponent
    then 4 * significand - 1 else 4 * significand - 2
  value := 4 * significand
  high := 4 * significand + 2
  closed := significand % 2 == 0
  exponent := exponent - 2

/-- How many decimal digits a number has. -/
def digitCount (n : Nat) : Nat :=
  (Nat.toDigits 10 n).length

/-- The exponent of the leading decimal digit of a positive quotient. -/
def leadingExponent (num den : Nat) : Int :=
  if den ≤ num then (digitCount (num / den) : Int) - 1
  else -(digitCount ((den + num - 1) / num - 1) : Int)

/-- A decimal: `digits · 10 ^ exponent`. -/
structure Decimal where
  digits : Nat
  exponent : Int
  deriving DecidableEq, Repr

/-- Scaling both sides of a comparison with `10 ^ exponent` to whole numbers: the factors of the
decimal digits and of the binary quantity. -/
def Interval.factors (i : Interval) (place : Int) : Nat × Nat :=
  let ten := if 0 ≤ place then (tenTo place.toNat, 1) else (1, tenTo (-place).toNat)
  let two := if 0 ≤ i.exponent then (1, twoTo i.exponent.toNat) else (twoTo (-i.exponent).toNat, 1)
  (ten.1 * two.1, ten.2 * two.2)

/-- Does the scaled decimal lie in the interval? -/
def Interval.holds (i : Interval) (scaled unit : Nat) : Bool :=
  if i.closed then i.low * unit ≤ scaled && scaled ≤ i.high * unit
  else i.low * unit < scaled && scaled < i.high * unit

/-- The decimal of the grid `10 ^ place` that reads back as the number, if there is one. -/
def Interval.onGrid? (i : Interval) (place : Int) : Option Decimal :=
  let (perDigit, unit) := i.factors place
  let target := i.value * unit
  let below := target / perDigit
  let down := i.holds (below * perDigit) unit
  let up := i.holds ((below + 1) * perDigit) unit
  if down && up then
    if 2 * (target - below * perDigit) < perDigit then some ⟨below, place⟩
    else some ⟨below + 1, place⟩
  else if down then some ⟨below, place⟩
  else if up then some ⟨below + 1, place⟩
  else none

/-- The first grid from a place downwards that holds a decimal of the number. -/
def Interval.search (i : Interval) (place : Int) : Nat → Decimal
  | 0 => ⟨0, 0⟩
  | more + 1 => (i.onGrid? place).getD (i.search (place - 1) more)

/-- The shortest decimal of a positive number. Seventeen digits always suffice. -/
def Format.shortest (f : Format) (significand : Nat) (exponent : Int) : Decimal :=
  let place := if 0 ≤ exponent then leadingExponent (significand * twoTo exponent.toNat) 1
    else leadingExponent significand (twoTo (-exponent).toNat)
  (f.interval significand exponent).search place 18

/-- The digits of a decimal with negative exponent, at most `places` of them after the point and
none of those a trailing zero. -/
def withPoint (digits : Nat) : Nat → List Char
  | 0 => Nat.toDigits 10 digits
  | places + 1 =>
    if digits % 10 = 0 then withPoint (digits / 10) places
    else
      let fraction := Nat.toDigits 10 (digits % tenTo (places + 1))
      Nat.toDigits 10 (digits / tenTo (places + 1)) ++
        '.' :: (List.replicate (places + 1 - fraction.length) '0' ++ fraction)

/-- A decimal written without exponent, and without a point when it is a whole number. -/
def Decimal.positional (d : Decimal) : List Char :=
  if 0 ≤ d.exponent then Nat.toDigits 10 (d.digits * tenTo d.exponent.toNat)
  else withPoint d.digits (-d.exponent).toNat

/-- The text of a word: the shortest decimal that reads back, never with an exponent; zero keeps its
sign. -/
def Format.text (f : Format) (word : Nat) : String :=
  match f.unpack word with
  | .nan _ _ => "NaN"
  | .infinity negative => if negative then "-inf" else "inf"
  | .finite negative significand exponent =>
    let digits := if significand = 0 then ['0'] else (f.shortest significand exponent).positional
    String.ofList (if negative then '-' :: digits else digits)

end PlcTags.Number

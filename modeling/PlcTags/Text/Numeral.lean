import PlcTags.Number.Power

/-!
# Numerals

Integers as people type them: decimal digits, leading zeros allowed, after at most one sign. An
unsigned numeral takes only `+` and stays below a bound, a signed one takes both signs and fits 64
bits. Blanks, underscores and digits of other scripts are refused, and so is a numeral without
digits.
-/

namespace PlcTags.Text

/-- The bound of 64-bit addresses and counts. -/
def wordLimit : Nat := 18446744073709551616

/-- The bound of 32-bit words. -/
def halfWordLimit : Nat := 4294967296

/-- The value of an ASCII digit. -/
def digit? (c : Char) : Option Nat :=
  if '0' ≤ c ∧ c ≤ '9' then some (c.toNat - '0'.toNat) else none

/-- Is the character an ASCII digit? -/
def isDigit (c : Char) : Bool :=
  (digit? c).isSome

/-- The number that digits write, continuing from a number already read. -/
def digitsFrom? (n : Nat) : List Char → Option Nat
  | [] => some n
  | c :: rest => (digit? c).bind fun d => digitsFrom? (10 * n + d) rest

/-- The number that at least one digit writes. -/
def digits? (text : List Char) : Option Nat :=
  if text.isEmpty then none else digitsFrom? 0 text

/-- Digits after at most one `+`, for a number below the bound. -/
def unsigned? (bound : Nat) (text : List Char) : Option Nat :=
  let digits := match text with
    | '+' :: rest => rest
    | _ => text
  (digits? digits).filter (· < bound)

/-- Digits after at most one sign, for a number of 64 bits in two's complement. -/
def signed? (text : List Char) : Option Int :=
  let number : Option Int := match text with
    | '-' :: rest => (digits? rest).map fun n => -(n : Int)
    | '+' :: rest => (digits? rest).map Int.ofNat
    | _ => (digits? text).map Int.ofNat
  number.filter fun n => Number.int64Least ≤ n ∧ n ≤ Number.int64Largest

end PlcTags.Text

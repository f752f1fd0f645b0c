import PlcTags.Number.Binary

/-!
# The calendar

Instants as nanoseconds from the start of 1970, and their text in universal time: the proleptic
Gregorian date, the time of day with nine fraction digits, and `Z`.

* `civil` gives the date of a day number, `dayNumber` the day number of a date. The year is counted
  from March, so that the leap day is the last one.
* `Instant.text?` refuses an instant outside the years of `firstYear` to `lastYear`.

A zone shift is a number of milliseconds in 64 bits, and the least such number is no span of time.
The zones with that shift, from about -2.56e12 hours down, are left out: what `plcInstant` gives for
them stands for no instant.
-/

namespace PlcTags.Calendar

/-- A date of the proleptic Gregorian calendar. -/
structure Date where
  year : Int
  month : Nat
  day : Nat
  deriving DecidableEq, Repr

/-- Days from the first of March of the year zero to the start of 1970. -/
def epochOffset : Int := 719468

/-- Days in four hundred years. -/
def daysPerEra : Int := 146097

/-- The year within four hundred years, counted from March, of a day within them. -/
def yearOfEra (day : Nat) : Nat :=
  (day - day / 1460 + day / 36524 - day / 146096) / 365

/-- The first day of a year within four hundred years. -/
def yearStart (year : Nat) : Nat :=
  365 * year + year / 4 - year / 100

/-- The first day of a month, counted from March, within its year. -/
def monthStart (month : Nat) : Nat :=
  (153 * month + 2) / 5

/-- The date of a day, counted from the start of 1970. -/
def civil (day : Int) : Date :=
  let shifted := day + epochOffset
  let era := shifted / daysPerEra
  let dayOfEra := (shifted % daysPerEra).toNat
  let year := yearOfEra dayOfEra
  let dayOfYear := dayOfEra - yearStart year
  let month := (5 * dayOfYear + 2) / 153
  { year := 400 * era + year + (if month < 10 then 0 else 1)
    month := if month < 10 then month + 3 else month - 9
    day := dayOfYear - monthStart month + 1 }

/-- The day of a date, counted from the start of 1970. -/
def dayNumber (date : Date) : Int :=
  let year := if date.month ≤ 2 then date.year - 1 else date.year
  let month := if date.month ≤ 2 then date.month + 9 else date.month - 3
  daysPerEra * (year / 400) + yearStart (year % 400).toNat + monthStart month + (date.day - 1) -
    epochOffset

/-- Nanoseconds from the start of 1970. -/
abbrev Instant := Int

/-- Nanoseconds in a second. -/
def second : Int := 1000000000

/-- Nanoseconds in a day. -/
def dayLength : Int := 86400 * second

/-- The first year with a text. -/
def firstYear : Int := -262143

/-- The last year with a text. -/
def lastYear : Int := 262142

/-- The first instant with a text. -/
def firstInstant : Instant :=
  dayNumber ⟨firstYear, 1, 1⟩ * dayLength

/-- The first instant after those with a text. -/
def endInstant : Instant :=
  dayNumber ⟨lastYear + 1, 1, 1⟩ * dayLength

/-- A number in a field of at least `width` digits. -/
def padded (width n : Nat) : List Char :=
  let digits := Nat.toDigits 10 n
  List.replicate (width - digits.length) '0' ++ digits

/-- A year: four digits, a sign before them when the year is negative or needs more. -/
def yearText (year : Int) : List Char :=
  if year < 0 then '-' :: padded 4 year.natAbs
  else if year ≤ 9999 then padded 4 year.toNat
  else '+' :: padded 4 year.toNat

/-- The date and time of day of an instant in universal time. -/
def Instant.text (instant : Instant) : String :=
  let date := civil (instant / dayLength)
  let nanos := (instant % dayLength).toNat
  let seconds := nanos / 1000000000
  String.ofList <|
    yearText date.year ++ '-' :: padded 2 date.month ++ '-' :: padded 2 date.day ++
    'T' :: padded 2 (seconds / 3600) ++ ':' :: padded 2 (seconds / 60 % 60) ++
    ':' :: padded 2 (seconds % 60) ++ '.' :: padded 9 (nanos % 1000000000) ++ ['Z']

/-- The text of an instant, if its year has one. -/
def Instant.text? (instant : Instant) : Option String :=
  if firstInstant ≤ instant ∧ instant < endInstant then some (Instant.text instant) else none

/-- Milliseconds that a clock is ahead of universal time, from its zone in hours: the product is
rounded to double precision, then to the nearest millisecond with halves away from zero. -/
def zoneShift (hours : BitVec 64) : Int :=
  Number.binary64.scaledToInt64 hours.toNat 3600000

/-- The instant that a controller clock shows as `nanos` when it runs in a zone. -/
def plcInstant (nanos : Nat) (zone : BitVec 64) : Instant :=
  nanos - zoneShift zone * 1000000

end PlcTags.Calendar

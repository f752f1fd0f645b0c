import Mathlib.Order.Monotone.Basic
import Mathlib.Tactic.IntervalCases
import Mathlib.Tactic.SplitIfs
import PlcTags.Calendar

/-!
# The Gregorian calendar

The dates of days are those of the proleptic Gregorian calendar: day zero is the first of January
1970 (`civil_zero`), and the date of the next day is the next date (`civil_succ`).

* `isLeap`, `daysIn`, `Date.next`, `Date.Before`: leap years, the lengths of the months, the next
  date and the order of dates.
* `marchDay`: days by years that begin in March, so that a leap day is the last one of its year.
  `exists_marchDay`, `exists_month`: every day lies in one of these years and in one of its months.
* `civil_before_civil`: later days have later dates.
* `dayNumber_civil`, `civil_dayNumber`: dates and days translate into each other.
* `le_year_civil_iff`: where a year begins.
-/

namespace PlcTags.Calendar

/-! ## Dates -/

/-- **Leap years**: every fourth year, of the full centuries only every fourth. -/
def isLeap (year : Int) : Prop :=
  year % 4 = 0 ∧ (year % 100 = 0 → year % 400 = 0)

instance (year : Int) : Decidable (isLeap year) :=
  inferInstanceAs (Decidable (_ ∧ _))

/-- **The length of a month.** -/
def daysIn (year : Int) (month : Nat) : Nat :=
  if month = 2 then if isLeap year then 29 else 28
  else if month = 4 ∨ month = 6 ∨ month = 9 ∨ month = 11 then 30
  else 31

theorem daysIn_le (year : Int) (month : Nat) : daysIn year month ≤ 31 := by
  unfold daysIn
  split_ifs <;> decide

namespace Date

/-- The dates of the calendar. -/
structure Valid (date : Date) : Prop where
  month_pos : 1 ≤ date.month
  month_le : date.month ≤ 12
  day_pos : 1 ≤ date.day
  day_le : date.day ≤ daysIn date.year date.month

/-- **The next date.** -/
def next (date : Date) : Date :=
  if date.day < daysIn date.year date.month then ⟨date.year, date.month, date.day + 1⟩
  else if date.month < 12 then ⟨date.year, date.month + 1, 1⟩
  else ⟨date.year + 1, 1, 1⟩

/-- **The order of dates**: by year, then by month, then by day. -/
def Before (a b : Date) : Prop :=
  a.year < b.year ∨ a.year = b.year ∧ (a.month < b.month ∨ a.month = b.month ∧ a.day < b.day)

theorem Before.trans {a b c : Date} (h : a.Before b) (h' : b.Before c) : a.Before c := by
  unfold Before at *
  omega

theorem before_next (date : Date) : date.Before date.next := by
  unfold Before next
  split_ifs
  · exact Or.inr ⟨rfl, Or.inr ⟨rfl, Nat.lt_succ_self _⟩⟩
  · exact Or.inr ⟨rfl, Or.inl (Nat.lt_succ_self _)⟩
  · exact Or.inl (Int.lt_succ _)

end Date

/-! ## Years that begin in March -/

/-- The length of the year that begins in March: the leap day is that of the next January's year. -/
def marchLength (year : Int) : Nat :=
  if isLeap (year + 1) then 366 else 365

/-- **A day of a year that begins in March**, counted from the start of 1970. -/
def marchDay (year : Int) (day : Nat) : Int :=
  daysPerEra * (year / 400) + yearStart (year % 400).toNat + day - epochOffset

/-- A date of a year that begins in March, its month counted from there. -/
def ofMarch (year : Int) (month day : Nat) : Date where
  year := year + (if month < 10 then 0 else 1)
  month := if month < 10 then month + 3 else month - 9
  day := day

theorem ofMarch_of_lt {month : Nat} (h : month < 10) (year : Int) (day : Nat) :
    ofMarch year month day = ⟨year, month + 3, day⟩ := by
  rw [ofMarch, if_pos h, if_pos h, Int.add_zero]

theorem ofMarch_of_le {month : Nat} (h : 10 ≤ month) (year : Int) (day : Nat) :
    ofMarch year month day = ⟨year + 1, month - 9, day⟩ := by
  rw [ofMarch, if_neg (Nat.not_lt.mpr h), if_neg (Nat.not_lt.mpr h)]

/-- The date of a day of a year that begins in March. -/
def marchDate (year : Int) (day : Nat) : Date :=
  ofMarch year ((5 * day + 2) / 153) (day - monthStart ((5 * day + 2) / 153) + 1)

theorem marchLength_cases (year : Int) : isLeap (year + 1) ∧ marchLength year = 366 ∨
    ¬ isLeap (year + 1) ∧ marchLength year = 365 := by
  unfold marchLength
  split_ifs with hleap
  · exact Or.inl ⟨hleap, rfl⟩
  · exact Or.inr ⟨hleap, rfl⟩

/-- A year is followed by the next. -/
theorem marchDay_marchLength (year : Int) :
    marchDay year (marchLength year) = marchDay (year + 1) 0 := by
  have hlength := marchLength_cases year
  unfold isLeap at hlength
  unfold marchDay yearStart daysPerEra
  omega

theorem marchDay_add_one (year : Int) (n : Nat) : marchDay year (n + 1) = marchDay year n + 1 := by
  unfold marchDay
  omega

theorem marchLength_pos (year : Int) : 0 < marchLength year := by
  have hlength := marchLength_cases year
  omega

/-- **Every day lies in a year that begins in March.** -/
theorem exists_marchDay (day : Int) :
    ∃ year n, n < marchLength year ∧ marchDay year n = day := by
  induction day using Int.induction_on with
  | zero => exact ⟨1969, 306, by decide, by decide⟩
  | succ day ih =>
    obtain ⟨year, n, hn, hday⟩ := ih
    rcases Nat.lt_or_eq_of_le (Nat.succ_le_of_lt hn) with hlt | hlast
    · exact ⟨year, n + 1, hlt, by rw [marchDay_add_one, hday]⟩
    · refine ⟨year + 1, 0, marchLength_pos _, ?_⟩
      rw [← marchDay_marchLength, ← hlast, Nat.succ_eq_add_one, marchDay_add_one, hday]
  | pred day ih =>
    obtain ⟨year, n, hn, hday⟩ := ih
    cases n with
    | succ n =>
      rw [marchDay_add_one] at hday
      exact ⟨year, n, by omega, by omega⟩
    | zero =>
      have hpos := marchLength_pos (year - 1)
      refine ⟨year - 1, marchLength (year - 1) - 1, by omega, ?_⟩
      have hlast := marchDay_marchLength (year - 1)
      have hlength : marchLength (year - 1) = marchLength (year - 1) - 1 + 1 := by omega
      rw [hlength, marchDay_add_one, Int.sub_add_cancel, hday] at hlast
      omega

/-- The estimate of the year never falls from one day to the next. -/
theorem yearOfEra_mono : Monotone yearOfEra := by
  refine monotone_nat_of_le_succ fun day => ?_
  unfold yearOfEra
  refine Nat.div_le_div_right ?_
  -- where four centuries end, a century ends
  have hera : 146096 ∣ day + 1 → 36524 ∣ day + 1 := Nat.dvd_trans (by decide)
  have hle : day / 1460 ≤ day := Nat.div_le_self _ _
  have hle' : day / 146096 ≤ day / 36524 := Nat.div_le_div_left (by decide) (by decide)
  rw [Nat.succ_div (b := 1460), Nat.succ_div (b := 36524), Nat.succ_div (b := 146096)]
  generalize day / 1460 = fours at *
  generalize day / 36524 = centuries at *
  generalize day / 146096 = eras at *
  split_ifs <;> omega

/-- The estimate is right at both ends of a year. -/
theorem yearOfEra_ends : ∀ year < 400, yearOfEra (yearStart year) = year ∧
    yearOfEra (yearStart year + (marchLength year - 1)) = year := by
  decide +kernel

theorem yearOfEra_eq {year n : Nat} (hyear : year < 400) (hn : n < marchLength year) :
    yearOfEra (yearStart year + n) = year := by
  obtain ⟨hfirst, hlast⟩ := yearOfEra_ends year hyear
  refine Nat.le_antisymm ?_ ?_
  · have hle : yearStart year + n ≤ yearStart year + (marchLength year - 1) := by omega
    have hmono := yearOfEra_mono hle
    rwa [hlast] at hmono
  · have hmono := yearOfEra_mono (Nat.le_add_right (yearStart year) n)
    rwa [hfirst] at hmono

/-- The years of an era have the lengths of the years they stand for. -/
theorem marchLength_emod (year : Int) : marchLength (year % 400) = marchLength year := by
  have hleap : isLeap (year % 400 + 1) ↔ isLeap (year + 1) := by
    unfold isLeap
    omega
  unfold marchLength
  rw [if_congr hleap rfl rfl]

/-- The end of the last year of an era is the end of the era. -/
theorem yearStart_add_lt {year n : Nat} (hyear : year < 400) (hn : n < marchLength year) :
    yearStart year + n < 146097 := by
  have hlength := marchLength_cases year
  unfold isLeap at hlength
  unfold yearStart
  omega

/-- **The date of a day** of a year that begins in March. -/
theorem civil_marchDay {year : Int} {n : Nat} (hn : n < marchLength year) :
    civil (marchDay year n) = marchDate year n := by
  obtain ⟨y, hy⟩ : ∃ y : Nat, year % 400 = y := ⟨(year % 400).toNat, by omega⟩
  have hlt : y < 400 := by omega
  have hlength : n < marchLength y := by rwa [← hy, marchLength_emod]
  have hshift : marchDay year n + epochOffset =
      daysPerEra * (year / 400) + (yearStart y + n : Nat) := by
    unfold marchDay
    rw [hy, Int.toNat_natCast]
    omega
  have hday := yearStart_add_lt hlt hlength
  have hera : (marchDay year n + epochOffset) / daysPerEra = year / 400 := by
    rw [hshift]
    unfold daysPerEra
    omega
  have hdayOfEra : ((marchDay year n + epochOffset) % daysPerEra).toNat = yearStart y + n := by
    rw [hshift]
    unfold daysPerEra
    omega
  have hyear : 400 * (year / 400) + (y : Int) = year := by omega
  unfold civil
  simp only [hera, hdayOfEra, yearOfEra_eq hlt hlength, Nat.add_sub_cancel_left, hyear]
  rfl

/-! ## Months -/

/-- The length of a month, counted from March. -/
def monthLength (year : Int) (month : Nat) : Nat :=
  daysIn (ofMarch year month 1).year (ofMarch year month 1).month

/-- A month ends where the next begins. -/
theorem monthStart_add_monthLength {month : Nat} (h : month < 11) (year : Int) :
    monthStart month + monthLength year month = monthStart (month + 1) := by
  unfold monthLength daysIn
  interval_cases month <;> rfl

/-- The last month ends with its year. -/
theorem monthStart_add_february (year : Int) :
    monthStart 11 + monthLength year 11 = marchLength year := by
  show monthStart 11 + (if isLeap (year + 1) then 29 else 28) = _
  unfold marchLength
  split_ifs <;> rfl

theorem monthLength_bounds {month : Nat} (h : month ≤ 11) (year : Int) :
    0 < monthLength year month ∧
      monthStart month + monthLength year month ≤ monthStart (month + 1) := by
  rcases Nat.lt_or_eq_of_le h with hlt | rfl
  · have hlength := monthStart_add_monthLength hlt year
    have hpos : monthStart month < monthStart (month + 1) := by
      unfold monthStart
      omega
    omega
  · show 0 < (if isLeap (year + 1) then 29 else 28) ∧
      337 + (if isLeap (year + 1) then 29 else 28) ≤ 367
    split_ifs <;> decide

/-- **Every day lies in a month.** -/
theorem exists_month {year : Int} {n : Nat} (hn : n < marchLength year) :
    ∃ month ≤ 11, ∃ k < monthLength year month, n = monthStart month + k := by
  have hmonth : (5 * n + 2) / 153 ≤ 11 := by
    have hlength := marchLength_cases year
    omega
  have hlow : monthStart ((5 * n + 2) / 153) ≤ n := by
    unfold monthStart
    omega
  have hhigh : n < monthStart ((5 * n + 2) / 153 + 1) := by
    unfold monthStart
    omega
  refine ⟨_, hmonth, n - monthStart ((5 * n + 2) / 153), ?_, by omega⟩
  rcases Nat.lt_or_eq_of_le hmonth with hlt | hlast
  · have hlength := monthStart_add_monthLength hlt year
    omega
  · have hlength := monthStart_add_february year
    rw [hlast] at hlow ⊢
    omega

variable {year : Int} {month k : Nat}

theorem monthStart_add_lt (hmonth : month ≤ 11) (hk : k < monthLength year month) :
    monthStart month + k < marchLength year := by
  rcases Nat.lt_or_eq_of_le hmonth with hlt | rfl
  · have hlength := monthStart_add_monthLength hlt year
    have hle : monthStart (month + 1) ≤ monthStart 11 := by
      unfold monthStart
      omega
    have hlast := monthStart_add_february year
    omega
  · have hlast := monthStart_add_february year
    omega

/-- **The date of a day of a month.** -/
theorem marchDate_eq (hmonth : month ≤ 11) (hk : k < monthLength year month) :
    marchDate year (monthStart month + k) = ofMarch year month (k + 1) := by
  obtain ⟨-, hend⟩ := monthLength_bounds hmonth year
  have hquotient : (5 * (monthStart month + k) + 2) / 153 = month := by
    unfold monthStart at *
    omega
  rw [marchDate, hquotient, Nat.add_sub_cancel_left]

/-- Within a month, the next date is that of the next day. -/
theorem next_ofMarch_of_lt {day : Nat} (h : day < monthLength year month) :
    (ofMarch year month day).next = ofMarch year month (day + 1) :=
  if_pos h

/-- The last date of a month is followed by the first one of the next. -/
theorem next_ofMarch_of_month_lt (h : month < 11) :
    (ofMarch year month (monthLength year month)).next = ofMarch year (month + 1) 1 := by
  unfold Date.next ofMarch monthLength ofMarch
  dsimp only
  rw [if_neg (lt_irrefl _)]
  interval_cases month <;> simp

/-- The last date of a year is followed by the first one of the next. -/
theorem next_ofMarch_february (year : Int) :
    (ofMarch year 11 (monthLength year 11)).next = ofMarch (year + 1) 0 1 := by
  unfold Date.next ofMarch monthLength ofMarch
  dsimp only
  rw [if_neg (lt_irrefl _)]
  simp

/-! ## Dates of days -/

theorem civil_zero : civil 0 = ⟨1970, 1, 1⟩ := by
  decide

/-- The date of a day, its month counted from March. -/
theorem civil_eq_ofMarch (hmonth : month ≤ 11) (hk : k < monthLength year month) :
    civil (marchDay year (monthStart month + k)) = ofMarch year month (k + 1) := by
  rw [civil_marchDay (monthStart_add_lt hmonth hk), marchDate_eq hmonth hk]

/-- The first date of a month. -/
theorem civil_monthStart (hmonth : month ≤ 11) (year : Int) :
    civil (marchDay year (monthStart month)) = ofMarch year month 1 :=
  civil_eq_ofMarch (k := 0) hmonth (monthLength_bounds hmonth year).1

/-- **The date of the next day is the next date.** -/
theorem civil_succ (day : Int) : civil (day + 1) = (civil day).next := by
  obtain ⟨year, n, hn, rfl⟩ := exists_marchDay day
  obtain ⟨month, hmonth, k, hk, rfl⟩ := exists_month hn
  rw [civil_eq_ofMarch hmonth hk, ← marchDay_add_one, Nat.add_assoc]
  rcases Nat.lt_or_eq_of_le (Nat.succ_le_of_lt hk) with hlt | hend
  · rw [civil_eq_ofMarch hmonth hlt, next_ofMarch_of_lt hlt]
  · rw [← Nat.succ_eq_add_one k, hend]
    rcases Nat.lt_or_eq_of_le hmonth with hlt | rfl
    · rw [monthStart_add_monthLength hlt, next_ofMarch_of_month_lt hlt, civil_monthStart hlt]
    · rw [monthStart_add_february, marchDay_marchLength, next_ofMarch_february]
      exact civil_monthStart (Nat.zero_le 11) (year + 1)

/-- **Later days have later dates.** -/
theorem civil_before_civil {a b : Int} (h : a < b) : (civil a).Before (civil b) := by
  obtain ⟨k, rfl⟩ : ∃ k : Nat, b = a + 1 + k := ⟨(b - a - 1).toNat, by omega⟩
  induction k with
  | zero =>
    rw [Int.natCast_zero, Int.add_zero, civil_succ]
    exact Date.before_next _
  | succ k ih =>
    rw [Int.natCast_succ, ← Int.add_assoc, civil_succ]
    exact (ih (by omega)).trans (Date.before_next _)

/-- **The date of a day is a date of the calendar.** -/
theorem valid_civil (day : Int) : (civil day).Valid := by
  obtain ⟨year, n, hn, rfl⟩ := exists_marchDay day
  obtain ⟨month, hmonth, k, hk, rfl⟩ := exists_month hn
  rw [civil_eq_ofMarch hmonth hk]
  refine ⟨?_, ?_, Nat.succ_pos k, hk⟩
  · unfold ofMarch
    dsimp only
    split_ifs <;> omega
  · unfold ofMarch
    dsimp only
    split_ifs <;> omega

/-! ## Days of dates -/

/-- **The day of a date**, its month counted from March. -/
theorem dayNumber_ofMarch (hmonth : month ≤ 11) :
    dayNumber (ofMarch year month (k + 1)) = marchDay year (monthStart month + k) := by
  unfold dayNumber marchDay
  rcases Nat.lt_or_ge month 10 with hlt | hge
  · rw [ofMarch_of_lt hlt]
    dsimp only
    rw [if_neg (by omega), if_neg (by omega), Nat.add_sub_cancel]
    omega
  · rw [ofMarch_of_le hge]
    dsimp only
    rw [if_pos (by omega), if_pos (by omega), Int.add_sub_cancel, Nat.sub_add_cancel (by omega)]
    omega

/-- **A day is the day of its date.** -/
theorem dayNumber_civil (day : Int) : dayNumber (civil day) = day := by
  obtain ⟨year, n, hn, rfl⟩ := exists_marchDay day
  obtain ⟨month, hmonth, k, hk, rfl⟩ := exists_month hn
  rw [civil_eq_ofMarch hmonth hk, dayNumber_ofMarch hmonth]

/-- A date of the calendar lies in a year that begins in March. -/
theorem Date.Valid.exists_ofMarch {date : Date} (h : date.Valid) :
    ∃ year, ∃ month ≤ 11, ∃ k < monthLength year month, date = ofMarch year month (k + 1) := by
  obtain ⟨hmonth, hmonth', hday, hday'⟩ := h
  rcases Nat.lt_or_ge date.month 3 with hlt | hge
  · have hdate : date = ofMarch (date.year - 1) (date.month + 9) (date.day - 1 + 1) := by
      rw [ofMarch_of_le (by omega), Int.sub_add_cancel, Nat.add_sub_cancel, Nat.sub_add_cancel hday]
    refine ⟨_, _, by omega, date.day - 1, ?_, hdate⟩
    rw [monthLength, ofMarch_of_le (by omega), Int.sub_add_cancel, Nat.add_sub_cancel]
    exact Nat.sub_one_lt_of_le hday hday'
  · have hdate : date = ofMarch date.year (date.month - 3) (date.day - 1 + 1) := by
      rw [ofMarch_of_lt (by omega), Nat.sub_add_cancel hge, Nat.sub_add_cancel hday]
    refine ⟨_, _, by omega, date.day - 1, ?_, hdate⟩
    rw [monthLength, ofMarch_of_lt (by omega), Nat.sub_add_cancel hge]
    exact Nat.sub_one_lt_of_le hday hday'

/-- **A date of the calendar is the date of its day.** -/
theorem civil_dayNumber {date : Date} (h : date.Valid) : civil (dayNumber date) = date := by
  obtain ⟨year, month, hmonth, k, hk, rfl⟩ := h.exists_ofMarch
  rw [dayNumber_ofMarch hmonth, civil_eq_ofMarch hmonth hk]

theorem valid_newYear (year : Int) : (⟨year, 1, 1⟩ : Date).Valid where
  month_pos := le_refl 1
  month_le := show 1 ≤ 12 by decide
  day_pos := le_refl 1
  day_le := show 1 ≤ 31 by decide

/-- **A year begins** with the first of January. -/
theorem le_year_civil_iff {year day : Int} :
    year ≤ (civil day).year ↔ dayNumber ⟨year, 1, 1⟩ ≤ day := by
  have hfirst := civil_dayNumber (valid_newYear year)
  constructor
  · intro h
    refine not_lt.mp fun hlt => ?_
    have hbefore := civil_before_civil hlt
    obtain ⟨hmonth, -, hday, -⟩ := valid_civil day
    rw [hfirst] at hbefore
    unfold Date.Before at hbefore
    dsimp only at hbefore
    omega
  · intro h
    rcases eq_or_lt_of_le h with rfl | hlt
    · rw [hfirst]
    · have hbefore := civil_before_civil hlt
      rw [hfirst] at hbefore
      unfold Date.Before at hbefore
      dsimp only at hbefore
      omega

end PlcTags.Calendar

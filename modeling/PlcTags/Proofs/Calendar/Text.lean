import PlcTags.Proofs.Calendar.Gregorian
import PlcTags.Proofs.Text.Numeral

/-!
# Texts of instants

The text of an instant tells the instant, and in four-digit years texts are ordered as instants are.

* `padded_append_lt`: numbers in fields of one width are ordered by the texts they begin.
* `yearText_inj`: the text of a year writes the year.
* `remainder_lt`: what follows the year, ordered by month, day and time of day.
* `text_injective`, `text_lt_text_iff`: **texts and instants**.
* `text?_eq`: the instants that have a text.
-/

namespace PlcTags.Calendar

open PlcTags.Text

/-! ## Fields -/

/-- A digit more at the end of a number is one at the end of its field. -/
theorem padded_succ {width : Nat} (hwidth : 0 < width) (n : Nat) :
    padded (width + 1) n = padded width (n / 10) ++ [(n % 10).digitChar] := by
  obtain ⟨width, rfl⟩ : ∃ w, width = w + 1 := ⟨width - 1, by omega⟩
  unfold padded
  dsimp only
  rcases Nat.lt_or_ge n 10 with hlt | hge
  · rw [Nat.toDigits_of_lt_base hlt, Nat.div_eq_of_lt hlt, Nat.mod_eq_of_lt hlt, Nat.toDigits_zero]
    show List.replicate (width + 1) '0' ++ _ = (List.replicate width '0' ++ ['0']) ++ _
    rw [List.replicate_succ']
  · rw [Nat.toDigits_of_base_le (by decide) hge, List.length_append, List.length_singleton,
      Nat.add_sub_add_right, List.append_assoc]

theorem padded_one {n : Nat} (h : n < 10) : padded 1 n = [n.digitChar] := by
  unfold padded
  rw [Nat.toDigits_of_lt_base h]
  rfl

/-- A number fills its field. -/
theorem length_padded {width n : Nat} (hwidth : 0 < width) (h : n < 10 ^ width) :
    (padded width n).length = width := by
  induction width, hwidth using Nat.le_induction generalizing n with
  | base => rw [padded_one h, List.length_singleton]
  | succ width hwidth ih =>
    rw [padded_succ hwidth, List.length_append, ih (by omega), List.length_singleton]

theorem digitChar_lt {a b : Nat} (hb : b < 10) (h : a < b) : a.digitChar < b.digitChar := by
  have hdigits : ∀ b : Fin 10, ∀ a : Fin b.val, a.val.digitChar < b.val.digitChar := by decide
  exact hdigits ⟨b, hb⟩ ⟨a, h⟩

/-- **Fields of one width are ordered as their numbers**, before what follows them. -/
theorem padded_append_lt {width a b : Nat} {s t : List Char} (hwidth : 0 < width)
    (ha : a < 10 ^ width) (hb : b < 10 ^ width) (h : a < b ∨ a = b ∧ s < t) :
    padded width a ++ s < padded width b ++ t := by
  induction width, hwidth using Nat.le_induction generalizing a b s t with
  | base =>
    rw [padded_one ha, padded_one hb]
    refine List.cons_lt_cons_iff.mpr ?_
    rcases h with hlt | ⟨rfl, hlt⟩
    · exact Or.inl (digitChar_lt hb hlt)
    · exact Or.inr ⟨rfl, hlt⟩
  | succ width hwidth ih =>
    rw [padded_succ hwidth, padded_succ hwidth, List.append_assoc, List.append_assoc]
    refine ih (by omega) (by omega) ?_
    rcases h with hlt | ⟨rfl, hlt⟩
    · rcases Nat.lt_or_eq_of_le (Nat.div_le_div_right hlt.le : a / 10 ≤ b / 10) with hfront | hfront
      · exact Or.inl hfront
      · refine Or.inr ⟨hfront, List.cons_lt_cons_iff.mpr (Or.inl ?_)⟩
        exact digitChar_lt (Nat.mod_lt b (by decide)) (by omega)
    · exact Or.inr ⟨rfl, List.cons_lt_cons_iff.mpr (Or.inr ⟨rfl, hlt⟩)⟩

/-! ## Years -/

/-- A field writes its number. -/
theorem digits_padded (width n : Nat) : Digits (padded width n) n := by
  unfold padded
  dsimp only
  generalize width - (Nat.toDigits 10 n).length = zeros
  induction zeros with
  | zero => exact digits_toDigits n
  | succ zeros ih => exact ih.zero_cons

/-- **The text of a year writes the year.** -/
theorem signed_yearText (year : Int) : Signed (yearText year) year := by
  unfold yearText
  split_ifs with hneg hfour
  · have h := Signed.minus (digits_padded 4 year.natAbs)
    rwa [Int.ofNat_natAbs_of_nonpos hneg.le, Int.neg_neg] at h
  · have h := Signed.plain (digits_padded 4 year.toNat)
    rwa [Int.toNat_of_nonneg (not_lt.mp hneg)] at h
  · have h := Signed.plus (digits_padded 4 year.toNat)
    rwa [Int.toNat_of_nonneg (not_lt.mp hneg)] at h

theorem yearText_inj {a b : Int} (h : yearText a = yearText b) : a = b := by
  have ha := signed_yearText a
  rw [h] at ha
  exact ha.unique (signed_yearText b)

/-! ## The remainder -/

/-- **What follows the year**: the month, the day and the time of day. -/
def remainder (month day nanos : Nat) : List Char :=
  '-' :: (padded 2 month ++ '-' :: (padded 2 day ++ 'T' ::
    (padded 2 (nanos / 1000000000 / 3600) ++ ':' ::
      (padded 2 (nanos / 1000000000 / 60 % 60) ++ ':' ::
        (padded 2 (nanos / 1000000000 % 60) ++ '.' :: (padded 9 (nanos % 1000000000) ++ ['Z']))))))

/-- The order of times of day is that of their fields. -/
theorem clock_lt {a b : Nat} (h : a < b) :
    a / 1000000000 / 3600 < b / 1000000000 / 3600 ∨
      a / 1000000000 / 3600 = b / 1000000000 / 3600 ∧
        (a / 1000000000 / 60 % 60 < b / 1000000000 / 60 % 60 ∨
          a / 1000000000 / 60 % 60 = b / 1000000000 / 60 % 60 ∧
            (a / 1000000000 % 60 < b / 1000000000 % 60 ∨
              a / 1000000000 % 60 = b / 1000000000 % 60 ∧
                a % 1000000000 < b % 1000000000)) := by
  omega

variable {month month' day day' nanos nanos' : Nat}

/-- **What follows the year is ordered** by month, day and time of day. -/
theorem remainder_lt (hmonth : month < 100) (hmonth' : month' < 100) (hday : day < 100)
    (hday' : day' < 100) (hnanos : nanos < 86400000000000) (hnanos' : nanos' < 86400000000000)
    (h : month < month' ∨ month = month' ∧ (day < day' ∨ day = day' ∧ nanos < nanos')) :
    remainder month day nanos < remainder month' day' nanos' := by
  refine List.cons_lt_cons_self.mpr (padded_append_lt two_pos hmonth hmonth' ?_)
  refine h.imp_right (And.imp_right fun h => List.cons_lt_cons_self.mpr ?_)
  refine padded_append_lt two_pos hday hday' ?_
  refine h.imp_right (And.imp_right fun h => List.cons_lt_cons_self.mpr ?_)
  refine padded_append_lt two_pos (by omega) (by omega) ?_
  refine (clock_lt h).imp_right (And.imp_right fun h => List.cons_lt_cons_self.mpr ?_)
  refine padded_append_lt two_pos (by omega) (by omega) ?_
  refine h.imp_right (And.imp_right fun h => List.cons_lt_cons_self.mpr ?_)
  refine padded_append_lt two_pos (by omega) (by omega) ?_
  refine h.imp_right (And.imp_right fun h => List.cons_lt_cons_self.mpr ?_)
  exact padded_append_lt (by decide) (by omega) (by omega) (Or.inl h)

theorem length_remainder (hmonth : month < 100) (hday : day < 100)
    (hnanos : nanos < 86400000000000) : (remainder month day nanos).length = 26 := by
  have hhour : nanos / 1000000000 / 3600 < 100 := by omega
  have hminute : nanos / 1000000000 / 60 % 60 < 100 := by omega
  have hsecond : nanos / 1000000000 % 60 < 100 := by omega
  have hfraction : nanos % 1000000000 < 10 ^ 9 := by omega
  unfold remainder
  simp only [List.length_cons, List.length_append, length_padded two_pos hmonth,
    length_padded two_pos hday, length_padded two_pos hhour, length_padded two_pos hminute,
    length_padded two_pos hsecond, length_padded (Nat.succ_pos 8) hfraction, List.length_nil]
  rfl

/-! ## Instants -/

/-- Of two numbers with one quotient, the greater has the greater remainder. -/
theorem toNat_emod_lt {a b d : Int} (hd : 0 < d) (h : a < b) (heq : a / d = b / d) :
    (a % d).toNat < (b % d).toNat := by
  have hsplit := Int.mul_ediv_add_emod a d
  have hsplit' := Int.mul_ediv_add_emod b d
  have hnonneg := Int.emod_nonneg a hd.ne'
  rw [heq] at hsplit
  omega

namespace Instant

/-- The date of an instant. -/
def date (instant : Instant) : Date :=
  civil (instant / dayLength)

/-- **The year of an instant.** -/
def year (instant : Instant) : Int :=
  (date instant).year

/-- The nanoseconds of an instant from the start of its day. -/
def clock (instant : Instant) : Nat :=
  (instant % dayLength).toNat

/-- What follows the year in the text of an instant. -/
def afterYear (instant : Instant) : List Char :=
  remainder (date instant).month (date instant).day (clock instant)

theorem toList_text (instant : Instant) :
    (text instant).toList = yearText (year instant) ++ afterYear instant := by
  unfold text afterYear remainder year date clock
  rw [String.toList_ofList]
  simp only [List.append_assoc, List.cons_append]

/-- The fields of an instant have their places. -/
theorem fields_lt (instant : Instant) :
    (date instant).month < 100 ∧ (date instant).day < 100 ∧ clock instant < 86400000000000 := by
  obtain ⟨-, hmonth, -, hday⟩ := valid_civil (instant / dayLength)
  have hdays := daysIn_le (civil (instant / dayLength)).year (civil (instant / dayLength)).month
  unfold date clock
  refine ⟨by omega, by omega, ?_⟩
  unfold dayLength second
  omega

theorem length_afterYear (instant : Instant) : (afterYear instant).length = 26 := by
  obtain ⟨hmonth, hday, hnanos⟩ := fields_lt instant
  exact length_remainder hmonth hday hnanos

/-- **A later instant** is in a later year, or what follows the year is greater. -/
theorem year_lt_or_afterYear_lt {a b : Instant} (h : a < b) :
    year a < year b ∨ year a = year b ∧ afterYear a < afterYear b := by
  obtain ⟨hmonth, hday, hnanos⟩ := fields_lt a
  obtain ⟨hmonth', hday', hnanos'⟩ := fields_lt b
  have hle : a / dayLength ≤ b / dayLength := Int.ediv_le_ediv (by decide) h.le
  rcases lt_or_eq_of_le hle with hlt | heq
  · refine (civil_before_civil hlt).imp_right (And.imp_right fun h => ?_)
    refine remainder_lt hmonth hmonth' hday hday' hnanos hnanos' ?_
    exact h.imp_right (And.imp_right Or.inl)
  · have hrest := toNat_emod_lt (show 0 < dayLength by decide) h heq
    have hdate : date a = date b := congrArg civil heq
    refine Or.inr ⟨congrArg Date.year hdate, ?_⟩
    refine remainder_lt hmonth hmonth' hday hday' hnanos hnanos' ?_
    exact Or.inr ⟨congrArg Date.month hdate, Or.inr ⟨congrArg Date.day hdate, hrest⟩⟩

/-- **A text tells its instant.** -/
theorem text_injective : Function.Injective text := by
  -- the earlier of two instants has another year or another remainder
  have hne : ∀ {a b : Instant}, a < b → text a ≠ text b := by
    intro a b hlt heq
    have hlist := congrArg String.toList heq
    rw [toList_text, toList_text] at hlist
    obtain ⟨hyear, hafter⟩ :=
      List.append_inj' hlist ((length_afterYear a).trans (length_afterYear b).symm)
    rcases year_lt_or_afterYear_lt hlt with hlt | ⟨-, hlt⟩
    · exact absurd (yearText_inj hyear) hlt.ne
    · rw [hafter] at hlt
      exact List.lt_irrefl _ hlt
  intro a b h
  rcases lt_trichotomy a b with hlt | heq | hlt
  · exact absurd h (hne hlt)
  · exact heq
  · exact absurd h.symm (hne hlt)

theorem yearText_of_four {year : Int} (h : 0 ≤ year ∧ year ≤ 9999) :
    yearText year = padded 4 year.toNat := by
  rw [yearText, if_neg (not_lt.mpr h.1), if_pos h.2]

/-- In years of four digits a later instant has a greater text. -/
theorem text_lt_text {a b : Instant} (ha : 0 ≤ year a ∧ year a ≤ 9999)
    (hb : 0 ≤ year b ∧ year b ≤ 9999) (h : a < b) : text a < text b := by
  rw [String.lt_iff, toList_text, toList_text, yearText_of_four ha, yearText_of_four hb]
  refine padded_append_lt (by decide) (by omega) (by omega) ?_
  rcases year_lt_or_afterYear_lt h with hlt | ⟨heq, hlt⟩
  · exact Or.inl (by omega)
  · exact Or.inr ⟨by rw [heq], hlt⟩

/-- **In years of four digits texts are ordered as instants.** -/
theorem text_lt_text_iff {a b : Instant} (ha : 0 ≤ year a ∧ year a ≤ 9999)
    (hb : 0 ≤ year b ∧ year b ≤ 9999) : text a < text b ↔ a < b := by
  refine ⟨fun h => ?_, text_lt_text ha hb⟩
  rcases lt_trichotomy a b with hlt | rfl | hlt
  · exact hlt
  · exact absurd h (String.lt_irrefl _)
  · exact absurd h (String.lt_asymm (text_lt_text hb ha hlt))

/-- A year begins with its first day. -/
theorem le_year_iff {year : Int} {instant : Instant} :
    year ≤ instant.year ↔ dayNumber ⟨year, 1, 1⟩ * dayLength ≤ instant := by
  rw [Instant.year, date, le_year_civil_iff]
  exact Int.le_ediv_iff_mul_le (by decide)

/-- **The instants that have a text** are those of the years from the first to the last. -/
theorem text?_eq (instant : Instant) : text? instant =
    if firstYear ≤ year instant ∧ year instant ≤ lastYear then some (text instant) else none := by
  have hfirst : firstYear ≤ year instant ↔ firstInstant ≤ instant := le_year_iff
  have hlast : year instant ≤ lastYear ↔ instant < endInstant := by
    rw [← Int.lt_add_one_iff, ← not_le, le_year_iff, not_le]
    rfl
  exact if_congr (and_congr hfirst hlast).symm rfl rfl

end Instant

end PlcTags.Calendar

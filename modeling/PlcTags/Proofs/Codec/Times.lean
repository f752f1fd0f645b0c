import PlcTags.Codec
import PlcTags.Proofs.Calendar.Text
import PlcTags.Proofs.Number.Nearest

/-!
# Texts of controller times

What a controller clock shows is an instant of universal time, and its text tells the instant.

* `IsInstant`: the instant that a clock shows when it runs some hours ahead; `isInstant_iff`: there
  is one.
* `timeText_eq_ok_iff`, `timeText_eq_error_iff`: a time has the text of its instant, unless the year
  of the instant has none.
* `timeText_exact`: the whole statement.
-/

namespace PlcTags

open Calendar Number

/-- **The instant that a clock shows** as nanoseconds when it runs some hours ahead: it lies earlier
by the milliseconds of these hours, their number rounded to double precision and then to a whole
one. -/
def IsInstant (nanos : Nat) (hours : ℚ) (instant : Instant) : Prop :=
  ∃ product, IsRounded (hours * 3600000) product ∧ instant = nanos - roundAway product * 1000000

/-- **There is one such instant.** -/
theorem isInstant_iff {nanos : Nat} {zone : BitVec 64} {hours : ℚ} {instant : Instant}
    (hzone : double? zone = some hours) (hhours : |hours| ≤ 10 ^ 11) :
    IsInstant nanos hours instant ↔ instant = plcInstant nanos zone := by
  have hbound : |hours * (3600000 : Nat)| < 2 ^ (60 : Int) := by
    rw [abs_mul, Nat.abs_cast]
    norm_num
    linarith
  obtain ⟨product, hproduct, hshift⟩ := exists_scaledToInt64 hzone hbound
  rw [Nat.cast_ofNat] at hproduct
  unfold IsInstant plcInstant zoneShift
  rw [hshift]
  constructor
  · rintro ⟨other, hother, rfl⟩
    rw [hother.unique hproduct]
  · rintro rfl
    exact ⟨product, hproduct, rfl⟩

theorem timeText_eq_ok_iff {nanos : Nat} {zone : BitVec 64} {text : String} :
    timeText nanos zone = .ok text ↔
      (firstYear ≤ (plcInstant nanos zone).year ∧ (plcInstant nanos zone).year ≤ lastYear) ∧
        (plcInstant nanos zone).text = text := by
  unfold timeText
  rw [Instant.text?_eq]
  split_ifs with h
  · simp [h]
  · simp [h]

theorem timeText_eq_error_iff {nanos : Nat} {zone : BitVec 64} {cause : DecodeError} :
    timeText nanos zone = .error cause ↔ cause = .timeOutOfRange nanos ∧
      ((plcInstant nanos zone).year < firstYear ∨ lastYear < (plcInstant nanos zone).year) := by
  rw [← not_le, ← not_le, ← not_and_or]
  unfold timeText
  rw [Instant.text?_eq]
  split_ifs with h
  · simp [h]
  · simp [h, eq_comm]

/-- **The text of a time tells its instant.** Each of two times shows one instant. Their texts are
equal when the instants are, and in years of four digits they are ordered as the instants. A time
has a text unless its instant is outside the years of the calendar. -/
theorem timeText_exact {nanos nanos' : Nat} {zone zone' : BitVec 64} {hours hours' : ℚ}
    (hzone : double? zone = some hours) (hhours : |hours| ≤ 10 ^ 11)
    (hzone' : double? zone' = some hours') (hhours' : |hours'| ≤ 10 ^ 11) :
    ∃ instant instant' : Instant,
      (∀ other, IsInstant nanos hours other ↔ other = instant) ∧
      (∀ other, IsInstant nanos' hours' other ↔ other = instant') ∧
      (∀ text text', timeText nanos zone = .ok text → timeText nanos' zone' = .ok text' →
        (text = text' ↔ instant = instant') ∧
        (0 ≤ instant.year ∧ instant.year ≤ 9999 → 0 ≤ instant'.year ∧ instant'.year ≤ 9999 →
          (text < text' ↔ instant < instant'))) ∧
      ∀ cause, timeText nanos zone = .error cause ↔
        cause = .timeOutOfRange nanos ∧ (instant.year < firstYear ∨ lastYear < instant.year) := by
  refine ⟨plcInstant nanos zone, plcInstant nanos' zone', fun _ => isInstant_iff hzone hhours,
    fun _ => isInstant_iff hzone' hhours', fun text text' htext htext' => ?_,
    fun _ => timeText_eq_error_iff⟩
  obtain ⟨-, rfl⟩ := timeText_eq_ok_iff.mp htext
  obtain ⟨-, rfl⟩ := timeText_eq_ok_iff.mp htext'
  exact ⟨Instant.text_injective.eq_iff, fun hyear hyear' => Instant.text_lt_text_iff hyear hyear'⟩

/-- One hour. -/
def oneHour : BitVec 64 := 0x3ff0000000000000

/-- Five nanoseconds past one o'clock in a zone one hour ahead are before seven nanoseconds past
midnight in universal time, and so are their texts. -/
theorem timeText_exact_oneHour :
    (double? oneHour = some 1 ∧ |(1 : ℚ)| ≤ 10 ^ 11 ∧ double? 0 = some 0 ∧ |(0 : ℚ)| ≤ 10 ^ 11) ∧
      IsInstant 3600000000005 1 5 ∧ IsInstant 7 0 7 ∧
      timeText 3600000000005 oneHour = .ok "1970-01-01T00:00:00.000000005Z" ∧
      timeText 7 0 = .ok "1970-01-01T00:00:00.000000007Z" ∧
      "1970-01-01T00:00:00.000000005Z" ≠ "1970-01-01T00:00:00.000000007Z" ∧
      "1970-01-01T00:00:00.000000005Z" < "1970-01-01T00:00:00.000000007Z" ∧
      ∀ cause, timeText 3600000000005 oneHour ≠ .error cause := by
  have hunpack : binary64.unpack oneHour.toNat = .finite false 4503599627370496 (-52) := by decide
  have hone : double? oneHour = some 1 := by
    rw [double?, hunpack]
    norm_num
  have hunpack' : binary64.unpack (0 : BitVec 64).toNat = .finite false 0 (-1074) := by decide
  have hzero : double? 0 = some 0 := by
    rw [double?, hunpack']
    norm_num
  have hle : |(1 : ℚ)| ≤ 10 ^ 11 := by norm_num
  have hle' : |(0 : ℚ)| ≤ 10 ^ 11 := by norm_num
  have hfive : IsInstant 3600000000005 1 5 := (isInstant_iff hone hle).mpr (by decide +kernel)
  have hseven : IsInstant 7 0 7 := (isInstant_iff hzero hle').mpr (by decide +kernel)
  have htext : timeText 3600000000005 oneHour = .ok "1970-01-01T00:00:00.000000005Z" :=
    timeText_eq_ok_iff.mpr (by decide +kernel)
  have htext' : timeText 7 0 = .ok "1970-01-01T00:00:00.000000007Z" :=
    timeText_eq_ok_iff.mpr (by decide +kernel)
  obtain ⟨instant, instant', hfirst, hsecond, htexts, herror⟩ := timeText_exact hone hle hzero hle'
  obtain rfl := (hfirst 5).mp hfive
  obtain rfl := (hsecond 7).mp hseven
  obtain ⟨heq, hlt⟩ := htexts _ _ htext htext'
  refine ⟨⟨hone, hle, hzero, hle'⟩, hfive, hseven, htext, htext', ?_, ?_, fun cause hcause => ?_⟩
  · exact fun hsame => absurd (heq.mp hsame) (by decide)
  · exact (hlt (by decide +kernel) (by decide +kernel)).mpr (by decide)
  · exact absurd ((herror cause).mp hcause).2 (by decide +kernel)

end PlcTags

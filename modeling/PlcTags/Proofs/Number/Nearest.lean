import Mathlib.Algebra.Order.Floor.Ring
import Mathlib.Data.Rat.Floor
import Mathlib.Tactic.Linarith
import PlcTags.Proofs.Number.Widen

/-!
# Rounding to nearest

What rounding gives is the nearest number of the format, and of two nearest ones the one whose last
bit is zero.

* `NearestMultiple`: the multiple of a unit nearest to a number; `nearestMultiple_roundEven`.
* `Format.Rounds`: the exponent and the significand that rounding finds, before they are packed.
  `Format.exists_rounds`: it finds them; `Format.Rounds.le_of_packs`: no number of the format is
  nearer.
* `double?`, `IsRounded`: **the numbers of double precision and the nearest one of them**;
  `IsRounded.unique`: there is one nearest.
* `roundAway`, `exists_scaledToInt64`: a product is rounded to double precision and then to a whole
  number.
-/

namespace PlcTags.Number

/-! ## Grids -/

/-- **The multiple of a unit nearest to a number**, the even one of two. -/
structure NearestMultiple (unit x : ℚ) (n : Nat) : Prop where
  le : |x - n * unit| ≤ unit / 2
  even : |x - n * unit| = unit / 2 → n % 2 = 0

/-- Rounding takes the whole quotient or the next one, and the even one of the two at a tie. -/
theorem roundEven_cases (num den : Nat) :
    roundEven num den = num / den ∧ 2 * (num % den) ≤ den ∧
        (2 * (num % den) = den → num / den % 2 = 0) ∨
      roundEven num den = num / den + 1 ∧ den ≤ 2 * (num % den) ∧
        (2 * (num % den) = den → (num / den + 1) % 2 = 0) := by
  unfold roundEven
  dsimp only
  split_ifs <;> omega

/-- Rounding in whole numbers. -/
theorem roundEven_bounds (num : Nat) {den : Nat} (hden : 0 < den) :
    2 * |(num : Int) - roundEven num den * den| ≤ den ∧
      (2 * |(num : Int) - roundEven num den * den| = den → roundEven num den % 2 = 0) := by
  have hsplit : (den : Int) * (num / den : Nat) + (num % den : Nat) = num := by
    exact_mod_cast Nat.div_add_mod num den
  have hmod := Nat.mod_lt num hden
  rcases roundEven_cases num den with ⟨heq, hle, heven⟩ | ⟨heq, hle, heven⟩
  · have hdiff : (num : Int) - (num / den : Nat) * den = (num % den : Nat) := by linarith
    rw [heq, hdiff, abs_of_nonneg (by omega)]
    omega
  · have hdiff : (num : Int) - (num / den + 1 : Nat) * den = (num % den : Nat) - den := by
      rw [Nat.cast_succ]
      linarith
    rw [heq, hdiff, abs_of_nonpos (by omega)]
    omega

/-- **The rounded quotient is the nearest multiple.** -/
theorem nearestMultiple_roundEven {num den : Nat} {unit x : ℚ} (hden : 0 < den) (hunit : 0 < unit)
    (hx : x = num / den * unit) : NearestMultiple unit x (roundEven num den) := by
  obtain ⟨hle, heven⟩ := roundEven_bounds num hden
  have hpos : (0 : ℚ) < den := Nat.cast_pos.mpr hden
  have hdiff : x - roundEven num den * unit =
      ((num : Int) - roundEven num den * den : Int) * (unit / den) := by
    rw [hx]
    push_cast
    field_simp
  have hscale : |x - roundEven num den * unit| =
      (|(num : Int) - roundEven num den * den| : Int) * (unit / den) := by
    rw [hdiff, abs_mul, abs_of_pos (div_pos hunit hpos), Int.cast_abs]
  have hhalf : unit / 2 = (den : ℚ) / 2 * (unit / den) := by
    field_simp
  constructor
  · rw [hscale, hhalf]
    refine mul_le_mul_of_nonneg_right ?_ (div_pos hunit hpos).le
    rw [le_div_iff₀ two_pos, mul_comm]
    exact_mod_cast hle
  · intro h
    rw [hscale, hhalf] at h
    have h := mul_right_cancel₀ (div_pos hunit hpos).ne' h
    rw [eq_div_iff two_ne_zero, mul_comm] at h
    exact heven (by exact_mod_cast h)

variable {unit x : ℚ} {n : Nat}

/-- **No multiple is nearer**; of two at one distance one is even and one is odd. -/
theorem NearestMultiple.le_of_multiple (h : NearestMultiple unit x n) (hunit : 0 < unit) (k : Nat) :
    |x - n * unit| ≤ |x - k * unit| ∧
      (k ≠ n → |x - k * unit| = |x - n * unit| → n % 2 = 0 ∧ k % 2 = 1) := by
  rcases eq_or_ne k n with rfl | hne
  · exact ⟨le_refl _, fun hne => absurd rfl hne⟩
  · have hle := h.le
    have htriangle : |(k : ℚ) - n| * unit ≤ |x - n * unit| + |x - k * unit| := by
      rw [← abs_of_pos hunit, ← abs_mul, abs_of_pos hunit]
      calc |((k : ℚ) - n) * unit| = |(x - n * unit) - (x - k * unit)| := by ring_nf
        _ ≤ _ := abs_sub _ _
    have hone : (1 : ℚ) ≤ |(k : ℚ) - n| := by
      exact_mod_cast Int.one_le_abs (sub_ne_zero.mpr (Nat.cast_injective.ne hne))
    have hunit_le := mul_le_mul_of_nonneg_right hone hunit.le
    refine ⟨by linarith, fun _ htie => ?_⟩
    rw [htie] at htriangle
    have hhalf : |x - n * unit| = unit / 2 := by linarith
    have hle_one : |(k : ℚ) - n| ≤ 1 := by
      refine le_of_mul_le_mul_right ?_ hunit
      linarith
    have hgap : |(k : Int) - n| ≤ 1 := by exact_mod_cast hle_one
    have heven := h.even hhalf
    rw [abs_le] at hgap
    exact ⟨heven, by omega⟩

/-- The nearest multiple is not beyond a multiple that the number is below. -/
theorem NearestMultiple.le_of_lt {bound : Nat} (h : NearestMultiple unit x n) (hunit : 0 < unit)
    (hx : x < bound * unit) : n ≤ bound := by
  have hle := (abs_le.mp h.le).1
  have hlt : (n : ℚ) * unit < (bound + 1) * unit := by linarith
  have hcast : (n : ℚ) < (bound + 1 : Nat) := by
    push_cast
    exact lt_of_mul_lt_mul_right hlt hunit.le
  exact Nat.lt_succ_iff.mp (by exact_mod_cast hcast)

/-! ## Numbers of a format -/

namespace Format

variable {f : Format} {s : Nat} {e : Int}

/-- A number of the format is below the next power of two. -/
theorem Packs.lt_zpow (h : f.Packs s e) : (s : ℚ) * 2 ^ e < twoTo f.fractionBits * 2 ^ (e + 1) := by
  have hlt : (s : ℚ) < 2 * twoTo f.fractionBits := by exact_mod_cast h.lt
  rw [zpow_add_one₀ two_ne_zero]
  have hpos := two_zpow_pos e
  nlinarith

/-- **Numbers of the format** with a greater exponent are multiples of a power of two. -/
theorem exists_multiple (s : Nat) {e e' : Int} (h : e ≤ e') :
    ∃ k : Nat, (s : ℚ) * 2 ^ e' = k * 2 ^ e ∧ (k % 2 = 1 → e' = e ∧ k = s) := by
  obtain ⟨d, rfl⟩ : ∃ d : Nat, e' = e + d := ⟨(e' - e).toNat, by omega⟩
  refine ⟨s * 2 ^ d, ?_, fun hodd => ?_⟩
  · rw [zpow_add₀ two_ne_zero, zpow_natCast]
    push_cast
    ring
  · cases d with
    | zero => exact ⟨Int.add_zero e, Nat.mul_one s⟩
    | succ d =>
      rw [Nat.pow_succ, ← Nat.mul_assoc, Nat.mul_mod_left] at hodd
      cases hodd

/-- **What rounding gives**: the exponent and the significand, before they are packed. -/
structure Rounds (f : Format) (x : ℚ) (n : Nat) (e : Int) : Prop where
  least : f.unitExponent ≤ e
  nearest : NearestMultiple (2 ^ e) x n
  le : n ≤ 2 * twoTo f.fractionBits
  normal : (twoTo f.fractionBits : ℚ) * 2 ^ e ≤ x ∨ e = f.unitExponent

/-- **No number of the format is nearer** than the rounded one. -/
theorem Rounds.le_of_packs {x : ℚ} {n : Nat} {s' : Nat} {e' : Int} (h : f.Rounds x n e)
    (hpacks : f.Packs s' e') : |x - n * 2 ^ e| ≤ |x - s' * 2 ^ e'| ∧
      ((s' : ℚ) * 2 ^ e' ≠ n * 2 ^ e → |x - s' * 2 ^ e'| = |x - n * 2 ^ e| →
        n % 2 = 0 ∧ s' % 2 = 1) := by
  have hunit := two_zpow_pos e
  rcases le_or_gt e e' with hle | hlt
  · obtain ⟨k, hk, hodd⟩ := exists_multiple s' hle
    obtain ⟨hnear, htie⟩ := h.nearest.le_of_multiple hunit k
    rw [hk]
    refine ⟨hnear, fun hne heq => ?_⟩
    obtain ⟨heven, hkodd⟩ := htie (fun hkn => hne (by rw [hkn])) heq
    obtain ⟨-, rfl⟩ := hodd hkodd
    exact ⟨heven, hkodd⟩
  · -- a number with a smaller exponent is below the least multiple with all bits
    have hnormal := h.normal.resolve_right (by have := hpacks.least; omega)
    have hbelow : (s' : ℚ) * 2 ^ e' < twoTo f.fractionBits * 2 ^ e := by
      refine hpacks.lt_zpow.trans_le (mul_le_mul_of_nonneg_left ?_ (Nat.cast_nonneg _))
      exact zpow_le_zpow_right₀ one_le_two (by omega)
    obtain ⟨hnear, -⟩ := h.nearest.le_of_multiple hunit (twoTo f.fractionBits)
    have hlt : |x - n * 2 ^ e| < |x - s' * 2 ^ e'| := by
      refine hnear.trans_lt ?_
      rw [abs_of_nonneg (sub_nonneg.mpr hnormal), abs_of_nonneg (by linarith)]
      linarith
    exact ⟨hlt.le, fun _ heq => absurd heq hlt.ne'⟩

/-- The quotient that is rounded, in units of the last place. -/
theorem significand_nearest (num : Nat) {den : Nat} (hden : 0 < den) (e : Int) :
    NearestMultiple (2 ^ e) (num / den) (if 0 ≤ e then roundEven num (den * twoTo e.toNat)
      else roundEven (num * twoTo (-e).toNat) den) := by
  have hunit := two_zpow_pos e
  have hpos : (0 : ℚ) < den := Nat.cast_pos.mpr hden
  split_ifs with he
  · refine nearestMultiple_roundEven (Nat.mul_pos hden (twoTo_pos _)) hunit ?_
    rw [Nat.cast_mul, cast_twoTo_toNat he]
    field_simp
  · refine nearestMultiple_roundEven hden hunit ?_
    rw [Nat.cast_mul, cast_twoTo_toNat (show 0 ≤ -e by omega), zpow_neg]
    field_simp

/-- **Quotients are rounded to nearest.** -/
theorem exists_rounds_quotient (f : Format) (num : Nat) {den : Nat} (hden : 0 < den) :
    ∃ n e, f.Rounds (num / den) n e ∧
      f.nearestQuotient num den = min f.infinityWord (f.pack n e) := by
  rcases Nat.eq_zero_or_pos num with rfl | hnum
  · refine ⟨0, f.unitExponent, ⟨le_refl _, ⟨?_, fun _ => rfl⟩, Nat.zero_le _, Or.inr rfl⟩, ?_⟩
    · simpa using (half_pos (two_zpow_pos f.unitExponent)).le
    · simp [nearestQuotient, pack]
  · obtain ⟨hlow, hhigh⟩ := leadingBit_bounds hnum hden
    have hnearest := significand_nearest num hden
      (max f.unitExponent (leadingBit num den - f.fractionBits))
    refine ⟨_, _, ⟨le_max_left _ _, hnearest, ?_, ?_⟩, nearestQuotient_eq f hnum.ne' den⟩
    · refine NearestMultiple.le_of_lt hnearest (two_zpow_pos _) (hhigh.trans_le ?_)
      rw [Nat.cast_mul, Nat.cast_two, cast_twoTo, mul_assoc, ← zpow_add₀ two_ne_zero,
        ← zpow_one_add₀ two_ne_zero]
      exact zpow_le_zpow_right₀ one_le_two (by omega)
    · rcases le_total f.unitExponent (leadingBit num den - f.fractionBits) with hle | hle
      · refine Or.inl (le_trans ?_ hlow)
        rw [max_eq_right hle, cast_twoTo, ← zpow_add₀ two_ne_zero]
        exact zpow_le_zpow_right₀ one_le_two (by omega)
      · exact Or.inr (max_eq_left hle)

/-- **Numbers are rounded to nearest.** -/
theorem exists_rounds (f : Format) (num : Nat) (scale : Int) :
    ∃ n e, f.Rounds (num * 2 ^ scale) n e ∧
      f.nearest num 1 scale = min f.infinityWord (f.pack n e) := by
  unfold nearest
  split_ifs with hscale
  · have h := f.exists_rounds_quotient (num * twoTo scale.toNat) Nat.one_pos
    rwa [Nat.cast_mul, cast_twoTo_toNat hscale, Nat.cast_one, div_one] at h
  · have h := f.exists_rounds_quotient num (Nat.mul_pos Nat.one_pos (twoTo_pos (-scale).toNat))
    rwa [Nat.cast_mul, Nat.cast_one, one_mul, cast_twoTo_toNat (show 0 ≤ -scale by omega), zpow_neg,
      div_inv_eq_mul] at h

/-- **A rounded number below infinity is a number of the format.** -/
theorem Rounds.exists_packs {x : ℚ} {n : Nat} {e : Int} (h : f.Rounds x n e)
    (hfinite : f.pack n e < f.infinityWord) :
    ∃ s' e', f.Packs s' e' ∧ f.pack s' e' = f.pack n e ∧ (s' : ℚ) * 2 ^ e' = n * 2 ^ e := by
  have hunit := two_zpow_pos e
  rcases Nat.lt_or_eq_of_le h.le with hlt | rfl
  · refine ⟨n, e, ⟨h.least, hlt, ?_, hfinite⟩, rfl, rfl⟩
    refine h.normal.imp_left fun hnormal => ?_
    obtain ⟨hnear, -⟩ := h.nearest.le_of_multiple hunit (twoTo f.fractionBits)
    rw [abs_of_nonneg (sub_nonneg.mpr hnormal)] at hnear
    have hle := (abs_le.mp hnear).2
    have hle : (twoTo f.fractionBits : ℚ) * 2 ^ e ≤ n * 2 ^ e := by linarith
    exact_mod_cast le_of_mul_le_mul_right hle hunit
  · have hpack : f.pack (twoTo f.fractionBits) (e + 1) = f.pack (2 * twoTo f.fractionBits) e := by
      have hleast := h.least
      unfold pack
      rw [show (e + 1 - f.unitExponent).toNat = (e - f.unitExponent).toNat + 1 by omega,
        Nat.add_mul]
      omega
    have hpos := twoTo_pos f.fractionBits
    have hleast := h.least
    refine ⟨_, e + 1, ⟨by omega, by omega, Or.inl (le_refl _), ?_⟩, hpack, ?_⟩
    · rwa [hpack]
    · rw [zpow_add_one₀ two_ne_zero]
      push_cast
      ring

end Format

/-! ## Double precision -/

/-- **The number that a double precision word stands for**, if it is finite. -/
def double? (word : BitVec 64) : Option ℚ :=
  match binary64.unpack word.toNat with
  | .finite negative s e => some ((if negative then -1 else 1) * (s * 2 ^ e))
  | _ => none

/-- **The number of double precision nearest to a number**: every other one is farther away, or as
far away and its last bit is one where that of the nearest is zero. -/
def IsRounded (x y : ℚ) : Prop :=
  ∃ word, double? word = some y ∧ ∀ other z, double? other = some z → z ≠ y →
    |x - y| < |x - z| ∨ |x - y| = |x - z| ∧ word.toNat % 2 = 0 ∧ other.toNat % 2 = 1

/-- **One number is the nearest.** -/
theorem IsRounded.unique {x y y' : ℚ} (h : IsRounded x y) (h' : IsRounded x y') : y = y' := by
  obtain ⟨word, hword, hnearest⟩ := h
  obtain ⟨word', hword', hnearest'⟩ := h'
  by_contra hne
  rcases hnearest word' y' hword' (Ne.symm hne) with hlt | ⟨heq, heven, hodd⟩
  · rcases hnearest' word y hword hne with hlt' | ⟨heq', -⟩
    · exact lt_asymm hlt hlt'
    · exact hlt.ne heq'.symm
  · rcases hnearest' word y hword hne with hlt' | ⟨-, heven', -⟩
    · exact hlt'.ne heq.symm
    · omega

theorem signWeight_double : binary64.signWeight = 9223372036854775808 := by decide

theorem parity_withSign (negative : Bool) (magnitude : Nat) :
    binary64.withSign negative magnitude % 2 = magnitude % 2 := by
  unfold Format.withSign
  rw [signWeight_double]
  split_ifs <;> omega

theorem parity_pack (s : Nat) (e : Int) : binary64.pack s e % 2 = s % 2 := by
  have hfraction : twoTo binary64.fractionBits = 2 ^ 52 := by decide
  unfold Format.pack
  rw [hfraction]
  omega

/-- A finite double is the packed word of its magnitude. -/
theorem exists_packs_of_double? {word : BitVec 64} {y : ℚ} (h : double? word = some y) :
    ∃ negative s e, binary64.Packs s e ∧ binary64.unpack word.toNat = .finite negative s e ∧
      word.toNat % 2 = s % 2 ∧ y = (if negative then -1 else 1) * ((s : ℚ) * 2 ^ e) := by
  unfold double? at h
  split at h
  · next negative s e hunpack =>
    have hlt : word.toNat < 2 * binary64.signWeight := by
      have hword := word.isLt
      rw [signWeight_double]
      omega
    obtain ⟨hpacks, hword⟩ := Format.packs_of_unpack hlt hunpack
    refine ⟨negative, s, e, hpacks, hunpack, ?_, (Option.some.inj h).symm⟩
    rw [hword, parity_withSign, parity_pack]
  · cases h

/-- A double for a sign, a significand and an exponent. -/
theorem exists_double? {s : Nat} {e : Int} (h : binary64.Packs s e) (negative : Bool) :
    ∃ word, double? word = some ((if negative then -1 else 1) * ((s : ℚ) * 2 ^ e)) ∧
      word.toNat % 2 = s % 2 := by
  obtain ⟨n, hn⟩ : ∃ n, n = binary64.withSign negative (binary64.pack s e) := ⟨_, rfl⟩
  have hlt : n < 18446744073709551616 := by
    have hfinite := h.finite.trans binary64.infinityWord_lt
    rw [hn, Format.withSign]
    rw [signWeight_double] at hfinite ⊢
    split_ifs <;> omega
  have hword : (BitVec.ofNat 64 n).toNat = n := by
    rw [BitVec.toNat_ofNat]
    omega
  refine ⟨BitVec.ofNat 64 n, ?_, ?_⟩
  · rw [double?, hword, hn, Format.unpack_pack h]
  · rw [hword, hn, parity_withSign, parity_pack]

/-- The words of a number and of its negation end in the same bit. -/
theorem exists_neg_double? {word : BitVec 64} {y : ℚ} (h : double? word = some y) :
    ∃ word', double? word' = some (-y) ∧ word'.toNat % 2 = word.toNat % 2 := by
  obtain ⟨negative, s, e, hpacks, -, hparity, rfl⟩ := exists_packs_of_double? h
  obtain ⟨word', hword', hparity'⟩ := exists_double? hpacks !negative
  refine ⟨word', ?_, hparity'.trans hparity.symm⟩
  rw [hword']
  cases negative <;> simp

theorem IsRounded.neg {x y : ℚ} (h : IsRounded x y) : IsRounded (-x) (-y) := by
  obtain ⟨word, hword, hnearest⟩ := h
  obtain ⟨word', hword', hparity⟩ := exists_neg_double? hword
  refine ⟨word', hword', fun other z hother hne => ?_⟩
  obtain ⟨other', hother', hparity'⟩ := exists_neg_double? hother
  have hbest := hnearest other' (-z) hother' (fun h => hne (by rw [← h, neg_neg]))
  rw [hparity, ← hparity', abs_sub_comm (-x) (-y), neg_sub_neg, abs_sub_comm (-x) z, sub_neg_eq_add,
    add_comm z x, ← sub_neg_eq_add]
  exact hbest

/-- **What rounding gives is the nearest number.** -/
theorem Format.Rounds.isRounded {x : ℚ} {n : Nat} {e : Int} (h : binary64.Rounds x n e) (hx : 0 ≤ x)
    (hfinite : binary64.pack n e < binary64.infinityWord) : IsRounded x (n * 2 ^ e) := by
  obtain ⟨s, e', hpacks, hpack, hvalue⟩ := h.exists_packs hfinite
  obtain ⟨word, hword, hparity⟩ := exists_double? hpacks false
  have hlast : word.toNat % 2 = n % 2 := by
    rw [hparity, ← parity_pack, hpack, parity_pack]
  rw [if_neg Bool.false_ne_true, one_mul, hvalue] at hword
  refine ⟨word, hword, fun other z hother hne => ?_⟩
  obtain ⟨negative, s', e'', hpacks', -, hparity', hz⟩ := exists_packs_of_double? hother
  have hnonneg : (0 : ℚ) ≤ s' * 2 ^ e'' := mul_nonneg (Nat.cast_nonneg _) (two_zpow_pos _).le
  have hsign : z = s' * 2 ^ e'' ∨ z < 0 := by
    cases negative with
    | false => exact Or.inl (hz.trans (one_mul _))
    | true =>
      rw [if_pos rfl, neg_one_mul] at hz
      rcases lt_or_eq_of_le hnonneg with hpos | hzero
      · exact Or.inr (by linarith)
      · exact Or.inl (by linarith)
  rcases hsign with rfl | hneg
  · obtain ⟨hnear, htie⟩ := h.le_of_packs hpacks'
    rcases lt_or_eq_of_le hnear with hlt | heq
    · exact Or.inl hlt
    · obtain ⟨heven, hodd⟩ := htie hne heq.symm
      exact Or.inr ⟨heq, hlast.trans heven, hparity'.trans hodd⟩
  · -- a negative number is farther away than zero
    obtain ⟨hzero, -⟩ := h.nearest.le_of_multiple (two_zpow_pos e) 0
    rw [Nat.cast_zero, zero_mul, sub_zero, abs_of_nonneg hx] at hzero
    rw [abs_of_pos (show 0 < x - z by linarith)]
    exact Or.inl (by linarith)

/-! ## Whole numbers -/

/-- **A number rounded to a whole one**, a half away from zero. -/
def roundAway (x : ℚ) : Int :=
  if 0 ≤ x then ⌊x + 1 / 2⌋ else -⌊-x + 1 / 2⌋

theorem roundAway_of_nonneg {x : ℚ} (h : 0 ≤ x) : roundAway x = ⌊x + 1 / 2⌋ :=
  if_pos h

theorem roundAway_neg {x : ℚ} (h : 0 ≤ x) : roundAway (-x) = -⌊x + 1 / 2⌋ := by
  rcases lt_or_eq_of_le h with hpos | rfl
  · rw [roundAway, if_neg (by linarith), neg_neg]
  · norm_num [roundAway]

theorem roundHalfUp_eq (s : Nat) (e : Int) :
    (roundHalfUp s e : Int) = ⌊(s : ℚ) * 2 ^ e + 1 / 2⌋ := by
  unfold roundHalfUp
  split_ifs with he
  · have hwhole : (s : ℚ) * 2 ^ e = (s * twoTo e.toNat : Nat) := by
      rw [Nat.cast_mul, cast_twoTo_toNat he]
    rw [hwhole, Int.floor_natCast_add]
    norm_num
  · have hpos := twoTo_pos (-e).toNat
    have hquotient : (s : ℚ) * 2 ^ e + 1 / 2 =
        (2 * s + twoTo (-e).toNat : Nat) / (2 * twoTo (-e).toNat : Nat) := by
      have hcast := cast_twoTo_toNat (show 0 ≤ -e by omega)
      push_cast
      rw [hcast, zpow_neg]
      field_simp
    dsimp only
    rw [hquotient, Rat.floor_natCast_div_natCast, Int.natCast_ediv]

theorem clampInt64_of_abs_le {n : Int} (h : |n| ≤ int64Largest) : clampInt64 n = n := by
  rw [abs_le] at h
  unfold clampInt64 int64Least
  unfold int64Largest at *
  omega

/-- Numbers that are not too great stay finite when they are rounded. -/
theorem Format.Rounds.pack_lt {x : ℚ} {n : Nat} {e : Int} (h : binary64.Rounds x n e)
    (hx : x < 2 ^ (60 : Int)) : binary64.pack n e < binary64.infinityWord := by
  have hfraction : twoTo binary64.fractionBits = 2 ^ 52 := by decide
  have hle := h.le
  have he : e < 8 := by
    rcases h.normal with hnormal | rfl
    · rw [cast_twoTo, ← zpow_add₀ two_ne_zero] at hnormal
      have hlt := (zpow_lt_zpow_iff_right₀ one_lt_two).mp (hnormal.trans_lt hx)
      have hbits : (binary64.fractionBits : Int) = 52 := rfl
      omega
    · decide
  have hinfinity : binary64.infinityWord = 2047 * 2 ^ 52 := by decide
  have hunit : binary64.unitExponent = -1074 := by decide
  unfold pack
  rw [hfraction] at *
  rw [hinfinity, hunit]
  omega

/-- The whole number nearest to one that is not too great fits 64 bits. -/
theorem Format.Rounds.abs_roundHalfUp_le {x : ℚ} {n s : Nat} {e power : Int}
    (h : binary64.Rounds x n e) (hnonneg : 0 ≤ x) (hx : x < 2 ^ (60 : Int))
    (hvalue : (s : ℚ) * 2 ^ power = n * 2 ^ e) :
    |(roundHalfUp s power : Int)| ≤ int64Largest := by
  obtain ⟨hzero, -⟩ := h.nearest.le_of_multiple (two_zpow_pos e) 0
  rw [Nat.cast_zero, zero_mul, sub_zero, abs_of_nonneg hnonneg] at hzero
  have hle := (abs_le.mp hzero).1
  have hpower : (2 : ℚ) ^ (60 : Int) = 1152921504606846976 := by norm_num
  rw [hpower] at hx
  rw [Int.abs_natCast, roundHalfUp_eq, hvalue, ← Int.lt_add_one_iff, Int.floor_lt, int64Largest]
  push_cast
  linarith

theorem scaledToInt64_eq {f : Format} {word factor s s' : Nat} {negative negative' : Bool}
    {e e' : Int} (h : f.unpack word = .finite negative s e)
    (h' : f.unpack (f.nearest (s * factor) 1 e) = .finite negative' s' e') :
    f.scaledToInt64 word factor =
      clampInt64 (if negative then -(roundHalfUp s' e' : Int) else roundHalfUp s' e') := by
  unfold Format.scaledToInt64
  rw [h]
  dsimp only
  rw [h']

/-- **A product is rounded to nearest, then to a whole number**, as long as the bounds of 64 bits
are far. -/
theorem exists_scaledToInt64 {word : BitVec 64} {value : ℚ} {factor : Nat}
    (hword : double? word = some value) (hbound : |value * factor| < 2 ^ (60 : Int)) :
    ∃ product, IsRounded (value * factor) product ∧
      binary64.scaledToInt64 word.toNat factor = roundAway product := by
  obtain ⟨negative, s, e, -, hunpack, -, hvalue⟩ := exists_packs_of_double? hword
  obtain ⟨n, power, hrounds, hnearest⟩ := binary64.exists_rounds (s * factor) e
  have hmagnitude : (0 : ℚ) ≤ (s * factor : Nat) * 2 ^ e :=
    mul_nonneg (Nat.cast_nonneg _) (two_zpow_pos e).le
  have hproduct : value * factor =
      (if negative then -1 else 1) * (((s * factor : Nat) : ℚ) * 2 ^ e) := by
    rw [hvalue]
    push_cast
    ring
  have hlt : ((s * factor : Nat) : ℚ) * 2 ^ e < 2 ^ (60 : Int) := by
    rw [hproduct, abs_mul, abs_of_nonneg hmagnitude] at hbound
    cases negative <;> simpa using hbound
  have hfinite := hrounds.pack_lt hlt
  have hrounded := hrounds.isRounded hmagnitude hfinite
  obtain ⟨s', e', hpacks', hpack, hvalue'⟩ := hrounds.exists_packs hfinite
  have hunpacked : binary64.unpack (binary64.nearest (s * factor) 1 e) = .finite false s' e' := by
    have h : binary64.unpack (binary64.withSign false (binary64.pack s' e')) =
        .finite false s' e' := Format.unpack_pack hpacks'
    rwa [Format.withSign, if_neg Bool.false_ne_true, Nat.zero_add, hpack,
      ← Nat.min_eq_right hfinite.le, ← hnearest] at h
  have hnonneg : (0 : ℚ) ≤ n * 2 ^ power := mul_nonneg (Nat.cast_nonneg _) (two_zpow_pos _).le
  have hwhole : (roundHalfUp s' e' : Int) = ⌊(n : ℚ) * 2 ^ power + 1 / 2⌋ := by
    rw [roundHalfUp_eq, hvalue']
  have hclamp := hrounds.abs_roundHalfUp_le hmagnitude hlt hvalue'
  have hscaled := scaledToInt64_eq hunpack hunpacked
  cases negative with
  | false =>
    rw [if_neg Bool.false_ne_true, one_mul] at hproduct
    rw [if_neg Bool.false_ne_true, clampInt64_of_abs_le hclamp, hwhole] at hscaled
    exact ⟨_, by rwa [hproduct], hscaled.trans (roundAway_of_nonneg hnonneg).symm⟩
  | true =>
    rw [if_pos rfl, neg_one_mul] at hproduct
    rw [if_pos rfl, clampInt64_of_abs_le (by rwa [abs_neg]), hwhole] at hscaled
    exact ⟨_, by rw [hproduct]; exact hrounded.neg, hscaled.trans (roundAway_neg hnonneg).symm⟩

end PlcTags.Number

import Mathlib.Algebra.Order.Field.Power
import Mathlib.Data.Rat.Cast.Order
import Mathlib.Tactic.FieldSimp
import Mathlib.Tactic.NormNum
import Mathlib.Tactic.Positivity
import Mathlib.Tactic.Ring
import Mathlib.Tactic.SplitIfs
import PlcTags.Number.Binary

/-!
# Widening is exact

A number of single precision is a number of double precision, and rounding it back gives the word it
came from (`convert_convert`). What carries this: rounding does nothing to a number that a format
has.

* `Format.Packs`: a format has a word for a significand and an exponent, and `Format.pack` is it.
* `packs_of_unpack`, `unpack_pack`: finite words are the packed ones.
* `leadingBit_eq`: the place of the leading bit of a quotient.
* `nearest_eq_pack`: **the word nearest to a number of the format is its word.**
* `exists_packs_double`: numbers of single precision are numbers of double precision.
-/

namespace PlcTags.Number

theorem twoTo_eq_pow (n : Nat) : twoTo n = 2 ^ n := by
  rw [twoTo, Nat.one_shiftLeft]

theorem cast_twoTo (n : Nat) : (twoTo n : ℚ) = 2 ^ (n : Int) := by
  rw [twoTo_eq_pow, Nat.cast_pow, zpow_natCast]
  rfl

theorem cast_twoTo_toNat {n : Int} (h : 0 ≤ n) : (twoTo n.toNat : ℚ) = 2 ^ n := by
  rw [cast_twoTo, Int.toNat_of_nonneg h]

theorem two_zpow_pos (n : Int) : (0 : ℚ) < 2 ^ n :=
  zpow_pos two_pos n

/-! ## Quotients -/

/-- A quotient that comes out even is not rounded. -/
theorem roundEven_mul (n : Nat) {den : Nat} (h : 0 < den) : roundEven (n * den) den = n := by
  unfold roundEven
  dsimp only
  rw [Nat.mul_mod_left, Nat.mul_div_cancel _ h, if_pos (by omega)]

/-- The place of the leading bit of a quotient. -/
def leadingBit (num den : Nat) : Int :=
  let estimate : Int := (num.log2 : Int) - den.log2
  let reached := if 0 ≤ estimate then den * twoTo estimate.toNat ≤ num
    else den ≤ num * twoTo (-estimate).toNat
  if reached then estimate else estimate - 1

/-- Powers of two around a number. -/
theorem log2_bounds {n : Nat} (h : 0 < n) :
    (2 : ℚ) ^ (n.log2 : Int) ≤ n ∧ (n : ℚ) < 2 ^ (n.log2 + 1 : Int) := by
  have hlow : 2 ^ n.log2 ≤ n := Nat.log2_self_le (Nat.ne_of_gt h)
  have hhigh : n < 2 ^ (n.log2 + 1) := Nat.lt_log2_self
  exact ⟨by exact_mod_cast hlow, by exact_mod_cast hhigh⟩

/-- The comparison of a quotient with a power of two, in whole numbers. -/
theorem reached_iff {num den : Nat} (h : 0 < den) (e : Int) :
    (if 0 ≤ e then den * twoTo e.toNat ≤ num else den ≤ num * twoTo (-e).toNat) ↔
      (2 : ℚ) ^ e ≤ num / den := by
  have hden : (0 : ℚ) < den := Nat.cast_pos.mpr h
  rw [le_div_iff₀ hden]
  split_ifs with he
  · rw [← cast_twoTo_toNat he, mul_comm]
    exact_mod_cast Iff.rfl
  · have hcast := cast_twoTo_toNat (show 0 ≤ -e by omega)
    have hpos := two_zpow_pos e
    rw [show (den ≤ num * twoTo (-e).toNat) ↔ ((den : ℚ) ≤ num * (twoTo (-e).toNat : ℚ)) by
      exact_mod_cast Iff.rfl, hcast, zpow_neg, ← div_eq_mul_inv, le_div_iff₀ hpos, mul_comm]

/-- **The leading bit** stands where the quotient lies between two powers. -/
theorem leadingBit_bounds {num den : Nat} (hnum : 0 < num) (hden : 0 < den) :
    (2 : ℚ) ^ leadingBit num den ≤ num / den ∧
      (num : ℚ) / den < 2 ^ (leadingBit num den + 1) := by
  obtain ⟨hnumLow, hnumHigh⟩ := log2_bounds hnum
  obtain ⟨hdenLow, hdenHigh⟩ := log2_bounds hden
  have hpos : (0 : ℚ) < den := Nat.cast_pos.mpr hden
  have hreached := @reached_iff num den hden (num.log2 - den.log2)
  by_cases h : (2 : ℚ) ^ ((num.log2 : Int) - den.log2) ≤ num / den
  · have hleading : leadingBit num den = num.log2 - den.log2 := if_pos (hreached.mpr h)
    rw [hleading]
    refine ⟨h, (div_lt_iff₀ hpos).mpr ?_⟩
    calc (num : ℚ) < 2 ^ (num.log2 + 1 : Int) := hnumHigh
      _ = 2 ^ ((num.log2 : Int) - den.log2 + 1) * 2 ^ (den.log2 : Int) := by
        rw [← zpow_add₀ two_ne_zero]
        congr 1
        omega
      _ ≤ _ := mul_le_mul_of_nonneg_left hdenLow (two_zpow_pos _).le
  · have hleading : leadingBit num den = num.log2 - den.log2 - 1 :=
      if_neg (mt hreached.mp h)
    rw [hleading, Int.sub_add_cancel]
    refine ⟨(le_div_iff₀ hpos).mpr ?_, lt_of_not_ge h⟩
    calc (2 : ℚ) ^ ((num.log2 : Int) - den.log2 - 1) * den
        ≤ 2 ^ ((num.log2 : Int) - den.log2 - 1) * 2 ^ (den.log2 + 1 : Int) :=
          mul_le_mul_of_nonneg_left hdenHigh.le (two_zpow_pos _).le
      _ = 2 ^ (num.log2 : Int) := by
        rw [← zpow_add₀ two_ne_zero]
        congr 1
        omega
      _ ≤ num := hnumLow

theorem leadingBit_eq {num den : Nat} {e : Int} (hnum : 0 < num) (hden : 0 < den)
    (hlow : (2 : ℚ) ^ e ≤ num / den) (hhigh : (num : ℚ) / den < 2 ^ (e + 1)) :
    leadingBit num den = e := by
  obtain ⟨hlow', hhigh'⟩ := leadingBit_bounds hnum hden
  have h := (zpow_lt_zpow_iff_right₀ one_lt_two).mp (hlow.trans_lt hhigh')
  have h' := (zpow_lt_zpow_iff_right₀ one_lt_two).mp (hlow'.trans_lt hhigh)
  omega

/-! ## Words -/

namespace Format

variable {f : Format} {s : Nat} {e : Int}

/-- The magnitude word of a significand and an exponent. -/
def pack (f : Format) (s : Nat) (e : Int) : Nat :=
  (e - f.unitExponent).toNat * twoTo f.fractionBits + s

/-- **A format has a word** for a significand and an exponent: the significand has as many bits as
the format keeps, and fewer only at the least exponent. -/
structure Packs (f : Format) (s : Nat) (e : Int) : Prop where
  least : f.unitExponent ≤ e
  lt : s < 2 * twoTo f.fractionBits
  normal : twoTo f.fractionBits ≤ s ∨ e = f.unitExponent
  finite : f.pack s e < f.infinityWord

theorem nearestQuotient_eq (f : Format) {num : Nat} (h : num ≠ 0) (den : Nat) :
    f.nearestQuotient num den =
      let exponent := max f.unitExponent (leadingBit num den - f.fractionBits)
      let significand :=
        if 0 ≤ exponent then roundEven num (den * twoTo exponent.toNat)
        else roundEven (num * twoTo (-exponent).toNat) den
      min f.infinityWord ((exponent - f.unitExponent).toNat * twoTo f.fractionBits + significand) :=
  if_neg h

/-- The exponent that rounding takes for a number of the format is its own. -/
theorem Packs.exponent_eq (h : f.Packs s e) {num den : Nat} (hnum : 0 < num) (hden : 0 < den)
    (hvalue : (num : ℚ) / den = s * 2 ^ e) :
    max f.unitExponent (leadingBit num den - f.fractionBits) = e := by
  have hhigh : (num : ℚ) / den < 2 ^ (e + f.fractionBits + 1) := by
    rw [hvalue, show e + f.fractionBits + 1 = (1 + f.fractionBits : Int) + e by omega,
      zpow_add₀ two_ne_zero]
    refine mul_lt_mul_of_pos_right ?_ (two_zpow_pos e)
    rw [zpow_add₀ two_ne_zero, zpow_one, ← cast_twoTo]
    exact_mod_cast h.lt
  rcases h.normal with hnormal | rfl
  · have hlow : (2 : ℚ) ^ (e + f.fractionBits) ≤ num / den := by
      rw [hvalue, add_comm, zpow_add₀ two_ne_zero]
      refine mul_le_mul_of_nonneg_right ?_ (two_zpow_pos e).le
      rw [← cast_twoTo]
      exact_mod_cast hnormal
    have hleading := leadingBit_eq hnum hden hlow hhigh
    have hleast := h.least
    omega
  · obtain ⟨hlow, -⟩ := leadingBit_bounds hnum hden
    have hlt := (zpow_lt_zpow_iff_right₀ one_lt_two).mp (hlow.trans_lt hhigh)
    omega

/-- **A number of the format is not rounded.** -/
theorem Packs.nearestQuotient_eq (h : f.Packs s e) {num den : Nat} (hden : 0 < den)
    (hvalue : (num : ℚ) / den = s * 2 ^ e) : f.nearestQuotient num den = f.pack s e := by
  have hcast : (den : ℚ) ≠ 0 := Nat.cast_ne_zero.mpr hden.ne'
  rcases Nat.eq_zero_or_pos s with rfl | hs
  · have hnum : num = 0 := by
      rw [Nat.cast_zero, zero_mul, div_eq_zero_iff, or_iff_left hcast] at hvalue
      exact_mod_cast hvalue
    obtain rfl : e = f.unitExponent := by
      have hpos := twoTo_pos f.fractionBits
      exact h.normal.resolve_left (by omega)
    rw [hnum, pack, sub_self]
    simp [nearestQuotient]
  · have hnum : 0 < num := by
      rcases Nat.eq_zero_or_pos num with rfl | hnum
      · have hpos : (0 : ℚ) < s * 2 ^ e := mul_pos (Nat.cast_pos.mpr hs) (two_zpow_pos e)
        rw [← hvalue, Nat.cast_zero, zero_div] at hpos
        exact absurd hpos (lt_irrefl _)
      · exact hnum
    rw [Format.nearestQuotient_eq f hnum.ne']
    dsimp only
    rw [h.exponent_eq hnum hden hvalue]
    have hsignificand : (if 0 ≤ e then roundEven num (den * twoTo e.toNat)
        else roundEven (num * twoTo (-e).toNat) den) = s := by
      rw [div_eq_iff hcast] at hvalue
      split_ifs with he
      · have heven : num = s * (den * twoTo e.toNat) := by
          have hcast := cast_twoTo_toNat he
          have : (num : ℚ) = s * (den * (twoTo e.toNat : ℚ)) := by
            rw [hvalue, hcast]
            ring
          exact_mod_cast this
        rw [heven]
        exact roundEven_mul s (Nat.mul_pos hden (twoTo_pos _))
      · have heven : num * twoTo (-e).toNat = s * den := by
          have hcast := cast_twoTo_toNat (show 0 ≤ -e by omega)
          have hone : (2 : ℚ) ^ e * 2 ^ (-e) = 1 := by
            rw [← zpow_add₀ two_ne_zero, add_neg_cancel, zpow_zero]
          have : (num : ℚ) * (twoTo (-e).toNat : ℚ) = s * den := by
            rw [hvalue, hcast, show (s : ℚ) * 2 ^ e * den * 2 ^ (-e) =
              s * den * (2 ^ e * 2 ^ (-e)) by ring, hone, mul_one]
          exact_mod_cast this
        rw [heven]
        exact roundEven_mul s hden
    rw [hsignificand]
    exact Nat.min_eq_right h.finite.le

theorem nearest_eq_pack (h : f.Packs s e) {num : Nat} {scale : Int}
    (hvalue : (num : ℚ) * 2 ^ scale = s * 2 ^ e) : f.nearest num 1 scale = f.pack s e := by
  unfold nearest
  split_ifs with hscale
  · refine h.nearestQuotient_eq Nat.one_pos ?_
    rw [Nat.cast_mul, cast_twoTo_toNat hscale, hvalue, Nat.cast_one, div_one]
  · refine h.nearestQuotient_eq (by rw [Nat.one_mul]; exact twoTo_pos _) ?_
    rw [Nat.one_mul, cast_twoTo_toNat (show 0 ≤ -scale by omega), zpow_neg, div_inv_eq_mul, hvalue]

/-! ## Finite words -/

variable {m word : Nat} {negative : Bool}

theorem signWeight_eq (f : Format) :
    f.signWeight = twoTo f.fractionBits * twoTo f.exponentBits := by
  rw [signWeight, twoTo_eq_pow, twoTo_eq_pow, twoTo_eq_pow, pow_add]

theorem infinityWord_lt (f : Format) : f.infinityWord < f.signWeight := by
  have hpos := twoTo_pos f.exponentBits
  rw [infinityWord, signWeight_eq, mul_comm]
  exact Nat.mul_lt_mul_of_pos_left (by omega) (twoTo_pos _)

/-- A word is a magnitude with a sign. -/
theorem exists_withSign (h : word < 2 * f.signWeight) :
    ∃ negative m, m < f.signWeight ∧ word = f.withSign negative m := by
  by_cases hlt : word < f.signWeight
  · exact ⟨false, word, hlt, (Nat.zero_add word).symm⟩
  · exact ⟨true, word - f.signWeight, by omega,
      (Nat.add_sub_cancel' (Nat.le_of_not_lt hlt)).symm⟩

/-- The fields of a magnitude with a sign. -/
theorem unpack_withSign (h : m < f.signWeight) : f.unpack (f.withSign negative m) =
    if m / twoTo f.fractionBits = twoTo f.exponentBits - 1 then
      if m % twoTo f.fractionBits = 0 then .infinity negative
      else .nan negative (m % twoTo f.fractionBits)
    else if m / twoTo f.fractionBits = 0 then
      .finite negative (m % twoTo f.fractionBits) f.unitExponent
    else .finite negative (twoTo f.fractionBits + m % twoTo f.fractionBits)
      (f.unitExponent + (m / twoTo f.fractionBits : Nat) - 1) := by
  have hfraction := twoTo_pos f.fractionBits
  have hweight : 0 < f.signWeight := by omega
  have hsign : (f.withSign negative m / f.signWeight % 2 == 1) = negative := by
    unfold withSign
    cases negative with
    | true =>
      rw [if_pos rfl, Nat.add_div_left _ hweight, Nat.div_eq_of_lt h]
      rfl
    | false =>
      rw [if_neg Bool.false_ne_true, Nat.zero_add, Nat.div_eq_of_lt h]
      rfl
  have hlow : f.withSign negative m % twoTo f.fractionBits = m % twoTo f.fractionBits := by
    unfold withSign
    split_ifs
    · rw [signWeight_eq, Nat.mul_add_mod]
    · rw [Nat.zero_add]
  have hlt : m / twoTo f.fractionBits < twoTo f.exponentBits := by
    rw [signWeight_eq] at h
    exact Nat.div_lt_of_lt_mul h
  have hhigh : f.withSign negative m / twoTo f.fractionBits % twoTo f.exponentBits =
      m / twoTo f.fractionBits := by
    unfold withSign
    split_ifs
    · rw [signWeight_eq, Nat.mul_add_div hfraction, Nat.add_mod_left, Nat.mod_eq_of_lt hlt]
    · rw [Nat.zero_add, Nat.mod_eq_of_lt hlt]
  unfold unpack
  rw [hsign, hlow, hhigh]

/-- **A finite word** is the packed word of its significand and exponent. -/
theorem packs_of_unpack (hword : word < 2 * f.signWeight)
    (h : f.unpack word = .finite negative s e) :
    f.Packs s e ∧ word = f.withSign negative (f.pack s e) := by
  obtain ⟨sign, m, hm, rfl⟩ := exists_withSign hword
  have hfraction := twoTo_pos f.fractionBits
  have hsplit := Nat.div_add_mod m (twoTo f.fractionBits)
  have hmod := Nat.mod_lt m hfraction
  rw [unpack_withSign hm] at h
  -- below infinity because the exponent field is not the last one
  have hfinite : m / twoTo f.fractionBits ≠ twoTo f.exponentBits - 1 → m < f.infinityWord := by
    intro hne
    have hlt : m / twoTo f.fractionBits < twoTo f.exponentBits := by
      rw [signWeight_eq] at hm
      exact Nat.div_lt_of_lt_mul hm
    rw [infinityWord, ← Nat.div_lt_iff_lt_mul hfraction]
    omega
  split_ifs at h with hlast hzero hfirst
  · obtain ⟨rfl, rfl, rfl⟩ := Unpacked.finite.inj h
    have hpack : f.pack (m % twoTo f.fractionBits) f.unitExponent = m := by
      rw [pack, sub_self, Int.toNat_zero, Nat.zero_mul, Nat.zero_add]
      rw [hfirst, Nat.mul_zero, Nat.zero_add] at hsplit
      exact hsplit
    refine ⟨⟨le_refl _, by omega, Or.inr rfl, ?_⟩, by rw [hpack]⟩
    rw [hpack]
    exact hfinite hlast
  · obtain ⟨rfl, rfl, rfl⟩ := Unpacked.finite.inj h
    have hpack : f.pack (twoTo f.fractionBits + m % twoTo f.fractionBits)
        (f.unitExponent + (m / twoTo f.fractionBits : Nat) - 1) = m := by
      rw [pack, show (f.unitExponent + (m / twoTo f.fractionBits : Nat) - 1 -
        f.unitExponent).toNat = m / twoTo f.fractionBits - 1 by omega, Nat.sub_mul, Nat.one_mul]
      have hle := Nat.le_mul_of_pos_left (twoTo f.fractionBits) (Nat.pos_of_ne_zero hfirst)
      rw [mul_comm] at hsplit
      omega
    have hpos := Nat.pos_of_ne_zero hfirst
    refine ⟨⟨by omega, by omega, Or.inl (Nat.le_add_right _ _), ?_⟩, by rw [hpack]⟩
    rw [hpack]
    exact hfinite hlast

theorem unpack_pack (h : f.Packs s e) :
    f.unpack (f.withSign negative (f.pack s e)) = .finite negative s e := by
  have hfraction := twoTo_pos f.fractionBits
  have hleast := h.least
  have hlt := h.lt
  have hnotLast : f.pack s e / twoTo f.fractionBits ≠ twoTo f.exponentBits - 1 := by
    have hfinite := h.finite
    rw [infinityWord, ← Nat.div_lt_iff_lt_mul hfraction] at hfinite
    omega
  rw [unpack_withSign (h.finite.trans f.infinityWord_lt), if_neg hnotLast]
  unfold pack
  by_cases hnormal : twoTo f.fractionBits ≤ s
  · have hs : s / twoTo f.fractionBits = 1 := by
      rw [Nat.div_eq_iff hfraction]
      omega
    have hmod : s % twoTo f.fractionBits = s - twoTo f.fractionBits := by
      have hsplit := Nat.div_add_mod s (twoTo f.fractionBits)
      rw [hs] at hsplit
      omega
    rw [mul_comm, Nat.mul_add_div hfraction, Nat.mul_add_mod, hs, hmod, if_neg (by omega)]
    congr 1
    · omega
    · omega
  · obtain rfl : e = f.unitExponent := h.normal.resolve_left hnormal
    have hsmall : s < twoTo f.fractionBits := by omega
    rw [sub_self, Int.toNat_zero, Nat.zero_mul, Nat.zero_add, Nat.div_eq_of_lt hsmall,
      Nat.mod_eq_of_lt hsmall, if_pos rfl]

/-- Infinity is the word behind the finite ones. -/
theorem eq_of_unpack_infinity (hword : word < 2 * f.signWeight)
    (h : f.unpack word = .infinity negative) : word = f.withSign negative f.infinityWord := by
  obtain ⟨sign, m, hm, rfl⟩ := exists_withSign hword
  have hsplit := Nat.div_add_mod m (twoTo f.fractionBits)
  rw [unpack_withSign hm] at h
  split_ifs at h with hlast hzero hfirst
  obtain rfl := Unpacked.infinity.inj h
  rw [hzero, hlast, Nat.add_zero, mul_comm] at hsplit
  rw [infinityWord, hsplit]

theorem unpack_infinity (f : Format) (negative : Bool) :
    f.unpack (f.withSign negative f.infinityWord) = .infinity negative := by
  rw [unpack_withSign f.infinityWord_lt, infinityWord, Nat.mul_div_cancel _ (twoTo_pos _),
    if_pos rfl, Nat.mul_mod_left, if_pos rfl]

end Format

/-! ## Single and double precision -/

/-- **A number of single precision is a number of double precision.** -/
theorem exists_packs_double {s : Nat} {e : Int} (h : binary32.Packs s e) :
    ∃ s' e', binary64.Packs s' e' ∧ (s : ℚ) * 2 ^ e = s' * 2 ^ e' := by
  obtain ⟨hleast, hlt, -, hfinite⟩ := h
  have hleast : -149 ≤ e := hleast
  have hlt : s < 2 ^ 24 := hlt
  have hfinite : (e + 149).toNat * 8388608 + s < 2139095040 := hfinite
  rcases Nat.eq_zero_or_pos s with rfl | hs
  · exact ⟨0, -1074, ⟨by decide, by decide, by decide, by decide⟩, by simp⟩
  · -- the significand is moved up until it has all its bits
    have hlog : s.log2 < 24 := (Nat.log2_lt hs.ne').mpr hlt
    have hlow : 2 ^ 52 ≤ s * 2 ^ (52 - s.log2) := by
      calc 2 ^ 52 = 2 ^ s.log2 * 2 ^ (52 - s.log2) := by rw [← pow_add]; congr 1; omega
        _ ≤ _ := Nat.mul_le_mul_right _ (Nat.log2_self_le hs.ne')
    have hhigh : s * 2 ^ (52 - s.log2) < 2 ^ 53 := by
      calc _ < 2 ^ (s.log2 + 1) * 2 ^ (52 - s.log2) :=
            Nat.mul_lt_mul_of_pos_right Nat.lt_log2_self (Nat.two_pow_pos _)
        _ = 2 ^ 53 := by rw [← pow_add]; congr 1; omega
    refine ⟨s * 2 ^ (52 - s.log2), e - (52 - s.log2 : Nat), ⟨?_, hhigh, Or.inl hlow, ?_⟩, ?_⟩
    · show -1074 ≤ e - (52 - s.log2 : Nat)
      omega
    · have hexponent : (e - (52 - s.log2 : Nat) + 1074).toNat ≤ 1300 := by omega
      calc (e - (52 - s.log2 : Nat) + 1074).toNat * 2 ^ 52 + s * 2 ^ (52 - s.log2)
          < 1300 * 2 ^ 52 + 2 ^ 53 :=
            Nat.add_lt_add_of_le_of_lt (Nat.mul_le_mul_right _ hexponent) hhigh
        _ < binary64.infinityWord := by decide
    · rw [Nat.cast_mul, Nat.cast_pow, Nat.cast_ofNat, mul_assoc, ← zpow_natCast,
        ← zpow_add₀ two_ne_zero, add_sub_cancel]

/-- **A number of single precision survives the way through double precision.** -/
theorem convert_convert {word : Nat} (hword : word < twoTo 32) (hnan : binary32.isNan word = false) :
    binary64.convert binary32 (binary32.convert binary64 word) = word := by
  have hsign : word < 2 * binary32.signWeight := hword
  cases hunpack : binary32.unpack word with
  | nan negative payload =>
    rw [Format.isNan, hunpack] at hnan
    cases hnan
  | infinity negative =>
    have hconvert : binary32.convert binary64 word =
        binary64.withSign negative binary64.infinityWord := by
      rw [Format.convert, hunpack]
    rw [hconvert, Format.convert, Format.unpack_infinity]
    exact (Format.eq_of_unpack_infinity hsign hunpack).symm
  | finite negative s e =>
    obtain ⟨hpacks, hpacked⟩ := Format.packs_of_unpack hsign hunpack
    obtain ⟨s', e', hdouble, hvalue⟩ := exists_packs_double hpacks
    have hconvert : binary32.convert binary64 word =
        binary64.withSign negative (binary64.pack s' e') := by
      rw [Format.convert, hunpack]
      exact congrArg _ (Format.nearest_eq_pack hdouble hvalue)
    rw [hconvert, Format.convert, Format.unpack_pack hdouble]
    show binary32.withSign negative (binary32.nearest s' 1 e') = word
    rw [Format.nearest_eq_pack hpacks hvalue.symm, ← hpacked]

end PlcTags.Number

import Mathlib.Tactic.SplitIfs
import PlcTags.Proofs.Number.Widen
import PlcTags.Value.Scalar

/-!
# Conversions of scalars

* `toInt?_of_as?`: a scalar converted to an integer type stands for the same integer.
* `as?_eq_none`: an integer that the type does not hold is not converted.
* `as?_self`: **a scalar converted to its own type is itself**, apart from the NaNs of single
  precision, which become quiet on the way.
-/

namespace PlcTags.Scalar

open Number (twoTo twoTo_eq_pow)

variable {s stored : Scalar} {type : ScalarType} {signed : Bool} {width : Width}
  {n low high : Int}

/-- Is the scalar a float that stands for no number? -/
def isNan (s : Scalar) : Bool :=
  match s.type, s.word with
  | .integer _ _, _ => false
  | .binary32, word => Number.binary32.isNan word.toNat
  | .binary64, word => Number.binary64.isNan word.toNat

/-! ## Integers -/

theorem ofInt?_of_bounds (h : bounds? type = some (low, high)) :
    ofInt? type n = if low ≤ n ∧ n ≤ high then some ⟨type, BitVec.ofInt _ n⟩ else none := by
  unfold ofInt?
  rw [h]

theorem exists_bounds (signed : Bool) (width : Width) :
    ∃ low high, bounds? (.integer signed width) = some (low, high) :=
  ⟨_, _, rfl⟩

/-- The integer that a word of an integer type stands for. -/
def wordInt (signed : Bool) {bits : Nat} (word : BitVec bits) : Int :=
  if signed then word.toInt else word.toNat

/-- **A word stands for the integer it was made of**, if the type holds it. -/
theorem wordInt_ofInt (h : bounds? (.integer signed width) = some (low, high))
    (hbounds : low ≤ n ∧ n ≤ high) :
    wordInt signed (BitVec.ofInt (8 * width.bytes) n) = n := by
  have hwidth : 0 < 8 * width.bytes := by cases width <;> decide
  obtain ⟨hlow, hhigh⟩ := hbounds
  unfold wordInt
  cases signed with
  | true =>
    obtain ⟨rfl, rfl⟩ := Prod.mk.inj (Option.some.inj h)
    rw [twoTo_eq_pow, Nat.cast_pow] at hlow hhigh
    exact BitVec.toInt_ofInt_eq_self hwidth hlow (Int.lt_of_le_sub_one hhigh)
  | false =>
    obtain ⟨rfl, rfl⟩ := Prod.mk.inj (Option.some.inj h)
    rw [twoTo_eq_pow] at hhigh
    have hmod : n % ((2 ^ (8 * width.bytes) : Nat) : Int) = n :=
      Int.emod_eq_of_lt hlow (Int.lt_of_le_sub_one hhigh)
    show ((BitVec.ofInt (8 * width.bytes) n).toNat : Int) = n
    rw [BitVec.toNat_ofInt, hmod, Int.toNat_of_nonneg hlow]

/-- Every word stands for an integer within the bounds of its type, and is made of it. -/
theorem wordInt_bounds (h : bounds? (.integer signed width) = some (low, high))
    (word : BitVec (8 * width.bytes)) :
    (low ≤ wordInt signed word ∧ wordInt signed word ≤ high) ∧
      BitVec.ofInt (8 * width.bytes) (wordInt signed word) = word := by
  unfold wordInt
  cases signed with
  | true =>
    obtain ⟨rfl, rfl⟩ := Prod.mk.inj (Option.some.inj h)
    rw [twoTo_eq_pow, Nat.cast_pow]
    exact ⟨⟨BitVec.le_toInt word, BitVec.toInt_le⟩, BitVec.ofInt_toInt⟩
  | false =>
    obtain ⟨rfl, rfl⟩ := Prod.mk.inj (Option.some.inj h)
    have hlt : (word.toNat : Int) < (2 ^ (8 * width.bytes) : Nat) := Int.ofNat_lt.mpr word.isLt
    rw [twoTo_eq_pow]
    refine ⟨⟨Int.natCast_nonneg _, Int.le_sub_one_of_lt hlt⟩, ?_⟩
    show BitVec.ofInt (8 * width.bytes) (word.toNat : Int) = word
    rw [BitVec.ofInt_natCast, BitVec.ofNat_toNat, BitVec.setWidth_eq]

/-- **A scalar converted to an integer type** is one of the type and stands for the same integer. -/
theorem toInt?_of_as? (h : s.as? (.integer signed width) = some stored) :
    ∃ n, s.toInt? = some n ∧ stored.toInt? = some n := by
  obtain ⟨n, hn, hstored⟩ := Option.bind_eq_some_iff.mp h
  obtain ⟨low, high, h⟩ := exists_bounds signed width
  refine ⟨n, hn, ?_⟩
  rw [ofInt?_of_bounds h] at hstored
  split_ifs at hstored with hbounds
  rw [← Option.some.inj hstored]
  exact congrArg some (wordInt_ofInt h hbounds)

/-- An integer outside the bounds is not converted. -/
theorem as?_eq_none (h : bounds? type = some (low, high)) (hn : s.toInt? = some n)
    (hout : n < low ∨ high < n) : s.as? type = none := by
  cases type with
  | integer signed width =>
    show s.toInt?.bind (ofInt? (.integer signed width)) = none
    rw [hn, Option.bind_some, ofInt?_of_bounds h, if_neg (by omega)]
  | _ => cases h

/-! ## The own type -/

theorem as?_self (h : s.isNan = false) : s.as? s.type = some s := by
  obtain ⟨type, word⟩ := s
  cases type with
  | integer signed width =>
    obtain ⟨low, high, htype⟩ := exists_bounds signed width
    obtain ⟨hbounds, hword⟩ := wordInt_bounds htype word
    show ofInt? (.integer signed width) (wordInt signed word) = _
    rw [ofInt?_of_bounds htype]
    refine (if_pos hbounds).trans ?_
    exact congrArg (fun w => some (Scalar.mk (.integer signed width) w)) hword
  | binary32 =>
    have hconvert : Number.binary64.convert Number.binary32
        (Number.binary32.convert Number.binary64 word.toNat) = word.toNat :=
      Number.convert_convert word.isLt h
    show some (Scalar.mk .binary32 (BitVec.ofNat _ (Number.binary64.convert Number.binary32
      (Number.binary32.convert Number.binary64 word.toNat)))) = _
    rw [hconvert, BitVec.ofNat_toNat, BitVec.setWidth_eq]
  | binary64 =>
    show some (Scalar.mk .binary64 (BitVec.ofNat _ word.toNat)) = _
    rw [BitVec.ofNat_toNat, BitVec.setWidth_eq]

end PlcTags.Scalar

/-!
# Powers and bounds

The powers of the two bases of numbers, as whole numbers, and the bounds of 64-bit integers.

* `twoTo_succ`: one more doubles.
* `twoTo_add_eight`: eight more is one octet more.
-/

namespace PlcTags.Number

/-- Two to a power. -/
def twoTo (n : Nat) : Nat :=
  1 <<< n

/-- Ten to a power. -/
def tenTo (n : Nat) : Nat :=
  Nat.pow 10 n

/-- The least integer of 64 bits in two's complement. -/
def int64Least : Int := -9223372036854775808

/-- The largest integer of 64 bits in two's complement. -/
def int64Largest : Int := 9223372036854775807

theorem twoTo_zero : twoTo 0 = 1 := rfl

theorem twoTo_succ (n : Nat) : twoTo (n + 1) = 2 * twoTo n :=
  Nat.shiftLeft_succ 1 n

theorem twoTo_add_eight (n : Nat) : twoTo (n + 8) = 256 * twoTo n := by
  simp only [twoTo_succ]
  omega

theorem twoTo_pos (n : Nat) : 0 < twoTo n := by
  induction n with
  | zero => exact Nat.one_pos
  | succ n ih => rw [twoTo_succ]; omega

end PlcTags.Number

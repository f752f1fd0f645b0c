import Mathlib.Data.Nat.Digits.Defs
import PlcTags.Proofs.Text.Blank
import PlcTags.Text.Numeral

/-!
# What numerals write

The texts that are read as numbers, told by their digits: the last one has the place value one, and
every digit before it ten times that of the next.

* `digits?_eq_some_iff`, `unsigned?_eq_some_iff`, `signed?_eq_some_iff`: what is read as a number is
  what writes it, and what is out of bounds is refused.
* `unsigned?_toString`: a number that is printed is read back.
* `Numeral`: a number with blanks around it; `unsigned?_trim_eq_some_iff`: it is read as without them.
-/

namespace PlcTags.Text

/-- **Digits write a number.** There is at least one, and zeros may lead. -/
structure Digits (text : List Char) (n : Nat) : Prop where
  nonempty : text ≠ []
  value : ∃ ds : List Nat, text.reverse.map digit? = ds.map some ∧ Nat.ofDigits 10 ds = n

/-- Digits after at most one `+`. -/
inductive Unsigned : List Char → Nat → Prop
  | plain {text : List Char} {n : Nat} (h : Digits text n) : Unsigned text n
  | plus {text : List Char} {n : Nat} (h : Digits text n) : Unsigned ('+' :: text) n

/-- Digits after at most one sign. -/
inductive Signed : List Char → Int → Prop
  | plain {text : List Char} {n : Nat} (h : Digits text n) : Signed text n
  | plus {text : List Char} {n : Nat} (h : Digits text n) : Signed ('+' :: text) n
  | minus {text : List Char} {n : Nat} (h : Digits text n) : Signed ('-' :: text) (-n)

/-- Reading on from a number shifts it by the digits that follow. -/
theorem digitsFrom?_eq_some_iff {text : List Char} {m n : Nat} : digitsFrom? m text = some n ↔
    ∃ ds : List Nat, text.reverse.map digit? = ds.map some ∧
      m * 10 ^ ds.length + Nat.ofDigits 10 ds = n := by
  induction text generalizing m with
  | nil =>
    constructor
    · intro h
      cases h
      exact ⟨[], rfl, by simp⟩
    · rintro ⟨ds, hds, rfl⟩
      obtain rfl := List.map_eq_nil_iff.mp hds.symm
      simp [digitsFrom?]
  | cons c rest ih =>
    have hvalue : ∀ (d : Nat) (ds : List Nat), m * 10 ^ (ds ++ [d]).length +
        Nat.ofDigits 10 (ds ++ [d]) = (10 * m + d) * 10 ^ ds.length + Nat.ofDigits 10 ds := by
      intro d ds
      rw [Nat.ofDigits_append, Nat.ofDigits_singleton, List.length_append, List.length_singleton,
        Nat.pow_succ]
      ring
    rw [digitsFrom?, Option.bind_eq_some_iff, List.reverse_cons, List.map_append]
    constructor
    · rintro ⟨d, hd, h⟩
      obtain ⟨ds, hds, rfl⟩ := ih.mp h
      refine ⟨ds ++ [d], ?_, hvalue d ds⟩
      rw [List.map_append, hds, List.map_singleton, List.map_singleton, hd]
    · rintro ⟨all, hall, rfl⟩
      obtain ⟨ds, last, rfl, hds, hlast⟩ := List.map_eq_append_iff.mp hall.symm
      obtain ⟨d, rfl, hd⟩ := List.map_eq_singleton_iff.mp hlast
      exact ⟨d, hd.symm, ih.mpr ⟨ds, hds.symm, (hvalue d ds).symm⟩⟩

theorem digits?_eq_some_iff {text : List Char} {n : Nat} :
    digits? text = some n ↔ Digits text n := by
  unfold digits?
  split_ifs with hempty
  · exact ⟨nofun, fun h => absurd (List.isEmpty_iff.mp hempty) h.nonempty⟩
  · rw [digitsFrom?_eq_some_iff]
    simp only [Nat.zero_mul, Nat.zero_add]
    exact ⟨fun h => ⟨fun heq => hempty (List.isEmpty_iff.mpr heq), h⟩, Digits.value⟩

/-- Digits are all that a number is written with. -/
theorem Digits.isDigit_of_mem {text : List Char} {n : Nat} (h : Digits text n) {c : Char}
    (hc : c ∈ text) : isDigit c = true := by
  obtain ⟨ds, hds, -⟩ := h.value
  have hvalue : digit? c ∈ ds.map some := by
    rw [← hds]
    exact List.mem_map_of_mem (List.mem_reverse.mpr hc)
  obtain ⟨d, -, hd⟩ := List.mem_map.mp hvalue
  rw [isDigit, ← hd]
  rfl

theorem Digits.notMem {text : List Char} {n : Nat} (h : Digits text n) {c : Char}
    (hdigit : isDigit c = false) : c ∉ text :=
  fun hc => Bool.false_ne_true (hdigit.symm.trans (h.isDigit_of_mem hc))

theorem not_digits_plus {rest : List Char} {n : Nat} : ¬ Digits ('+' :: rest) n :=
  fun h => h.notMem (by decide) List.mem_cons_self

theorem not_digits_minus {rest : List Char} {n : Nat} : ¬ Digits ('-' :: rest) n :=
  fun h => h.notMem (by decide) List.mem_cons_self

/-- An unsigned numeral holds digits and plus signs only. -/
theorem Unsigned.notMem {text : List Char} {n : Nat} (h : Unsigned text n) {c : Char}
    (hplus : c ≠ '+') (hdigit : isDigit c = false) : c ∉ text := by
  cases h with
  | plain h => exact h.notMem hdigit
  | plus h => exact List.not_mem_cons_of_ne_of_not_mem hplus (h.notMem hdigit)

/-- A signed numeral holds digits and signs only. -/
theorem Signed.notMem {text : List Char} {n : Int} (h : Signed text n) {c : Char}
    (hplus : c ≠ '+') (hminus : c ≠ '-') (hdigit : isDigit c = false) : c ∉ text := by
  cases h with
  | plain h => exact h.notMem hdigit
  | plus h => exact List.not_mem_cons_of_ne_of_not_mem hplus (h.notMem hdigit)
  | minus h => exact List.not_mem_cons_of_ne_of_not_mem hminus (h.notMem hdigit)

theorem Unsigned.ne_nil {text : List Char} {n : Nat} (h : Unsigned text n) : text ≠ [] := by
  cases h with
  | plain h => exact h.nonempty
  | plus => exact List.cons_ne_nil _ _

theorem Signed.ne_nil {text : List Char} {n : Int} (h : Signed text n) : text ≠ [] := by
  cases h with
  | plain h => exact h.nonempty
  | plus => exact List.cons_ne_nil _ _
  | minus => exact List.cons_ne_nil _ _

theorem Digits.unique {text : List Char} {m n : Nat} (h : Digits text m) (h' : Digits text n) :
    m = n := by
  rw [← digits?_eq_some_iff] at h h'
  exact Option.some.inj (h.symm.trans h')

/-- **A signed numeral writes one number.** -/
theorem Signed.unique {text : List Char} {m n : Int} (h : Signed text m) (h' : Signed text n) :
    m = n := by
  cases h with
  | plain h =>
    cases h' with
    | plain h' => exact congrArg Int.ofNat (h.unique h')
    | plus => exact absurd h not_digits_plus
    | minus => exact absurd h not_digits_minus
  | plus h =>
    cases h' with
    | plain h' => exact absurd h' not_digits_plus
    | plus h' => exact congrArg Int.ofNat (h.unique h')
  | minus h =>
    cases h' with
    | plain h' => exact absurd h' not_digits_minus
    | minus h' => rw [h.unique h']

/-- **An unsigned numeral** is read as what it writes, below the bound. -/
theorem unsigned?_eq_some_iff {bound n : Nat} {text : List Char} :
    unsigned? bound text = some n ↔ Unsigned text n ∧ n < bound := by
  unfold unsigned?
  rw [Option.filter_eq_some_iff, decide_eq_true_iff]
  refine and_congr_left' ?_
  split
  · rw [digits?_eq_some_iff]
    refine ⟨.plus, fun h => ?_⟩
    cases h with
    | plain h => exact absurd h not_digits_plus
    | plus h => exact h
  · next hplus =>
    rw [digits?_eq_some_iff]
    refine ⟨.plain, fun h => ?_⟩
    cases h with
    | plain h => exact h
    | plus h => exact absurd rfl (hplus _)

/-- What is not read as an unsigned numeral writes no number, or one that is out of bounds. -/
theorem unsigned?_eq_none_iff {bound : Nat} {text : List Char} :
    unsigned? bound text = none ↔ ∀ n, Unsigned text n → bound ≤ n := by
  rw [Option.eq_none_iff_forall_ne_some]
  constructor
  · intro h n hn
    refine Nat.le_of_not_lt fun hlt => ?_
    exact h n (unsigned?_eq_some_iff.mpr ⟨hn, hlt⟩)
  · intro h n hn
    obtain ⟨hunsigned, hlt⟩ := unsigned?_eq_some_iff.mp hn
    exact absurd (h n hunsigned) (Nat.not_le_of_lt hlt)

/-- **A signed numeral** is read as what it writes, if that fits 64 bits. -/
theorem signed?_eq_some_iff {text : List Char} {n : Int} :
    signed? text = some n ↔
      Signed text n ∧ Number.int64Least ≤ n ∧ n ≤ Number.int64Largest := by
  unfold signed?
  rw [Option.filter_eq_some_iff, decide_eq_true_iff]
  refine and_congr_left' ?_
  split
  · simp only [Option.map_eq_some_iff, bind, Option.bind_eq_some_iff, digits?_eq_some_iff, pure,
      Option.some.injEq]
    constructor
    · rintro ⟨_, ⟨m, h, rfl⟩, rfl⟩
      exact .minus h
    · intro h
      cases h with
      | plain h => exact absurd h not_digits_minus
      | minus h => exact ⟨_, ⟨_, h, rfl⟩, rfl⟩
  · simp only [Option.map_eq_some_iff, digits?_eq_some_iff]
    constructor
    · rintro ⟨m, h, rfl⟩
      exact .plus h
    · intro h
      cases h with
      | plain h => exact absurd h not_digits_plus
      | plus h => exact ⟨_, h, rfl⟩
  · next hminus hplus =>
    simp only [Option.map_eq_some_iff, digits?_eq_some_iff]
    constructor
    · rintro ⟨m, h, rfl⟩
      exact .plain h
    · intro h
      cases h with
      | plain h => exact ⟨_, h, rfl⟩
      | plus h => exact absurd rfl (hplus _)
      | minus h => exact absurd rfl (hminus _)

/-! ## Numbers that are printed -/

theorem digit?_digitChar {d : Nat} (h : d < 10) : digit? d.digitChar = some d := by
  revert d
  decide

/-- One more digit at the end. -/
theorem Digits.append_digit {text : List Char} {n d : Nat} (h : Digits text n) (hd : d < 10) :
    Digits (text ++ [d.digitChar]) (10 * n + d) := by
  obtain ⟨ds, hds, hvalue⟩ := h.value
  refine ⟨List.append_ne_nil_of_right_ne_nil _ (List.cons_ne_nil _ _), d :: ds, ?_, ?_⟩
  · rw [List.reverse_append, List.reverse_singleton, List.singleton_append, List.map_cons,
      digit?_digitChar hd, hds, List.map_cons]
  · rw [Nat.ofDigits_cons, hvalue, Nat.add_comm]

/-- A zero may lead. -/
theorem Digits.zero_cons {text : List Char} {n : Nat} (h : Digits text n) :
    Digits ('0' :: text) n := by
  obtain ⟨ds, hds, hvalue⟩ := h.value
  refine ⟨List.cons_ne_nil _ _, ds ++ [0], ?_, ?_⟩
  · rw [List.reverse_cons, List.map_append, hds, List.map_append]
    rfl
  · rw [Nat.ofDigits_append, hvalue, Nat.ofDigits_singleton, Nat.mul_zero, Nat.add_zero]

theorem digits_toDigits (n : Nat) : Digits (Nat.toDigits 10 n) n := by
  induction n using Nat.strong_induction_on with
  | _ n ih =>
    rw [Nat.toDigits_eq_if (by decide)]
    split
    · next hlt =>
      refine ⟨List.cons_ne_nil _ _, [n], ?_, Nat.ofDigits_singleton⟩
      rw [List.reverse_singleton, List.map_singleton, List.map_singleton, digit?_digitChar hlt]
    · next hge =>
      have hlast := (ih (n / 10) (by omega)).append_digit (Nat.mod_lt n (by decide : 0 < 10))
      rwa [Nat.div_add_mod] at hlast

/-- A number that is printed has no leading zero, unless it is zero. -/
theorem head?_toDigits_ne_zero {n : Nat} (h : n ≠ 0) : (Nat.toDigits 10 n).head? ≠ some '0' := by
  induction n using Nat.strong_induction_on with
  | _ n ih =>
    rw [Nat.toDigits_eq_if (by decide)]
    split
    · next hlt =>
      have hdigit : ∀ d : Fin 10, d.val ≠ 0 → [d.val.digitChar].head? ≠ some '0' := by decide
      exact hdigit ⟨n, hlt⟩ h
    · next hge =>
      have hfront : Nat.toDigits 10 (n / 10) ≠ [] := (digits_toDigits (n / 10)).nonempty
      have hhead := ih (n / 10) (by omega) (by omega)
      rwa [List.head?_append_of_ne_nil _ hfront]

/-- **A number that is printed is read back**, if it is below the bound. -/
theorem unsigned?_toString {bound n : Nat} (h : n < bound) :
    unsigned? bound (toString n).toList = some n := by
  rw [Nat.toString_eq_repr, Nat.toList_repr]
  exact unsigned?_eq_some_iff.mpr ⟨.plain (digits_toDigits n), h⟩

/-! ## Blanks around numbers -/

theorem isBlank_of_isDigit {c : Char} (h : isDigit c = true) : isBlank c = false := by
  unfold isDigit digit? at h
  split at h
  · next hrange =>
    have hlow : 48 ≤ c.toNat := hrange.1
    have hhigh : c.toNat ≤ 57 := hrange.2
    simp only [isBlank, Bool.or_eq_false_iff, Bool.and_eq_false_iff, decide_eq_false_iff_not,
      beq_eq_false_iff_ne]
    omega
  · cases h

theorem Unsigned.trim_eq {text : List Char} {n : Nat} (h : Unsigned text n) : trim text = text := by
  refine trim_of_forall fun c hc => eq_false_of_ne_true fun hblank => ?_
  refine h.notMem ?_ (eq_false_of_ne_true fun hdigit => ?_) hc
  · rintro rfl
    exact absurd hblank (by decide)
  · exact Bool.false_ne_true ((isBlank_of_isDigit hdigit).symm.trans hblank)

/-- **An unsigned numeral with blanks around it.** -/
def Numeral (text : List Char) (n : Nat) : Prop :=
  ∃ digits, Unsigned digits n ∧ Padded digits text

theorem numeral_toString (n : Nat) : Numeral (toString n).toList n := by
  rw [Nat.toString_eq_repr, Nat.toList_repr]
  exact ⟨_, .plain (digits_toDigits n), .refl _⟩

/-- **A number is read without the blanks around it.** -/
theorem unsigned?_trim_eq_some_iff {bound n : Nat} {text : List Char} :
    unsigned? bound (trim text) = some n ↔ Numeral text n ∧ n < bound := by
  rw [unsigned?_eq_some_iff]
  refine and_congr_left' ⟨fun h => ⟨trim text, h, padded_trim text⟩, ?_⟩
  rintro ⟨digits, h, hpadded⟩
  rwa [hpadded.trim_eq, h.trim_eq]

/-- A number holds no mark but its sign. -/
theorem Numeral.notMem {text : List Char} {n : Nat} (h : Numeral text n) {c : Char}
    (hplus : c ≠ '+') (hdigit : isDigit c = false) (hblank : isBlank c = false) : c ∉ text := by
  obtain ⟨digits, hunsigned, hbefore, hafter⟩ := h
  have hnot : ∀ {gap : List Char}, Blank gap → c ∉ gap :=
    fun hgap hc => Bool.false_ne_true (hblank.symm.trans (hgap c hc))
  simp only [List.mem_append, not_or]
  exact ⟨hnot hbefore, hunsigned.notMem hplus hdigit, hnot hafter⟩

end PlcTags.Text

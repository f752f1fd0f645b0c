import Mathlib.Tactic.SplitIfs
import PlcTags.Descriptor.Basic

/-!
# Members of tags

Where a dotted tag name is cut: at its last dot outside brackets. Brackets are counted from the
left, and a closing one that nothing opened does not count (`depthAfter`).

* `LastDot`: the last dot of a name outside brackets stands behind a text.
* `Balanced`: every bracket has its partner; `Enclosed`: a dot stands between two partners.
* `beforeLastDot?_eq_some_iff`, `beforeLastDot?_eq_none_iff`: what the scan finds.
* `parent_exact`: the whole statement.
-/

namespace PlcTags

/-! ## Depths -/

/-- How many brackets are open behind one more character. -/
def bracketStep (depth : Nat) (c : Char) : Nat :=
  if c = '[' then depth + 1 else if c = ']' then depth - 1 else depth

/-- **How many brackets are open behind a text**, from a depth on. -/
def depthAfter (depth : Nat) (text : List Char) : Nat :=
  text.foldl bracketStep depth

@[simp] theorem depthAfter_nil (depth : Nat) : depthAfter depth [] = depth := rfl

@[simp] theorem depthAfter_cons (depth : Nat) (c : Char) (text : List Char) :
    depthAfter depth (c :: text) = depthAfter (bracketStep depth c) text := rfl

@[simp] theorem depthAfter_append (depth : Nat) (before after : List Char) :
    depthAfter depth (before ++ after) = depthAfter (depthAfter depth before) after :=
  List.foldl_append

/-! ## The last dot -/

/-- The dots of a text stand inside brackets when it is read from a depth on. -/
def Covered (depth : Nat) (text : List Char) : Prop :=
  ∀ before after, text = before ++ '.' :: after → depthAfter depth before ≠ 0

/-- **The last dot outside brackets** stands behind `before`. -/
def LastDot (depth : Nat) (text before : List Char) : Prop :=
  ∃ after, text = before ++ '.' :: after ∧ depthAfter depth before = 0 ∧
    Covered (depthAfter depth before) after

theorem covered_nil (depth : Nat) : Covered depth [] := by
  intro before after h
  cases before <;> cases h

theorem covered_cons_iff {depth : Nat} {c : Char} {rest : List Char} :
    Covered depth (c :: rest) ↔ ¬ (c = '.' ∧ depth = 0) ∧ Covered (bracketStep depth c) rest := by
  constructor
  · intro h
    refine ⟨?_, fun before after hrest => ?_⟩
    · rintro ⟨rfl, rfl⟩
      exact h [] rest rfl rfl
    · have hdepth := h (c :: before) after (by rw [hrest]; rfl)
      simpa using hdepth
  · rintro ⟨hdot, h⟩ before after heq
    cases before with
    | nil =>
      obtain ⟨rfl, rfl⟩ := List.cons.inj heq
      exact fun hdepth => hdot ⟨rfl, hdepth⟩
    | cons d before =>
      obtain ⟨rfl, hrest⟩ := List.cons.inj heq
      simpa using h before after hrest

theorem lastDot_nil {depth : Nat} {before : List Char} : ¬ LastDot depth [] before := by
  rintro ⟨after, h, -⟩
  cases before <;> cases h

theorem lastDot_cons_iff {depth : Nat} {c : Char} {rest before : List Char} :
    LastDot depth (c :: rest) before ↔
      (∃ inner, before = c :: inner ∧ LastDot (bracketStep depth c) rest inner) ∨
        (before = [] ∧ (c = '.' ∧ depth = 0) ∧ Covered (bracketStep depth c) rest) := by
  constructor
  · rintro ⟨after, heq, hdepth, hcovered⟩
    cases before with
    | nil =>
      obtain ⟨rfl, rfl⟩ := List.cons.inj heq
      exact Or.inr ⟨rfl, ⟨rfl, hdepth⟩, hcovered⟩
    | cons d inner =>
      obtain ⟨rfl, hrest⟩ := List.cons.inj heq
      exact Or.inl ⟨inner, rfl, after, hrest, hdepth, hcovered⟩
  · rintro (⟨inner, rfl, after, rfl, hdepth, hcovered⟩ | ⟨rfl, ⟨rfl, rfl⟩, hcovered⟩)
    · exact ⟨after, rfl, hdepth, hcovered⟩
    · exact ⟨rest, rfl, rfl, hcovered⟩

/-- A text whose dots are all inside brackets has no last dot outside them. -/
theorem LastDot.not_covered {depth : Nat} {text before : List Char}
    (h : LastDot depth text before) : ¬ Covered depth text := by
  obtain ⟨after, heq, hdepth, -⟩ := h
  exact fun hcovered => hcovered before after heq hdepth

theorem beforeLastDot?_cons (depth : Nat) (c : Char) (rest : List Char) :
    beforeLastDot? depth (c :: rest) =
      match beforeLastDot? (bracketStep depth c) rest with
      | some before => some (c :: before)
      | none => if c = '.' ∧ depth = 0 then some [] else none := rfl

/-- **Nothing is found** if all dots are inside brackets. -/
theorem beforeLastDot?_eq_none_iff {depth : Nat} {text : List Char} :
    beforeLastDot? depth text = none ↔ Covered depth text := by
  induction text generalizing depth with
  | nil => simp [beforeLastDot?, covered_nil]
  | cons c rest ih =>
    rw [beforeLastDot?_cons, covered_cons_iff, ← ih]
    cases beforeLastDot? (bracketStep depth c) rest with
    | some before => simp
    | none => simp

/-- **What the scan finds** is the text before the last dot outside brackets. -/
theorem beforeLastDot?_eq_some_iff {depth : Nat} {text before : List Char} :
    beforeLastDot? depth text = some before ↔ LastDot depth text before := by
  induction text generalizing depth before with
  | nil => simp [beforeLastDot?, lastDot_nil]
  | cons c rest ih =>
    rw [beforeLastDot?_cons, lastDot_cons_iff, ← beforeLastDot?_eq_none_iff]
    cases hrest : beforeLastDot? (bracketStep depth c) rest with
    | some found =>
      have hfound := ih.mp hrest
      constructor
      · intro h
        obtain rfl := Option.some.inj h
        exact Or.inl ⟨found, rfl, hfound⟩
      · rintro (⟨inner, rfl, hinner⟩ | ⟨-, -, hnone⟩)
        · rw [← ih, hrest] at hinner
          obtain rfl := Option.some.inj hinner
          rfl
        · cases hnone
    | none =>
      have hnone := beforeLastDot?_eq_none_iff.mp hrest
      constructor
      · intro h
        dsimp only at h
        split_ifs at h with hdot
        obtain rfl := Option.some.inj h
        exact Or.inr ⟨rfl, hdot, rfl⟩
      · rintro (⟨inner, -, hinner⟩ | ⟨rfl, hdot, -⟩)
        · exact absurd hnone hinner.not_covered
        · exact if_pos hdot

/-! ## Balanced brackets -/

/-- **Every bracket has its partner.** -/
inductive Balanced : List Char → Prop
  | nil : Balanced []
  | char {c : Char} {text : List Char} (hopen : c ≠ '[') (hclose : c ≠ ']') (h : Balanced text) :
      Balanced (c :: text)
  | group {inner text : List Char} (hinner : Balanced inner) (h : Balanced text) :
      Balanced ('[' :: (inner ++ ']' :: text))

/-- **A character between two texts stands inside brackets**: some bracket opens before it, and its
partner stands behind it. -/
def Enclosed (before : List Char) (c : Char) (after : List Char) : Prop :=
  ∃ outside inside inside' outside', before = outside ++ '[' :: inside ∧
    after = inside' ++ ']' :: outside' ∧ Balanced (inside ++ c :: inside')

/-- All dots of a text stand inside brackets. -/
def DotsEnclosed (text : List Char) : Prop :=
  ∀ before after, text = before ++ '.' :: after → Enclosed before '.' after

theorem bracketStep_open (depth : Nat) : bracketStep depth '[' = depth + 1 := rfl

theorem bracketStep_close (depth : Nat) : bracketStep (depth + 1) ']' = depth := rfl

theorem bracketStep_char {c : Char} (hopen : c ≠ '[') (hclose : c ≠ ']') (depth : Nat) :
    bracketStep depth c = depth := by
  rw [bracketStep, if_neg hopen, if_neg hclose]

/-- Balanced brackets leave the depth as it was. -/
theorem Balanced.depthAfter_eq {text : List Char} (h : Balanced text) (depth : Nat) :
    depthAfter depth text = depth := by
  induction h generalizing depth with
  | nil => rfl
  | char hopen hclose _ ih => rw [depthAfter_cons, bracketStep_char hopen hclose, ih]
  | @group inner text _ _ ihInner ih =>
    rw [depthAfter_cons, bracketStep_open, depthAfter_append, ihInner, depthAfter_cons,
      bracketStep_close, ih]

/-- Inside balanced brackets the depth does not fall below where it began. -/
theorem Balanced.le_depthAfter {text : List Char} (h : Balanced text) {front back : List Char}
    (heq : text = front ++ back) (depth : Nat) : depth ≤ depthAfter depth front := by
  induction h generalizing front back depth with
  | nil =>
    obtain ⟨rfl, -⟩ := List.append_eq_nil_iff.mp heq.symm
    exact Nat.le_refl depth
  | @char c text hopen hclose _ ih =>
    cases front with
    | nil => exact Nat.le_refl depth
    | cons d front =>
      obtain ⟨rfl, hrest⟩ := List.cons.inj heq
      have hle := ih hrest depth
      rwa [depthAfter_cons, bracketStep_char hopen hclose]
  | @group inner text hinner _ ihInner ih =>
    cases front with
    | nil => exact Nat.le_refl depth
    | cons d front =>
      obtain ⟨rfl, hrest⟩ := List.cons.inj heq
      rw [depthAfter_cons, bracketStep_open]
      -- the front ends inside the group, or behind its closing bracket
      rcases List.append_eq_append_iff.mp hrest with ⟨tail, rfl, htail⟩ | ⟨tail, htail, -⟩
      · rw [depthAfter_append, hinner.depthAfter_eq]
        cases tail with
        | nil => exact Nat.le_succ depth
        | cons e tail =>
          obtain ⟨rfl, hbehind⟩ := List.cons.inj htail
          rw [depthAfter_cons, bracketStep_close]
          exact ih hbehind depth
      · have hle := ihInner htail (depth + 1)
        omega

/-- At a character inside brackets some bracket is open. -/
theorem Enclosed.depthAfter_ne_zero {before after : List Char} {c : Char}
    (h : Enclosed before c after) (depth : Nat) : depthAfter depth before ≠ 0 := by
  obtain ⟨outside, inside, inside', outside', rfl, -, hbalanced⟩ := h
  have hle := hbalanced.le_depthAfter rfl (depthAfter depth outside + 1)
  rw [depthAfter_append, depthAfter_cons, bracketStep_open]
  omega

theorem DotsEnclosed.covered {text : List Char} (h : DotsEnclosed text) (depth : Nat) :
    Covered depth text :=
  fun before after heq => (h before after heq).depthAfter_ne_zero depth

/-- A member of a tag has its last dot behind the tag. -/
theorem lastDot_of_balanced {tag field : List Char} (htag : Balanced tag)
    (hfield : DotsEnclosed field) : LastDot 0 (tag ++ '.' :: field) tag :=
  ⟨field, rfl, htag.depthAfter_eq 0, hfield.covered _⟩

/-! ## Parents -/

theorem dottedParent?_eq_some_iff {tag parent : String} :
    dottedParent? tag = some parent ↔ parent ≠ "" ∧ LastDot 0 tag.toList parent.toList := by
  unfold dottedParent?
  rw [Option.map_eq_some_iff, ← beforeLastDot?_eq_some_iff]
  constructor
  · rintro ⟨before, hfilter, rfl⟩
    obtain ⟨hbefore, hne⟩ := Option.filter_eq_some_iff.mp hfilter
    rw [String.toList_ofList]
    refine ⟨?_, hbefore⟩
    rintro hempty
    have hnil : before = [] := by rw [← String.toList_ofList (l := before), hempty]; rfl
    simp [hnil] at hne
  · rintro ⟨hne, hbefore⟩
    have hnil : parent.toList ≠ [] := fun h => hne (String.toList_eq_nil_iff.mp h)
    exact ⟨parent.toList, Option.filter_eq_some_iff.mpr ⟨hbefore, by simpa using hnil⟩,
      String.ofList_toList⟩

/-- **The parent of a tag name** is the text before its last dot outside brackets. A name has one if
and only if there is such a dot and it is not the first character. So the parent of a member is the
tag it is a member of, whatever dots stand inside the brackets of both. -/
theorem parent_exact (tag : String) :
    (∀ parent, dottedParent? tag = some parent ↔
      parent ≠ "" ∧ LastDot 0 tag.toList parent.toList) ∧
    ((dottedParent? tag).isSome = true ↔
      ∃ before, LastDot 0 tag.toList before ∧ before ≠ []) ∧
    ∀ field : String, tag ≠ "" ∧ Balanced tag.toList ∧ DotsEnclosed field.toList →
      dottedParent? (tag ++ "." ++ field) = some tag := by
  refine ⟨fun parent => dottedParent?_eq_some_iff, ?_, ?_⟩
  · rw [Option.isSome_iff_exists]
    constructor
    · rintro ⟨parent, hparent⟩
      obtain ⟨hne, hdot⟩ := dottedParent?_eq_some_iff.mp hparent
      exact ⟨parent.toList, hdot, fun h => hne (String.toList_eq_nil_iff.mp h)⟩
    · rintro ⟨before, hdot, hne⟩
      refine ⟨String.ofList before, dottedParent?_eq_some_iff.mpr ⟨?_, ?_⟩⟩
      · intro hempty
        exact hne (by rw [← String.toList_ofList (l := before), hempty]; rfl)
      · rwa [String.toList_ofList]
  · rintro field ⟨hne, htag, hfield⟩
    refine dottedParent?_eq_some_iff.mpr ⟨hne, ?_⟩
    have htext : (tag ++ "." ++ field).toList = tag.toList ++ '.' :: field.toList := by
      simp [String.toList_append]
    rw [htext]
    exact lastDot_of_balanced htag hfield

theorem balanced_rack : Balanced "Rack[1.2]".toList :=
  have hinner : Balanced "1.2".toList :=
    .char (by decide) (by decide) (.char (by decide) (by decide)
      (.char (by decide) (by decide) .nil))
  .char (by decide) (by decide) (.char (by decide) (by decide) (.char (by decide) (by decide)
    (.char (by decide) (by decide) (.group hinner .nil))))

theorem dotsEnclosed_slot : DotsEnclosed "Slot[a.b]".toList := by
  intro before after h
  have hcount := congrArg (List.count '.') h
  rw [List.count_append, List.count_cons_self] at hcount
  have hfirst : '.' ∉ before := by
    have hone : List.count '.' "Slot[a.b]".toList = 1 := by decide
    exact List.count_eq_zero.mp (by omega)
  have hcut : Text.cut? '.' "Slot[a.b]".toList = some ("Slot[a".toList, "b]".toList) := by decide
  rw [Text.cut?_eq_some_iff.mpr ⟨h, hfirst⟩] at hcut
  obtain ⟨rfl, rfl⟩ := Prod.mk.inj (Option.some.inj hcut)
  exact ⟨"Slot".toList, ['a'], ['b'], [], rfl, rfl,
    .char (by decide) (by decide) (.char (by decide) (by decide)
      (.char (by decide) (by decide) .nil))⟩

/-- A slot of a rack, both with a dot inside their brackets. -/
theorem parent_exact_rack :
    ("Rack[1.2]" ≠ "" ∧ Balanced "Rack[1.2]".toList ∧ DotsEnclosed "Slot[a.b]".toList) ∧
      dottedParent? "Rack[1.2].Slot[a.b]" = some "Rack[1.2]" := by
  have hrack : "Rack[1.2]" ≠ "" ∧ Balanced "Rack[1.2]".toList ∧
      DotsEnclosed "Slot[a.b]".toList := ⟨by decide, balanced_rack, dotsEnclosed_slot⟩
  obtain ⟨-, -, hmember⟩ := parent_exact "Rack[1.2]"
  exact ⟨hrack, hmember "Slot[a.b]" hrack⟩

end PlcTags

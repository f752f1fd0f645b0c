/-!
# Cutting texts

The first occurrence of a mark cuts a text into what stands before it and what stands after it.

* `cut?_eq_some_iff`: a cut at a character is the text with that character between two parts, the
  first of which does not hold it.
-/

namespace PlcTags.Text

/-- The parts before and after the first occurrence of a character. -/
def cut? (mark : Char) : List Char → Option (List Char × List Char)
  | [] => none
  | c :: rest =>
    if c = mark then some ([], rest)
    else (cut? mark rest).map fun parts => (c :: parts.1, parts.2)

/-- The parts before and after the first occurrence of a text. -/
def cutAt? (mark : List Char) : List Char → Option (List Char × List Char)
  | [] => if mark.isEmpty then some ([], []) else none
  | c :: rest =>
    match mark.isPrefixOf? (c :: rest) with
    | some after => some ([], after)
    | none => (cutAt? mark rest).map fun parts => (c :: parts.1, parts.2)

/-- The parts before and after the last occurrence of a character. -/
def cutLast? (mark : Char) (text : List Char) : Option (List Char × List Char) :=
  (cut? mark text.reverse).map fun parts => (parts.2.reverse, parts.1.reverse)

/-- The text without a last character, if it ends in it. -/
def dropLast? (mark : Char) (text : List Char) : Option (List Char) :=
  match text.getLast? with
  | some c => if c = mark then some text.dropLast else none
  | none => none

/-- One text occurs inside another. -/
def occursIn (part text : List Char) : Bool :=
  (cutAt? part text).isSome

theorem cut?_eq_some_iff {mark : Char} {text before after : List Char} :
    cut? mark text = some (before, after) ↔ text = before ++ mark :: after ∧ mark ∉ before := by
  induction text generalizing before with
  | nil => simp [cut?]
  | cons c rest ih =>
    by_cases hc : c = mark
    · subst hc
      cases before with
      | nil => simp [cut?, eq_comm]
      | cons b bs =>
        simp only [cut?, ↓reduceIte, Option.some.injEq, Prod.mk.injEq, List.cons_append,
          List.cons.injEq, List.mem_cons, not_or]
        grind
    · cases before with
      | nil => simp [cut?, hc]
      | cons b bs =>
        simp only [cut?, hc, ↓reduceIte, Option.map_eq_some_iff, Prod.mk.injEq, List.cons.injEq,
          List.cons_append, List.mem_cons, not_or]
        constructor
        · rintro ⟨⟨x, y⟩, hxy, ⟨rfl, rfl⟩, rfl⟩
          obtain ⟨h1, h2⟩ := ih.1 hxy
          exact ⟨⟨rfl, h1⟩, fun h => hc h.symm, h2⟩
        · rintro ⟨⟨rfl, h1⟩, -, h2⟩
          exact ⟨(bs, after), ih.2 ⟨h1, h2⟩, ⟨rfl, rfl⟩, rfl⟩

theorem cut?_eq_none_iff {mark : Char} {text : List Char} : cut? mark text = none ↔ mark ∉ text := by
  induction text with
  | nil => simp [cut?]
  | cons c rest ih =>
    by_cases hc : c = mark
    · simp [cut?, hc]
    · rw [cut?, if_neg hc, Option.map_eq_none_iff, ih, List.mem_cons, not_or]
      exact ⟨fun h => ⟨fun e => hc e.symm, h⟩, fun h => h.2⟩

end PlcTags.Text

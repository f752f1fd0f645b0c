import Mathlib.Data.List.DropRight
import PlcTags.Text.Blank

/-!
# Trimming

What a text keeps when the blanks at its ends are dropped: everything around a character that is not
blank (`trim_append_cons`). Trimming again, or dropping blanks at one end before, changes nothing
(`trim_trim`, `trim_dropWhile`, `trim_dropEnd`).

* `Padded`: a text with blanks around it; `trim_eq_iff`: what a text is the trimming of.
-/

namespace PlcTags.Text

variable {p : Char → Bool} {c : Char} {text before after : List Char}

theorem dropEnd_eq_rdropWhile (p : Char → Bool) (text : List Char) :
    dropEnd p text = text.rdropWhile p := rfl

/-- What is dropped in front ends before a character that is kept. -/
theorem dropWhile_append_cons (hc : p c = false) :
    (before ++ c :: after).dropWhile p = before.dropWhile p ++ c :: after := by
  rw [List.dropWhile_append, List.dropWhile_cons_of_neg (by simp [hc])]
  split
  · next hnil => rw [List.isEmpty_iff.mp hnil, List.nil_append]
  · rfl

theorem dropEnd_append_cons (hc : p c = false) :
    dropEnd p (before ++ c :: after) = before ++ c :: dropEnd p after := by
  have hreverse : (before ++ c :: after).reverse = after.reverse ++ c :: before.reverse := by simp
  rw [dropEnd, hreverse, dropWhile_append_cons hc]
  simp [dropEnd]

theorem mem_of_mem_trim (h : c ∈ trim text) : c ∈ text :=
  (List.dropWhile_sublist isBlank).subset ((List.rdropWhile_prefix isBlank _).subset h)

/-- **Around a character that is not blank** the two ends are trimmed. -/
theorem trim_append_cons (hc : isBlank c = false) :
    trim (before ++ c :: after) = before.dropWhile isBlank ++ c :: dropEnd isBlank after := by
  rw [trim, dropEnds, dropWhile_append_cons hc, dropEnd_append_cons hc]

/-- A text without blanks is its own trimming. -/
theorem trim_of_forall {text : List Char} (h : ∀ c ∈ text, isBlank c = false) : trim text = text :=
  trim_eq_self (fun c hc => h c (List.mem_of_mem_head? hc)) fun c hc => h c (List.mem_of_getLast? hc)

theorem trim_dropWhile (text : List Char) : trim (text.dropWhile isBlank) = trim text := by
  rw [trim, dropEnds, List.dropWhile_idempotent, trim, dropEnds]

theorem trim_dropEnd (text : List Char) : trim (dropEnd isBlank text) = trim text := by
  by_cases hblank : ∀ c ∈ text, isBlank c = true
  · have hend : dropEnd isBlank text = [] := List.rdropWhile_eq_nil_iff.mpr hblank
    rw [hend, trim, trim, dropEnds, dropEnds, List.dropWhile_eq_nil_iff.mpr hblank]
    rfl
  · obtain ⟨c, hc⟩ := not_forall.mp hblank
    obtain ⟨hmem, hkept⟩ := Classical.not_imp.mp hc
    rw [Bool.not_eq_true] at hkept
    obtain ⟨before, after, rfl⟩ := List.append_of_mem hmem
    rw [dropEnd_append_cons hkept, trim_append_cons hkept, trim_append_cons hkept,
      dropEnd_eq_rdropWhile, dropEnd_eq_rdropWhile, List.rdropWhile_idempotent]

theorem trim_trim (text : List Char) : trim (trim text) = trim text := by
  show trim (dropEnd isBlank (text.dropWhile isBlank)) = _
  rw [trim_dropEnd, trim_dropWhile]

/-! ## Blanks around a text -/

/-- Blanks and nothing else. -/
def Blank (text : List Char) : Prop :=
  ∀ c ∈ text, isBlank c = true

instance : DecidablePred Blank :=
  fun text => List.decidableBAll (fun c => isBlank c = true) text

/-- **A text with blanks around it**, or without. -/
inductive Padded (core : List Char) : List Char → Prop
  | mk {before after : List Char} (hbefore : Blank before) (hafter : Blank after) :
      Padded core (before ++ (core ++ after))

theorem Blank.nil : Blank [] :=
  fun _ hc => nomatch hc

theorem Blank.append (hbefore : Blank before) (hafter : Blank after) : Blank (before ++ after) :=
  fun c hc => (List.mem_append.mp hc).elim (hbefore c) (hafter c)

theorem Padded.refl (core : List Char) : Padded core core := by
  have h : Padded core ([] ++ (core ++ [])) := .mk .nil .nil
  rwa [List.nil_append, List.append_nil] at h

theorem Padded.blank_after (core : List Char) (hafter : Blank after) :
    Padded core (core ++ after) := by
  have h : Padded core ([] ++ (core ++ after)) := .mk .nil hafter
  rwa [List.nil_append] at h

/-- Blanks around blanks. -/
theorem Padded.trans {core inner : List Char} (h : Padded core inner) (h' : Padded inner text) :
    Padded core text := by
  obtain ⟨hbefore, hafter⟩ := h
  obtain ⟨hfirst, hlast⟩ := h'
  rw [List.append_assoc, List.append_assoc, ← List.append_assoc]
  exact .mk (hfirst.append hbefore) (hafter.append hlast)

/-- At its ends stands what is at the ends of the text, or a blank. -/
theorem Padded.head? {core : List Char} (h : Padded core text) (hc : c ∈ text.head?) :
    c ∈ core.head? ∨ isBlank c = true := by
  obtain ⟨hbefore, hafter⟩ := h
  rw [List.head?_append, List.head?_append] at hc
  rcases Option.or_eq_some_iff.mp hc with hc | ⟨-, hc⟩
  · exact .inr (hbefore c (List.mem_of_mem_head? hc))
  · rcases Option.or_eq_some_iff.mp hc with hc | ⟨-, hc⟩
    · exact .inl hc
    · exact .inr (hafter c (List.mem_of_mem_head? hc))

theorem Padded.getLast? {core : List Char} (h : Padded core text) (hc : c ∈ text.getLast?) :
    c ∈ core.getLast? ∨ isBlank c = true := by
  obtain ⟨hbefore, hafter⟩ := h
  rw [List.getLast?_append, List.getLast?_append] at hc
  rcases Option.or_eq_some_iff.mp hc with hc | ⟨-, hc⟩
  · rcases Option.or_eq_some_iff.mp hc with hc | ⟨-, hc⟩
    · exact .inr (hafter c (List.mem_of_getLast? hc))
    · exact .inl hc
  · exact .inr (hbefore c (List.mem_of_getLast? hc))

theorem Padded.notMem {core : List Char} (h : Padded core text) (hc : isBlank c = false)
    (hcore : c ∉ core) : c ∉ text := by
  obtain ⟨hbefore, hafter⟩ := h
  simp only [List.mem_append, not_or]
  exact ⟨fun hmem => Bool.false_ne_true (hc.symm.trans (hbefore c hmem)), hcore,
    fun hmem => Bool.false_ne_true (hc.symm.trans (hafter c hmem))⟩

theorem trim_blank_append (h : Blank before) : trim (before ++ text) = trim text := by
  rw [← trim_dropWhile, List.dropWhile_append_of_pos h, trim_dropWhile]

theorem trim_append_blank (h : Blank after) : trim (text ++ after) = trim text := by
  have hend : dropEnd isBlank (text ++ after) = dropEnd isBlank text := by
    rw [dropEnd, List.reverse_append,
      List.dropWhile_append_of_pos fun c hc => h c (List.mem_reverse.mp hc), dropEnd]
  rw [← trim_dropEnd, hend, trim_dropEnd]

theorem Padded.trim_eq {core : List Char} (h : Padded core text) : trim text = trim core := by
  obtain ⟨hbefore, hafter⟩ := h
  rw [trim_blank_append hbefore, trim_append_blank hafter]

/-- A text with blanks in front begins, trimmed, where it began without them. -/
theorem Padded.head?_trim_append {core : List Char} (h : Padded (c :: core) text)
    (hc : isBlank c = false) (rest : List Char) : (trim (text ++ rest)).head? = some c := by
  obtain ⟨hbefore, -⟩ := h
  rw [List.append_assoc, trim_blank_append hbefore, List.append_assoc, List.cons_append,
    ← List.nil_append (c :: _), trim_append_cons hc]
  rfl

/-- Between two marks stands what is left of the marked text when the marks are dropped. -/
theorem dropEnds_cons_concat (hc : p c = true) (hfirst : ∀ d ∈ text.head?, p d = false)
    (hlast : ∀ d ∈ text.getLast?, p d = false) : dropEnds p (c :: (text ++ [c])) = text := by
  have hfront : dropEnds p (c :: (text ++ [c])) = dropEnd p ((text ++ [c]).dropWhile p) := by
    rw [dropEnds, List.dropWhile_cons_of_pos hc]
  cases text with
  | nil => rw [hfront, List.nil_append, List.dropWhile_cons_of_pos hc]; rfl
  | cons d rest =>
    have hkept : (d :: rest ++ [c]).dropWhile p = d :: rest ++ [c] := dropWhile_eq_of_head hfirst
    rw [hfront, hkept, dropEnd, List.reverse_concat, List.dropWhile_cons_of_pos hc]
    exact dropEnd_eq_of_last hlast

/-- A text is its trimming with blanks around it. -/
theorem padded_trim (text : List Char) : Padded (trim text) text := by
  have hbefore : Blank (text.takeWhile isBlank) := fun c hc => List.mem_takeWhile_imp hc
  have hafter : Blank ((text.dropWhile isBlank).rtakeWhile isBlank) :=
    fun c hc => List.mem_rtakeWhile_imp hc
  have htext : text.takeWhile isBlank ++
      (trim text ++ (text.dropWhile isBlank).rtakeWhile isBlank) = text := by
    show _ ++ ((text.dropWhile isBlank).rdropWhile isBlank ++ _) = _
    rw [List.rdropWhile_append_rtakeWhile, List.takeWhile_append_dropWhile]
  have hpadded : Padded (trim text) (text.takeWhile isBlank ++
      (trim text ++ (text.dropWhile isBlank).rtakeWhile isBlank)) := .mk hbefore hafter
  rwa [htext] at hpadded

/-- **What a text is the trimming of**: a text without blanks at its ends, with blanks around it. -/
theorem trim_eq_iff {core : List Char} : trim text = core ↔ trim core = core ∧ Padded core text := by
  constructor
  · rintro rfl
    exact ⟨trim_trim text, padded_trim text⟩
  · rintro ⟨htrim, hpadded⟩
    rw [hpadded.trim_eq, htrim]

theorem trim_eq_nil_iff : trim text = [] ↔ Blank text := by
  rw [trim_eq_iff]
  constructor
  · rintro ⟨-, hbefore, hafter⟩
    exact hbefore.append hafter
  · intro h
    have hpadded : Padded [] ([] ++ text) := .blank_after [] h
    exact ⟨rfl, hpadded⟩

/-- A text that is its own trimming does not begin with a blank. -/
theorem isBlank_head_of_trim (h : trim text = text) : ∀ c ∈ text.head?, isBlank c = false := by
  intro c hc
  obtain ⟨rest, rfl⟩ := List.head?_eq_some_iff.mp hc
  refine eq_false_of_ne_true fun hblank => ?_
  have hlength := congrArg List.length h
  rw [← trim_dropWhile, List.dropWhile_cons_of_pos hblank] at hlength
  have hle : (trim (rest.dropWhile isBlank)).length ≤ rest.length :=
    ((List.rdropWhile_prefix isBlank _).length_le.trans
      (List.dropWhile_sublist isBlank).length_le).trans (List.dropWhile_sublist isBlank).length_le
  rw [List.length_cons] at hlength
  omega

/-- Nor does it end with one. -/
theorem isBlank_getLast_of_trim (h : trim text = text) :
    ∀ c ∈ text.getLast?, isBlank c = false := by
  intro c hc
  obtain ⟨rest, rfl⟩ := List.getLast?_eq_some_iff.mp hc
  refine eq_false_of_ne_true fun hblank => ?_
  have hlength := congrArg List.length h
  rw [trim_append_blank fun d hd => List.mem_singleton.mp hd ▸ hblank] at hlength
  have hle : (trim rest).length ≤ rest.length :=
    (List.rdropWhile_prefix isBlank _).length_le.trans (List.dropWhile_sublist isBlank).length_le
  rw [List.length_append, List.length_singleton] at hlength
  omega

end PlcTags.Text

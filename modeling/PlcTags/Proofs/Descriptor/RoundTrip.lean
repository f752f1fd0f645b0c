import PlcTags.Proofs.Descriptor.Reading

/-!
# Writing descriptors

A descriptor can be written in many ways: with any blanks between its words, and each word plainly
or between backslashes. However it is written, it is read back as it was (`parse_of_spaced`). Two
things cannot be written: options that are no text at all, since words are never empty, and an index
that does not fit 64 bits (`not_forall_parse_of_spaced`).

* `Written`: the ways of writing a word.
* `Spaced`: the ways of writing a line of words; `words_of_spaced`: they are found again.
-/

namespace PlcTags

open PlcTags.Text

/-! ## Words -/

/-- The characters that stand between words. -/
def separates (c : Char) : Bool :=
  c = ' ' || c = '\t'

/-- **A word as it is written**: plainly if it has no blank, or between two backslashes. -/
inductive Written (word : List Char) : List Char → Prop
  | plain (h : word.any separates = false) : Written word word
  | wrapped : Written word ('\\' :: (word ++ ['\\']))

/-- **A line of words**, each followed by blanks; only after the last word there may be none. -/
inductive Spaced : List String → List Char → Prop
  | last {word : String} {text : List Char} (gap : List Char) (h : Written word.toList text)
      (hgap : gap.all separates = true) : Spaced [word] (text ++ gap)
  | cons {word : String} {text line : List Char} {rest : List String} (gap : List Char)
      (h : Written word.toList text) (hgap : gap ≠ [] ∧ gap.all separates = true)
      (hrest : Spaced rest line) : Spaced (word :: rest) (text ++ (gap ++ line))

theorem separates_iff {c : Char} : separates c = true ↔ c = ' ' ∨ c = '\t' := by
  unfold separates
  rw [Bool.or_eq_true, decide_eq_true_iff, decide_eq_true_iff]

theorem ne_backslash_of_separates {c : Char} (h : separates c = true) : c ≠ '\\' := by
  rintro rfl
  exact absurd h (by decide)

/-- Characters that do not end a word are added to it. -/
theorem wordsFrom_chars {escaped : Bool} {chars : List Char} (hplain : '\\' ∉ chars)
    (hinside : escaped = false → chars.any separates = false) (word rest : List Char) :
    wordsFrom escaped word (chars ++ rest) = wordsFrom escaped (chars.reverse ++ word) rest := by
  induction chars generalizing word with
  | nil => rfl
  | cons c chars ih =>
    obtain ⟨hc, hchars⟩ := not_or.mp (List.mem_cons.not.mp hplain)
    rw [List.any_cons] at hinside
    have hstays : ¬ ((c = ' ' ∨ c = '\t') ∧ (!escaped) = true) := by
      rintro ⟨hblank, hopen⟩
      have hfirst := (Bool.or_eq_false_iff.mp (hinside (by simpa using hopen))).1
      exact Bool.false_ne_true (hfirst.symm.trans (separates_iff.mpr hblank))
    rw [List.cons_append, wordsFrom, if_neg (Ne.symm hc), if_neg hstays,
      ih hchars fun hopen => (Bool.or_eq_false_iff.mp (hinside hopen)).2,
      List.reverse_cons, List.append_assoc]
    rfl

/-- A word is found however it is written. -/
theorem Written.wordsFrom_append {word text : List Char} (h : Written word text)
    (hplain : '\\' ∉ word) (rest : List Char) :
    wordsFrom false [] (text ++ rest) = wordsFrom false word.reverse rest := by
  cases h with
  | plain hinside =>
    rw [wordsFrom_chars hplain (fun _ => hinside), List.append_nil]
  | wrapped =>
    have hinside : true = false → word.any separates = false := nofun
    show wordsFrom true [] (word ++ ['\\'] ++ rest) = _
    rw [List.append_assoc, wordsFrom_chars hplain hinside, List.append_nil]
    rfl

/-- Blanks before a word are skipped. -/
theorem wordsFrom_blanks {gap : List Char} (hgap : gap.all separates = true) (rest : List Char) :
    wordsFrom false [] (gap ++ rest) = wordsFrom false [] rest := by
  induction gap with
  | nil => rfl
  | cons c gap ih =>
    obtain ⟨hc, hgap⟩ := Bool.and_eq_true_iff.mp hgap
    rw [List.cons_append, wordsFrom, if_neg (ne_backslash_of_separates hc),
      if_pos ⟨separates_iff.mp hc, rfl⟩]
    exact ih hgap

theorem isEmpty_reverse_toList {word : String} (hword : word ≠ "") :
    word.toList.reverse.isEmpty = false := by
  rw [List.isEmpty_reverse, List.isEmpty_eq_false_iff]
  exact fun h => hword (String.toList_eq_nil_iff.mp h)

/-- Blanks after a word end it. -/
theorem wordsFrom_gap {word : String} (hword : word ≠ "") {gap : List Char}
    (hgap : gap.all separates = true) (hne : gap ≠ []) (rest : List Char) :
    wordsFrom false word.toList.reverse (gap ++ rest) =
      (wordsFrom false [] rest).map (word :: ·) := by
  cases gap with
  | nil => exact absurd rfl hne
  | cons c gap =>
    obtain ⟨hc, hgap⟩ := Bool.and_eq_true_iff.mp hgap
    rw [List.cons_append, wordsFrom, if_neg (ne_backslash_of_separates hc),
      if_pos ⟨separates_iff.mp hc, rfl⟩, isEmpty_reverse_toList hword, List.reverse_reverse,
      String.ofList_toList, wordsFrom_blanks hgap]
    rfl

/-- A line may end after a word. -/
theorem wordsFrom_nil {word : String} (hword : word ≠ "") :
    wordsFrom false word.toList.reverse [] = .ok [word] := by
  rw [wordsFrom, isEmpty_reverse_toList hword, List.reverse_reverse, String.ofList_toList]
  rfl

/-- A word that is there, without backslashes. -/
def Writable (word : String) : Prop :=
  word ≠ "" ∧ '\\' ∉ word.toList

/-- **A line gives its words back**, if all of them can be written. -/
theorem wordsFrom_of_spaced {found : List String} {line : List Char} (h : Spaced found line)
    (hwords : ∀ word ∈ found, Writable word) :
    wordsFrom false [] line = .ok found := by
  induction h with
  | @last word _ gap hwritten hgap =>
    obtain ⟨hne, hplain⟩ := hwords word List.mem_cons_self
    rw [hwritten.wordsFrom_append hplain]
    cases gap with
    | nil => exact wordsFrom_nil hne
    | cons c gap =>
      rw [← List.append_nil (c :: gap), wordsFrom_gap hne hgap (List.cons_ne_nil c gap)]
      rfl
  | @cons word _ _ _ _ hwritten hgap _ ih =>
    obtain ⟨hne, hplain⟩ := hwords word List.mem_cons_self
    rw [hwritten.wordsFrom_append hplain, wordsFrom_gap hne hgap.2 hgap.1,
      ih fun other hother => hwords other (List.mem_cons_of_mem word hother)]
    rfl

/-- **A text of words**: a line with blanks before it. -/
def SpacedText (found : List String) (text : String) : Prop :=
  ∃ gap line, gap.all separates = true ∧ Spaced found line ∧ text.toList = gap ++ line

/-- **A text gives its words back**, if all of them can be written. -/
theorem words_of_spaced {found : List String} {text : String} (h : SpacedText found text)
    (hwords : ∀ word ∈ found, Writable word) : words text = .ok found := by
  obtain ⟨gap, line, hgap, hline, htext⟩ := h
  rw [words, htext, wordsFrom_blanks hgap, wordsFrom_of_spaced hline hwords]

/-! ## The words of a descriptor -/

theorem writable_of_toList {word : String} (hne : word.toList ≠ []) (hplain : '\\' ∉ word.toList) :
    Writable word :=
  ⟨fun h => hne (String.toList_eq_nil_iff.mpr h), hplain⟩

theorem writable_none : Writable "none" := by
  unfold Writable
  decide

theorem writable_keyword (type : DataType) : Writable type.keyword := by
  unfold Writable
  cases type <;> decide

theorem writable_of_signed {raw : String} {n : Int} (h : Signed raw.toList n) : Writable raw :=
  writable_of_toList h.ne_nil (h.notMem (by decide) (by decide) (by decide))

theorem writable_of_unsigned {raw : String} {n : Nat} (h : Unsigned raw.toList n) :
    Writable raw :=
  writable_of_toList h.ne_nil (h.notMem (by decide) (by decide))

theorem writable_of_elementCount {indexed : Bool} {type : DataType} {raw : String} {count : Nat}
    (h : ElementCount indexed type raw count) : Writable raw := by
  cases h with
  | unspecified => exact writable_none
  | single h => exact writable_of_signed h
  | several h => exact writable_of_signed h

theorem notMem_of_indexGroups {groups : List Char} {path : List Nat} (h : IndexGroups groups path) :
    '\\' ∉ groups := by
  induction h with
  | nil => exact List.not_mem_nil
  | cons hindex _ _ ih =>
    simp only [List.mem_cons, List.mem_append, not_or]
    exact ⟨by decide, hindex.notMem (by decide) (by decide), by decide, ih⟩

theorem writable_of_sourceText {raw : String} {source : OffsetSource} (h : SourceText raw source)
    (hname : ∀ name path, source = .leaf name path → '\\' ∉ name.toList) : Writable raw := by
  cases h with
  | unspecified => exact writable_none
  | literal h => exact writable_of_unsigned h
  | leaf hraw hne _ _ hgroups =>
    refine writable_of_toList ?_ ?_ <;> rw [hraw]
    · exact List.append_ne_nil_of_left_ne_nil (fun h => hne (String.toList_eq_nil_iff.mp h)) _
    · rw [List.mem_append, not_or]
      exact ⟨hname _ _ rfl, notMem_of_indexGroups hgroups⟩

namespace Descriptor

/-- **No backslash** is in a descriptor and its options, and its tag has a name. -/
structure Unescaped (d : Descriptor) (options : String) : Prop where
  poller : ∀ name, d.poller = some name → '\\' ∉ name.toList
  tag : Writable d.tag
  structName : ∀ name path, d.source = .leaf name path → '\\' ∉ name.toList
  options : '\\' ∉ options.toList

theorem writable_wordsWith {scope : Scope} {d : Descriptor} {count offset options : String}
    (hdeclared : d.DeclaredBy scope count offset options) (hplain : d.Unescaped options)
    (hoptions : options ≠ "") : ∀ word ∈ d.wordsWith count offset options, Writable word := by
  intro word hword
  rcases List.mem_append.mp hword with hword | hword
  · obtain ⟨name, hname, rfl⟩ := Option.map_eq_some_iff.mp (Option.mem_toList.mp hword)
    refine writable_of_toList ?_ ?_ <;> rw [toList_marked]
    · exact List.cons_ne_nil _ _
    · exact List.not_mem_cons_of_ne_of_not_mem (by decide) (hplain.poller name hname)
  · simp only [List.mem_cons, List.not_mem_nil, or_false] at hword
    rcases hword with rfl | rfl | rfl | rfl | rfl
    · exact hplain.tag
    · exact writable_keyword d.type
    · exact writable_of_elementCount hdeclared.fields.count
    · exact writable_of_sourceText hdeclared.fields.source hplain.structName
    · exact ⟨hoptions, hplain.options⟩

/-- **A descriptor is read back** from every text that its words are written in, if its options are
not empty and its index fits. -/
theorem parse_of_spaced {scope : Scope} {d : Descriptor} {count offset options text : String}
    (hdeclared : d.DeclaredBy scope count offset options) (hplain : d.Unescaped options)
    (hoptions : options ≠ "") (hfits : IndexFits d.startIndex)
    (htext : SpacedText (d.wordsWith count offset options) text) :
    Descriptor.parse scope text = .ok d :=
  parse_eq_ok_iff.mpr ⟨count, offset, options,
    words_of_spaced htext (writable_wordsWith hdeclared hplain hoptions), hdeclared, hfits⟩

theorem declaredBy_valveFlows :
    valveFlows.DeclaredBy valveScope "+010" "Valve[02]" "allow_packing=0" where
  poller := ⟨fun name hname => by cases hname; decide, nofun⟩
  fields :=
    { index := (startIndex?_eq_ok_iff.mp (by with_unfolding_all rfl)).1
      count := sliceCount_eq_ok_iff.mp (by with_unfolding_all rfl)
      source := OffsetSource.parse_eq_ok_iff.mp (by with_unfolding_all rfl)
      placed := ⟨.byte 4, by with_unfolding_all rfl, rfl, rfl⟩
      attributes := by with_unfolding_all rfl
      extras := by with_unfolding_all rfl }

/-- The flows of the valves, spelled with leading zeros and a sign, and with blanks in its tag. -/
theorem parse_of_spaced_valveFlows :
    SpacedText (valveFlows.wordsWith "+010" "Valve[02]" "allow_packing=0")
        " @fast\t\\main flow[3]\\  DINT +010 \\Valve[02]\\ allow_packing=0 " ∧
      Descriptor.parse valveScope
        " @fast\t\\main flow[3]\\  DINT +010 \\Valve[02]\\ allow_packing=0 " =
          .ok valveFlows := by
  have hspaced : SpacedText (valveFlows.wordsWith "+010" "Valve[02]" "allow_packing=0")
      " @fast\t\\main flow[3]\\  DINT +010 \\Valve[02]\\ allow_packing=0 " :=
    ⟨[' '], _, by decide, .cons ['\t'] (.plain (by decide)) (by decide)
      (.cons [' ', ' '] .wrapped (by decide) (.cons [' '] (.plain (by decide)) (by decide)
      (.cons [' '] (.plain (by decide)) (by decide) (.cons [' '] .wrapped (by decide)
      (.last [' '] (.plain (by decide)) (by decide)))))), by decide⟩
  refine ⟨hspaced, parse_of_spaced declaredBy_valveFlows ?_ (by decide) ?_ hspaced⟩
  · exact {
      poller := fun name hname => by cases hname; decide
      tag := by unfold Writable; decide
      structName := fun name path hsource => by cases hsource; decide
      options := by decide }
  · rintro _ ⟨⟩
    decide

/-- A number of 32 bits in a tag of its own. -/
def counter (tag : String) (index : Option Nat) : Descriptor where
  poller := none
  tag := tag
  startIndex := index
  type := .dint
  count := 1
  source := .unspecified
  offset := 0
  bitAddressed := false
  attributes := .defaults false
  extras := "&allow_packing=1"

section

variable {tag options : String} {index : Option Nat}

theorem declaredBy_counter (hunmarked : tag.toList.head? ≠ some '@')
    (hindex : TagIndex tag.toList index)
    (hoptions : Attributes.parse options .dint = .ok (.defaults false)) :
    (counter tag index).DeclaredBy ⟨[], .empty⟩ "none" "none" options where
  poller := ⟨nofun, fun _ => hunmarked⟩
  fields :=
    { index := hindex
      count := .unspecified
      source := .unspecified
      placed := ⟨rfl, rfl⟩
      attributes := hoptions
      extras := by with_unfolding_all rfl }

theorem unescaped_counter (htag : Writable tag) (hoptions : '\\' ∉ options.toList) :
    (counter tag index).Unescaped options :=
  ⟨nofun, htag, nofun, hoptions⟩

theorem spaced_counter {written : List Char} {text : String}
    (htag : tag.toList.any separates = false) (hwritten : Written options.toList written)
    (htext : text.toList = tag.toList ++ (" DINT none none ".toList ++ written)) :
    SpacedText ((counter tag index).wordsWith "none" "none" options) text := by
  have hmiddle : " DINT none none ".toList = [' '] ++ ("DINT".toList ++ ([' '] ++
      ("none".toList ++ ([' '] ++ ("none".toList ++ [' ']))))) := by decide
  show SpacedText [tag, "DINT", "none", "none", options] text
  refine ⟨[], _, rfl, .cons [' '] (.plain htag) (by decide) (.cons [' '] (.plain (by decide))
    (by decide) (.cons [' '] (.plain (by decide)) (by decide) (.cons [' '] (.plain (by decide))
    (by decide) (.last [] hwritten rfl)))), ?_⟩
  rw [htext, hmiddle]
  simp only [List.append_assoc, List.append_nil, List.nil_append]

end

/-- **Neither condition can be left out**: options that are no text are lost with their word, and an
index of more than 64 bits is refused. -/
theorem not_forall_parse_of_spaced :
    (¬ ∀ (scope : Scope) (d : Descriptor) (count offset options text : String),
      d.DeclaredBy scope count offset options → d.Unescaped options → IndexFits d.startIndex →
        SpacedText (d.wordsWith count offset options) text → Descriptor.parse scope text = .ok d) ∧
    ¬ ∀ (scope : Scope) (d : Descriptor) (count offset options text : String),
      d.DeclaredBy scope count offset options → d.Unescaped options → options ≠ "" →
        SpacedText (d.wordsWith count offset options) text → Descriptor.parse scope text = .ok d := by
  constructor
  · intro h
    have hrefused : Descriptor.parse ⟨[], .empty⟩ "t DINT none none \\\\" =
        .error (.wrongFieldCount 5 4) := by
      with_unfolding_all rfl
    have hread := h ⟨[], .empty⟩ (counter "t" none) "none" "none" "" "t DINT none none \\\\"
      (declaredBy_counter (by decide) (.plain (by decide)) (by with_unfolding_all rfl))
      (unescaped_counter (by unfold Writable; decide) (by decide)) nofun
      (spaced_counter (by decide) .wrapped (by decide))
    cases hrefused.symm.trans hread
  · intro h
    have hrefused : Descriptor.parse ⟨[], .empty⟩ "t[9223372036854775808] DINT none none none" =
        .error (.invalidStartIndex "t[9223372036854775808]" "9223372036854775808") := by
      with_unfolding_all rfl
    have hnumber : Digits (trim "9223372036854775808".toList) 9223372036854775808 :=
      digits?_eq_some_iff.mp (by decide)
    have hindex : TagIndex ("t".toList ++ '[' :: ("9223372036854775808".toList ++ [']']))
        (some 9223372036854775808) :=
      .bracket (by decide) (by decide) (.plain hnumber) (by decide)
    have hread := h ⟨[], .empty⟩ (counter "t[9223372036854775808]" (some 9223372036854775808))
      "none" "none" "none" "t[9223372036854775808] DINT none none none"
      (declaredBy_counter (by decide) hindex (by with_unfolding_all rfl))
      (unescaped_counter (by unfold Writable; decide) (by decide)) (by decide)
      (spaced_counter (by decide) (.plain (by decide)) (by decide))
    cases hrefused.symm.trans hread

end Descriptor

end PlcTags

import PlcTags.Proofs.Descriptor.Reading

/-!
# Offset texts

Every text either gives a source or is refused for one reason. What gives a source is told by
`SourceText`; here are the reasons, and the statement that nothing else happens.

* `LeafText`: a text names a leaf of a structure.
* `IndexFault`, `SourceFault`: what is wrong with the indices of a text, and with the whole text.
* `indices_eq_error_iff`, `parseChars_eq_error_iff`: a text is refused for what is wrong with it.
* `OffsetSource.parse_source_exact`: the whole statement.
-/

namespace PlcTags

open PlcTags.Text

/-! ## Faults -/

/-- **What is wrong with indices**: the text goes on without an opening bracket, a bracket is not
closed, or what stands inside is no number of 64 bits. The groups before are sound. -/
inductive IndexFault : List Char → OffsetFault → Prop
  | unopened {c : Char} {text : List Char} (h : c ≠ '[') : IndexFault (c :: text) .notBracketed
  | unclosed {text : List Char} (h : ']' ∉ text) : IndexFault ('[' :: text) .notBracketed
  | notInteger {digits text : List Char} (hclose : ']' ∉ digits)
      (h : ∀ n, Unsigned digits n → wordLimit ≤ n) :
      IndexFault ('[' :: (digits ++ ']' :: text)) .notInteger
  | later {digits text : List Char} {n : Nat} {fault : OffsetFault} (hindex : Unsigned digits n)
      (hlt : n < wordLimit) (h : IndexFault text fault) :
      IndexFault ('[' :: (digits ++ ']' :: text)) fault

/-- A text does not begin like a number. -/
def Unnumbered (text : List Char) : Prop :=
  ∀ c ∈ text.head?, isDigit c = false ∧ c ≠ '-' ∧ c ≠ '+'

/-- **What is wrong with an offset text**: it begins like a number but is none of 32 bits, it has no
indices, no name before them, or faulty indices behind its name. -/
inductive SourceFault : List Char → OffsetFault → Prop
  | notLiteral {text : List Char} (hstart : ¬ Unnumbered text)
      (h : ∀ n, Unsigned text n → halfWordLimit ≤ n) : SourceFault text .notLiteral
  | noIndex {text : List Char} (hstart : Unnumbered text) (hnone : text ≠ "none".toList)
      (h : '[' ∉ text) : SourceFault text .noIndex
  | noName {name rest : List Char} (hstart : Unnumbered (name ++ '[' :: rest)) (hopen : '[' ∉ name)
      (h : name = [] ∨ ']' ∈ name) : SourceFault (name ++ '[' :: rest) .noName
  | index {name rest : List Char} {fault : OffsetFault} (hstart : Unnumbered (name ++ '[' :: rest))
      (hname : name ≠ []) (hmarks : '[' ∉ name ∧ ']' ∉ name) (h : IndexFault ('[' :: rest) fault) :
      SourceFault (name ++ '[' :: rest) fault

/-- **A text names a leaf of a structure**: the name of the structure and its indices in brackets,
at least one. -/
structure LeafText (raw name : String) (path : List Nat) : Prop where
  unnumbered : Unnumbered raw.toList
  named : name ≠ ""
  unmarked : '[' ∉ name.toList ∧ ']' ∉ name.toList
  indexed : path ≠ []
  spelled : ∃ groups, IndexGroups groups path ∧ raw.toList = name.toList ++ groups

namespace OffsetSource

theorem startsNumeral_eq_false_iff {text : List Char} :
    startsNumeral text = false ↔ Unnumbered text := by
  cases text with
  | nil => simp [startsNumeral, Unnumbered]
  | cons c rest => simp [startsNumeral, Unnumbered, and_assoc]

/-! ## Reasons -/

/-- What becomes of a group that is closed. -/
theorem indices_of_closed {digits text : List Char} (hclose : ']' ∉ digits) :
    indices ('[' :: (digits ++ ']' :: text)) =
      match unsigned? wordLimit digits with
      | none => .error .notInteger
      | some index => (indices text).map (index :: ·) := by
  have hcut : cut? ']' (digits ++ ']' :: text) = some (digits, text) :=
    cut?_eq_some_iff.mpr ⟨rfl, hclose⟩
  rw [indices]
  split
  · next hnone =>
    rw [hcut] at hnone
    cases hnone
  · next hsome =>
    rw [hcut] at hsome
    cases hsome
    rfl

theorem indices_of_unclosed {text : List Char} (h : ']' ∉ text) :
    indices ('[' :: text) = .error .notBracketed := by
  have hcut : cut? ']' text = none := cut?_eq_none_iff.mpr h
  rw [indices]
  split
  · rfl
  · next hsome =>
    rw [hcut] at hsome
    cases hsome

/-- **Indices are refused** for what is wrong with them. -/
theorem indices_eq_error_iff {text : List Char} {fault : OffsetFault} :
    indices text = .error fault ↔ IndexFault text fault := by
  constructor
  · intro h
    induction text using indices.induct generalizing fault with
    | case1 =>
      rw [indices] at h
      cases h
    | case2 opened hcut =>
      have hclose := cut?_eq_none_iff.mp hcut
      rw [indices_of_unclosed hclose] at h
      cases h
      exact .unclosed hclose
    | case3 opened digits rest hcut hindex =>
      obtain ⟨rfl, hclose⟩ := cut?_eq_some_iff.mp hcut
      rw [indices_of_closed hclose, hindex] at h
      cases h
      exact .notInteger hclose (unsigned?_eq_none_iff.mp hindex)
    | case4 opened digits rest hcut index hindex ih =>
      obtain ⟨rfl, hclose⟩ := cut?_eq_some_iff.mp hcut
      obtain ⟨hdigits, hlt⟩ := unsigned?_eq_some_iff.mp hindex
      rw [indices_of_closed hclose, hindex] at h
      exact .later hdigits hlt (ih (map_eq_error_iff.mp h))
    | case5 text hnil hopen =>
      rw [indices] at h
      · cases h
        cases text with
        | nil => exact absurd rfl hnil
        | cons c rest =>
          refine .unopened ?_
          rintro rfl
          exact hopen rest rfl
      · exact hnil
      · exact hopen
  · intro h
    induction h with
    | @unopened c text h =>
      rw [indices]
      · intro hnil
        cases hnil
      · intro rest heq
        exact h (List.cons.inj heq).1
    | unclosed h => exact indices_of_unclosed h
    | notInteger hclose h => rw [indices_of_closed hclose, unsigned?_eq_none_iff.mpr h]
    | @later digits text n fault hindex hlt _ ih =>
      have hclose : ']' ∉ digits := hindex.notMem (by decide) (by decide)
      rw [indices_of_closed hclose, unsigned?_eq_some_iff.mpr ⟨hindex, hlt⟩]
      exact map_eq_error_iff.mpr ih

/-- What becomes of a text with a bracket. -/
theorem parseLeaf_of_opened {name rest : List Char} (hopen : '[' ∉ name) :
    parseLeaf (name ++ '[' :: rest) =
      if name = [] ∨ ']' ∈ name then .error .noName
      else (indices ('[' :: rest)).map (.leaf (String.ofList name)) := by
  unfold parseLeaf
  rw [cut?_eq_some_iff.mpr ⟨rfl, hopen⟩]
  simp

theorem parseLeaf_eq_error_iff {text : List Char} {fault : OffsetFault} :
    parseLeaf text = .error fault ↔
      ('[' ∉ text ∧ fault = .noIndex) ∨
      ∃ name rest, text = name ++ '[' :: rest ∧ '[' ∉ name ∧
        ((name = [] ∨ ']' ∈ name) ∧ fault = .noName ∨
          (name ≠ [] ∧ ']' ∉ name) ∧ IndexFault ('[' :: rest) fault) := by
  have hopened : ∀ name rest, '[' ∉ name → (parseLeaf (name ++ '[' :: rest) = .error fault ↔
      ((name = [] ∨ ']' ∈ name) ∧ fault = .noName ∨
        (name ≠ [] ∧ ']' ∉ name) ∧ IndexFault ('[' :: rest) fault)) := by
    intro name rest hopen
    rw [parseLeaf_of_opened hopen]
    by_cases hbad : name = [] ∨ ']' ∈ name
    · have hgood : ¬ (name ≠ [] ∧ ']' ∉ name) := by
        rintro ⟨hne, hclose⟩
        exact hbad.elim hne hclose
      rw [if_pos hbad]
      simp [hbad, hgood, eq_comm]
    · rw [if_neg hbad, map_eq_error_iff, indices_eq_error_iff]
      rw [not_or] at hbad
      simp [hbad]
  by_cases hmem : '[' ∈ text
  · obtain ⟨name, rest, rfl, hopen⟩ := List.eq_append_cons_of_mem hmem
    rw [hopened name rest hopen]
    constructor
    · intro h
      exact Or.inr ⟨name, rest, rfl, hopen, h⟩
    · rintro (⟨hnot, -⟩ | ⟨name', rest', heq, hopen', h⟩)
      · exact absurd hmem hnot
      · have hcut := cut?_eq_some_iff.mpr ⟨heq, hopen'⟩
        rw [cut?_eq_some_iff.mpr ⟨rfl, hopen⟩] at hcut
        obtain ⟨rfl, rfl⟩ := Prod.mk.inj (Option.some.inj hcut)
        exact h
  · have hparse : parseLeaf text = .error .noIndex := by
      unfold parseLeaf
      rw [cut?_eq_none_iff.mpr hmem]
    rw [hparse]
    constructor
    · intro h
      cases h
      exact Or.inl ⟨hmem, rfl⟩
    · rintro (⟨-, rfl⟩ | ⟨name, rest, rfl, -, -⟩)
      · rfl
      · exact absurd (List.mem_append_right _ List.mem_cons_self) hmem

/-- No text is refused that tells nothing. -/
theorem not_sourceFault_none {fault : OffsetFault} : ¬ SourceFault "none".toList fault := by
  have hstart : Unnumbered "none".toList := startsNumeral_eq_false_iff.mp rfl
  have hopened : ∀ name rest, "none".toList ≠ name ++ '[' :: rest := by
    intro name rest heq
    have hopen : '[' ∈ "none".toList := by
      rw [heq]
      simp
    exact absurd hopen (by decide)
  intro h
  generalize htext : "none".toList = text at h hstart hopened
  cases h with
  | notLiteral hnumbered => exact hnumbered hstart
  | noIndex _ hne => exact hne htext.symm
  | noName => exact hopened _ _ rfl
  | index => exact hopened _ _ rfl

/-- **A text is refused** for what is wrong with it. -/
theorem parseChars_eq_error_iff {text : List Char} {fault : OffsetFault} :
    parseChars text = .error fault ↔ SourceFault text fault := by
  unfold parseChars
  by_cases hnone : text = "none".toList
  · rw [if_pos hnone, hnone]
    exact ⟨nofun, fun h => absurd h not_sourceFault_none⟩
  rw [if_neg hnone]
  by_cases hstart : startsNumeral text = true
  · have hnumbered : ¬ Unnumbered text := by
      rw [← startsNumeral_eq_false_iff, hstart]
      decide
    rw [if_pos hstart]
    constructor
    · intro h
      split at h
      · cases h
      · next hliteral =>
        cases h
        exact .notLiteral hnumbered (unsigned?_eq_none_iff.mp hliteral)
    · intro h
      cases h with
      | notLiteral _ h => rw [unsigned?_eq_none_iff.mpr h]
      | noIndex hunnumbered => exact absurd hunnumbered hnumbered
      | noName hunnumbered => exact absurd hunnumbered hnumbered
      | index hunnumbered => exact absurd hunnumbered hnumbered
  · have hunnumbered : Unnumbered text :=
      startsNumeral_eq_false_iff.mp (Bool.eq_false_of_not_eq_true hstart)
    rw [if_neg hstart, parseLeaf_eq_error_iff]
    constructor
    · rintro (⟨hopen, rfl⟩ | ⟨name, rest, rfl, hopen, ⟨hbad, rfl⟩ | ⟨⟨hname, hclose⟩, h⟩⟩)
      · exact .noIndex hunnumbered hnone hopen
      · exact .noName hunnumbered hopen hbad
      · exact .index hunnumbered hname ⟨hopen, hclose⟩ h
    · intro h
      cases h with
      | notLiteral hnumbered => exact absurd hunnumbered hnumbered
      | noIndex _ _ hopen => exact Or.inl ⟨hopen, rfl⟩
      | noName _ hopen hbad => exact Or.inr ⟨_, _, rfl, hopen, Or.inl ⟨hbad, rfl⟩⟩
      | index _ hname hmarks h =>
        exact Or.inr ⟨_, _, rfl, hmarks.1, Or.inr ⟨⟨hname, hmarks.2⟩, h⟩⟩

theorem parse_eq_error_iff {raw : String} {cause : DescriptorError} :
    parse raw = .error cause ↔
      ∃ fault, cause = .invalidOffset raw fault ∧ SourceFault raw.toList fault := by
  unfold parse
  simp only [← parseChars_eq_error_iff]
  cases parseChars raw.toList with
  | ok source => simp
  | error found => simp [eq_comm]

/-! ## Sources -/

theorem sourceText_leaf_iff {raw name : String} {path : List Nat} :
    SourceText raw (.leaf name path) ↔ LeafText raw name path := by
  constructor
  · intro h
    cases h with
    | @leaf _ _ groups _ hraw hname hmarks hstart hgroups hpath =>
      rw [← startsNumeral_append hname groups, ← hraw] at hstart
      exact ⟨startsNumeral_eq_false_iff.mp hstart, hname, hmarks, hpath, groups, hgroups, hraw⟩
  · rintro ⟨hstart, hname, hmarks, hpath, groups, hgroups, hraw⟩
    have hnumeral := startsNumeral_eq_false_iff.mpr hstart
    rw [hraw, startsNumeral_append hname] at hnumeral
    exact .leaf hraw hname hmarks hnumeral hgroups hpath

theorem sourceText_literal_iff {raw : String} {n : Nat} :
    SourceText raw (.literal n) ↔ Unsigned raw.toList n ∧ n < halfWordLimit := by
  constructor
  · intro h
    cases h with
    | literal h hlt => exact ⟨h, hlt⟩
  · rintro ⟨h, hlt⟩
    exact .literal h hlt

theorem sourceText_unspecified_iff {raw : String} :
    SourceText raw .unspecified ↔ raw = "none" := by
  constructor
  · intro h
    cases h
    rfl
  · rintro rfl
    exact .unspecified

/-- **Offset texts are read exactly.** A text is the path of a leaf if and only if it names one, a
byte if and only if it is a number of 32 bits, and tells nothing only if it is `none`. Every other
text is refused, for what is wrong with it. -/
theorem parse_source_exact (raw : String) :
    (∀ name path, parse raw = .ok (.leaf name path) ↔ LeafText raw name path) ∧
    (∀ n, parse raw = .ok (.literal n) ↔ Unsigned raw.toList n ∧ n < halfWordLimit) ∧
    (parse raw = .ok .unspecified ↔ raw = "none") ∧
    ((∃ cause, parse raw = .error cause) ↔ (∀ name path, ¬ LeafText raw name path) ∧
      (∀ n, ¬ (Unsigned raw.toList n ∧ n < halfWordLimit)) ∧ raw ≠ "none") ∧
    ∀ cause, parse raw = .error cause ↔
      ∃ fault, cause = .invalidOffset raw fault ∧ SourceFault raw.toList fault := by
  have hleaf : ∀ name path, parse raw = .ok (.leaf name path) ↔ LeafText raw name path :=
    fun name path => parse_eq_ok_iff.trans sourceText_leaf_iff
  have hliteral : ∀ n, parse raw = .ok (.literal n) ↔ Unsigned raw.toList n ∧ n < halfWordLimit :=
    fun n => parse_eq_ok_iff.trans sourceText_literal_iff
  have hnone : parse raw = .ok .unspecified ↔ raw = "none" :=
    parse_eq_ok_iff.trans sourceText_unspecified_iff
  refine ⟨hleaf, hliteral, hnone, ?_, fun cause => parse_eq_error_iff⟩
  simp only [← hleaf, ← hliteral, ne_eq, ← hnone]
  constructor
  · rintro ⟨cause, hcause⟩
    rw [hcause]
    exact ⟨nofun, nofun, nofun⟩
  · rintro ⟨hnotLeaf, hnotLiteral, hnotNone⟩
    cases hparse : parse raw with
    | error cause => exact ⟨cause, rfl⟩
    | ok source =>
      cases source with
      | unspecified => exact absurd hparse hnotNone
      | literal n => exact absurd hparse (hnotLiteral n)
      | leaf name path => exact absurd hparse (hnotLeaf name path)

end OffsetSource

end PlcTags

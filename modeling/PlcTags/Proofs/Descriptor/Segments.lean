import Mathlib.Data.List.Forall2
import PlcTags.Descriptor.Attributes
import PlcTags.Proofs.Outcome
import PlcTags.Proofs.Text.Blank

/-!
# The pairs of an option text

The segments of an option text are what stands between its `&`. Blanks at the ends of the text belong
to its first and its last segment, so they change no pair.

* `Attributes.segments`, `Attributes.keyOf`: the segments of a text, and the key of a segment.
* `Attributes.Spells`: the pair that a segment spells.
* `Attributes.pairs_of_spells`: a text whose segments spell pairs, but for empty ones, has these.
* `Attributes.Plain`, `Attributes.segments_render`: pairs that can be written, and what is rendered.
-/

namespace PlcTags

open PlcTags.Text

namespace Attributes

/-- The segments of an option text. -/
def segments (text : String) : List (List Char) :=
  text.toList.splitOn '&'

/-- The key of a segment: what stands before its first equals sign, blanks around it aside. -/
def keyOf (segment : List Char) : String :=
  String.ofList (trim (segment.takeWhile (· ≠ '=')))

/-- **A segment spells a pair**: key and value stand before and behind its first equals sign, blanks
around them aside, and neither is empty. -/
inductive Spells : List Char → String × String → Prop
  | mk {before after : List Char} {pair : String × String} (hbefore : '=' ∉ before)
      (hkey : trim before = pair.1.toList) (hvalue : trim after = pair.2.toList)
      (hne : pair.1 ≠ "" ∧ pair.2 ≠ "") : Spells (before ++ '=' :: after) pair

variable {segment other : List Char} {pair : String × String}

theorem isBlank_equals : isBlank '=' = false := by
  decide

theorem isBlank_ampersand : isBlank '&' = false := by
  decide

theorem isEmpty_ofList {text : List Char} : String.ofList text ≠ "" ↔ text.isEmpty = false := by
  rw [List.isEmpty_eq_false_iff, Ne, ← String.toList_eq_nil_iff, String.toList_ofList]

theorem pair?_eq_ok_iff : pair? segment = .ok pair ↔ Spells segment pair := by
  unfold pair?
  constructor
  · intro h
    split at h
    · next key value hcut =>
      obtain ⟨rfl, hkey⟩ := cut?_eq_some_iff.mp hcut
      split at h
      · cases h
      · next hfull =>
        cases h
        rw [Bool.or_eq_true, not_or, Bool.not_eq_true, Bool.not_eq_true] at hfull
        exact .mk hkey (String.toList_ofList).symm (String.toList_ofList).symm
          ⟨isEmpty_ofList.mpr hfull.1, isEmpty_ofList.mpr hfull.2⟩
    · cases h
  · rintro ⟨hbefore, hkey, hvalue, hne⟩
    rw [cut?_eq_some_iff.mpr ⟨rfl, hbefore⟩]
    dsimp only
    rw [hkey, hvalue, String.ofList_toList, String.ofList_toList, if_neg]
    simpa [List.isEmpty_iff, String.toList_eq_nil_iff] using hne

namespace Spells

theorem keyOf_eq (h : Spells segment pair) : keyOf segment = pair.1 := by
  obtain ⟨hbefore, hkey, -, -⟩ := h
  have htake : ∀ (before after : List Char), '=' ∉ before →
      (before ++ '=' :: after).takeWhile (fun c => decide (c ≠ '=')) = before := by
    intro before after hnot
    have hall : ∀ c ∈ before, decide (c ≠ '=') = true := by
      intro c hc
      exact decide_eq_true (ne_of_mem_of_not_mem hc hnot)
    rw [List.takeWhile_append_of_pos hall, List.takeWhile_cons_of_neg (by decide), List.append_nil]
  rw [keyOf, htake _ _ hbefore, hkey, String.ofList_toList]

theorem ne_nil (h : Spells segment pair) : segment ≠ [] := by
  cases h
  exact List.append_ne_nil_of_right_ne_nil _ (List.cons_ne_nil _ _)

theorem equals_mem (h : Spells segment pair) : '=' ∈ segment := by
  cases h
  exact List.mem_append_right _ List.mem_cons_self

theorem dropWhile (h : Spells segment pair) : Spells (segment.dropWhile isBlank) pair := by
  obtain ⟨hbefore, hkey, hvalue, hne⟩ := h
  rw [dropWhile_append_cons isBlank_equals]
  exact .mk (fun hmem => hbefore ((List.dropWhile_sublist _).subset hmem))
    (by rw [trim_dropWhile, hkey]) hvalue hne

theorem dropEnd (h : Spells segment pair) : Spells (dropEnd isBlank segment) pair := by
  obtain ⟨hbefore, hkey, hvalue, hne⟩ := h
  rw [dropEnd_append_cons isBlank_equals]
  exact .mk hbefore hkey (by rw [trim_dropEnd, hvalue]) hne

end Spells

/-! ## Blanks at the ends of a text -/

theorem notMem_of_mem_splitOn {mark : Char} {text : List Char} (h : segment ∈ text.splitOn mark) :
    mark ∉ segment := by
  induction text generalizing segment with
  | nil =>
    rw [List.splitOn_nil, List.mem_singleton] at h
    rw [h]
    exact List.not_mem_nil
  | cons c rest ih =>
    rw [List.splitOn_cons_eq_if_modifyHead] at h
    split at h
    · rcases List.mem_cons.mp h with rfl | h
      · exact List.not_mem_nil
      · exact ih h
    · next hc =>
      obtain ⟨first, others, hsplit⟩ := List.exists_cons_of_ne_nil (List.splitOn_ne_nil mark rest)
      rw [hsplit, List.modifyHead_cons] at h
      rcases List.mem_cons.mp h with rfl | h
      · refine List.not_mem_cons_of_ne_of_not_mem (fun heq => hc ?_) (ih ?_)
        · rw [heq, beq_self_eq_true]
        · rw [hsplit]
          exact List.mem_cons_self
      · exact ih (hsplit ▸ List.mem_cons_of_mem first h)

/-- What is left of a segment at an end of a text spells what the segment did, and is not there if the
segment was not. -/
structure LeftOf (kept segment : List Char) : Prop where
  spells : ∀ pair, Spells segment pair → Spells kept pair
  nil : segment = [] → kept = []

namespace LeftOf

theorem refl (segment : List Char) : LeftOf segment segment :=
  ⟨fun _ h => h, id⟩

theorem dropWhile (segment : List Char) : LeftOf (segment.dropWhile isBlank) segment := by
  refine ⟨fun _ h => h.dropWhile, ?_⟩
  rintro rfl
  rfl

theorem dropEnd (segment : List Char) : LeftOf (dropEnd isBlank segment) segment := by
  refine ⟨fun _ h => h.dropEnd, ?_⟩
  rintro rfl
  rfl

end LeftOf

section

variable {others found : List (List Char)}

theorem leftOf_refl (found : List (List Char)) : List.Forall₂ LeftOf found found :=
  List.forall₂_same.mpr fun segment _ => .refl segment

/-- Blanks in front of a text are in front of its first segment. -/
theorem leftOf_dropWhile (hne : found ≠ []) (h : ∀ segment ∈ found, '&' ∉ segment) :
    List.Forall₂ LeftOf (((['&'].intercalate found).dropWhile isBlank).splitOn '&') found := by
  obtain ⟨first, others, rfl⟩ := List.exists_cons_of_ne_nil hne
  have hfirst : '&' ∉ first.dropWhile isBlank := fun hmem =>
    h first List.mem_cons_self ((List.dropWhile_sublist _).subset hmem)
  have hothers : ∀ segment ∈ others, '&' ∉ segment :=
    fun segment hsegment => h segment (List.mem_cons_of_mem first hsegment)
  cases others with
  | nil =>
    rw [List.intercalate_singleton, List.splitOn_eq_singleton hfirst]
    exact .cons (.dropWhile first) .nil
  | cons second rest =>
    rw [List.intercalate_cons_cons, List.append_assoc, List.singleton_append,
      dropWhile_append_cons isBlank_ampersand, List.splitOn_append_cons_self_of_not_mem hfirst,
      List.splitOn_intercalate '&' hothers (List.cons_ne_nil _ _)]
    exact .cons (.dropWhile first) (leftOf_refl _)

/-- Blanks behind a text are behind its last segment. Induction on the segments before it. -/
theorem leftOf_dropEnd (hne : found ≠ []) (h : ∀ segment ∈ found, '&' ∉ segment) :
    List.Forall₂ LeftOf ((dropEnd isBlank (['&'].intercalate found)).splitOn '&') found := by
  induction found with
  | nil => exact absurd rfl hne
  | cons first others ih =>
    have hfirst := h first List.mem_cons_self
    cases others with
    | nil =>
      have hlast : '&' ∉ dropEnd isBlank first := fun hmem =>
        hfirst ((List.rdropWhile_prefix isBlank _).subset hmem)
      rw [List.intercalate_singleton, List.splitOn_eq_singleton hlast]
      exact .cons (.dropEnd first) .nil
    | cons second rest =>
      have hrest := ih (List.cons_ne_nil _ _)
        fun segment hsegment => h segment (List.mem_cons_of_mem first hsegment)
      rw [List.intercalate_cons_cons, List.append_assoc, List.singleton_append,
        dropEnd_append_cons isBlank_ampersand, List.splitOn_append_cons_self_of_not_mem hfirst]
      exact .cons (.refl first) hrest

end

/-- The segments that are there. -/
def present (found : List (List Char)) : List (List Char) :=
  found.filter fun segment => !segment.isEmpty

theorem mem_present_iff {found : List (List Char)} :
    segment ∈ present found ↔ segment ∈ found ∧ segment ≠ [] := by
  rw [present, List.mem_filter, Bool.not_eq_true', List.isEmpty_eq_false_iff]

theorem present_cons_nil (found : List (List Char)) : present ([] :: found) = present found :=
  List.filter_cons_of_neg (by decide)

theorem present_cons_of_ne {found : List (List Char)} (h : segment ≠ []) :
    present (segment :: found) = segment :: present found :=
  List.filter_cons_of_pos (by simpa using h)

/-- What is left spells the same pairs. -/
theorem spells_of_leftOf {kept found : List (List Char)} {spelled : List (String × String)}
    (h : List.Forall₂ LeftOf kept found) (hspelled : List.Forall₂ Spells (present found) spelled) :
    List.Forall₂ Spells (present kept) spelled := by
  induction h generalizing spelled with
  | nil => exact hspelled
  | @cons left segment _ _ hleft _ ih =>
    by_cases hnil : segment = []
    · rw [hnil, present_cons_nil] at hspelled
      rw [hleft.nil hnil, present_cons_nil]
      exact ih hspelled
    · rw [present_cons_of_ne hnil] at hspelled
      obtain ⟨pair, rest, hpair, hrest, rfl⟩ := List.forall₂_cons_left_iff.mp hspelled
      have hspells := hleft.spells pair hpair
      rw [present_cons_of_ne hspells.ne_nil]
      exact .cons hspells (ih hrest)

theorem spells_trim {text : List Char} {spelled : List (String × String)}
    (h : List.Forall₂ Spells (present (text.splitOn '&')) spelled) :
    List.Forall₂ Spells (present ((trim text).splitOn '&')) spelled := by
  have hfront := leftOf_dropWhile (List.splitOn_ne_nil '&' text) fun _ => notMem_of_mem_splitOn
  have hback := leftOf_dropEnd (List.splitOn_ne_nil '&' (text.dropWhile isBlank))
    fun _ => notMem_of_mem_splitOn
  rw [List.intercalate_splitOn] at hfront hback
  exact spells_of_leftOf hback (spells_of_leftOf hfront h)

/-- A text that is one segment without an equals sign has no pairs. -/
theorem not_spells_of_singleton {text : List Char} {spelled : List (String × String)}
    (hne : text ≠ []) (hmark : '&' ∉ text) (hequals : '=' ∉ text) :
    ¬ List.Forall₂ Spells (present (text.splitOn '&')) spelled := by
  intro h
  rw [List.splitOn_eq_singleton hmark, present_cons_of_ne hne] at h
  obtain ⟨pair, _, hpair, -⟩ := List.forall₂_cons_left_iff.mp h
  exact hequals hpair.equals_mem

/-- **A text has the pairs that its segments spell**, empty segments aside. -/
theorem pairs_of_spells {text : String} {spelled : List (String × String)}
    (h : List.Forall₂ Spells (present (segments text)) spelled) : pairs text = .ok spelled := by
  have htrim := spells_trim h
  unfold pairs
  dsimp only
  split
  · next hnone =>
    simp only [Bool.or_eq_true, beq_iff_eq] at hnone
    rcases hnone with (hempty | hword) | hzero
    · rw [List.isEmpty_iff.mp hempty, List.splitOn_nil, present_cons_nil] at htrim
      rw [List.forall₂_nil_left_iff.mp htrim]
    · rw [hword] at htrim
      exact absurd htrim (not_spells_of_singleton (by decide) (by decide) (by decide))
    · rw [hzero] at htrim
      exact absurd htrim (not_spells_of_singleton (by decide) (by decide) (by decide))
  · exact mapM_eq_ok_iff.mpr (htrim.imp fun _ _ => pair?_eq_ok_iff.mpr)

/-! ## Pairs that can be written -/

/-- A pair as it is written. -/
def spelling (pair : String × String) : List Char :=
  pair.1.toList ++ '=' :: pair.2.toList

/-- **A pair can be written**: it is read back from its spelling, which is one segment. -/
structure Plain (pair : String × String) : Prop where
  spells : Spells (spelling pair) pair
  mark : '&' ∉ spelling pair

theorem Spells.plain (h : Spells segment pair) (hmark : '&' ∉ segment) : Plain pair := by
  obtain @⟨before, after, _, hbefore, hkey, hvalue, hne⟩ := h
  have hspelling : ∀ c, c ∈ spelling pair → c ∈ before ++ '=' :: after := by
    intro c hc
    rw [spelling, ← hkey, ← hvalue] at hc
    rcases List.mem_append.mp hc with hc | hc
    · exact List.mem_append_left _ (mem_of_mem_trim hc)
    · rcases List.mem_cons.mp hc with rfl | hc
      · exact List.mem_append_right _ List.mem_cons_self
      · exact List.mem_append_right _ (List.mem_cons_of_mem _ (mem_of_mem_trim hc))
  refine ⟨.mk ?_ ?_ ?_ hne, fun hmem => hmark (hspelling _ hmem)⟩
  · rw [← hkey]
    exact fun hmem => hbefore (mem_of_mem_trim hmem)
  · rw [← hkey, trim_trim]
  · rw [← hvalue, trim_trim]

/-- Pairs that were read can be written. -/
theorem plain_of_mem_pairs {text : String} {found : List (String × String)}
    (h : pairs text = .ok found) (hpair : pair ∈ found) : Plain pair := by
  unfold pairs at h
  dsimp only at h
  split at h
  · cases h
    cases hpair
  · obtain ⟨segment, hsegment, hspells⟩ := exists_of_mem_forall₂ (mapM_eq_ok_iff.mp h) hpair
    have hmark := notMem_of_mem_splitOn (List.mem_filter.mp hsegment).1
    exact (pair?_eq_ok_iff.mp hspells).plain hmark

/-! ## What is rendered -/

theorem intercalate_cons_nil (found : List (List Char)) :
    ['&'].intercalate ([] :: found) = found.flatMap ('&' :: ·) := by
  induction found with
  | nil => rfl
  | cons segment rest ih =>
    rw [List.intercalate_cons_cons, List.nil_append, List.singleton_append, List.flatMap_cons, ← ih]
    cases rest with
    | nil => rw [List.intercalate_singleton, List.intercalate_singleton, List.append_nil]
    | cons next rest =>
      rw [List.intercalate_cons_cons, List.intercalate_cons_cons]
      simp

theorem toList_render (attrs : Attributes) (type : DataType) : (attrs.render type).toList =
    ['&'].intercalate ([] :: (attrs.renderedPairs type).map spelling) := by
  have hwritten : ∀ pair : String × String,
      (s!"&{pair.1}={pair.2}").toList = '&' :: spelling pair := by
    intro pair
    simp [spelling, toString]
  rw [intercalate_cons_nil, render, String.toList_join, List.flatMap_map, List.flatMap_map]
  exact List.flatMap_congr fun pair _ => hwritten pair

section

variable {attrs : Attributes} {type : DataType}
  (hplain : ∀ pair ∈ attrs.renderedPairs type, Plain pair)
include hplain

/-- **The segments of a rendering** are the spellings of its pairs, after the empty one in front of
the first `&`. -/
theorem segments_render :
    segments (attrs.render type) = [] :: (attrs.renderedPairs type).map spelling := by
  rw [segments, toList_render]
  refine List.splitOn_intercalate '&' (fun segment hsegment => ?_) (List.cons_ne_nil _ _)
  rcases List.mem_cons.mp hsegment with rfl | hsegment
  · exact List.not_mem_nil
  · obtain ⟨pair, hpair, rfl⟩ := List.mem_map.mp hsegment
    exact (hplain pair hpair).mark

/-- **A rendering is read back** as its pairs. -/
theorem pairs_render : pairs (attrs.render type) = .ok (attrs.renderedPairs type) := by
  have hall : ∀ found : List (String × String), (∀ pair ∈ found, Plain pair) →
      List.Forall₂ Spells (present (found.map spelling)) found := by
    intro found hfound
    induction found with
    | nil => exact .nil
    | cons pair rest ih =>
      have hpair := (hfound pair List.mem_cons_self).spells
      rw [List.map_cons, present_cons_of_ne hpair.ne_nil]
      exact .cons hpair (ih fun other hother => hfound other (List.mem_cons_of_mem pair hother))
  refine pairs_of_spells ?_
  rw [segments_render hplain, present_cons_nil]
  exact hall _ hplain

end

end Attributes

end PlcTags

import Mathlib.Data.List.Nodup
import Mathlib.Data.List.Perm.Basic
import PlcTags.Proofs.Descriptor.Options
import PlcTags.Proofs.Descriptor.Segments

/-!
# Options in any order

Options may be written in any order, as long as no key comes twice. The pairs that are passed on keep
the order of the text, everything else is the same (`parse_of_perm`).

* `Attributes.Lists`: a text of pairs, no key twice.
* `Attributes.SameOptions`: options that differ in the order of what is passed on.
* `Attributes.Overrides`: what is said of strings holds, whether or not values may be merged.
-/

namespace PlcTags

namespace Attributes

variable {key value text other : String} {found more : List (String × String)}
  {type : DataType} {attrs : Attributes}

/-- **A text lists options**: each of its segments that is not empty spells a pair, and no key comes
twice. -/
structure Lists (text : String) : Prop where
  spelled : ∀ segment ∈ segments text, segment ≠ [] → ∃ pair, Spells segment pair
  distinct : ((present (segments text)).map keyOf).Nodup

/-- **Options are the same** but for the order of the pairs that are passed on. -/
structure SameOptions (a b : Attributes) : Prop where
  allowPacking : a.allowPacking = b.allowPacking
  strings : a.strings = b.strings
  maxCapacity : a.maxCapacity = b.maxCapacity
  readSize : a.readSize = b.readSize
  readAsString : a.readAsString = b.readAsString
  optimise : a.optimise = b.optimise
  passthrough : a.passthrough.Perm b.passthrough

/-- **What pairs say of strings overrides** the defaults that merging chooses. -/
structure Overrides (attrs : Attributes) (found : List (String × String)) : Prop where
  /-- What a pair says holds, wherever it stands. -/
  explicit : ∀ pair ∈ found, attrs.strings.overriddenBy [pair] = attrs.strings
  /-- What none says is left to the defaults. -/
  defaults : attrs.strings = (Attributes.defaults attrs.optimise).strings.overriddenBy found

/-! ## Values of distinct keys -/

theorem last?_eq_some_iff (hdistinct : (found.map Prod.fst).Nodup) :
    last? key found = some value ↔ (key, value) ∈ found := by
  refine ⟨mem_of_last?, fun hmem => ?_⟩
  cases hlast : last? key found with
  | none => exact absurd rfl (last?_eq_none_iff.mp hlast _ hmem)
  | some found' =>
    have hsame := List.inj_on_of_nodup_map hdistinct (mem_of_last? hlast) hmem rfl
    rw [(Prod.mk.inj hsame).2]

theorem last?_eq_of_perm (hdistinct : (found.map Prod.fst).Nodup) (hperm : more.Perm found)
    (key : String) : last? key more = last? key found := by
  have hdistinct' := (hperm.map Prod.fst).nodup_iff.mpr hdistinct
  refine Option.ext fun value => ?_
  rw [last?_eq_some_iff hdistinct', last?_eq_some_iff hdistinct, hperm.mem_iff]

section

variable (hdistinct : (found.map Prod.fst).Nodup) (hperm : more.Perm found)
include hdistinct hperm

theorem flagOf_eq_of_perm (key : String) (default : Bool) :
    flagOf key more default = flagOf key found default := by
  rw [flagOf, last?_eq_of_perm hdistinct hperm, flagOf]

theorem countOf_eq_of_perm (key : String) : countOf key more = countOf key found := by
  rw [countOf, last?_eq_of_perm hdistinct hperm, countOf]

theorem overriddenBy_eq_of_perm (base : StringConventions) :
    base.overriddenBy more = base.overriddenBy found := by
  unfold StringConventions.overriddenBy
  simp only [flagOf_eq_of_perm hdistinct hperm, countOf_eq_of_perm hdistinct hperm]

theorem sameOptions_declared (type : DataType) (optimise : Bool) :
    (declared type optimise more).SameOptions (declared type optimise found) where
  allowPacking := flagOf_eq_of_perm hdistinct hperm _ _
  strings := overriddenBy_eq_of_perm hdistinct hperm _
  maxCapacity := by
    unfold declared
    rw [countOf_eq_of_perm hdistinct hperm]
  readSize := countOf_eq_of_perm hdistinct hperm _
  readAsString := by
    unfold declared
    dsimp only
    rw [flagOf_eq_of_perm hdistinct hperm]
  optimise := rfl
  passthrough := hperm.filter _

theorem readable_iff_of_perm : Readable more ↔ Readable found := by
  have hlast := last?_eq_of_perm hdistinct hperm "optimise"
  constructor
  · intro h
    exact ⟨fun pair hpair => h.accepted pair (hperm.mem_iff.mpr hpair), hlast ▸ h.optimise⟩
  · intro h
    exact ⟨fun pair hpair => h.accepted pair (hperm.mem_iff.mp hpair), hlast.symm ▸ h.optimise⟩

end

/-- What a pair says is said already if it is among pairs of distinct keys. -/
theorem overriddenBy_singleton_of_mem (hdistinct : (found.map Prod.fst).Nodup)
    (base : StringConventions) {pair : String × String} (hpair : pair ∈ found) :
    (base.overriddenBy found).overriddenBy [pair] = base.overriddenBy found := by
  have hlast : last? pair.1 found = some pair.2 := (last?_eq_some_iff hdistinct).mpr hpair
  have hflag : ∀ (key : String) (default : Bool),
      flagOf key [pair] (flagOf key found default) = flagOf key found default := by
    intro key default
    by_cases heq : pair.1 = key
    · subst heq
      rw [flagOf, last?_singleton, if_pos rfl, flagOf, hlast]
      rfl
    · rw [flagOf, last?_singleton, if_neg heq]
      rfl
  have hcount : ∀ (key : String) (default : Nat),
      ((countOf key [pair]).map low32).getD (((countOf key found).map low32).getD default) =
        ((countOf key found).map low32).getD default := by
    intro key default
    by_cases heq : pair.1 = key
    · subst heq
      rw [countOf, last?_singleton, if_pos rfl, countOf, hlast, Option.bind_some]
      cases Text.unsigned? Text.wordLimit pair.2.toList <;> rfl
    · rw [countOf, last?_singleton, if_neg heq]
      rfl
  simp only [StringConventions.overriddenBy, hflag, hcount]

/-! ## Texts of options -/

theorem keys_of_spells {segments : List (List Char)} (h : List.Forall₂ Spells segments found) :
    segments.map keyOf = found.map Prod.fst := by
  induction h with
  | nil => rfl
  | cons hpair _ ih => rw [List.map_cons, List.map_cons, hpair.keyOf_eq, ih]

theorem Lists.exists_spells (h : Lists text) : ∃ found,
    List.Forall₂ Spells (present (segments text)) found ∧ (found.map Prod.fst).Nodup := by
  obtain ⟨found, hfound⟩ := exists_forall₂_of_mem fun segment hsegment =>
    have hmem := mem_present_iff.mp hsegment
    h.spelled segment hmem.1 hmem.2
  exact ⟨found, hfound, keys_of_spells hfound ▸ h.distinct⟩

/-- What is read of a text, by what its segments spell. -/
theorem parse_eq_ok_iff_of_spells (h : List.Forall₂ Spells (present (segments text)) found) :
    parse text type = .ok attrs ↔
      Readable found ∧ attrs = declared type (flagOf "optimise" found false) found := by
  rw [parse_eq_ok_iff, pairs_of_spells h]
  constructor
  · rintro ⟨found', hsame, hattrs⟩
    rwa [Except.ok.inj hsame]
  · exact fun hattrs => ⟨found, rfl, hattrs⟩

theorem Overrides.of_sameOptions {a b : Attributes} (h : b.Overrides found) (hsame : a.SameOptions b) :
    a.Overrides found := by
  constructor
  · rw [hsame.strings]
    exact h.explicit
  · rw [hsame.strings, hsame.optimise]
    exact h.defaults

/-- **Options may be written in any order.** A text and any other order of its segments are both read
or both refused, and give the same options; what is said of strings overrides the defaults that
merging chooses, on whichever side of it. -/
theorem parse_of_perm (h : Lists text) (hperm : (segments other).Perm (segments text))
    (type : DataType) :
    ((∃ a, parse other type = .ok a) ↔ ∃ b, parse text type = .ok b) ∧
      ∀ a b, parse other type = .ok a → parse text type = .ok b →
        a.SameOptions b ∧ ∃ found, pairs text = .ok found ∧ a.Overrides found ∧ b.Overrides found := by
  obtain ⟨found, hfound, hdistinct⟩ := h.exists_spells
  obtain ⟨more, hmore, hsame⟩ := List.perm_comp_forall₂ (hperm.filter _) hfound
  have hoptimise := flagOf_eq_of_perm hdistinct hsame "optimise" false
  have hread : ∀ a, parse other type = .ok a ↔
      Readable found ∧ a = declared type (flagOf "optimise" found false) more := by
    intro a
    rw [parse_eq_ok_iff_of_spells hmore, readable_iff_of_perm hdistinct hsame, hoptimise]
  have hread' : ∀ b, parse text type = .ok b ↔
      Readable found ∧ b = declared type (flagOf "optimise" found false) found :=
    fun _ => parse_eq_ok_iff_of_spells hfound
  refine ⟨?_, fun a b ha hb => ?_⟩
  · simp only [hread, hread', exists_and_left, exists_eq, and_true]
  · obtain ⟨-, rfl⟩ := (hread a).mp ha
    obtain ⟨-, rfl⟩ := (hread' b).mp hb
    have hoverrides : (declared type (flagOf "optimise" found false) found).Overrides found :=
      ⟨fun pair hpair => overriddenBy_singleton_of_mem hdistinct _ hpair, rfl⟩
    have hdeclared := sameOptions_declared hdistinct hsame type (flagOf "optimise" found false)
    exact ⟨hdeclared, found, pairs_of_spells hfound,
      hoverrides.of_sameOptions hdeclared, hoverrides⟩

/-- Options for a label, with those of merging behind what overrides them. -/
def labelOptions : String :=
  "str_is_fixed_length=0&optimise=1&plc=lgx&str_max_capacity=20"

def labelOptionsReversed : String :=
  "str_max_capacity=20&plc=lgx&optimise=1&str_is_fixed_length=0"

/-- Its strings are ended by a zero like those of merged values, in a length of their own. -/
def labelAttributes : Attributes where
  allowPacking := true
  strings := ⟨true, false, false, 0, 0⟩
  maxCapacity := some 20
  readSize := none
  readAsString := false
  optimise := true
  passthrough := [("plc", "lgx"), ("str_max_capacity", "20")]

theorem lists_labelOptions : Lists labelOptions where
  spelled segment hsegment _ := by
    have hpairs : ∀ segment ∈ segments labelOptions, (pair? segment).isOk := by
      with_unfolding_all decide
    have hok := hpairs segment hsegment
    cases hpair : pair? segment with
    | ok pair => exact ⟨pair, pair?_eq_ok_iff.mp hpair⟩
    | error => rw [hpair] at hok; cases hok
  distinct := by with_unfolding_all decide

theorem parse_of_perm_labelOptions :
    Lists labelOptions ∧ (segments labelOptionsReversed).Perm (segments labelOptions) ∧
      parse labelOptions .string = .ok labelAttributes ∧ ∃ reversed,
        parse labelOptionsReversed .string = .ok reversed ∧ reversed.SameOptions labelAttributes ∧
          ∃ found, pairs labelOptions = .ok found ∧ reversed.Overrides found ∧
            labelAttributes.Overrides found := by
  have hperm : (segments labelOptionsReversed).Perm (segments labelOptions) := by
    with_unfolding_all decide
  have hread : parse labelOptions .string = .ok labelAttributes := by with_unfolding_all rfl
  obtain ⟨hreadable, hsame⟩ := parse_of_perm lists_labelOptions hperm .string
  obtain ⟨reversed, hreversed⟩ := hreadable.mpr ⟨_, hread⟩
  exact ⟨lists_labelOptions, hperm, hread, reversed, hreversed, hsame _ _ hreversed hread⟩

end Attributes

end PlcTags

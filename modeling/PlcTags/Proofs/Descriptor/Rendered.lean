import PlcTags.Proofs.Descriptor.Options
import PlcTags.Proofs.Descriptor.Segments
import PlcTags.Proofs.Text.Numeral

/-!
# What options are sent

The options of a value are rendered into a connection string, which is an option text itself. It is a
normal form: nothing that steers the reading is in it, and it is read back as what was sent.

* `Attributes.settings`: the pairs that are always sent.
* `Attributes.SentAlike`: options that are sent alike.
* `Attributes.NormalForm`: what a rendering promises.
* `Attributes.normalForm_of_parse`: renderings of options that were read are normal forms.
-/

namespace PlcTags

open PlcTags.Text

/-- How strings lie, as pairs. -/
def StringConventions.spelled (strings : StringConventions) : List (String × String) :=
  [("str_is_zero_terminated", Attributes.flagText strings.zeroTerminated),
    ("str_is_fixed_length", Attributes.flagText strings.fixedLength),
    ("str_is_counted", Attributes.flagText strings.counted),
    ("str_count_word_bytes", toString strings.countWordBytes),
    ("str_pad_to_multiple_bytes", toString strings.padToMultipleBytes)]

/-- The sizes are words of 32 bits. -/
structure StringConventions.InWords (strings : StringConventions) : Prop where
  countWordBytes : strings.countWordBytes < halfWordLimit
  padToMultipleBytes : strings.padToMultipleBytes < halfWordLimit

namespace Attributes

variable {key value : String} {found : List (String × String)} {pair : String × String}
  {type : DataType} {attrs a b : Attributes} {text : String} {optimise : Bool}

/-- **The settings that are always sent**: packing, and for types with strings how they lie. -/
def settings (attrs : Attributes) (type : DataType) : List (String × String) :=
  ("allow_packing", flagText attrs.allowPacking) ::
    if type.carriesStrings then attrs.strings.spelled else []

theorem renderedPairs_eq (attrs : Attributes) (type : DataType) :
    attrs.renderedPairs type = attrs.passthrough ++ attrs.settings type := by
  rw [renderedPairs, List.append_assoc]
  rfl

/-! ## Settings can be written -/

theorem plain_of_chars (hkey : ∀ c ∈ key.toList, c ≠ '=' ∧ c ≠ '&' ∧ isBlank c = false)
    (hvalue : ∀ c ∈ value.toList, c ≠ '&' ∧ isBlank c = false) (hne : key ≠ "" ∧ value ≠ "") :
    Plain (key, value) where
  spells := .mk (fun hmem => (hkey _ hmem).1 rfl) (trim_of_forall fun c hc => (hkey c hc).2.2)
    (trim_of_forall fun c hc => (hvalue c hc).2) hne
  mark hmem := by
    rcases List.mem_append.mp hmem with hmem | hmem
    · exact (hkey _ hmem).2.1 rfl
    · rcases List.mem_cons.mp hmem with heq | hmem
      · exact absurd heq (by decide)
      · exact (hvalue _ hmem).1 rfl

theorem chars_of_mem_optionKeys (h : key ∈ optionKeys) : key ≠ "" ∧
    ∀ c ∈ key.toList, c ≠ '=' ∧ c ≠ '&' ∧ isBlank c = false := by
  have hkeys : ∀ key ∈ optionKeys, key ≠ "" ∧
      key.toList.all (fun c => decide (c ≠ '=' ∧ c ≠ '&' ∧ isBlank c = false)) = true := by
    decide
  obtain ⟨hne, hchars⟩ := hkeys key h
  exact ⟨hne, fun c hc => of_decide_eq_true (List.all_eq_true.mp hchars c hc)⟩

theorem plain_count (hkey : key ∈ optionKeys) (n : Nat) : Plain (key, toString n) := by
  obtain ⟨hne, hchars⟩ := chars_of_mem_optionKeys hkey
  have hdigits : Digits (toString n).toList n := by
    rw [Nat.toString_eq_repr, Nat.toList_repr]
    exact digits_toDigits n
  refine plain_of_chars hchars (fun c hc => ⟨?_, ?_⟩) ⟨hne, ?_⟩
  · rintro rfl
    exact hdigits.notMem (by decide) hc
  · exact isBlank_of_isDigit (hdigits.isDigit_of_mem hc)
  · exact fun hempty => hdigits.nonempty (String.toList_eq_nil_iff.mpr hempty)

theorem plain_flag (hkey : key ∈ optionKeys) (b : Bool) : Plain (key, flagText b) := by
  cases b
  · exact plain_count hkey 0
  · exact plain_count hkey 1

/-- The keys of settings that are flags. -/
def settingFlags : List String :=
  ["allow_packing", "str_is_zero_terminated", "str_is_fixed_length", "str_is_counted"]

/-- The keys of settings that are counts. -/
def settingCounts : List String :=
  ["str_count_word_bytes", "str_pad_to_multiple_bytes"]

/-- **A setting** is a flag, or a count of 64 bits. -/
inductive IsSetting : String × String → Prop
  | flag {key : String} (hkey : key ∈ settingFlags) (b : Bool) : IsSetting (key, flagText b)
  | count {key : String} {n : Nat} (hkey : key ∈ settingCounts) (hn : n < wordLimit) :
      IsSetting (key, toString n)

theorem isSetting_of_mem (hwords : attrs.strings.InWords) (h : pair ∈ attrs.settings type) :
    IsSetting pair := by
  have hlimit : halfWordLimit ≤ wordLimit := by decide
  have hcount := hwords.countWordBytes.trans_le hlimit
  have hpad := hwords.padToMultipleBytes.trans_le hlimit
  rcases List.mem_cons.mp h with rfl | h
  · exact .flag (by decide) _
  · split at h
    · simp only [StringConventions.spelled, List.mem_cons, List.not_mem_nil, or_false] at h
      rcases h with rfl | rfl | rfl | rfl | rfl
      · exact .flag (by decide) _
      · exact .flag (by decide) _
      · exact .flag (by decide) _
      · exact .count (by decide) hcount
      · exact .count (by decide) hpad
    · cases h

/-- No setting is a string capacity or steers the reading. -/
theorem IsSetting.mem_optionKeys (h : IsSetting pair) :
    pair.1 ∈ optionKeys ∧ pair.1 ≠ "str_max_capacity" ∧ pair.1 ∉ readerKeys := by
  have hflags : ∀ key ∈ settingFlags,
      key ∈ optionKeys ∧ key ≠ "str_max_capacity" ∧ key ∉ readerKeys := by decide
  have hcounts : ∀ key ∈ settingCounts,
      key ∈ optionKeys ∧ key ≠ "str_max_capacity" ∧ key ∉ readerKeys := by decide
  cases h with
  | flag hkey => exact hflags _ hkey
  | count hkey => exact hcounts _ hkey

theorem IsSetting.plain (h : IsSetting pair) : Plain pair := by
  have hoption := h.mem_optionKeys.1
  cases h with
  | flag _ b => exact plain_flag hoption b
  | count => exact plain_count hoption _

theorem isFlag_flagText (b : Bool) : IsFlag (flagText b) := by
  cases b
  · exact Or.inl rfl
  · exact Or.inr rfl

theorem IsSetting.accepted (h : IsSetting pair) : Accepted pair := by
  have hflags : ∀ key ∈ settingFlags, key ∈ flagKeys := by decide
  have hcounts : ∀ key ∈ settingCounts, key ∈ countKeys := by decide
  cases h with
  | flag hkey b => exact (accepted_iff_of_flag (hflags _ hkey)).mpr (isFlag_flagText b)
  | count hkey hn =>
    exact (accepted_iff_of_count (hcounts _ hkey)).mpr ⟨_, unsigned?_toString hn⟩

theorem IsSetting.not_passedOn (h : IsSetting pair) (type : DataType) :
    passedOn type pair = false :=
  passedOn_eq_false h.mem_optionKeys.1 h.mem_optionKeys.2.1 type

/-! ## Settings are read back -/

theorem low32_lt (n : Nat) : low32 n < halfWordLimit :=
  Nat.mod_lt n (by decide)

theorem inWords_defaults (optimise : Bool) : (defaults optimise).strings.InWords := by
  cases optimise
  · exact ⟨by decide, by decide⟩
  · exact ⟨by decide, by decide⟩

theorem inWords_overriddenBy {base : StringConventions} (h : base.InWords)
    (found : List (String × String)) : (base.overriddenBy found).InWords := by
  have hsize : ∀ (count : Option Nat) (n : Nat), n < halfWordLimit →
      (count.map low32).getD n < halfWordLimit := by
    intro count n hn
    cases count with
    | none => exact hn
    | some n => exact low32_lt n
  exact ⟨hsize _ _ h.countWordBytes, hsize _ _ h.padToMultipleBytes⟩

theorem flagOf_flagText {b default : Bool} (h : last? key found = some (flagText b)) :
    flagOf key found default = b := by
  rw [flagOf, h]
  cases b <;> rfl

theorem countOf_toString {n : Nat} (h : last? key found = some (toString n)) (hn : n < wordLimit) :
    countOf key found = some n := by
  rw [countOf, h]
  exact unsigned?_toString hn

/-- How strings lie is read back from its pairs, whatever stands before them. -/
theorem overriddenBy_spelled {base strings : StringConventions} (h : strings.InWords)
    (found : List (String × String)) : base.overriddenBy (found ++ strings.spelled) = strings := by
  have hlimit : halfWordLimit ≤ wordLimit := by decide
  have hcount : countOf "str_count_word_bytes" (found ++ strings.spelled) =
      some strings.countWordBytes :=
    countOf_toString (by rw [last?_append]; rfl) (h.countWordBytes.trans_le hlimit)
  have hpad : countOf "str_pad_to_multiple_bytes" (found ++ strings.spelled) =
      some strings.padToMultipleBytes :=
    countOf_toString (by rw [last?_append]; rfl) (h.padToMultipleBytes.trans_le hlimit)
  unfold StringConventions.overriddenBy
  rw [flagOf_flagText (b := strings.zeroTerminated) (by rw [last?_append]; rfl),
    flagOf_flagText (b := strings.fixedLength) (by rw [last?_append]; rfl),
    flagOf_flagText (b := strings.counted) (by rw [last?_append]; rfl), hcount, hpad,
    Option.map_some, Option.map_some, Option.getD_some, Option.getD_some, low32, low32,
    Nat.mod_eq_of_lt h.countWordBytes, Nat.mod_eq_of_lt h.padToMultipleBytes]

/-! ## Renderings are normal forms -/

/-- **Options are sent alike** for a type: packing, the pairs passed on and the string capacity are
the same, and for types with strings how they lie. -/
structure SentAlike (type : DataType) (a b : Attributes) : Prop where
  allowPacking : a.allowPacking = b.allowPacking
  passthrough : a.passthrough = b.passthrough
  maxCapacity : a.maxCapacity = b.maxCapacity
  strings : type = .string ∨ type = .udt → a.strings = b.strings

/-- **A rendering is a normal form** of the options that pairs give. -/
structure NormalForm (attrs : Attributes) (type : DataType) (found : List (String × String)) :
    Prop where
  /-- Nothing that steers the reading is in it. -/
  keys : ∀ segment ∈ segments (attrs.render type), keyOf segment ∉ readerKeys
  /-- The pairs passed on come first, in their order, then packing and how strings lie. -/
  order : segments (attrs.render type) =
    [] :: (found.filter (passedOn type) ++ attrs.settings type).map spelling
  /-- It is read, as what was sent, and rendered as it was. -/
  again : ∃ again, parse (attrs.render type) type = .ok again ∧ again.SentAlike type attrs ∧
    again.render type = attrs.render type

theorem carriesStrings_iff : type.carriesStrings = true ↔ type = .string ∨ type = .udt := by
  cases type <;> decide

theorem SentAlike.render_eq (h : a.SentAlike type b) : a.render type = b.render type := by
  have hsettings : a.settings type = b.settings type := by
    unfold settings
    rw [h.allowPacking]
    split
    · next hstrings => rw [h.strings (carriesStrings_iff.mp hstrings)]
    · rfl
  rw [render, render, renderedPairs_eq, renderedPairs_eq, h.passthrough, hsettings]

theorem inWords_declared (type : DataType) (optimise : Bool) (found : List (String × String)) :
    (declared type optimise found).strings.InWords :=
  inWords_overriddenBy (inWords_defaults optimise) found

/-- Options are set after the pairs that are passed on. -/
theorem last?_renderedPairs (hoption : key ∈ optionKeys) (hne : key ≠ "str_max_capacity") :
    last? key ((declared type optimise found).renderedPairs type) =
      last? key ((declared type optimise found).settings type) := by
  have hpassed : last? key (found.filter (passedOn type)) = none := by
    refine last?_eq_none_iff.mpr fun pair hpair heq => ?_
    have hpass := (List.mem_filter.mp hpair).2
    rw [passedOn_eq_false (heq ▸ hoption) (heq ▸ hne)] at hpass
    cases hpass
  rw [renderedPairs_eq, last?_append, show (declared type optimise found).passthrough =
    found.filter (passedOn type) from rfl, hpassed, Option.or_none]

theorem last?_settings (h : ∀ pair, IsSetting pair → pair.1 ≠ key) :
    last? key ((declared type optimise found).settings type) = none :=
  last?_eq_none_iff.mpr fun pair hpair =>
    h pair (isSetting_of_mem (inWords_declared type optimise found) hpair)

/-- **What is rendered declares what was sent**, whether or not values may be merged. -/
theorem sentAlike_declared (type : DataType) (optimise b : Bool) (found : List (String × String)) :
    (declared type b ((declared type optimise found).renderedPairs type)).SentAlike type
      (declared type optimise found) := by
  have hwords := inWords_declared type optimise found
  have hpassthrough : (declared type optimise found).passthrough = found.filter (passedOn type) :=
    rfl
  refine ⟨?_, ?_, ?_, fun hstrings => ?_⟩
  · refine flagOf_flagText ?_
    rw [last?_renderedPairs (by decide) (by decide), settings]
    split <;> rfl
  · show List.filter (passedOn type) _ = _
    have hsettings : ((declared type optimise found).settings type).filter (passedOn type) = [] := by
      refine List.filter_eq_nil_iff.mpr fun pair hpair => ?_
      rw [(isSetting_of_mem hwords hpair).not_passedOn]
      exact Bool.false_ne_true
    rw [renderedPairs_eq, List.filter_append, hsettings, List.append_nil, hpassthrough,
      List.filter_filter]
    simp only [Bool.and_self]
  · show (if type.carriesStrings then countOf "str_max_capacity" _ else none) =
      if type.carriesStrings then countOf "str_max_capacity" found else none
    split
    · next hstrings =>
      have hcapacity : ∀ value, passedOn type ("str_max_capacity", value) = true := by
        intro value
        simp [passedOn, hstrings]
      rw [countOf, renderedPairs_eq, last?_append,
        last?_settings fun pair hpair => hpair.mem_optionKeys.2.1, Option.none_or, hpassthrough,
        last?_filter hcapacity]
      rfl
    · rfl
  · show (defaults b).strings.overriddenBy _ = _
    rw [renderedPairs_eq, settings, if_pos (carriesStrings_iff.mpr hstrings), ← List.singleton_append,
      ← List.append_assoc]
    exact overriddenBy_spelled hwords _

/-- What is rendered was passed on or is a setting. -/
theorem mem_renderedPairs (h : pair ∈ (declared type optimise found).renderedPairs type) :
    (pair ∈ found ∧ passedOn type pair = true) ∨ IsSetting pair := by
  rw [renderedPairs_eq] at h
  rcases List.mem_append.mp h with h | h
  · exact Or.inl (List.mem_filter.mp h)
  · exact Or.inr (isSetting_of_mem (inWords_declared type optimise found) h)

theorem plain_renderedPairs (hfound : pairs text = .ok found) (type : DataType) (optimise : Bool) :
    ∀ pair ∈ (declared type optimise found).renderedPairs type, Plain pair := by
  intro pair hpair
  rcases mem_renderedPairs hpair with ⟨hmem, -⟩ | hsetting
  · exact plain_of_mem_pairs hfound hmem
  · exact hsetting.plain

theorem readable_renderedPairs (h : Readable found) :
    Readable ((declared type optimise found).renderedPairs type) := by
  refine ⟨fun pair hpair => ?_, fun value hvalue => ?_⟩
  · rcases mem_renderedPairs hpair with ⟨hmem, -⟩ | hsetting
    · exact h.accepted pair hmem
    · exact hsetting.accepted
  · -- merging is not among the settings
    rw [last?_renderedPairs (by decide) (by decide), last?_settings] at hvalue
    · cases hvalue
    · rintro pair hpair heq
      exact hpair.mem_optionKeys.2.2 (heq ▸ by decide)

/-- The keys of a rendering are those of its pairs. -/
theorem keys_render (hplain : ∀ pair ∈ attrs.renderedPairs type, Plain pair) :
    (segments (attrs.render type)).map keyOf = "" :: (attrs.renderedPairs type).map Prod.fst := by
  rw [segments_render hplain, List.map_cons, List.map_map]
  exact congrArg _ (List.map_congr_left fun pair hpair => (hplain pair hpair).spells.keyOf_eq)

theorem notMem_readerKeys (h : pair ∈ (declared type optimise found).renderedPairs type) :
    pair.1 ∉ readerKeys := by
  have hreader : ∀ key ∈ readerKeys, key ∈ optionKeys ∧ key ≠ "str_max_capacity" := by decide
  intro hkey
  rcases mem_renderedPairs h with ⟨-, hpass⟩ | hsetting
  · rw [passedOn_eq_false (hreader _ hkey).1 (hreader _ hkey).2] at hpass
    cases hpass
  · exact hsetting.mem_optionKeys.2.2 hkey

/-- **Renderings are normal forms** of all options that are read. -/
theorem normalForm_of_parse (h : parse text type = .ok attrs) :
    ∃ found, pairs text = .ok found ∧ attrs.NormalForm type found := by
  obtain ⟨found, hfound, hreadable, rfl⟩ := parse_eq_ok_iff.mp h
  have hplain := plain_renderedPairs hfound type (flagOf "optimise" found false)
  have hagain := sentAlike_declared type (flagOf "optimise" found false)
  refine ⟨found, hfound, fun segment hsegment hkey => ?_, ?_, ?_⟩
  · have hmem := List.mem_map_of_mem (f := keyOf) hsegment
    rw [keys_render hplain] at hmem
    rcases List.mem_cons.mp hmem with hempty | hmem
    · rw [hempty] at hkey
      exact absurd hkey (by decide)
    · obtain ⟨pair, hpair, heq⟩ := List.mem_map.mp hmem
      exact notMem_readerKeys hpair (heq ▸ hkey)
  · rw [segments_render hplain, renderedPairs_eq]
    rfl
  · refine ⟨_, parse_eq_ok_iff.mpr ⟨_, pairs_render hplain, ?_, rfl⟩, hagain _ found,
      (hagain _ found).render_eq⟩
    exact readable_renderedPairs hreadable

/-- The options of a recipe name, with a pair of the library, blanks, a sign and a size of more than
32 bits. -/
def recipeOptions : String :=
  " &debug= a=b & optimise=1&str_max_capacity=+08&str_count_word_bytes=4294967300&allow_packing=0 "

def recipeAttributes : Attributes where
  allowPacking := false
  strings := ⟨true, true, false, 4, 0⟩
  maxCapacity := some 8
  readSize := none
  readAsString := false
  optimise := true
  passthrough := [("debug", "a=b"), ("str_max_capacity", "+08")]

theorem normalForm_of_parse_recipeOptions :
    parse recipeOptions .string = .ok recipeAttributes ∧
      ∃ found, pairs recipeOptions = .ok found ∧ recipeAttributes.NormalForm .string found := by
  have hread : parse recipeOptions .string = .ok recipeAttributes := by with_unfolding_all rfl
  exact ⟨hread, normalForm_of_parse hread⟩

/-! ## Types without strings -/

/-- The key begins like those of the options for strings. -/
def isStringKey (key : String) : Bool :=
  "str_".toList.isPrefixOf key.toList

/-- **No option for strings is sent for a type without strings.** Other keys that begin like theirs
are sent, though: those of the text, in their order. -/
theorem stringKeys_of_parse (hstring : type ≠ .string) (hudt : type ≠ .udt)
    (h : parse text type = .ok attrs) : ∃ found, pairs text = .ok found ∧
      ((segments (attrs.render type)).map keyOf).filter isStringKey =
        (found.map Prod.fst).filter fun key => isStringKey key && !optionKeys.contains key := by
  obtain ⟨found, hfound, -, rfl⟩ := parse_eq_ok_iff.mp h
  have hplain := plain_renderedPairs hfound type (flagOf "optimise" found false)
  have hstrings : type.carriesStrings = false := by
    rw [← Bool.not_eq_true, carriesStrings_iff]
    rintro (heq | heq)
    · exact hstring heq
    · exact hudt heq
  have hpassed : ∀ pair : String × String,
      passedOn type pair = !optionKeys.contains pair.1 := by
    intro pair
    rw [passedOn, hstrings, Bool.and_false, Bool.or_false]
  have hsettings : ((declared type (flagOf "optimise" found false) found).settings type).map
      Prod.fst = ["allow_packing"] := by
    rw [settings, hstrings]
    rfl
  have hpacking : ["allow_packing"].filter isStringKey = [] := by decide
  refine ⟨found, hfound, ?_⟩
  rw [keys_render hplain, renderedPairs_eq, List.map_append, hsettings,
    List.filter_cons_of_neg (by decide), List.filter_append, hpacking, List.append_nil]
  show List.filter isStringKey ((found.filter (passedOn type)).map Prod.fst) = _
  rw [List.filter_map, List.filter_map, List.filter_filter]
  exact congrArg _ (List.filter_congr fun pair _ => by rw [hpassed]; rfl)

/-- An option of the library that is no option here. -/
def swappedOptions : String :=
  "str_is_byte_swapped=1&str_is_counted=0"

def swappedAttributes : Attributes where
  allowPacking := true
  strings := ⟨false, false, false, 2, 0⟩
  maxCapacity := none
  readSize := none
  readAsString := false
  optimise := false
  passthrough := [("str_is_byte_swapped", "1")]

theorem parse_swappedOptions : parse swappedOptions .dint = .ok swappedAttributes := by
  with_unfolding_all rfl

theorem stringKeys_of_parse_swappedOptions :
    parse swappedOptions .dint = .ok swappedAttributes ∧
      ∃ found, pairs swappedOptions = .ok found ∧
        ((segments (swappedAttributes.render .dint)).map keyOf).filter isStringKey =
          (found.map Prod.fst).filter fun key => isStringKey key && !optionKeys.contains key :=
  ⟨parse_swappedOptions, stringKeys_of_parse (by decide) (by decide) parse_swappedOptions⟩

/-- **A key that begins like those of the options for strings** can reach a number. -/
theorem not_forall_isStringKey_eq_false : ¬ ∀ (text : String) (type : DataType)
    (attrs : Attributes), type ≠ .string → type ≠ .udt → parse text type = .ok attrs →
      ∀ segment ∈ segments (attrs.render type), isStringKey (keyOf segment) = false := by
  intro h
  have hdropped := h swappedOptions .dint swappedAttributes (by decide) (by decide)
    parse_swappedOptions "str_is_byte_swapped=1".toList (by with_unfolding_all decide)
  exact absurd hdropped (by decide)

end Attributes

end PlcTags

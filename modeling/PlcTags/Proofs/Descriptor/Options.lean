import Mathlib.Data.List.Induction
import PlcTags.Descriptor.Attributes
import PlcTags.Proofs.Outcome

/-!
# What options say

A text of options is read pair by pair. Told without the order of reading: each option has the value
that the last pair with its key gives it, an option without a pair has its default, and the pairs
that are not options of the reader are passed on in their order.

* `Attributes.flagOf`, `Attributes.countOf`: the flag and the count that the pairs give a key.
* `Attributes.Accepted`: the pairs that are not refused.
* `Attributes.declared`: the options that pairs declare.
* `Attributes.parse_eq_ok_iff`: what is read is what the pairs of the text declare.
-/

namespace PlcTags

open PlcTags.Text

/-! ## Keys -/

namespace Attributes

/-- The keys that steer how a value is read. -/
def readerKeys : List String :=
  ["offset_read_size", "read_as_string", "optimise"]

/-- The keys that are options. -/
def optionKeys : List String :=
  ["offset_read_size", "read_as_string", "optimise", "allow_packing", "str_is_zero_terminated",
    "str_is_fixed_length", "str_is_counted", "str_count_word_bytes", "str_pad_to_multiple_bytes",
    "str_max_capacity"]

/-- Is a pair passed on? A pair with a key that is no option, and a string capacity of a type with
strings. -/
def passedOn (type : DataType) (pair : String × String) : Bool :=
  !optionKeys.contains pair.1 || pair.1 == "str_max_capacity" && type.carriesStrings

/-- Options are not passed on, but for a string capacity. -/
theorem passedOn_eq_false {pair : String × String} (hoption : pair.1 ∈ optionKeys)
    (hne : pair.1 ≠ "str_max_capacity") (type : DataType) : passedOn type pair = false := by
  simp [passedOn, hoption, hne]

/-- The keys whose values are flags, apart from the one of merging. -/
def flagKeys : List String :=
  ["read_as_string", "allow_packing", "str_is_zero_terminated", "str_is_fixed_length",
    "str_is_counted"]

/-- The keys whose values are counts. -/
def countKeys : List String :=
  ["offset_read_size", "str_max_capacity", "str_count_word_bytes", "str_pad_to_multiple_bytes"]

/-! ## Values -/

/-- The value of the last pair with a key. -/
def last? (key : String) (found : List (String × String)) : Option String :=
  (found.reverse.find? fun pair => pair.1 == key).map Prod.snd

/-- The flag of a key, or a default. -/
def flagOf (key : String) (found : List (String × String)) (default : Bool) : Bool :=
  (last? key found).elim default (· == "1")

/-- The count of a key. -/
def countOf (key : String) (found : List (String × String)) : Option Nat :=
  (last? key found).bind fun value => unsigned? wordLimit value.toList

variable {key value : String} {found : List (String × String)} {pair : String × String}
  {type : DataType} {optimise b : Bool} {attrs : Attributes}

/-- The last pairs count. -/
theorem last?_append (key : String) (found more : List (String × String)) :
    last? key (found ++ more) = (last? key more).or (last? key found) := by
  unfold last?
  rw [List.reverse_append, List.find?_append]
  cases more.reverse.find? fun pair => pair.1 == key <;> rfl

theorem last?_singleton (key : String) (pair : String × String) :
    last? key [pair] = if pair.1 = key then some pair.2 else none := by
  by_cases heq : pair.1 = key <;> simp [last?, heq]

theorem last?_eq_none_iff : last? key found = none ↔ ∀ pair ∈ found, pair.1 ≠ key := by
  unfold last?
  rw [Option.map_eq_none_iff, List.find?_eq_none]
  simp

theorem mem_of_last? (h : last? key found = some value) : (key, value) ∈ found := by
  obtain ⟨⟨other, _⟩, hfound, rfl⟩ := Option.map_eq_some_iff.mp h
  have hkey : other = key := by simpa using List.find?_some hfound
  exact hkey ▸ List.mem_reverse.mp (List.mem_of_find?_eq_some hfound)

/-- Pairs that are left out under other keys do not count. -/
theorem last?_filter {p : String × String → Bool} (h : ∀ value, p (key, value) = true) :
    last? key (found.filter p) = last? key found := by
  have hsame : (fun pair : String × String => decide (p pair = true ∧ (pair.1 == key) = true)) =
      fun pair => pair.1 == key := by
    funext ⟨other, value⟩
    by_cases heq : other = key
    · simp [heq, h]
    · simp [heq]
  unfold last?
  rw [← List.filter_reverse, List.find?_filter, hsame]

@[simp]
theorem flagOf_append (key : String) (found : List (String × String)) (pair : String × String)
    (default : Bool) : flagOf key (found ++ [pair]) default =
      if pair.1 = key then pair.2 == "1" else flagOf key found default := by
  unfold flagOf
  rw [last?_append, last?_singleton]
  split <;> rfl

@[simp]
theorem countOf_append (key : String) (found : List (String × String)) (pair : String × String) :
    countOf key (found ++ [pair]) =
      if pair.1 = key then unsigned? wordLimit pair.2.toList else countOf key found := by
  unfold countOf
  rw [last?_append, last?_singleton]
  split <;> rfl

/-- A flag is spelled. -/
def IsFlag (value : String) : Prop :=
  value = "0" ∨ value = "1"

theorem flag?_eq_ok_iff : flag? key value = .ok b ↔ IsFlag value ∧ b = (value == "1") := by
  unfold flag? IsFlag
  split
  · next hzero => simp [hzero, eq_comm]
  · split
    · next hone => simp [hone, eq_comm]
    · next hzero hone => simp [hzero, hone]

theorem count?_eq_ok_iff {n : Nat} :
    count? key value = .ok n ↔ unsigned? wordLimit value.toList = some n := by
  unfold count?
  split
  · next count hcount => rw [hcount, Except.ok.injEq, Option.some.injEq]
  · next hcount => simp [hcount]

/-- **A pair is accepted** if its value is of the kind of its key. -/
structure Accepted (pair : String × String) : Prop where
  flag : pair.1 ∈ flagKeys → IsFlag pair.2
  count : pair.1 ∈ countKeys → (unsigned? wordLimit pair.2.toList).isSome

end Attributes

/-! ## What pairs declare -/

open Attributes (flagOf countOf low32)

/-- **Explicit options override** how strings lie without them. -/
def StringConventions.overriddenBy (base : StringConventions) (found : List (String × String)) :
    StringConventions where
  zeroTerminated := flagOf "str_is_zero_terminated" found base.zeroTerminated
  fixedLength := flagOf "str_is_fixed_length" found base.fixedLength
  counted := flagOf "str_is_counted" found base.counted
  countWordBytes :=
    ((countOf "str_count_word_bytes" found).map low32).getD base.countWordBytes
  padToMultipleBytes :=
    ((countOf "str_pad_to_multiple_bytes" found).map low32).getD base.padToMultipleBytes

namespace Attributes

variable {key value : String} {found : List (String × String)} {pair : String × String}
  {type : DataType} {optimise b : Bool} {attrs : Attributes}

/-- **The options that pairs declare** for a type, where it is known whether values may be merged. -/
def declared (type : DataType) (optimise : Bool) (found : List (String × String)) :
    Attributes where
  allowPacking := flagOf "allow_packing" found true
  strings := (defaults optimise).strings.overriddenBy found
  maxCapacity := if type.carriesStrings then countOf "str_max_capacity" found else none
  readSize := countOf "offset_read_size" found
  readAsString := type == .time && flagOf "read_as_string" found false
  optimise := optimise
  passthrough := found.filter (passedOn type)

theorem declared_nil (type : DataType) (optimise : Bool) :
    declared type optimise [] = defaults optimise := by
  simp [declared, defaults, StringConventions.overriddenBy, flagOf, countOf, last?]

theorem accepted_iff_of_flag (h : key ∈ flagKeys) : Accepted (key, value) ↔ IsFlag value := by
  have hnot : ∀ key ∈ flagKeys, key ∉ countKeys := by decide
  exact ⟨fun haccepted => haccepted.flag h,
    fun hflag => ⟨fun _ => hflag, fun hcount => absurd hcount (hnot key h)⟩⟩

theorem accepted_iff_of_count (h : key ∈ countKeys) :
    Accepted (key, value) ↔ ∃ n, unsigned? wordLimit value.toList = some n := by
  have hnot : ∀ key ∈ countKeys, key ∉ flagKeys := by decide
  rw [← Option.isSome_iff_exists]
  exact ⟨fun haccepted => haccepted.count h,
    fun hcount => ⟨fun hflag => absurd hflag (hnot key h), fun _ => hcount⟩⟩

theorem accepted_of_notMem (hflag : key ∉ flagKeys) (hcount : key ∉ countKeys) :
    Accepted (key, value) :=
  ⟨fun h => absurd h hflag, fun h => absurd h hcount⟩

/-- A pair whose value is a flag. -/
theorem map_flag?_eq_ok_iff {f : Bool → Attributes} (hkey : key ∈ flagKeys)
    (hf : f (value == "1") = declared type optimise (found ++ [(key, value)])) :
    (flag? key value).map f = .ok attrs ↔
      Accepted (key, value) ∧ attrs = declared type optimise (found ++ [(key, value)]) := by
  rw [map_eq_ok_iff, accepted_iff_of_flag hkey, ← hf]
  constructor
  · rintro ⟨b, hb, rfl⟩
    obtain ⟨hflag, rfl⟩ := flag?_eq_ok_iff.mp hb
    exact ⟨hflag, rfl⟩
  · rintro ⟨hflag, rfl⟩
    exact ⟨_, flag?_eq_ok_iff.mpr ⟨hflag, rfl⟩, rfl⟩

/-- A pair whose value is a count. -/
theorem map_count?_eq_ok_iff {f : Nat → Attributes} (hkey : key ∈ countKeys)
    (hf : ∀ n, unsigned? wordLimit value.toList = some n →
      f n = declared type optimise (found ++ [(key, value)])) :
    (count? key value).map f = .ok attrs ↔
      Accepted (key, value) ∧ attrs = declared type optimise (found ++ [(key, value)]) := by
  rw [map_eq_ok_iff, accepted_iff_of_count hkey]
  constructor
  · rintro ⟨n, hn, rfl⟩
    have hcount := count?_eq_ok_iff.mp hn
    exact ⟨⟨n, hcount⟩, hf n hcount⟩
  · rintro ⟨⟨n, hn⟩, rfl⟩
    exact ⟨n, count?_eq_ok_iff.mpr hn, hf n hn⟩

/-- **One more pair** is accepted or refused whatever comes before it, and then declared. One case
for each key, and one for all others. -/
theorem apply_declared_eq_ok_iff : apply type (declared type optimise found) pair = .ok attrs ↔
    Accepted pair ∧ attrs = declared type optimise (found ++ [pair]) := by
  obtain ⟨key, value⟩ := pair
  unfold apply
  dsimp only
  split
  · -- whether values may be merged is not decided here
    rw [and_iff_right (accepted_of_notMem (by decide) (by decide)), Except.ok.injEq, eq_comm]
    simp [declared, StringConventions.overriddenBy, passedOn, optionKeys]
  · refine map_count?_eq_ok_iff (by decide) fun n hn => ?_
    simp [declared, StringConventions.overriddenBy, passedOn, optionKeys, hn]
  · refine map_flag?_eq_ok_iff (by decide) ?_
    by_cases htime : type = .time <;> cases hflag : value == "1" <;>
      simp [declared, StringConventions.overriddenBy, passedOn, optionKeys, htime, hflag]
  · refine map_flag?_eq_ok_iff (by decide) ?_
    simp [declared, StringConventions.overriddenBy, passedOn, optionKeys]
  · refine map_flag?_eq_ok_iff (by decide) ?_
    simp [declared, StringConventions.overriddenBy, passedOn, optionKeys]
  · refine map_flag?_eq_ok_iff (by decide) ?_
    simp [declared, StringConventions.overriddenBy, passedOn, optionKeys]
  · refine map_flag?_eq_ok_iff (by decide) ?_
    simp [declared, StringConventions.overriddenBy, passedOn, optionKeys]
  · refine map_count?_eq_ok_iff (by decide) fun n hn => ?_
    simp [declared, StringConventions.overriddenBy, passedOn, optionKeys, hn]
  · refine map_count?_eq_ok_iff (by decide) fun n hn => ?_
    simp [declared, StringConventions.overriddenBy, passedOn, optionKeys, hn]
  · refine map_count?_eq_ok_iff (by decide) fun n hn => ?_
    cases hstrings : type.carriesStrings <;>
      simp [declared, StringConventions.overriddenBy, passedOn, optionKeys, hn, hstrings]
  · have hother : key ∉ optionKeys := by
      simp only [optionKeys, List.mem_cons, List.not_mem_nil, or_false, not_or]
      and_intros <;> assumption
    have hflags : ∀ key ∈ flagKeys, key ∈ optionKeys := by decide
    have hcounts : ∀ key ∈ countKeys, key ∈ optionKeys := by decide
    have hpassed : passedOn type (key, value) = true := by simp [passedOn, hother]
    rw [and_iff_right (accepted_of_notMem (fun h => hother (hflags key h))
      fun h => hother (hcounts key h)), Except.ok.injEq, eq_comm]
    simp only [optionKeys, List.mem_cons, List.not_mem_nil, or_false, not_or] at hother
    simp [declared, StringConventions.overriddenBy, hpassed, hother]

/-! ## What is read -/

/-- **Pairs are read one by one**, and then all of them are declared. Induction on the pairs from
the last one. -/
theorem foldlM_apply_eq_ok_iff : found.foldlM (apply type) (defaults optimise) = .ok attrs ↔
    (∀ pair ∈ found, Accepted pair) ∧ attrs = declared type optimise found := by
  induction found using List.reverseRecOn generalizing attrs with
  | nil =>
    rw [declared_nil, List.foldlM_nil]
    exact ⟨fun h => ⟨nofun, (Except.ok.inj h).symm⟩, fun h => congrArg _ h.2.symm⟩
  | append_singleton found pair ih =>
    have hone : ∀ before, [pair].foldlM (apply type) before = apply type before pair :=
      fun before => by simp
    rw [List.foldlM_append, bind_eq_ok_iff]
    constructor
    · rintro ⟨before, hbefore, h⟩
      obtain ⟨hfound, rfl⟩ := ih.mp hbefore
      obtain ⟨hpair, hattrs⟩ := apply_declared_eq_ok_iff.mp (hone _ ▸ h)
      exact ⟨List.forall_mem_append.mpr ⟨hfound, List.forall_mem_singleton.mpr hpair⟩, hattrs⟩
    · rintro ⟨haccepted, hattrs⟩
      obtain ⟨hfound, hpair⟩ := List.forall_mem_append.mp haccepted
      refine ⟨_, ih.mpr ⟨hfound, rfl⟩, ?_⟩
      rw [hone]
      exact apply_declared_eq_ok_iff.mpr ⟨hpair pair List.mem_cons_self, hattrs⟩

theorem optimiseFlag_eq_ok_iff : optimiseFlag found = .ok b ↔
    (∀ value, last? "optimise" found = some value → IsFlag value) ∧
      b = flagOf "optimise" found false := by
  unfold optimiseFlag flagOf last?
  cases found.reverse.find? fun pair => pair.1 == "optimise" with
  | none => simp [eq_comm]
  | some pair => simp [flag?_eq_ok_iff]

/-- **Pairs are readable**: each of them is accepted, and the last one on merging has a flag. -/
structure Readable (found : List (String × String)) : Prop where
  accepted : ∀ pair ∈ found, Accepted pair
  optimise : ∀ value, last? "optimise" found = some value → IsFlag value

/-- **What is read** is what the pairs of the text declare, if they are readable. -/
theorem parse_eq_ok_iff {text : String} : parse text type = .ok attrs ↔ ∃ found,
    pairs text = .ok found ∧ Readable found ∧
      attrs = declared type (flagOf "optimise" found false) found := by
  unfold parse
  rw [bind_eq_ok_iff]
  refine exists_congr fun found => and_congr_right fun _ => ?_
  rw [bind_eq_ok_iff]
  constructor
  · rintro ⟨b, hb, h⟩
    obtain ⟨hoptimise, rfl⟩ := optimiseFlag_eq_ok_iff.mp hb
    obtain ⟨haccepted, hattrs⟩ := foldlM_apply_eq_ok_iff.mp h
    exact ⟨⟨haccepted, hoptimise⟩, hattrs⟩
  · rintro ⟨hreadable, hattrs⟩
    exact ⟨_, optimiseFlag_eq_ok_iff.mpr ⟨hreadable.optimise, rfl⟩,
      foldlM_apply_eq_ok_iff.mpr ⟨hreadable.accepted, hattrs⟩⟩

end Attributes

end PlcTags

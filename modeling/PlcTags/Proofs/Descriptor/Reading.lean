import PlcTags.Descriptor.Parser
import PlcTags.Proofs.Outcome
import PlcTags.Proofs.Text.Numeral

/-!
# What a descriptor text declares

The five fields of a descriptor and its poller, each told by what its word looks like, and that
reading a text finds exactly what its words declare (`parse_eq_ok_iff`). What was read is therefore
safe to use (`usable_of_parse`): its poller is known, its index counts from one, its elements fit one
message, and its offset is the one that its text names.

* `TagIndex`, `ElementCount`, `SourceText`: an index, an element count and an offset in a text.
* `Descriptor.DeclaredBy`: a descriptor and the words it is written with.
* `Descriptor.Usable`: what can be relied on.
-/

namespace PlcTags

open PlcTags.Text

theorem DataType.ofKeyword?_eq_some_iff {keyword : String} {type : DataType} :
    DataType.ofKeyword? keyword = some type ↔ keyword = type.keyword := by
  constructor
  · intro h
    unfold DataType.ofKeyword? at h
    split at h <;> cases h <;> rfl
  · rintro rfl
    exact DataType.ofKeyword?_keyword type

/-! ## Tag names -/

/-- **The index of a tag name**: what stands in its first brackets, blanks around it aside. A name
without brackets has none. -/
inductive TagIndex : List Char → Option Nat → Prop
  | plain {tag : List Char} (h : '[' ∉ tag) : TagIndex tag none
  | bracket {before raw after : List Char} {n : Nat} (hbefore : '[' ∉ before) (hraw : ']' ∉ raw)
      (hindex : Signed (trim raw) n) (hpos : 1 ≤ n) :
      TagIndex (before ++ '[' :: (raw ++ ']' :: after)) (some n)

namespace TagIndex

variable {tag : List Char} {index : Option Nat}

theorem isSome_iff (h : TagIndex tag index) : index.isSome = true ↔ '[' ∈ tag := by
  cases h with
  | plain h => exact ⟨nofun, fun hmem => absurd hmem h⟩
  | bracket => exact ⟨fun _ => List.mem_append_right _ List.mem_cons_self, fun _ => rfl⟩

theorem one_le (h : TagIndex tag index) {n : Nat} (hn : index = some n) : 1 ≤ n := by
  cases h with
  | plain => cases hn
  | bracket _ _ _ hpos =>
    cases hn
    exact hpos

end TagIndex

/-- An index is an integer of 64 bits. -/
def IndexFits (index : Option Nat) : Prop :=
  ∀ n : Nat, index = some n → (n : Int) ≤ Number.int64Largest

/-- **The index that is read** is the one of the tag name, if it fits. -/
theorem startIndex?_eq_ok_iff {tag : String} {index : Option Nat} :
    startIndex? tag = .ok index ↔ TagIndex tag.toList index ∧ IndexFits index := by
  constructor
  · intro h
    unfold startIndex? at h
    split at h
    · next hopen =>
      cases h
      exact ⟨.plain (cut?_eq_none_iff.mp hopen), nofun⟩
    · next before opened hopen =>
      obtain ⟨htag, hbefore⟩ := cut?_eq_some_iff.mp hopen
      split at h
      · cases h
      · next raw after hclose =>
        obtain ⟨rfl, hraw⟩ := cut?_eq_some_iff.mp hclose
        split at h
        · next number hnumber =>
          obtain ⟨hsigned, -, hlargest⟩ := signed?_eq_some_iff.mp hnumber
          split_ifs at h with hpos
          obtain ⟨n, rfl⟩ := Int.eq_ofNat_of_zero_le (Int.le_trans Int.one_nonneg hpos)
          cases h
          rw [htag]
          refine ⟨.bracket hbefore hraw hsigned (Int.ofNat_le.mp hpos), ?_⟩
          rintro _ ⟨⟩
          exact hlargest
        · cases h
  · rintro ⟨h, hfits⟩
    unfold startIndex?
    generalize tag.toList = text at h
    cases h with
    | plain h => rw [cut?_eq_none_iff.mpr h]
    | bracket hbefore hraw hsigned hpos =>
      have hnumber := signed?_eq_some_iff.mpr
        ⟨hsigned, by unfold Number.int64Least; omega, hfits _ rfl⟩
      rw [cut?_eq_some_iff.mpr ⟨rfl, hbefore⟩]
      dsimp only
      rw [cut?_eq_some_iff.mpr ⟨rfl, hraw⟩]
      dsimp only
      rw [hnumber]
      exact if_pos (Int.ofNat_le.mpr hpos)

/-! ## Element counts -/

/-- **Several elements** can be read as one value: the tag is indexed, the type allows it, and one
message carries them. -/
structure Sliceable (indexed : Bool) (type : DataType) (count : Nat) : Prop where
  indexed : indexed = true
  allowed : type ≠ .string ∧ type ≠ .lint ∧ type ≠ .ulint
  fits : count * type.width?.getD 1 ≤ messageCapacity

/-- **The element count that a word gives.** Zero elements are one. -/
inductive ElementCount (indexed : Bool) (type : DataType) : String → Nat → Prop
  | unspecified : ElementCount indexed type "none" 1
  | single {raw : String} {n : Nat} (h : Signed raw.toList n) (hle : n ≤ 1) :
      ElementCount indexed type raw 1
  | several {raw : String} {n : Nat} (h : Signed raw.toList n) (hlt : 1 < n)
      (hslice : Sliceable indexed type n) : ElementCount indexed type raw n

namespace ElementCount

variable {indexed : Bool} {type : DataType} {raw : String} {count : Nat}

theorem one_le (h : ElementCount indexed type raw count) : 1 ≤ count := by
  cases h with
  | unspecified => exact Nat.le_refl 1
  | single => exact Nat.le_refl 1
  | several _ hlt => exact hlt.le

theorem sliceable (h : ElementCount indexed type raw count) (hlt : 1 < count) :
    Sliceable indexed type count := by
  cases h with
  | unspecified => exact absurd hlt (Nat.lt_irrefl 1)
  | single => exact absurd hlt (Nat.lt_irrefl 1)
  | several _ _ hslice => exact hslice

end ElementCount

theorem DataType.supportsSlices_iff {type : DataType} :
    type.supportsSlices = true ↔ type ≠ .string ∧ type ≠ .lint ∧ type ≠ .ulint := by
  cases type <;> decide

theorem DataType.width_pos (type : DataType) : 0 < type.width?.getD 1 := by
  cases type <;> decide

theorem le_sliceLimit_iff {type : DataType} {count : Nat} :
    count ≤ sliceLimit type ↔ count * type.width?.getD 1 ≤ messageCapacity :=
  Nat.le_div_iff_mul_le type.width_pos

theorem Sliceable.count_le {indexed : Bool} {type : DataType} {count : Nat}
    (h : Sliceable indexed type count) : count ≤ messageCapacity :=
  (Nat.le_mul_of_pos_right count type.width_pos).trans h.fits

theorem signed?_none : signed? "none".toList = none := by
  decide

/-- What becomes of a number of elements. -/
theorem sliceCount_eq_of_signed? {raw : String} {indexed : Bool} {type : DataType} {n : Nat}
    (h : signed? raw.toList = some (n : Int)) : sliceCount raw indexed type =
      if n ≤ 1 then .ok 1
      else if !indexed then .error (.sliceWithoutIndex n)
      else if !type.supportsSlices then .error (.sliceNotSupported type n)
      else if sliceLimit type < n then .error (.sliceTooLarge type n (sliceLimit type))
      else .ok n := by
  have hne : raw ≠ "none" := by
    rintro rfl
    rw [signed?_none] at h
    cases h
  unfold sliceCount
  rw [if_neg hne, h, Option.filter_some_pos (by simp)]
  rfl

/-- **The count that is read** is the one that its word gives. -/
theorem sliceCount_eq_ok_iff {raw : String} {indexed : Bool} {type : DataType} {count : Nat} :
    sliceCount raw indexed type = .ok count ↔ ElementCount indexed type raw count := by
  constructor
  · intro h
    by_cases hnone : raw = "none"
    · subst hnone
      rw [sliceCount, if_pos rfl] at h
      cases h
      exact .unspecified
    · cases hnumber : (signed? raw.toList).filter (0 ≤ ·) with
      | none =>
        rw [sliceCount, if_neg hnone, hnumber] at h
        cases h
      | some number =>
        obtain ⟨hread, hpos⟩ := Option.filter_eq_some_iff.mp hnumber
        obtain ⟨n, rfl⟩ := Int.eq_ofNat_of_zero_le (of_decide_eq_true hpos)
        have hsigned := (signed?_eq_some_iff.mp hread).1
        rw [sliceCount_eq_of_signed? hread] at h
        split_ifs at h with hle hindexed hallowed hfits
        · cases h
          exact .single hsigned hle
        · cases h
          simp only [Bool.not_eq_true', Bool.not_eq_false] at hindexed hallowed
          exact .several hsigned (Nat.lt_of_not_le hle)
            ⟨hindexed, DataType.supportsSlices_iff.mp hallowed,
              le_sliceLimit_iff.mp (Nat.le_of_not_lt hfits)⟩
  · intro h
    cases h with
    | unspecified => rfl
    | @single raw n hsigned hle =>
      have hread := signed?_eq_some_iff.mpr ⟨hsigned, by
        unfold Number.int64Least Number.int64Largest; omega⟩
      rw [sliceCount_eq_of_signed? hread, if_pos hle]
    | several hsigned hlt hslice =>
      have hsmall : count ≤ 1994 := hslice.count_le
      have hread := signed?_eq_some_iff.mpr ⟨hsigned, by
        unfold Number.int64Least Number.int64Largest; omega⟩
      rw [sliceCount_eq_of_signed? hread, if_neg (Nat.not_le_of_lt hlt), hslice.indexed,
        DataType.supportsSlices_iff.mpr hslice.allowed,
        if_neg (Nat.not_lt_of_le (le_sliceLimit_iff.mpr hslice.fits))]
      rfl

/-! ## Offsets -/

/-- **Indices in brackets**, one after the other, each a number of 64 bits. -/
inductive IndexGroups : List Char → List Nat → Prop
  | nil : IndexGroups [] []
  | cons {digits text : List Char} {n : Nat} {path : List Nat} (hindex : Unsigned digits n)
      (hlt : n < wordLimit) (h : IndexGroups text path) :
      IndexGroups ('[' :: (digits ++ ']' :: text)) (n :: path)

/-- **The source that a word gives**: nothing, a byte, or the path of a leaf after the name of its
structure. -/
inductive SourceText : String → OffsetSource → Prop
  | unspecified : SourceText "none" .unspecified
  | literal {raw : String} {n : Nat} (h : Unsigned raw.toList n) (hlt : n < halfWordLimit) :
      SourceText raw (.literal n)
  | leaf {raw name : String} {groups : List Char} {path : List Nat}
      (hraw : raw.toList = name.toList ++ groups) (hname : name ≠ "")
      (hmarks : '[' ∉ name.toList ∧ ']' ∉ name.toList)
      (hstart : OffsetSource.startsNumeral name.toList = false) (hgroups : IndexGroups groups path)
      (hpath : path ≠ []) : SourceText raw (.leaf name path)

namespace OffsetSource

theorem indices_of_cut? {opened digits rest : List Char} {index : Nat}
    (hcut : cut? ']' opened = some (digits, rest))
    (hindex : unsigned? wordLimit digits = some index) :
    indices ('[' :: opened) = (indices rest).map (index :: ·) := by
  rw [indices]
  split
  · next hnone =>
    rw [hcut] at hnone
    cases hnone
  · next hsome =>
    rw [hcut] at hsome
    cases hsome
    rw [hindex]

theorem indices_eq_ok_iff {text : List Char} {path : List Nat} :
    indices text = .ok path ↔ IndexGroups text path := by
  constructor
  · intro h
    induction text using indices.induct generalizing path with
    | case1 =>
      rw [indices] at h
      cases h
      exact .nil
    | case4 opened digits rest hcut index hindex ih =>
      rw [indices_of_cut? hcut hindex] at h
      obtain ⟨tail, htail, rfl⟩ := map_eq_ok_iff.mp h
      obtain ⟨rfl, -⟩ := cut?_eq_some_iff.mp hcut
      obtain ⟨hdigits, hlt⟩ := unsigned?_eq_some_iff.mp hindex
      exact .cons hdigits hlt (ih htail)
    | case2 opened hcut =>
      rw [indices] at h
      split at h
      · cases h
      · next hsome => rw [hcut] at hsome; cases hsome
    | case3 opened digits rest hcut hindex =>
      rw [indices] at h
      split at h
      · cases h
      · next hsome =>
        rw [hcut] at hsome
        cases hsome
        rw [hindex] at h
        cases h
    | case5 text hnil hopen =>
      rw [indices] at h
      · cases h
      · exact hnil
      · exact hopen
  · intro h
    induction h with
    | nil => rw [indices]
    | @cons digits text n path hindex hlt _ ih =>
      have hcut : cut? ']' (digits ++ ']' :: text) = some (digits, text) :=
        cut?_eq_some_iff.mpr ⟨rfl, hindex.notMem (by decide) (by decide)⟩
      rw [indices_of_cut? hcut (unsigned?_eq_some_iff.mpr ⟨hindex, hlt⟩), ih]
      rfl

theorem parseLeaf_eq_ok_iff {text : List Char} {source : OffsetSource} :
    parseLeaf text = .ok source ↔ ∃ (name : String) (groups : List Char) (path : List Nat),
      source = .leaf name path ∧ text = name.toList ++ groups ∧ name ≠ "" ∧
        ('[' ∉ name.toList ∧ ']' ∉ name.toList) ∧ IndexGroups groups path ∧ path ≠ [] := by
  constructor
  · intro h
    unfold parseLeaf at h
    split at h
    · cases h
    · next name rest hcut =>
      obtain ⟨rfl, hopen⟩ := cut?_eq_some_iff.mp hcut
      split_ifs at h with hbad
      obtain ⟨path, hpath, rfl⟩ := map_eq_ok_iff.mp h
      simp only [Bool.or_eq_true, List.isEmpty_iff, List.contains_iff_mem, not_or] at hbad
      have hgroups := indices_eq_ok_iff.mp hpath
      refine ⟨String.ofList name, '[' :: rest, path, rfl, by rw [String.toList_ofList], ?_, ?_,
        hgroups, ?_⟩
      · rintro hempty
        exact hbad.1 (by rw [← String.toList_ofList (l := name), hempty]; rfl)
      · rw [String.toList_ofList]
        exact ⟨hopen, hbad.2⟩
      · rintro rfl
        cases hgroups
  · rintro ⟨name, groups, path, rfl, rfl, hname, ⟨hopen, hclose⟩, hgroups, hpath⟩
    have hindices := indices_eq_ok_iff.mpr hgroups
    cases hgroups with
    | nil => exact absurd rfl hpath
    | cons =>
      unfold parseLeaf
      rw [cut?_eq_some_iff.mpr ⟨rfl, hopen⟩]
      dsimp only
      rw [if_neg, hindices]
      · exact congrArg (fun name => Except.ok (OffsetSource.leaf name _)) String.ofList_toList
      · simp only [Bool.or_eq_true, List.isEmpty_iff, List.contains_iff_mem, not_or]
        exact ⟨fun hempty => hname (String.toList_eq_nil_iff.mp hempty), hclose⟩

/-- A text that is read as a literal begins like a number. -/
theorem startsNumeral_of_unsigned {text : List Char} {n : Nat} (h : Unsigned text n) :
    startsNumeral text = true := by
  cases h with
  | plain h =>
    cases text with
    | nil => exact absurd rfl h.nonempty
    | cons c rest =>
      rw [startsNumeral, h.isDigit_of_mem List.mem_cons_self]
      rfl
  | plus => rfl

theorem startsNumeral_append {name : String} (hname : name ≠ "") (groups : List Char) :
    startsNumeral (name.toList ++ groups) = startsNumeral name.toList := by
  cases htext : name.toList with
  | nil => exact absurd (String.toList_eq_nil_iff.mp htext) hname
  | cons => rfl

theorem parse_eq_ok_iff_chars {raw : String} {source : OffsetSource} :
    parse raw = .ok source ↔ parseChars raw.toList = .ok source := by
  unfold parse
  split
  · next found hfound =>
    rw [hfound, Except.ok.injEq, Except.ok.injEq]
  · next fault hfault =>
    rw [hfault]
    exact ⟨nofun, nofun⟩

/-- **The source that is read** is the one that its word gives. -/
theorem parse_eq_ok_iff {raw : String} {source : OffsetSource} :
    parse raw = .ok source ↔ SourceText raw source := by
  rw [parse_eq_ok_iff_chars]
  unfold parseChars
  constructor
  · intro h
    split_ifs at h with hnone hstart
    · cases h
      rw [String.toList_inj.mp hnone]
      exact .unspecified
    · split at h
      · next n hliteral =>
        cases h
        obtain ⟨hunsigned, hlt⟩ := unsigned?_eq_some_iff.mp hliteral
        exact .literal hunsigned hlt
      · cases h
    · obtain ⟨name, groups, path, rfl, hraw, hname, hmarks, hgroups, hpath⟩ :=
        parseLeaf_eq_ok_iff.mp h
      rw [hraw, startsNumeral_append hname] at hstart
      exact .leaf hraw hname hmarks (Bool.eq_false_of_not_eq_true hstart) hgroups hpath
  · intro h
    cases h with
    | unspecified => rfl
    | literal hunsigned hlt =>
      have hstart := startsNumeral_of_unsigned hunsigned
      rw [if_neg, if_pos hstart, unsigned?_eq_some_iff.mpr ⟨hunsigned, hlt⟩]
      intro hnone
      rw [hnone] at hstart
      exact absurd hstart (by decide)
    | leaf hraw hname hmarks hstart hgroups hpath =>
      rw [if_neg, if_neg, parseLeaf_eq_ok_iff]
      · exact ⟨_, _, _, rfl, hraw, hname, hmarks, hgroups, hpath⟩
      · rw [hraw, startsNumeral_append hname, hstart]
        exact Bool.false_ne_true
      · intro hnone
        have hopen : '[' ∈ raw.toList := by
          rw [hraw]
          cases hgroups with
          | nil => exact absurd rfl hpath
          | cons => exact List.mem_append_right _ List.mem_cons_self
        rw [hnone] at hopen
        exact absurd hopen (by decide)

end OffsetSource

/-! ## Whole descriptors -/

namespace Descriptor

/-- **The place of a descriptor** is the one that its source gives: the first byte, the byte that is
told, or where the structures have the leaf, which may be a bit. -/
def Placed (structs : Layout.Table) (d : Descriptor) : Prop :=
  match d.source with
  | .unspecified => d.offset = 0 ∧ d.bitAddressed = false
  | .literal n => n < halfWordLimit ∧ d.offset = n ∧ d.bitAddressed = false
  | .leaf name path => ∃ leaf, structs.resolve name path = .ok leaf ∧
      d.offset = leaf.position ∧ d.bitAddressed = leaf.isBit

theorem placed_iff {structs : Layout.Table} {d : Descriptor} {offset : String}
    (hsource : SourceText offset d.source) : d.Placed structs ↔
      ∃ leaf, d.source.locate structs = .ok leaf ∧ d.offset = leaf.position ∧
        d.bitAddressed = leaf.isBit := by
  unfold Placed OffsetSource.locate
  cases hd : d.source with
  | unspecified =>
    constructor
    · intro h
      exact ⟨.byte 0, rfl, h⟩
    · rintro ⟨_, ⟨⟩, h⟩
      exact h
  | literal n =>
    have hlt : n < halfWordLimit := by
      rw [hd] at hsource
      cases hsource with
      | literal _ hlt => exact hlt
    constructor
    · rintro ⟨-, h⟩
      exact ⟨.byte n, rfl, h⟩
    · rintro ⟨_, ⟨⟩, h⟩
      exact ⟨hlt, h⟩
  | leaf name path =>
    dsimp only
    cases structs.resolve name path with
    | ok found =>
      constructor
      · rintro ⟨_, ⟨⟩, h⟩
        exact ⟨found, rfl, h⟩
      · rintro ⟨_, ⟨⟩, h⟩
        exact ⟨found, rfl, h⟩
    | error cause => exact ⟨(fun ⟨_, h, _⟩ => nomatch h), (fun ⟨_, h, _⟩ => nomatch h)⟩

/-- **The fields of a descriptor** are those that the words for its count, offset and options give
with its tag and its type. -/
structure FieldsFrom (structs : Layout.Table) (d : Descriptor) (count offset options : String) :
    Prop where
  index : TagIndex d.tag.toList d.startIndex
  count : ElementCount d.startIndex.isSome d.type count d.count
  source : SourceText offset d.source
  placed : d.Placed structs
  attributes : Attributes.parse options d.type = .ok d.attributes
  extras : d.extras = d.attributes.render d.type

theorem ofFields_eq_ok_iff {scope : Scope} {poller : Option String}
    {tag keyword count offset options : String} {d : Descriptor} :
    ofFields scope poller tag keyword count offset options = .ok d ↔
      (d.poller = poller ∧ d.tag = tag ∧ d.type.keyword = keyword) ∧
        d.FieldsFrom scope.structs count offset options ∧ IndexFits d.startIndex := by
  constructor
  · intro h
    obtain ⟨index, hindex, h⟩ := bind_eq_ok_iff.mp h
    obtain ⟨type, htype, h⟩ := bind_eq_ok_iff.mp h
    obtain ⟨number, hnumber, h⟩ := bind_eq_ok_iff.mp h
    obtain ⟨source, hsource, h⟩ := bind_eq_ok_iff.mp h
    obtain ⟨place, hplace, h⟩ := bind_eq_ok_iff.mp h
    obtain ⟨attributes, hattributes, h⟩ := bind_eq_ok_iff.mp h
    cases h
    obtain ⟨hindex, hfits⟩ := startIndex?_eq_ok_iff.mp hindex
    have hsource := OffsetSource.parse_eq_ok_iff.mp hsource
    refine ⟨⟨rfl, rfl, ?_⟩, ⟨hindex, sliceCount_eq_ok_iff.mp hnumber, hsource,
      (placed_iff hsource).mpr ⟨place, hplace, rfl, rfl⟩, hattributes, rfl⟩, hfits⟩
    cases hkeyword : DataType.ofKeyword? keyword with
    | none =>
      rw [hkeyword] at htype
      cases htype
    | some found =>
      rw [hkeyword] at htype
      cases htype
      exact (DataType.ofKeyword?_eq_some_iff.mp hkeyword).symm
  · rintro ⟨⟨rfl, rfl, rfl⟩, h, hfits⟩
    obtain ⟨leaf, hleaf, hoffset, hbit⟩ := (placed_iff h.source).mp h.placed
    refine bind_eq_ok_iff.mpr ⟨_, startIndex?_eq_ok_iff.mpr ⟨h.index, hfits⟩, ?_⟩
    refine bind_eq_ok_iff.mpr ⟨d.type, by rw [DataType.ofKeyword?_keyword]; rfl, ?_⟩
    refine bind_eq_ok_iff.mpr ⟨_, sliceCount_eq_ok_iff.mpr h.count, ?_⟩
    refine bind_eq_ok_iff.mpr ⟨_, OffsetSource.parse_eq_ok_iff.mpr h.source, ?_⟩
    refine bind_eq_ok_iff.mpr ⟨leaf, hleaf, ?_⟩
    refine bind_eq_ok_iff.mpr ⟨_, h.attributes, ?_⟩
    rw [← hoffset, ← hbit, ← h.extras]
    rfl

/-- **The poller of a text** is known, and a text without one does not begin with its mark. -/
structure PollerKnown (pollers : List String) (poller : Option String) (tag : String) : Prop where
  known : ∀ name, poller = some name → name ∈ pollers ∧ name ≠ initPoller
  unmarked : poller = none → tag.toList.head? ≠ some '@'

theorem toList_marked (name : String) : ("@" ++ name).toList = '@' :: name.toList := by
  rw [String.toList_append]
  rfl

theorem pollerWord_eq_ok_iff {pollers found fields : List String} {poller : Option String}
    {tag : String} :
    pollerWord pollers found = .ok (poller, tag :: fields) ↔
      found = (poller.map ("@" ++ ·)).toList ++ tag :: fields ∧ PollerKnown pollers poller tag := by
  constructor
  · intro h
    unfold pollerWord at h
    split at h
    · cases h
    · next first rest =>
      split at h
      · next nameChars hfirst =>
        dsimp only at h
        split_ifs at h with hreserved hknown
        cases h
        refine ⟨?_, fun name hname => ?_, nofun⟩
        · have hword : first = "@" ++ String.ofList nameChars := by
            rw [← String.toList_inj, toList_marked, hfirst, String.toList_ofList]
          rw [hword]
          rfl
        · cases hname
          exact ⟨hknown, hreserved⟩
      · next hplain =>
        cases h
        refine ⟨rfl, nofun, fun _ hhead => ?_⟩
        obtain ⟨tail, htail⟩ := List.head?_eq_some_iff.mp hhead
        exact hplain tail htail
  · rintro ⟨rfl, h⟩
    cases poller with
    | none =>
      have hunmarked := h.unmarked rfl
      show pollerWord pollers (tag :: fields) = _
      unfold pollerWord
      split
      · next heq => cases heq
      · next first rest heq =>
        cases heq
        split
        · next tail htail => exact absurd (by rw [htail]; rfl) hunmarked
        · rfl
    | some name =>
      obtain ⟨hknown, hreserved⟩ := h.known name rfl
      show pollerWord pollers (("@" ++ name) :: tag :: fields) = _
      simp only [pollerWord, toList_marked]
      rw [String.ofList_toList, if_neg hreserved, if_pos hknown]

/-- The words of a descriptor: its poller if it names one, its tag and type, and what is written for
the rest. -/
def wordsWith (d : Descriptor) (count offset options : String) : List String :=
  (d.poller.map ("@" ++ ·)).toList ++ [d.tag, d.type.keyword, count, offset, options]

/-- **A descriptor is declared** by its words against the known pollers and structures. -/
structure DeclaredBy (scope : Scope) (d : Descriptor) (count offset options : String) : Prop where
  poller : PollerKnown scope.pollers d.poller d.tag
  fields : d.FieldsFrom scope.structs count offset options

/-- **What is read** is what the words declare, if the index of the tag fits. -/
theorem parse_eq_ok_iff {scope : Scope} {text : String} {d : Descriptor} :
    Descriptor.parse scope text = .ok d ↔ ∃ count offset options,
      words text = .ok (d.wordsWith count offset options) ∧
        d.DeclaredBy scope count offset options ∧ IndexFits d.startIndex := by
  constructor
  · intro h
    obtain ⟨found, hfound, h⟩ := bind_eq_ok_iff.mp h
    obtain ⟨⟨poller, fields⟩, hword, h⟩ := bind_eq_ok_iff.mp h
    dsimp only at h
    split at h
    · next tag keyword count offset options =>
      obtain ⟨⟨rfl, rfl, rfl⟩, hfields, hfits⟩ := ofFields_eq_ok_iff.mp h
      obtain ⟨rfl, hpoller⟩ := pollerWord_eq_ok_iff.mp hword
      exact ⟨count, offset, options, hfound, ⟨hpoller, hfields⟩, hfits⟩
    · cases h
  · rintro ⟨count, offset, options, hfound, ⟨hpoller, hfields⟩, hfits⟩
    refine bind_eq_ok_iff.mpr ⟨_, hfound, ?_⟩
    refine bind_eq_ok_iff.mpr ⟨_, pollerWord_eq_ok_iff.mpr ⟨rfl, hpoller⟩, ?_⟩
    exact ofFields_eq_ok_iff.mpr ⟨⟨rfl, rfl, rfl⟩, hfields, hfits⟩

/-- The poller that is read is known. -/
theorem poller_of_parse {scope : Scope} {text name : String} {d : Descriptor}
    (h : Descriptor.parse scope text = .ok d) (hname : d.poller = some name) :
    name ∈ scope.pollers := by
  obtain ⟨_, _, _, -, ⟨hpoller, -⟩, -⟩ := parse_eq_ok_iff.mp h
  exact (hpoller.known name hname).1

/-- **What can be relied on** in a descriptor whose text has these words for its offset and its
options. -/
structure Usable (scope : Scope) (d : Descriptor) (offset options : String) : Prop where
  poller : ∀ name, d.poller = some name → name ∈ scope.pollers ∧ name ≠ initPoller
  indexed : d.startIndex.isSome = true ↔ '[' ∈ d.tag.toList
  index : ∀ n, d.startIndex = some n → 1 ≤ n
  count : 1 ≤ d.count
  slice : 1 < d.count → Sliceable d.startIndex.isSome d.type d.count
  source : SourceText offset d.source
  placed : d.Placed scope.structs
  attributes : Attributes.parse options d.type = .ok d.attributes
  extras : d.extras = d.attributes.render d.type

/-- **Every descriptor that is read is safe to use.** -/
theorem usable_of_parse {scope : Scope} {text : String} {d : Descriptor}
    (h : Descriptor.parse scope text = .ok d) : ∃ count offset options,
      words text = .ok (d.wordsWith count offset options) ∧ d.Usable scope offset options := by
  obtain ⟨count, offset, options, hwords, ⟨hpoller, hfields⟩, -⟩ := parse_eq_ok_iff.mp h
  refine ⟨count, offset, options, hwords, ?_⟩
  exact {
    poller := hpoller.known
    indexed := hfields.index.isSome_iff
    index := fun _ hn => hfields.index.one_le hn
    count := hfields.count.one_le
    slice := hfields.count.sliceable
    source := hfields.source
    placed := hfields.placed
    attributes := hfields.attributes
    extras := hfields.extras }

/-- One poller, and valves with a state and a flow. -/
def valveScope : Scope where
  pollers := ["fast"]
  structs := Layout.Table.compile ⟨[⟨"Valve", ["INT", "DINT"]⟩], by decide⟩

/-- Ten flows from the third one on. -/
def valveFlows : Descriptor where
  poller := some "fast"
  tag := "main flow[3]"
  startIndex := some 3
  type := .dint
  count := 10
  source := .leaf "Valve" [2]
  offset := 4
  bitAddressed := false
  attributes := { Attributes.defaults false with allowPacking := false }
  extras := "&allow_packing=0"

theorem usable_of_parse_valveFlows :
    Descriptor.parse valveScope "@fast \\main flow[3]\\ DINT 10 Valve[2] allow_packing=0" =
        .ok valveFlows ∧
      ∃ count offset options,
        words "@fast \\main flow[3]\\ DINT 10 Valve[2] allow_packing=0" =
            .ok (valveFlows.wordsWith count offset options) ∧
          valveFlows.Usable valveScope offset options := by
  have hread : Descriptor.parse valveScope
      "@fast \\main flow[3]\\ DINT 10 Valve[2] allow_packing=0" = .ok valveFlows := by
    with_unfolding_all rfl
  exact ⟨hread, usable_of_parse hread⟩

end Descriptor

end PlcTags

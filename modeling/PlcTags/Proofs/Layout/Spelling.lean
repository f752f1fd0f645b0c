import PlcTags.Layout.Member
import PlcTags.Proofs.Outcome
import PlcTags.Proofs.Text.Numeral

/-!
# How members are spelled

The texts that are read as a member are those that spell it: its keyword, `STRING[n]`, its name, or
`ARRAY[low..high] OF element`, with blanks around the whole text, around the numbers, and before and
behind `OF`, where the last may not be missing. Numbers may have a sign and zeros in front, and dates
are times.

* `Primitive.Spells`, `Element.Spells`, `Member.Spells`: the spellings.
* `Element.Valid`, `Member.Valid`: what can be spelled. A capacity is at least one, bounds ascend, all
  numbers fit words, and a name is no keyword and does not begin like a string or an array.
* `arrayParts_eq_ok_iff`, `Element.parse_eq_ok_iff`, `Member.parse_eq_ok_iff`: what is read.
* `Member.parse_exact`: the whole statement, with the text that is written for a member.
-/

namespace PlcTags.Layout

open PlcTags.Text

/-! ## Cuts -/

theorem dropLast?_eq_some_iff {mark : Char} {text before : List Char} :
    dropLast? mark text = some before ↔ text = before ++ [mark] := by
  unfold dropLast?
  constructor
  · intro h
    split at h
    · next c hlast =>
      split_ifs at h with hc
      cases h
      obtain ⟨init, rfl⟩ := List.getLast?_eq_some_iff.mp hlast
      rw [List.dropLast_concat, hc]
    · cases h
  · rintro rfl
    rw [List.getLast?_concat, List.dropLast_concat]
    exact if_pos rfl

theorem eq_append_of_cutAt? {mark text before after : List Char}
    (h : cutAt? mark text = some (before, after)) : text = before ++ (mark ++ after) := by
  induction text generalizing before with
  | nil =>
    unfold cutAt? at h
    split_ifs at h with hempty
    cases h
    rw [List.isEmpty_iff.mp hempty]
    rfl
  | cons c rest ih =>
    unfold cutAt? at h
    split at h
    · next found hprefix =>
      cases h
      exact (List.isPrefixOf?_eq_some_iff_append_eq.mp hprefix).symm
    · obtain ⟨⟨init, found⟩, hrest, heq⟩ := Option.map_eq_some_iff.mp h
      cases heq
      rw [ih hrest, List.cons_append]

/-- A mark is found behind characters that are not its first one. -/
theorem cutAt?_append {c : Char} {before : List Char} (h : c ∉ before) (mark after : List Char) :
    cutAt? (c :: mark) (before ++ (c :: mark ++ after)) = some (before, after) := by
  induction before with
  | nil =>
    have hprefix : (c :: mark).isPrefixOf? (c :: (mark ++ after)) = some after :=
      List.isPrefixOf?_eq_some_iff_append_eq.mpr rfl
    show cutAt? (c :: mark) (c :: (mark ++ after)) = _
    rw [cutAt?, hprefix]
  | cons d rest ih =>
    obtain ⟨hd, hrest⟩ := not_or.mp (List.mem_cons.not.mp h)
    have hprefix : (c :: mark).isPrefixOf? (d :: (rest ++ (c :: mark ++ after))) = none := by
      rw [List.isPrefixOf?, if_neg (by simpa using hd)]
    rw [List.cons_append, cutAt?, hprefix, ih hrest]
    rfl

/-! ## Primitives -/

namespace Primitive

/-- **A text spells a primitive.** -/
inductive Spells : Primitive → List Char → Prop
  | keyword {kind : Primitive} (h : ∀ capacity, kind ≠ .string capacity) :
      Spells kind kind.keyword.toList
  | date : Spells .time "DATE_AND_TIME".toList
  | string {number : List Char} {capacity : Nat} (h : Numeral number capacity) :
      Spells (.string capacity) ("STRING[".toList ++ (number ++ [']']))

/-- A capacity is at least one, and fits a word. -/
def Valid : Primitive → Prop
  | .string capacity => 1 ≤ capacity ∧ capacity < wordLimit
  | _ => True

variable {kind : Primitive} {text : List Char}

theorem ofKeyword?_eq_some_iff {text : String} : ofKeyword? text = some kind ↔
    (∀ capacity, kind ≠ .string capacity) ∧
      (text = kind.keyword ∨ kind = .time ∧ text = "DATE_AND_TIME") := by
  constructor
  · intro h
    unfold ofKeyword? at h
    split at h <;> cases h <;> exact ⟨nofun, by decide⟩
  · rintro ⟨hkind, rfl | ⟨rfl, rfl⟩⟩
    · exact ofKeyword?_keyword hkind
    · rfl

/-- No keyword begins like a string or an array, or with a blank. -/
theorem keyword_plain (h : ∀ capacity, kind ≠ .string capacity) :
    ¬ "STRING".toList <+: kind.keyword.toList ∧ ¬ "ARRAY".toList <+: kind.keyword.toList ∧
      trim kind.keyword.toList = kind.keyword.toList := by
  cases kind with
  | string capacity => exact absurd rfl (h capacity)
  | _ => decide

/-- What begins like a string is no keyword. -/
theorem ofKeyword?_of_string (h : "STRING".toList <+: text) :
    ofKeyword? (String.ofList text) = none := by
  refine Option.eq_none_iff_forall_ne_some.mpr fun kind hkind => ?_
  have htext : (String.ofList text).toList = text := String.toList_ofList
  obtain ⟨hfixed, hkeyword | ⟨-, hdate⟩⟩ := ofKeyword?_eq_some_iff.mp hkind
  · rw [← htext, hkeyword] at h
    exact (keyword_plain hfixed).1 h
  · rw [← htext, hdate] at h
    exact absurd h (by decide)

/-- The text of a primitive spells it. -/
theorem spells_keyword (kind : Primitive) : kind.Spells kind.keyword.toList := by
  cases kind with
  | string capacity =>
    have htext : (Primitive.string capacity).keyword.toList =
        "STRING[".toList ++ ((toString capacity).toList ++ [']']) := by
      rw [keyword, String.toList_append, String.toList_append, List.append_assoc]
      rfl
    rw [htext]
    exact .string (numeral_toString capacity)
  | _ => exact .keyword nofun

namespace Spells

theorem not_array (h : kind.Spells text) : ¬ "ARRAY".toList <+: text := by
  cases h with
  | keyword hfixed => exact (keyword_plain hfixed).2.1
  | date => decide
  | string =>
    intro hprefix
    rw [List.prefix_iff_eq_take] at hprefix
    cases hprefix

theorem ne_nil (h : kind.Spells text) : text ≠ [] := by
  cases h with
  | keyword hfixed =>
    cases kind with
    | string capacity => exact absurd rfl (hfixed capacity)
    | _ => decide
  | date => decide
  | string => exact List.cons_ne_nil _ _

theorem trim_eq (h : kind.Spells text) : trim text = text := by
  cases h with
  | keyword hfixed => exact (keyword_plain hfixed).2.2
  | date => decide
  | @string number _ _ =>
    refine trim_eq_self (fun c hc => ?_) fun c hc => ?_
    · obtain rfl : 'S' = c := Option.some.inj hc
      decide
    · rw [← List.append_assoc, List.getLast?_concat] at hc
      obtain rfl : ']' = c := Option.some.inj hc
      decide

end Spells

end Primitive

theorem stringCapacity?_eq_some_iff {text : List Char} {capacity : Nat} :
    stringCapacity? text = some capacity ↔ (1 ≤ capacity ∧ capacity < wordLimit) ∧
      ∃ number, Numeral number capacity ∧ text = "STRING[".toList ++ (number ++ [']']) := by
  unfold stringCapacity?
  simp only [bind, Option.bind_eq_some_iff, Option.filter_eq_some_iff, dropLast?_eq_some_iff,
    unsigned?_trim_eq_some_iff, List.isPrefixOf?_eq_some_iff_append_eq, decide_eq_true_iff]
  constructor
  · rintro ⟨_, rfl, number, rfl, ⟨hnumber, hlt⟩, hpos⟩
    exact ⟨⟨hpos, hlt⟩, number, hnumber, rfl⟩
  · rintro ⟨⟨hpos, hlt⟩, number, hnumber, rfl⟩
    exact ⟨_, rfl, number, rfl, ⟨hnumber, hlt⟩, hpos⟩

/-! ## Elements -/

namespace Element

/-- **A text spells an element.** -/
inductive Spells : Element → List Char → Prop
  | primitive {kind : Primitive} {text : List Char} (h : kind.Spells text) :
      Spells (.primitive kind) text
  | struct (name : String) : Spells (.struct name) name.toList

/-- **The name of a structure**: not empty, without blanks at its ends, no keyword, and not meant as a
string. -/
structure IsName (name : String) : Prop where
  nonempty : name ≠ ""
  trimmed : trim name.toList = name.toList
  unreserved : Primitive.ofKeyword? name = none
  noString : ¬ "STRING".toList <+: name.toList

/-- What can be spelled. -/
def Valid : Element → Prop
  | .primitive kind => kind.Valid
  | .struct name => IsName name

variable {owner : String} {element : Element} {text : List Char}

/-- The text of an element spells it. -/
theorem spells_text (element : Element) : element.Spells element.text.toList := by
  cases element with
  | primitive kind => exact .primitive kind.spells_keyword
  | struct name => exact .struct name

/-- A spelling begins like an array exactly if the text of the element does. -/
theorem Spells.array_iff (h : element.Spells text) {opening : List Char}
    (hopening : "ARRAY".toList <+: opening) :
    opening <+: text ↔ opening <+: element.text.toList := by
  cases h with
  | @primitive kind _ hkind =>
    exact iff_of_false (fun hprefix => hkind.not_array (hopening.trans hprefix))
      fun hprefix => kind.spells_keyword.not_array (hopening.trans hprefix)
  | struct name => exact Iff.rfl

/-- What spells an element that can be spelled is there, without blanks at its ends. -/
theorem Spells.trimmed (h : element.Spells text) (hvalid : element.Valid) :
    text ≠ [] ∧ trim text = text := by
  cases h with
  | primitive hkind => exact ⟨hkind.ne_nil, hkind.trim_eq⟩
  | struct name => exact ⟨fun hempty => hvalid.nonempty (String.toList_eq_nil_iff.mp hempty),
      hvalid.trimmed⟩

/-- **What is read as an element** is what spells it. -/
theorem parse_eq_ok_iff (hne : text ≠ []) (htrim : trim text = text) :
    Element.parse owner text = .ok element ↔ element.Valid ∧ element.Spells text := by
  unfold Element.parse
  constructor
  · intro h
    split at h
    · next kind hkind =>
      cases h
      obtain ⟨hfixed, hkeyword⟩ := Primitive.ofKeyword?_eq_some_iff.mp hkind
      refine ⟨by cases kind <;> first | trivial | exact absurd rfl (hfixed _), .primitive ?_⟩
      rw [← String.toList_ofList (l := text)]
      rcases hkeyword with hkeyword | ⟨rfl, hdate⟩
      · exact hkeyword ▸ .keyword hfixed
      · exact hdate ▸ .date
    · next hnone =>
      split_ifs at h with hstring
      · split at h
        · next capacity hcapacity =>
          cases h
          obtain ⟨hvalid, number, hnumber, rfl⟩ := stringCapacity?_eq_some_iff.mp hcapacity
          exact ⟨hvalid, .primitive (.string hnumber)⟩
        · cases h
      · cases h
        rw [List.isPrefixOf_iff_prefix] at hstring
        have htext : (String.ofList text).toList = text := String.toList_ofList
        refine ⟨⟨?_, ?_, hnone, ?_⟩, ?_⟩
        · exact fun hempty => hne (by rw [← htext, hempty]; rfl)
        · rw [htext, htrim]
        · rwa [htext]
        · have hspells := Spells.struct (String.ofList text)
          rwa [htext] at hspells
  · rintro ⟨hvalid, h⟩
    cases h with
    | struct name =>
      rw [String.ofList_toList, hvalid.unreserved]
      dsimp only
      rw [if_neg]
      rw [List.isPrefixOf_iff_prefix]
      exact hvalid.noString
    | primitive hkind =>
      cases hkind with
      | keyword hfixed =>
        rw [String.ofList_toList, Primitive.ofKeyword?_keyword hfixed]
      | date => rfl
      | @string number capacity hnumber =>
        have hprefix : "STRING".toList <+: "STRING[".toList ++ (number ++ [']']) := ⟨_, rfl⟩
        rw [Primitive.ofKeyword?_of_string hprefix]
        dsimp only
        rw [if_pos (List.isPrefixOf_iff_prefix.mpr hprefix),
          stringCapacity?_eq_some_iff.mpr ⟨hvalid, number, hnumber, rfl⟩]

end Element

/-! ## Arrays -/

/-- **The end of an array text**: `OF` among blanks, and the element. -/
inductive ElementTail (element : List Char) : List Char → Prop
  | mk {gap space : List Char} (hgap : Blank gap) (hspace : Blank space) (hne : space ≠ []) :
      ElementTail element (gap ++ ("OF".toList ++ (space ++ element)))

theorem elementText?_eq_some_iff {tail element : List Char} :
    elementText? tail = some element ↔ element ≠ [] ∧ trim element = element ∧
      ∃ text after, ElementTail element text ∧ Blank after ∧ tail = text ++ after := by
  constructor
  · intro h
    unfold elementText? at h
    simp only [bind, Option.bind_eq_some_iff, List.isPrefixOf?_eq_some_iff_append_eq] at h
    obtain ⟨behind, htail, first, hfirst, h⟩ := h
    split_ifs at h with hblank hempty
    cases h
    obtain ⟨htrim, hpadded⟩ := trim_eq_iff.mp (rfl : trim behind = trim behind)
    rw [List.isEmpty_iff] at hempty
    generalize trim behind = element at htrim hpadded hempty
    obtain @⟨space, after, hspace, hafter⟩ := hpadded
    have hgap : Blank (tail.takeWhile isBlank) := fun c hc => List.mem_takeWhile_imp hc
    have hne : space ≠ [] := by
      rintro rfl
      rw [List.nil_append, List.head?_append_of_ne_nil _ hempty] at hfirst
      exact Bool.false_ne_true ((isBlank_head_of_trim htrim first hfirst).symm.trans hblank)
    refine ⟨hempty, htrim, _, after, .mk hgap hspace hne, hafter, ?_⟩
    calc tail = tail.takeWhile isBlank ++ tail.dropWhile isBlank :=
          List.takeWhile_append_dropWhile.symm
      _ = _ := by rw [← htail]; simp
  · rintro ⟨hempty, htrim, _, after, @⟨gap, space, hgap, hspace, hne⟩, hafter, rfl⟩
    obtain ⟨first, rest, rfl⟩ := List.exists_cons_of_ne_nil hne
    have hdrop : (gap ++ ("OF".toList ++ (first :: rest ++ element)) ++ after).dropWhile isBlank =
        "OF".toList ++ (first :: rest ++ (element ++ after)) := by
      rw [List.append_assoc, List.dropWhile_append_of_pos hgap]
      simp [isBlank]
    have hinner : trim (first :: rest ++ (element ++ after)) = element :=
      trim_eq_iff.mpr ⟨htrim, .mk hspace hafter⟩
    unfold elementText?
    rw [hdrop, List.isPrefixOf?_eq_some_iff_append_eq.mpr rfl]
    show (if isBlank first = true then _ else none) = _
    rw [if_pos (hspace first List.mem_cons_self)]
    rw [hinner, if_neg (by simpa using hempty)]

/-- **An array text behind its opening bracket**: two bounds, and the element behind the closing
one. -/
inductive ArrayText (low high : Nat) (element : List Char) : List Char → Prop
  | mk {lowText highText tail : List Char} (hlow : Numeral lowText low)
      (hhigh : Numeral highText high) (htail : ElementTail element tail) :
      ArrayText low high element (lowText ++ ("..".toList ++ (highText ++ ']' :: tail)))

/-- **What is read as an array** behind its opening bracket. -/
theorem arrayParts_eq_ok_iff {rest element : List Char} {low high : Nat} :
    arrayParts rest = .ok (low, high, element) ↔ (low ≤ high ∧ high < wordLimit) ∧
      (element ≠ [] ∧ trim element = element ∧ ¬ "ARRAY".toList <+: element) ∧
      ∃ text after, ArrayText low high element text ∧ Blank after ∧ rest = text ++ after := by
  unfold arrayParts
  simp only [bind_eq_ok_iff, elim_ok_eq_ok_iff, Prod.exists]
  constructor
  · rintro ⟨bounds, tail, hcut, lowText, highText, hdots, least, hleast, most, hmost, h⟩
    split_ifs at h with hreversed
    obtain ⟨found, hfound, h⟩ := bind_eq_ok_iff.mp h
    split_ifs at h with hnested
    cases h
    rw [elim_ok_eq_ok_iff] at hfound
    rw [List.isPrefixOf_iff_prefix] at hnested
    obtain ⟨rfl, -⟩ := cut?_eq_some_iff.mp hcut
    rw [eq_append_of_cutAt? hdots]
    obtain ⟨hlow, -⟩ := unsigned?_trim_eq_some_iff.mp hleast
    obtain ⟨hhigh, hlt⟩ := unsigned?_trim_eq_some_iff.mp hmost
    obtain ⟨hne, htrim, text, after, htail, hafter, rfl⟩ := elementText?_eq_some_iff.mp hfound
    refine ⟨⟨Nat.le_of_not_lt hreversed, hlt⟩, ⟨hne, htrim, hnested⟩, _, after,
      .mk hlow hhigh htail, hafter, ?_⟩
    simp
  · rintro ⟨⟨hle, hlt⟩, ⟨hne, htrim, hnested⟩, _, after,
      @⟨lowText, highText, tail, hlow, hhigh, htail⟩, hafter, rfl⟩
    have hclose : ']' ∉ lowText ++ ("..".toList ++ highText) := by
      simp only [List.mem_append, not_or]
      exact ⟨hlow.notMem (by decide) (by decide) (by decide), by decide,
        hhigh.notMem (by decide) (by decide) (by decide)⟩
    have hdots : '.' ∉ lowText := hlow.notMem (by decide) (by decide) (by decide)
    refine ⟨lowText ++ ("..".toList ++ highText), tail ++ after, cut?_eq_some_iff.mpr ⟨?_, hclose⟩,
      lowText, highText, cutAt?_append hdots _ _, low,
      unsigned?_trim_eq_some_iff.mpr ⟨hlow, hle.trans_lt hlt⟩, high,
      unsigned?_trim_eq_some_iff.mpr ⟨hhigh, hlt⟩, ?_⟩
    · simp
    · have hfound := elementText?_eq_some_iff.mpr ⟨hne, htrim, tail, after, htail, hafter, rfl⟩
      rw [if_neg hle.not_gt, hfound]
      show (if "ARRAY".toList.isPrefixOf element = true then _ else _) = _
      rw [if_neg]
      rwa [List.isPrefixOf_iff_prefix]

/-! ## Members -/

namespace Member

/-- **A text spells a member**, with any blanks around it. -/
inductive Spells : Member → List Char → Prop
  | single {element : Element} {core text : List Char} (h : element.Spells core)
      (hpadded : Padded core text) : Spells (.single element) text
  | array {low high : Nat} {element : Element} {core rest text : List Char}
      (h : element.Spells core) (hrest : ArrayText low high core rest)
      (hpadded : Padded ("ARRAY[".toList ++ rest) text) : Spells (.array low high element) text

/-- **What can be spelled.** Bounds ascend and fit words, and no element is an array. -/
def Valid : Member → Prop
  | .single element => element.Valid ∧ ¬ "ARRAY[".toList <+: element.text.toList
  | .array low high element => (low ≤ high ∧ high < wordLimit) ∧ element.Valid ∧
      ¬ "ARRAY".toList <+: element.text.toList

variable {owner text : String} {member : Member}

/-- The text of a member spells it. -/
theorem spells_text (member : Member) : member.Spells member.text.toList := by
  cases member with
  | single element => exact .single element.spells_text (.refl _)
  | array low high element =>
    have htext : (Member.array low high element).text.toList = "ARRAY[".toList ++
        ((toString low).toList ++ ("..".toList ++ ((toString high).toList ++
          ']' :: ([' '] ++ ("OF".toList ++ ([' '] ++ element.text.toList)))))) := by
      unfold Member.text
      simp only [String.toList_append, List.append_assoc]
      rfl
    have hspace : Blank [' '] := fun c hc => List.mem_singleton.mp hc ▸ rfl
    rw [htext]
    exact .array element.spells_text (.mk (numeral_toString low) (numeral_toString high)
      (.mk hspace hspace (List.cons_ne_nil _ _))) (.refl _)

/-- What is read of a text without blanks at its ends is spelled by it. -/
theorem spells_of_parseTrimmed {core : List Char} (htrim : trim core = core)
    (h : parseTrimmed owner core = .ok member) : member.Valid ∧ member.Spells core := by
  unfold parseTrimmed at h
  split_ifs at h with hempty
  rw [List.isEmpty_iff] at hempty
  split at h
  · next hsingle =>
    obtain ⟨element, helement, rfl⟩ := map_eq_ok_iff.mp h
    obtain ⟨hvalid, hspells⟩ := (Element.parse_eq_ok_iff hempty htrim).mp helement
    have hopening : "ARRAY".toList <+: "ARRAY[".toList := ⟨['['], rfl⟩
    refine ⟨⟨hvalid, fun harray => ?_⟩, .single hspells (.refl _)⟩
    obtain ⟨rest, hrest⟩ := (hspells.array_iff hopening).mpr harray
    rw [List.isPrefixOf?_eq_some_iff_append_eq.mpr hrest] at hsingle
    cases hsingle
  · next rest hrest =>
    obtain rfl := List.isPrefixOf?_eq_some_iff_append_eq.mp hrest
    split at h
    · cases h
    · next low high chars hparts =>
      obtain ⟨element, helement, rfl⟩ := map_eq_ok_iff.mp h
      obtain ⟨hbounds, ⟨hne, hchars, hnested⟩, text, after, harray, hafter, rfl⟩ :=
        arrayParts_eq_ok_iff.mp hparts
      obtain ⟨hvalid, hspells⟩ := (Element.parse_eq_ok_iff hne hchars).mp helement
      refine ⟨⟨hbounds, hvalid, ?_⟩, .array hspells harray ?_⟩
      · rwa [← hspells.array_iff (List.prefix_refl _)]
      · rw [← List.append_assoc]
        exact .blank_after _ hafter

theorem parseTrimmed_single {core : List Char} (hne : core ≠ [])
    (hsingle : ¬ "ARRAY[".toList <+: core) :
    parseTrimmed owner core = (Element.parse owner core).map .single := by
  have hprefix : "ARRAY[".toList.isPrefixOf? core = none := by
    refine Option.eq_none_iff_forall_ne_some.mpr fun rest hrest => hsingle ?_
    exact ⟨rest, List.isPrefixOf?_eq_some_iff_append_eq.mp hrest⟩
  unfold parseTrimmed
  rw [if_neg (by simpa using hne), hprefix]

theorem parseTrimmed_array {rest chars : List Char} {low high : Nat}
    (hparts : arrayParts rest = .ok (low, high, chars)) :
    parseTrimmed owner ("ARRAY[".toList ++ rest) =
      (Element.parse owner chars).map (.array low high) := by
  unfold parseTrimmed
  rw [if_neg (by simp), List.isPrefixOf?_eq_some_iff_append_eq.mpr rfl]
  dsimp only
  rw [hparts]

/-- An array text ends with its element, so it has no blanks at its ends. -/
theorem trim_array {core rest : List Char} {low high : Nat} (h : ArrayText low high core rest)
    (hne : core ≠ []) (htrim : trim core = core) :
    trim ("ARRAY[".toList ++ rest) = "ARRAY[".toList ++ rest := by
  obtain ⟨before, rfl⟩ : ∃ before, rest = before ++ core := by
    obtain @⟨lowText, highText, _, -, -, @⟨gap, space, -, -, -⟩⟩ := h
    exact ⟨lowText ++ ("..".toList ++ (highText ++ ']' :: (gap ++ ("OF".toList ++ space)))), by simp⟩
  refine trim_eq_self (fun c hc => ?_) fun c hc => isBlank_getLast_of_trim htrim c ?_
  · obtain rfl : 'A' = c := Option.some.inj hc
    decide
  · rwa [← List.append_assoc, List.getLast?_append_of_ne_nil _ hne] at hc

/-- What spells a member that can be spelled is read as it. -/
theorem parse_of_spells (hvalid : member.Valid) (h : member.Spells text.toList) :
    Member.parse owner text = .ok member := by
  unfold parse
  cases h with
  | @single element core _ hspells hpadded =>
    obtain ⟨hvalid, hsingle⟩ := hvalid
    obtain ⟨hne, htrim⟩ := hspells.trimmed hvalid
    have hopening : "ARRAY".toList <+: "ARRAY[".toList := ⟨['['], rfl⟩
    rw [trim_eq_iff.mpr ⟨htrim, hpadded⟩,
      parseTrimmed_single hne fun hprefix => hsingle ((hspells.array_iff hopening).mp hprefix),
      (Element.parse_eq_ok_iff hne htrim).mpr ⟨hvalid, hspells⟩]
    rfl
  | @array low high element core rest _ hspells harray hpadded =>
    obtain ⟨hbounds, hvalid, hnested⟩ := hvalid
    obtain ⟨hne, htrim⟩ := hspells.trimmed hvalid
    rw [← hspells.array_iff (List.prefix_refl _)] at hnested
    rw [trim_eq_iff.mpr ⟨trim_array harray hne htrim, hpadded⟩,
      parseTrimmed_array (arrayParts_eq_ok_iff.mpr ⟨hbounds, ⟨hne, htrim, hnested⟩, rest, [],
        harray, .nil, (List.append_nil _).symm⟩),
      (Element.parse_eq_ok_iff hne htrim).mpr ⟨hvalid, hspells⟩]
    rfl

/-- **What is read as a member** is what spells it. -/
theorem parse_eq_ok_iff :
    Member.parse owner text = .ok member ↔ member.Valid ∧ member.Spells text.toList := by
  constructor
  · intro h
    obtain ⟨hvalid, hspells⟩ := spells_of_parseTrimmed (trim_trim _) h
    refine ⟨hvalid, ?_⟩
    cases hspells with
    | single hspells hpadded => exact .single hspells (hpadded.trans (padded_trim _))
    | array hspells harray hpadded =>
      exact .array hspells harray (hpadded.trans (padded_trim _))
  · rintro ⟨hvalid, hspells⟩
    exact parse_of_spells hvalid hspells

/-- **Member texts are read exactly.** A text is read as a member if and only if it spells it and the
member can be spelled. The text that is written for a member is one of its spellings, so what was read
of any text is read again of the text that is written for it. -/
theorem parse_exact (owner : String) (member : Member) :
    (∀ text, Member.parse owner text = .ok member ↔ member.Valid ∧ member.Spells text.toList) ∧
    member.Spells member.text.toList ∧
    ∀ other text, Member.parse other text = .ok member →
      Member.parse owner member.text = .ok member :=
  ⟨fun _ => parse_eq_ok_iff, member.spells_text, fun _ _ h =>
    parse_eq_ok_iff.mpr ⟨(parse_eq_ok_iff.mp h).1, member.spells_text⟩⟩

/-- An array of strings, with blanks wherever there may be some and zeros before a bound. -/
theorem parse_exact_labels :
    Member.parse "Rack" "  ARRAY[ 2 ..\t004]OF  STRING[ +16 ] " =
      .ok (.array 2 4 (.primitive (.string 16))) ∧
    (Member.array 2 4 (.primitive (.string 16))).Valid ∧
    (Member.array 2 4 (.primitive (.string 16))).Spells
      "  ARRAY[ 2 ..\t004]OF  STRING[ +16 ] ".toList ∧
    (Member.array 2 4 (.primitive (.string 16))).text = "ARRAY[2..4] OF STRING[16]" ∧
    Member.parse "Rack" "ARRAY[2..4] OF STRING[16]" =
      .ok (.array 2 4 (.primitive (.string 16))) := by
  have hparse : Member.parse "Rack" "  ARRAY[ 2 ..\t004]OF  STRING[ +16 ] " =
      .ok (.array 2 4 (.primitive (.string 16))) := by decide +kernel
  obtain ⟨hiff, -, hagain⟩ := parse_exact "Rack" (.array 2 4 (.primitive (.string 16)))
  obtain ⟨hvalid, hspells⟩ := (hiff _).mp hparse
  exact ⟨hparse, hvalid, hspells, by decide +kernel, hagain _ _ hparse⟩

end Member

end PlcTags.Layout

import Mathlib.Data.List.TakeDrop
import PlcTags.Json.Printer
import PlcTags.Json.Reader
import PlcTags.Proofs.Text.Numeral

/-!
# Compact JSON is read back

What the printer writes is read as the value it was written for, whatever stands behind it.

* `Number.Spelled`: a number as a text has it; `Writable`: a value that has a text.
* `readNumber?_text`, `readPieces?_quote`: numbers and texts are read back.
* `readValue?_chars`: a value is read back, if there is fuel for its length.
* `parse?_compact`: **the compact text of a value is read as the value.**
-/

namespace PlcTags.Json

open PlcTags.Text

/-! ## Characters -/

/-- A text that ends a value: nothing, or what stands behind a value inside another one. -/
def Ends (rest : List Char) : Prop :=
  ∀ c ∈ rest.head?, c = ',' ∨ c = ']' ∨ c = '\x7d'

theorem ends_nil : Ends [] := by
  simp [Ends]

theorem Ends.head_ne {rest : List Char} (h : Ends rest) {c : Char} (hcomma : c ≠ ',')
    (hbracket : c ≠ ']') (hbrace : c ≠ '\x7d') (tail : List Char) : rest ≠ c :: tail := by
  rintro rfl
  have hc := h c rfl
  simp [hcomma, hbracket, hbrace] at hc

theorem skipSpace_cons {c : Char} (h : isSpace c = false) (rest : List Char) :
    skipSpace (c :: rest) = c :: rest := by
  simp [skipSpace, h]

/-! ## Numbers -/

/-- **A number as a text has it**: digits without a leading zero, and at least one in an exponent.
-/
structure Number.Spelled (n : Number) : Prop where
  nonempty : n.whole ≠ []
  whole : ∀ c ∈ n.whole, isDigit c = true
  shortest : n.whole.head? = some '0' → n.whole.length ≤ 1
  fraction : ∀ c ∈ n.fraction, isDigit c = true
  exponent : ∀ below digits, n.exponent = some (below, digits) →
    digits ≠ [] ∧ ∀ c ∈ digits, isDigit c = true

/-- A text that does not go on with a digit. -/
def NoDigit (rest : List Char) : Prop :=
  ∀ c ∈ rest.head?, isDigit c = false

theorem Ends.noDigit {rest : List Char} (h : Ends rest) : NoDigit rest := by
  intro c hc
  rcases h c hc with rfl | rfl | rfl <;> decide

theorem takeDigits_append {digits rest : List Char} (h : ∀ c ∈ digits, isDigit c = true)
    (hrest : NoDigit rest) : takeDigits (digits ++ rest) = (digits, rest) := by
  have hstop : rest.takeWhile isDigit = [] ∧ rest.dropWhile isDigit = rest := by
    cases rest with
    | nil => simp
    | cons c tail =>
      have hc := hrest c rfl
      simp [hc]
  rw [takeDigits, List.span_eq_takeWhile_dropWhile, List.takeWhile_append_of_pos h,
    List.dropWhile_append_of_pos h, hstop.1, hstop.2, List.append_nil]

/-- The exponent of a number as it is written. -/
def Number.exponentText (n : Number) : List Char :=
  match n.exponent with
  | none => []
  | some (below, digits) => 'e' :: ((if below then ['-'] else []) ++ digits)

/-- The fraction of a number as it is written. -/
def Number.fractionText (n : Number) : List Char :=
  if n.fraction.isEmpty then [] else '.' :: n.fraction

theorem Number.text_eq (n : Number) : n.text =
    (if n.negative then ['-'] else []) ++ (n.whole ++ (n.fractionText ++ n.exponentText)) := by
  unfold Number.text
  rw [List.append_assoc, List.append_assoc]
  rfl

theorem readExponent?_append {n : Number} (h : n.Spelled) {rest : List Char} (hrest : Ends rest) :
    readExponent? (n.exponentText ++ rest) = some (n.exponent, rest) := by
  unfold Number.exponentText
  cases hexponent : n.exponent with
  | none =>
    cases rest with
    | nil => rfl
    | cons c tail =>
      have hc : ¬ (c = 'e' ∨ c = 'E') := by
        rcases hrest c rfl with rfl | rfl | rfl <;> decide
      simp [readExponent?, hc]
  | some parts =>
    obtain ⟨below, digits⟩ := parts
    obtain ⟨hne, hdigits⟩ := h.exponent below digits hexponent
    have htake := takeDigits_append hdigits hrest.noDigit
    cases below with
    | true => simp [readExponent?, htake, hne]
    | false =>
      -- digits begin neither with a minus nor with a plus
      obtain ⟨d, tail, rfl⟩ := List.exists_cons_of_ne_nil hne
      have hd := hdigits d List.mem_cons_self
      have hminus : d ≠ '-' := by
        rintro rfl
        exact absurd hd (by decide)
      have hplus : d ≠ '+' := by
        rintro rfl
        exact absurd hd (by decide)
      rw [List.cons_append] at htake
      simp [readExponent?, htake, hminus, hplus]

theorem noDigit_exponentText {n : Number} {rest : List Char} (hrest : Ends rest) :
    NoDigit (n.exponentText ++ rest) := by
  unfold Number.exponentText
  cases n.exponent with
  | none => exact hrest.noDigit
  | some parts =>
    intro c hc
    obtain rfl : 'e' = c := Option.some.inj hc
    decide

theorem readFraction?_append {n : Number} (h : n.Spelled) {rest : List Char} (hrest : Ends rest) :
    readFraction? (n.fractionText ++ (n.exponentText ++ rest)) =
      some (n.fraction, n.exponentText ++ rest) := by
  have htake := takeDigits_append h.fraction (noDigit_exponentText (n := n) hrest)
  unfold Number.fractionText
  by_cases hempty : n.fraction = []
  · -- without a point, the next character is none either
    have hpoint : ∀ tail, n.exponentText ++ rest ≠ '.' :: tail := by
      unfold Number.exponentText
      cases n.exponent with
      | none => exact hrest.head_ne (by decide) (by decide) (by decide)
      | some parts =>
        intro tail heq
        exact absurd (List.cons.inj heq).1 (by decide)
    rw [hempty]
    simp only [List.isEmpty_nil, ↓reduceIte, List.nil_append]
    unfold readFraction?
    split
    · next tail heq => exact absurd heq (hpoint tail)
    · rfl
  · have hne : n.fraction.isEmpty = false := by simpa using hempty
    simp [hne, readFraction?, htake]

theorem noDigit_fractionText {n : Number} {rest : List Char} (hrest : Ends rest) :
    NoDigit (n.fractionText ++ (n.exponentText ++ rest)) := by
  unfold Number.fractionText
  split
  · exact noDigit_exponentText hrest
  · intro c hc
    obtain rfl : '.' = c := Option.some.inj hc
    decide

/-- **A number is read back.** -/
theorem readNumber?_text {n : Number} (h : n.Spelled) {rest : List Char} (hrest : Ends rest) :
    readNumber? (n.text ++ rest) = some (n, rest) := by
  have htake : takeDigits (n.whole ++ (n.fractionText ++ (n.exponentText ++ rest))) =
      (n.whole, n.fractionText ++ (n.exponentText ++ rest)) :=
    takeDigits_append h.whole (noDigit_fractionText hrest)
  have hsound : (n.whole.isEmpty || (n.whole.head? == some '0' && decide (1 < n.whole.length))) =
      false := by
    have hshortest := h.shortest
    simp only [Bool.or_eq_false_iff, List.isEmpty_eq_false_iff, Bool.and_eq_false_iff,
      beq_eq_false_iff_ne, decide_eq_false_iff_not, Nat.not_lt]
    refine ⟨h.nonempty, Classical.or_iff_not_imp_left.mpr fun hzero => ?_⟩
    exact hshortest (by simpa using hzero)
  unfold readNumber?
  rw [Number.text_eq]
  cases hsign : n.negative with
  | true =>
    simp [htake, hsound, readFraction?_append h hrest, readExponent?_append h hrest, ← hsign]
  | false =>
    -- a digit is no sign
    obtain ⟨d, tail, hwhole⟩ := List.exists_cons_of_ne_nil h.nonempty
    have hminus : d ≠ '-' := by
      rintro rfl
      exact absurd (h.whole '-' (by simp [hwhole])) (by decide)
    simp only [Bool.false_eq_true, ↓reduceIte, List.nil_append]
    split
    · next unsigned heq =>
      rw [hwhole] at heq
      exact absurd (List.cons.inj heq).1 hminus
    · simp [htake, hsound, readFraction?_append h hrest, readExponent?_append h hrest, ← hsign]

/-! ## Texts -/

/-- The piece that an escaped character is read as: a control without an escape of its own is
written by its number. -/
def pieceOf (c : Char) : Piece :=
  if c.toNat < 0x20 ∧ c ≠ '\x08' ∧ c ≠ '\x0c' ∧ c ≠ '\n' ∧ c ≠ '\r' ∧ c ≠ '\t' then
    .unit c.toNat
  else .char c

/-- The four digits of a control are read as its number. -/
theorem number?_padded {n : Nat} (h : n < 0x20) :
    ∃ a b c d, Hex.padded 4 n = [a, b, c, d] ∧ Hex.number? [a, b, c, d] = some n := by
  have hall : ∀ m : Fin 0x20, Hex.number? (Hex.padded 4 m) = some m.val := by decide
  exact ⟨_, _, _, _, rfl, hall ⟨n, h⟩⟩

theorem readPieces?_short {c char : Char} (h : shortEscape? c = some char) (hnumber : c ≠ 'u')
    (rest : List Char) : readPieces? ('\\' :: c :: rest) =
      (readPieces? rest).map fun r => (.char char :: r.1, r.2) := by
  rw [readPieces?, h]
  · cases readPieces? rest <;> rfl
  · intro _ _ _ _ _ heq _
    exact hnumber heq

/-- **An escaped character is read as its piece.** -/
theorem readPieces?_escape (c : Char) (rest : List Char) :
    readPieces? (escape c ++ rest) =
      (readPieces? rest).map fun r => (pieceOf c :: r.1, r.2) := by
  by_cases hquote : c = '"'
  · subst hquote
    exact readPieces?_short rfl (by decide) rest
  by_cases hbackslash : c = '\\'
  · subst hbackslash
    exact readPieces?_short rfl (by decide) rest
  by_cases hshort : c = '\x08' ∨ c = '\x0c' ∨ c = '\n' ∨ c = '\r' ∨ c = '\t'
  · rcases hshort with rfl | rfl | rfl | rfl | rfl
    all_goals exact readPieces?_short rfl (by decide) rest
  simp only [not_or] at hshort
  by_cases hcontrol : c.toNat < 0x20
  · obtain ⟨x, y, z, w, hpadded, hnumber⟩ := number?_padded hcontrol
    have hescape : escape c = ['\\', 'u', x, y, z, w] := by simp [escape, *]
    have hpiece : pieceOf c = .unit c.toNat := by simp [pieceOf, *]
    rw [hescape, hpiece]
    simp only [List.cons_append, List.nil_append]
    rw [readPieces?, hnumber]
    cases readPieces? rest <;> rfl
  · have hescape : escape c = [c] := by simp [escape, *]
    have hpiece : pieceOf c = .char c := by simp [pieceOf, *]
    rw [hescape, hpiece, List.singleton_append, readPieces?, if_neg (by simp [*])]
    · exact hquote
    · intro _ _ _ _ _ heq _
      exact hbackslash heq
    · intro _ _ heq _
      exact hbackslash heq

/-- **A quoted text is read up to its closing quote.** -/
theorem readPieces?_quote (text rest : List Char) :
    readPieces? (text.flatMap escape ++ '"' :: rest) = some (text.map pieceOf, rest) := by
  induction text with
  | nil => rw [List.flatMap_nil, List.nil_append, readPieces?, List.map_nil]
  | cons c text ih =>
    rw [List.flatMap_cons, List.append_assoc, readPieces?_escape, ih]
    rfl

/-- A control is no half of a pair. -/
theorem charsOfPieces?_control {n : Nat} (h : n < 0x20) (pieces : List Piece) :
    charsOfPieces? (.unit n :: pieces) = (charsOfPieces? pieces).map (Char.ofNat n :: ·) := by
  have hhigh : ¬ (0xD800 ≤ n ∧ n ≤ 0xDBFF) := by omega
  have hlow : ¬ (0xDC00 ≤ n ∧ n ≤ 0xDFFF) := by omega
  have hpair : ¬ (0xD800 ≤ n ∧ n ≤ 0xDFFF) := by omega
  cases pieces with
  | nil => simp [charsOfPieces?, hpair]
  | cons piece pieces => cases piece <;> simp [charsOfPieces?, hpair, hhigh, hlow]

theorem charsOfPieces?_pieceOf (text : List Char) :
    charsOfPieces? (text.map pieceOf) = some text := by
  induction text with
  | nil => rfl
  | cons c text ih =>
    rw [List.map_cons]
    by_cases hcontrol : pieceOf c = .char c
    · rw [hcontrol, charsOfPieces?, ih]
      rfl
    · have hpiece : pieceOf c = .unit c.toNat ∧ c.toNat < 0x20 := by
        unfold pieceOf at hcontrol ⊢
        split_ifs at hcontrol ⊢ with hc
        · exact ⟨rfl, hc.1⟩
        · exact absurd rfl hcontrol
      rw [hpiece.1, charsOfPieces?_control hpiece.2, ih, Char.ofNat_toNat]
      rfl

/-- **A text in quotes is read back.** -/
theorem stringOfPieces?_pieceOf (text : String) :
    stringOfPieces? (text.toList.map pieceOf) = some text := by
  rw [stringOfPieces?, charsOfPieces?_pieceOf, Option.map_some, String.ofList_toList]

/-! ## Values -/

/-- **A value that has a text**: its numbers are spelled as texts have them, its texts and the names
of its fields have characters. -/
inductive Writable : Json → Prop
  | null : Writable .null
  | bool (value : Bool) : Writable (.bool value)
  | number {n : Number} (h : n.Spelled) : Writable (.number n)
  | string (value : String) : Writable (.string value)
  | array {items : List Json} (h : ∀ item ∈ items, Writable item) : Writable (.array items)
  | object {fields : List (Option String × Json)} (hkeys : ∀ field ∈ fields, field.1.isSome = true)
      (h : ∀ field ∈ fields, Writable field.2) : Writable (.object fields)

/-- What is read of the text of a value, whatever ends it. -/
def ReadsBack (json : Json) : Prop :=
  ∀ (rest : List Char) (fuel : Nat), Ends rest → (chars json).length ≤ fuel →
    readValue? fuel (chars json ++ rest) = some (json, rest)

/-- The text of a number begins with its sign or a digit. -/
theorem Number.Spelled.exists_text {n : Number} (h : n.Spelled) :
    ∃ c tail, n.text = c :: tail ∧ (c = '-' ∨ isDigit c = true) := by
  rw [Number.text_eq]
  cases n.negative with
  | true => exact ⟨'-', _, rfl, Or.inl rfl⟩
  | false =>
    obtain ⟨d, tail, hwhole⟩ := List.exists_cons_of_ne_nil h.nonempty
    have hd : isDigit d = true := h.whole d (by simp [hwhole])
    rw [hwhole]
    exact ⟨d, _, rfl, Or.inr hd⟩

/-- A number begins with no space, no bracket and no letter. -/
theorem ne_of_sign {c d : Char} (h : c = '-' ∨ isDigit c = true) (hd : d ≠ '-')
    (hdigit : isDigit d = false) : c ≠ d := by
  rintro rfl
  rcases h with h | h
  · exact hd h
  · exact Bool.false_ne_true (hdigit.symm.trans h)

theorem isSpace_of_sign {c : Char} (h : c = '-' ∨ isDigit c = true) : isSpace c = false := by
  have hblank := ne_of_sign (d := ' ') h (by decide) (by decide)
  have htab := ne_of_sign (d := '\t') h (by decide) (by decide)
  have hfeed := ne_of_sign (d := '\n') h (by decide) (by decide)
  have hreturn := ne_of_sign (d := '\r') h (by decide) (by decide)
  simp [isSpace, hblank, htab, hfeed, hreturn]

/-- The text of a value begins with a character that is no space and closes nothing. -/
theorem exists_chars {json : Json} (h : Writable json) :
    ∃ c tail, chars json = c :: tail ∧ isSpace c = false ∧ c ≠ ']' ∧ c ≠ '\x7d' := by
  cases h with
  | null => exact ⟨_, _, rfl, by decide, by decide, by decide⟩
  | bool value => cases value <;> exact ⟨_, _, rfl, by decide, by decide, by decide⟩
  | number h =>
    obtain ⟨c, tail, htext, hc⟩ := h.exists_text
    exact ⟨c, tail, htext, isSpace_of_sign hc, ne_of_sign hc (by decide) (by decide),
      ne_of_sign hc (by decide) (by decide)⟩
  | string value => exact ⟨_, _, rfl, by decide, by decide, by decide⟩
  | array h => exact ⟨_, _, rfl, by decide, by decide, by decide⟩
  | object hkeys h => exact ⟨_, _, rfl, by decide, by decide, by decide⟩

theorem readsBack_number {n : Number} (h : n.Spelled) : ReadsBack (.number n) := by
  intro rest fuel hrest hfuel
  obtain ⟨c, tail, htext, hc⟩ := h.exists_text
  have hskip : skipSpace (chars (.number n) ++ rest) = n.text ++ rest := by
    show skipSpace (n.text ++ rest) = n.text ++ rest
    rw [htext]
    exact skipSpace_cons (isSpace_of_sign hc) _
  have hother : ∀ {d : Char} {after : List Char}, d ≠ '-' → isDigit d = false →
      n.text ++ rest ≠ d :: after := by
    intro d after hd hdigit heq
    rw [htext] at heq
    exact ne_of_sign hc hd hdigit (List.cons.inj heq).1
  cases fuel with
  | zero =>
    have hlength : (chars (.number n)).length = tail.length + 1 := by
      show n.text.length = _
      rw [htext, List.length_cons]
    omega
  | succ fuel =>
    rw [readValue?, hskip]
    split
    case _ heq => exact absurd heq (hother (by decide) (by decide))
    case _ heq => exact absurd heq (hother (by decide) (by decide))
    case _ heq => exact absurd heq (hother (by decide) (by decide))
    case _ heq => exact absurd heq (hother (by decide) (by decide))
    case _ heq => exact absurd heq (hother (by decide) (by decide))
    case _ heq => exact absurd heq (hother (by decide) (by decide))
    case _ => rw [readNumber?_text h hrest]; rfl

theorem readsBack_string (value : String) : ReadsBack (.string value) := by
  intro rest fuel _ hfuel
  have hchars : chars (.string value) ++ rest =
      '"' :: (value.toList.flatMap escape ++ '"' :: rest) := by
    simp [chars, quote]
  cases fuel with
  | zero => simp [chars, quote] at hfuel
  | succ fuel =>
    rw [hchars, readValue?, skipSpace_cons (by decide)]
    simp [readPieces?_quote, stringOfPieces?_pieceOf]

theorem itemChars_cons (item next : Json) (others : List Json) :
    itemChars (item :: next :: others) = chars item ++ ',' :: itemChars (next :: others) := by
  rw [itemChars]
  exact nofun

/-- **Items are read back** if each of them is. -/
theorem readItems?_itemChars {items : List Json} (hne : items ≠ [])
    (h : ∀ item ∈ items, ReadsBack item) (rest : List Char) (fuel : Nat)
    (hfuel : (itemChars items).length ≤ fuel) :
    readItems? fuel (itemChars items ++ rest) = some (items, rest) := by
  induction items generalizing fuel with
  | nil => exact absurd rfl hne
  | cons item items ih =>
    have hitem := h item List.mem_cons_self
    cases items with
    | nil =>
      have hends : Ends (']' :: rest) := by simp [Ends]
      simp only [itemChars, List.length_append, List.length_singleton] at hfuel
      obtain ⟨fuel, rfl⟩ : ∃ f, fuel = f + 1 := ⟨fuel - 1, by omega⟩
      have hread := hitem (']' :: rest) fuel hends (by omega)
      rw [itemChars, List.append_assoc, List.singleton_append, readItems?, hread]
      simp [skipSpace_cons (show isSpace ']' = false by decide)]
    | cons next others =>
      have hends : Ends (',' :: (itemChars (next :: others) ++ rest)) := by simp [Ends]
      rw [itemChars_cons, List.length_append, List.length_cons] at hfuel
      obtain ⟨fuel, rfl⟩ : ∃ f, fuel = f + 1 := ⟨fuel - 1, by omega⟩
      have hread := hitem _ fuel hends (by omega)
      have hothers := ih (List.cons_ne_nil _ _) (fun item hi => h item (List.mem_cons_of_mem _ hi))
        fuel (by omega)
      rw [itemChars_cons, List.append_assoc, List.cons_append, readItems?, hread]
      simp [skipSpace_cons (show isSpace ',' = false by decide), hothers]

theorem readsBack_array {items : List Json} (hwritable : ∀ item ∈ items, Writable item)
    (h : ∀ item ∈ items, ReadsBack item) : ReadsBack (.array items) := by
  intro rest fuel _ hfuel
  have hchars : chars (.array items) = '[' :: itemChars items := by rw [chars]
  rw [hchars, List.length_cons] at hfuel
  obtain ⟨fuel, rfl⟩ : ∃ f, fuel = f + 1 := ⟨fuel - 1, by omega⟩
  rw [hchars, List.cons_append, readValue?, skipSpace_cons (by decide)]
  cases items with
  | nil =>
    rw [itemChars, List.singleton_append]
    simp [skipSpace_cons (show isSpace ']' = false by decide)]
  | cons item items =>
    -- the first item does not close the array
    obtain ⟨c, tail, hitem, hspace, hclose, -⟩ := exists_chars (hwritable item List.mem_cons_self)
    have hbegin : ∃ after, itemChars (item :: items) ++ rest = c :: after := by
      cases items with
      | nil => exact ⟨_, by rw [itemChars, hitem]; rfl⟩
      | cons => exact ⟨_, by rw [itemChars_cons, hitem]; rfl⟩
    have hread := readItems?_itemChars (List.cons_ne_nil _ _) h rest fuel (by omega)
    obtain ⟨after, hafter⟩ := hbegin
    rw [hafter] at hread ⊢
    simp [skipSpace_cons hspace, hclose, hread]

/-- The text of a field, up to its value. -/
theorem fieldChars_key (key : String) (value : Json) (others : List (Option String × Json)) :
    ∃ behind, fieldChars ((some key, value) :: others) =
        '"' :: (key.toList.flatMap escape ++ '"' :: ':' :: (chars value ++ behind)) ∧
      behind = match others with
        | [] => ['\x7d']
        | _ => ',' :: fieldChars others := by
  cases others with
  | nil => exact ⟨_, by simp [fieldChars, quote], rfl⟩
  | cons => exact ⟨_, by simp [fieldChars, quote], rfl⟩

/-- **Fields are read back** if each of their values is. -/
theorem readFields?_fieldChars {fields : List (Option String × Json)} (hne : fields ≠ [])
    (hkeys : ∀ field ∈ fields, field.1.isSome = true) (h : ∀ field ∈ fields, ReadsBack field.2)
    (rest : List Char) (fuel : Nat) (hfuel : (fieldChars fields).length ≤ fuel) :
    readFields? fuel (fieldChars fields ++ rest) = some (fields, rest) := by
  induction fields generalizing fuel with
  | nil => exact absurd rfl hne
  | cons field fields ih =>
    obtain ⟨key, value⟩ := field
    obtain ⟨key, rfl⟩ := Option.isSome_iff_exists.mp (hkeys _ List.mem_cons_self)
    have hvalue : ReadsBack value := h _ List.mem_cons_self
    obtain ⟨behind, hchars, hbehind⟩ := fieldChars_key key value fields
    rw [hchars] at hfuel ⊢
    simp only [List.length_cons, List.length_append] at hfuel
    obtain ⟨fuel, rfl⟩ : ∃ f, fuel = f + 1 := ⟨fuel - 1, by omega⟩
    have hends : Ends (behind ++ rest) := by
      cases fields <;> simp [hbehind, Ends]
    have hread := hvalue (behind ++ rest) fuel hends (by omega)
    simp only [List.cons_append, List.append_assoc]
    rw [readFields?, skipSpace_cons (by decide)]
    simp only [readPieces?_quote, Option.bind_eq_bind, Option.bind_some, stringOfPieces?_pieceOf]
    rw [skipSpace_cons (show isSpace ':' = false by decide)]
    simp only [hread, Option.bind_some]
    cases fields with
    | nil =>
      simp [hbehind, skipSpace_cons (show isSpace '\x7d' = false by decide)]
    | cons next others =>
      have hothers := ih (List.cons_ne_nil _ _)
        (fun field hf => hkeys field (List.mem_cons_of_mem _ hf))
        (fun field hf => h field (List.mem_cons_of_mem _ hf)) fuel
        (by simp only [hbehind, List.length_cons] at hfuel; omega)
      simp [hbehind, skipSpace_cons (show isSpace ',' = false by decide), hothers]

theorem readsBack_object {fields : List (Option String × Json)}
    (hkeys : ∀ field ∈ fields, field.1.isSome = true) (h : ∀ field ∈ fields, ReadsBack field.2) :
    ReadsBack (.object fields) := by
  intro rest fuel _ hfuel
  have hchars : chars (.object fields) = '\x7b' :: fieldChars fields := by rw [chars]
  rw [hchars, List.length_cons] at hfuel
  obtain ⟨fuel, rfl⟩ : ∃ f, fuel = f + 1 := ⟨fuel - 1, by omega⟩
  rw [hchars, List.cons_append, readValue?, skipSpace_cons (by decide)]
  cases fields with
  | nil =>
    rw [fieldChars, List.singleton_append]
    simp [skipSpace_cons (show isSpace '\x7d' = false by decide)]
  | cons field fields =>
    have hread := readFields?_fieldChars (List.cons_ne_nil _ _) hkeys h rest fuel (by omega)
    obtain ⟨key, value⟩ := field
    obtain ⟨key, rfl⟩ := Option.isSome_iff_exists.mp (hkeys _ List.mem_cons_self)
    obtain ⟨behind, hfield, -⟩ := fieldChars_key key value fields
    obtain ⟨after, hafter⟩ : ∃ after, fieldChars ((some key, value) :: fields) ++ rest =
        '"' :: after := ⟨_, by rw [hfield, List.cons_append]⟩
    rw [hafter] at hread ⊢
    simp [skipSpace_cons (show isSpace '"' = false by decide), hread]

/-- **Every value that has a text is read back from it.** -/
theorem readValue?_chars {json : Json} (h : Writable json) : ReadsBack json := by
  induction h with
  | null =>
    intro rest fuel _ hfuel
    obtain ⟨fuel, rfl⟩ : ∃ f, fuel = f + 1 := ⟨fuel - 1, by simp [chars] at hfuel; omega⟩
    simp [chars, readValue?, skipSpace_cons (show isSpace 'n' = false by decide)]
  | bool value =>
    intro rest fuel _ hfuel
    obtain ⟨fuel, rfl⟩ : ∃ f, fuel = f + 1 :=
      ⟨fuel - 1, by cases value <;> simp [chars] at hfuel <;> omega⟩
    cases value with
    | true => simp [chars, readValue?, skipSpace_cons (show isSpace 't' = false by decide)]
    | false => simp [chars, readValue?, skipSpace_cons (show isSpace 'f' = false by decide)]
  | number h => exact readsBack_number h
  | string value => exact readsBack_string value
  | array hitems ih => exact readsBack_array hitems ih
  | object hkeys _ ih => exact readsBack_object hkeys ih

/-- **The compact text of a value is read as the value.** -/
theorem parse?_compact {json : Json} (h : Writable json) : parse? (compact json) = some json := by
  have hread := readValue?_chars h [] (2 * (chars json).length + 2) ends_nil (by omega)
  rw [List.append_nil] at hread
  unfold parse? compact
  simp only [String.toList_ofList, hread]
  simp [skipSpace]

end PlcTags.Json

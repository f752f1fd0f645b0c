import PlcTags.Proofs.Json.RoundTrip
import PlcTags.Proofs.Outcome
import PlcTags.Proofs.Value.Scalar
import PlcTags.Value.Json

/-!
# Values survive their JSON text

A value without floats has a compact JSON text, and the text is read as the value.

* `Value.FloatFree`, `Value.nesting`: a value without floats, and how deep its arrays nest.
* `Value.CompactText`: the text of a value, told by its kind and its content.
* `Number.toInt?_ofInt`: whole numbers of 64 bits keep their value.
* `Value.ofJsonWithin?_toJson?`: the form of a value is read back within its depth.
* `Value.json_roundTrip`: the whole statement.
-/

namespace PlcTags

open PlcTags.Text

/-! ## Whole numbers -/

namespace Json.Number

theorem le_of_digitsFrom? {m n : Nat} {text : List Char} (h : digitsFrom? m text = some n) :
    m ≤ n := by
  induction text generalizing m with
  | nil =>
    cases h
    exact Nat.le_refl _
  | cons c rest ih =>
    obtain ⟨d, -, hrest⟩ := Option.bind_eq_some_iff.mp h
    have hle := ih hrest
    omega

/-- Digits are gathered completely if their number fits. -/
theorem gather_of_digitsFrom? {m n : Nat} {text : List Char} (h : digitsFrom? m text = some n)
    (hlt : n < wordLimit) : gather m text = (n, []) := by
  induction text generalizing m with
  | nil =>
    cases h
    rfl
  | cons c rest ih =>
    obtain ⟨d, hd, hrest⟩ := Option.bind_eq_some_iff.mp h
    have hdigit : c.toNat - '0'.toNat = d := by
      unfold digit? at hd
      split at hd
      · exact Option.some.inj hd
      · cases hd
    have hfits : 10 * m + d < wordLimit := Nat.lt_of_le_of_lt (le_of_digitsFrom? hrest) hlt
    rw [gather, hdigit, if_pos hfits, ih hrest]

theorem gather_toDigits {n : Nat} (h : n < wordLimit) : gather 0 (Nat.toDigits 10 n) = (n, []) := by
  have hdigits := digits?_eq_some_iff.mpr (digits_toDigits n)
  unfold digits? at hdigits
  split at hdigits
  · cases hdigits
  · exact gather_of_digitsFrom? hdigits h

/-- **A whole number of 64 bits keeps its value**, with or without sign. -/
theorem toInt?_ofInt {n : Int} (hlow : PlcTags.Number.int64Least ≤ n) (hhigh : n < wordLimit) :
    (ofInt n).toInt? = some n := by
  have hbound : n.natAbs < wordLimit := by
    unfold PlcTags.Number.int64Least at hlow
    unfold wordLimit at hhigh ⊢
    omega
  unfold toInt? ofInt
  simp only [List.isEmpty_nil, Option.isNone_none, Bool.and_self, ↓reduceIte,
    gather_toDigits hbound, Bool.not_true, Bool.false_eq_true]
  by_cases hneg : n < 0
  · have hmagnitude : 0 < n.natAbs ∧ PlcTags.Number.int64Least ≤ -(n.natAbs : Int) := by omega
    simp only [hneg, decide_true, Bool.not_true, Bool.false_eq_true, ↓reduceIte, hmagnitude,
      and_self, Option.some.injEq]
    omega
  · simp only [hneg, decide_false, Bool.not_false, ↓reduceIte, Option.some.injEq]
    omega

theorem spelled_ofInt (n : Int) : (ofInt n).Spelled where
  nonempty := (digits_toDigits n.natAbs).nonempty
  whole := fun c hc => (digits_toDigits n.natAbs).isDigit_of_mem hc
  shortest := by
    intro hzero
    by_cases hn : n.natAbs = 0
    · have hwhole : (ofInt n).whole = ['0'] := by
        show Nat.toDigits 10 n.natAbs = _
        rw [hn]
        rfl
      rw [hwhole]
      exact Nat.le_refl 1
    · exact absurd hzero (head?_toDigits_ne_zero hn)
  fraction := by
    intro c hc
    cases hc
  exponent := nofun

/-- A whole number is written as it is printed. -/
theorem text_ofInt (n : Int) : (ofInt n).text = (toString n).toList := by
  cases n with
  | ofNat n => simp [text, ofInt, Int.toString_eq_repr, Int.repr, Nat.toList_repr]
  | negSucc n =>
    simp [text, ofInt, Int.toString_eq_repr, Int.repr, Nat.toList_repr]

end Json.Number

/-! ## Scalars -/

namespace Scalar

/-- An integer of any type fits 64 bits, signed or not. -/
theorem toInt?_bounds {s : Scalar} {n : Int} (h : s.toInt? = some n) :
    Number.int64Least ≤ n ∧ n < wordLimit := by
  obtain ⟨type, word⟩ := s
  cases type with
  | integer signed width =>
    obtain ⟨low, high, htype⟩ := exists_bounds signed width
    obtain ⟨⟨hlow, hhigh⟩, -⟩ := wordInt_bounds htype word
    have hword : wordInt signed word = n := Option.some.inj h
    have hwide : Number.int64Least ≤ low ∧ high < wordLimit := by
      cases signed <;> cases width <;> cases htype <;> decide
    rw [← hword]
    exact ⟨hwide.1.trans hlow, Int.lt_of_le_of_lt hhigh hwide.2⟩
  | binary32 => cases h
  | binary64 => cases h

/-- An integer is read back in its own type. -/
theorem ofInt?_of_toInt? {s : Scalar} {n : Int} (h : s.toInt? = some n) :
    ofInt? s.type n = some s := by
  obtain ⟨type, word⟩ := s
  cases type with
  | integer signed width =>
    have hself : (Scalar.mk (.integer signed width) word).as? (.integer signed width) =
        some ⟨.integer signed width, word⟩ := as?_self rfl
    unfold as? at hself
    rwa [h] at hself
  | binary32 => cases h
  | binary64 => cases h

end Scalar

namespace Kind

theorem ofName?_name (kind : Kind) : ofName? kind.name = some kind := by
  rcases kind with _ | (⟨signed, width⟩ | _ | _) | _ | _ | _
  · decide
  · cases signed <;> cases width <;> decide
  all_goals decide

end Kind

namespace Value

/-! ## Values without floats -/

/-- **A value without floats.** -/
inductive FloatFree : Value → Prop
  | bool (flag : Bool) : FloatFree (.bool flag)
  | number {scalar : Scalar} {signed : Bool} {width : Width}
      (h : scalar.type = .integer signed width) : FloatFree (.number scalar)
  | text (value : String) : FloatFree (.text value)
  | bytes (octets : List UInt8) : FloatFree (.bytes octets)
  | array {items : List Value} (h : ∀ item ∈ items, FloatFree item) : FloatFree (.array items)

mutual

/-- **How deep the arrays of a value nest.** -/
def nesting : Value → Nat
  | .array items => nestingOf items + 1
  | _ => 0

/-- How deep the arrays of some values nest. -/
def nestingOf : List Value → Nat
  | [] => 0
  | item :: rest => max (nesting item) (nestingOf rest)

end

theorem nesting_le_of_mem {item : Value} {items : List Value} (h : item ∈ items) :
    nesting item ≤ nestingOf items := by
  induction items with
  | nil => cases h
  | cons first rest ih =>
    rw [nestingOf]
    rcases List.mem_cons.mp h with rfl | h
    · exact Nat.le_max_left _ _
    · exact (ih h).trans (Nat.le_max_right _ _)

/-! ## Texts -/

/-- An object with a kind under `type` and a content under `value`. -/
def taggedText (kind : Kind) (content : List Char) : List Char :=
  '\x7b' :: (Json.quote "type" ++ ':' :: (Json.quote kind.name ++ ',' ::
    (Json.quote "value" ++ ':' :: (content ++ ['\x7d']))))

/-- Texts in brackets, with commas between them. -/
def listText (texts : List (List Char)) : List Char :=
  '[' :: ([','].intercalate texts ++ [']'])

/-- **The compact text of a value**: its kind and its content, in this order. Whole numbers are
written in decimal, texts in quotes, and octets as the array of their numbers. -/
inductive CompactText : Value → List Char → Prop
  | bool (flag : Bool) :
      CompactText (.bool flag) (taggedText .bool (if flag then "true".toList else "false".toList))
  | number {scalar : Scalar} {n : Int} (h : scalar.toInt? = some n) :
      CompactText (.number scalar) (taggedText (.number scalar.type) (toString n).toList)
  | text (value : String) : CompactText (.text value) (taggedText .text (Json.quote value))
  | bytes (octets : List UInt8) : CompactText (.bytes octets)
      (taggedText .bytes (listText (octets.map fun b => (toString b.toNat).toList)))
  | array {items : List Value} {texts : List (List Char)}
      (h : List.Forall₂ CompactText items texts) :
      CompactText (.array items) (taggedText .array (listText texts))

theorem itemChars_eq (items : List Json) :
    Json.itemChars items = [','].intercalate (items.map Json.chars) ++ [']'] := by
  induction items with
  | nil => rfl
  | cons item rest ih =>
    cases rest with
    | nil => simp [Json.itemChars, List.intercalate]
    | cons next others =>
      rw [Json.itemChars_cons, ih]
      simp [List.intercalate]

theorem chars_array (items : List Json) :
    Json.chars (.array items) = listText (items.map Json.chars) := by
  rw [Json.chars, itemChars_eq]
  rfl

theorem chars_tagged (kind : Kind) (content : Json) :
    Json.chars (tagged kind content) = taggedText kind (Json.chars content) := by
  simp only [tagged, Json.record, List.map_cons, List.map_nil, Json.chars, Json.fieldChars,
    Option.map_some, Option.getD_some, taggedText]

theorem chars_int (n : Int) : Json.chars (.int n) = (toString n).toList :=
  Json.Number.text_ofInt n

/-! ## Forms -/

theorem toJsons?_eq_some_iff {items : List Value} {jsons : List Json} :
    toJsons? items = some jsons ↔
      List.Forall₂ (fun item json => item.toJson? = some json) items jsons := by
  induction items generalizing jsons with
  | nil => rw [toJsons?, List.forall₂_nil_left_iff, Option.some.injEq, eq_comm]
  | cons item items ih =>
    rw [List.forall₂_cons_left_iff]
    simp only [toJsons?, Option.bind_eq_bind, Option.bind_eq_some_iff, Option.pure_def,
      Option.some.injEq]
    constructor
    · rintro ⟨json, hjson, others, hothers, rfl⟩
      exact ⟨json, others, hjson, ih.mp hothers, rfl⟩
    · rintro ⟨json, others, hjson, hothers, rfl⟩
      exact ⟨json, hjson, others, ih.mpr hothers, rfl⟩

theorem writable_int (n : Int) : Json.Writable (.int n) :=
  .number (Json.Number.spelled_ofInt n)

theorem writable_tagged {kind : Kind} {content : Json} (h : Json.Writable content) :
    Json.Writable (tagged kind content) := by
  refine .object (fun field hf => ?_) fun field hf => ?_
  · rcases List.mem_cons.mp hf with rfl | hf
    · rfl
    · obtain rfl := List.mem_singleton.mp hf
      rfl
  · rcases List.mem_cons.mp hf with rfl | hf
    · exact .string _
    · obtain rfl := List.mem_singleton.mp hf
      exact h

/-- **A value without floats has a form**, whose text is the text of the value. -/
theorem FloatFree.exists_toJson? {value : Value} (h : value.FloatFree) :
    ∃ json, value.toJson? = some json ∧ Json.Writable json ∧ value.CompactText json.chars := by
  induction h with
  | bool flag =>
    refine ⟨_, rfl, writable_tagged (.bool flag), ?_⟩
    rw [chars_tagged]
    cases flag
    · exact .bool false
    · exact .bool true
  | @number scalar signed width h =>
    obtain ⟨n, hn⟩ : ∃ n, scalar.toInt? = some n := by
      unfold Scalar.toInt?
      split
      · exact ⟨_, rfl⟩
      · next hother => exact absurd h (hother _ _)
    refine ⟨tagged (.number scalar.type) (.int n), by rw [toJson?, hn]; rfl,
      writable_tagged (writable_int n), ?_⟩
    rw [chars_tagged, chars_int]
    exact .number hn
  | text value =>
    refine ⟨_, rfl, writable_tagged (.string value), ?_⟩
    rw [chars_tagged, Json.chars]
    exact .text value
  | bytes octets =>
    refine ⟨_, rfl, writable_tagged (.array fun item hi => ?_), ?_⟩
    · obtain ⟨b, -, rfl⟩ := List.mem_map.mp hi
      exact writable_int b.toNat
    · rw [chars_tagged, chars_array, List.map_map]
      have htexts : octets.map (Json.chars ∘ fun b => .int b.toNat) =
          octets.map fun b => (toString b.toNat).toList :=
        List.map_congr_left fun b _ => chars_int b.toNat
      rw [htexts]
      exact .bytes octets
  | @array items _ ih =>
    obtain ⟨jsons, hjsons⟩ := exists_forall₂_of_mem ih
    have hforms : toJsons? items = some jsons :=
      toJsons?_eq_some_iff.mpr (hjsons.imp fun _ _ h => h.1)
    refine ⟨tagged .array (.array jsons), by rw [toJson?, hforms]; rfl,
      writable_tagged (.array fun json hj => ?_), ?_⟩
    · obtain ⟨item, -, -, hwritable, -⟩ := exists_of_mem_forall₂ hjsons hj
      exact hwritable
    · rw [chars_tagged, chars_array]
      exact .array (List.forall₂_map_right_iff.mpr (hjsons.imp fun _ _ h => h.2.2))

/-- The parts of a tagged form are its kind and its content. -/
theorem tagged?_tagged (reading : Reading) (depth : Nat) (kind : Kind) (content : Json) :
    tagged? reading depth (tagged kind content) = some ⟨kind, content, reading⟩ := by
  have htag : kindOfTag? reading depth (.string kind.name) = some kind := kind.ofName?_name
  have hfields : taggedFields? reading depth
      [(some "type", .string kind.name), (some "value", content)] =
        some ⟨kind, content, reading⟩ := by
    simp [taggedFields?, Json.single?, contentFirst, htag]
  exact hfields

/-- The octets of an array are read back. -/
theorem octetsOfJson?_map (octets : List UInt8) :
    octetsOfJson? (octets.map fun b => .int b.toNat) = some octets := by
  have hoctet : ∀ b : UInt8, (Json.int b.toNat).toNatBelow? 256 = some b.toNat := by
    intro b
    have hlt := b.toNat_lt
    have hint : (Json.Number.ofInt b.toNat).toInt? = some (b.toNat : Int) := by
      refine Json.Number.toInt?_ofInt ?_ ?_
      · unfold Number.int64Least
        omega
      · unfold wordLimit
        omega
    have hwithin : (Json.int b.toNat).toIntWithin? 0 255 = some (b.toNat : Int) := by
      show (Json.Number.ofInt b.toNat).toInt?.filter _ = _
      rw [hint]
      refine Option.filter_some_pos ?_
      simp
      omega
    show ((Json.int b.toNat).toIntWithin? 0 255).map Int.toNat = _
    rw [hwithin]
    rfl
  unfold octetsOfJson?
  induction octets with
  | nil => rfl
  | cons b octets ih => simp [hoctet, ih]

/-- **The form of a value is read back** within the depth that its arrays take: two levels for each
of them, and two for what they hold. -/
theorem ofJsonWithin?_toJson? {value : Value} (hfloat : value.FloatFree) {json : Json}
    (hjson : value.toJson? = some json) {depth : Nat} (hdepth : 2 * value.nesting + 2 ≤ depth) :
    ofJsonWithin? depth .atOnce json = some value := by
  induction hfloat generalizing json depth with
  | bool flag =>
    obtain ⟨depth, rfl⟩ : ∃ d, depth = d + 1 := ⟨depth - 1, by omega⟩
    cases hjson
    rw [ofJsonWithin?, tagged?_tagged]
    rfl
  | @number scalar signed width h =>
    obtain ⟨depth, rfl⟩ : ∃ d, depth = d + 1 := ⟨depth - 1, by omega⟩
    obtain ⟨n, hn, rfl⟩ := Option.map_eq_some_iff.mp hjson
    obtain ⟨hlow, hhigh⟩ := Scalar.toInt?_bounds hn
    have hread : numberOfJson? scalar.type (Json.Number.ofInt n) = some (.number scalar) := by
      unfold numberOfJson?
      rw [h]
      dsimp only
      rw [← h, Json.Number.toInt?_ofInt hlow hhigh, Option.bind_some, Scalar.ofInt?_of_toInt? hn]
      rfl
    rw [ofJsonWithin?, tagged?_tagged]
    exact hread
  | text value =>
    obtain ⟨depth, rfl⟩ : ∃ d, depth = d + 1 := ⟨depth - 1, by omega⟩
    cases hjson
    rw [ofJsonWithin?, tagged?_tagged]
    rfl
  | bytes octets =>
    obtain ⟨depth, rfl⟩ : ∃ d, depth = d + 2 := ⟨depth - 2, by omega⟩
    cases hjson
    rw [ofJsonWithin?, tagged?_tagged]
    show (if 0 < depth + 1 then (octetsOfJson? _).map Value.bytes else none) = _
    rw [if_pos (by omega), octetsOfJson?_map]
    rfl
  | @array items hitems ih =>
    rw [nesting] at hdepth
    obtain ⟨depth, rfl⟩ : ∃ d, depth = d + 2 := ⟨depth - 2, by omega⟩
    obtain ⟨jsons, hjsons, rfl⟩ := Option.map_eq_some_iff.mp hjson
    rw [toJsons?_eq_some_iff] at hjsons
    have hread : jsons.mapM (ofJsonWithin? depth .atOnce) = some items := by
      refine mapM_eq_some_of_forall₂ hjsons fun item hi json hjson => ?_
      have hle := nesting_le_of_mem hi
      exact ih item hi hjson (by omega)
    rw [ofJsonWithin?, tagged?_tagged]
    show (jsons.mapM (ofJsonWithin? depth .atOnce)).map Value.array = _
    rw [hread]
    rfl

/-- **A value without floats survives its JSON text**: the text is there, it is the compact one, and
it is read as the value. Arrays may nest as deep as the reader's limit allows. -/
theorem json_roundTrip {value : Value} (hfloat : value.FloatFree) (hnesting : value.nesting ≤ 62) :
    ∃ text, value.jsonText? = some text ∧ value.CompactText text.toList ∧
      ofJsonText? text = some value := by
  obtain ⟨json, hjson, hwritable, htext⟩ := hfloat.exists_toJson?
  have hread : ofJson? json = some value := by
    refine ofJsonWithin?_toJson? hfloat hjson ?_
    unfold Json.depthLimit
    omega
  refine ⟨json.compact, ?_, ?_, ?_⟩
  · rw [jsonText?, hjson, Option.map_some]
  · rw [Json.compact, String.toList_ofList]
    exact htext
  · rw [ofJsonText?, Json.parse?_compact hwritable, Option.bind_some, hread]

/-- The least integer, a text with a quote, a control and a character of two halves, and octets, in
nested arrays. -/
def alarmRecord : Value :=
  .array [.number ⟨.integer true .eight, BitVec.intMin 64⟩, .text "\"é\x01\n😀",
    .array [.bytes [0, 255], .bool true, .array []]]

theorem json_roundTrip_alarmRecord :
    (alarmRecord.FloatFree ∧ alarmRecord.nesting ≤ 62) ∧
      ∃ text, alarmRecord.jsonText? = some text ∧ alarmRecord.CompactText text.toList ∧
        ofJsonText? text = some alarmRecord := by
  have hinner : (Value.array [.bytes [0, 255], .bool true, .array []]).FloatFree :=
    .array (by simp [FloatFree.bytes, FloatFree.bool, FloatFree.array])
  have hleast : (Value.number ⟨.integer true .eight, BitVec.intMin 64⟩).FloatFree := .number rfl
  have hfloat : alarmRecord.FloatFree := .array (by simp [hinner, hleast, FloatFree.text])
  have hnesting : alarmRecord.nesting ≤ 62 := by decide
  exact ⟨⟨hfloat, hnesting⟩, json_roundTrip hfloat hnesting⟩

end Value

end PlcTags

import Mathlib.Data.List.Forall2
import PlcTags.Proofs.Codec.ReadBack
import PlcTags.Proofs.Codec.Written
import PlcTags.Proofs.Value.Scalar

/-!
# Encoding, then decoding

A value that was written is read back, for every type, every place and every number of elements; and
what a type does not hold is not written.

* `Field.read_write_cut`, `Field.read_write_fixed`: a text without zeros in a fixed place, cut to it or
  fitting it.
* `Field.read_write_time`: one time of eight octets.
* `Descriptor.GivesBack`: what comes back of a value, type by type.
* `DataType.Holds`: the integers of a declared type.
* `decode_after_encode`: **what was written comes back**; integers that do not fit and wrong numbers
  of elements are refused.
-/

namespace PlcTags

open PlcTags.Text (wordLimit)

/-! ## Whole fields -/

theorem wholeWrite_eq_ok {buffer changed : Buffer} {outcome : Except DecodeError Buffer}
    (h : wholeWrite buffer outcome = (changed, .ok ())) : outcome = .ok changed := by
  cases outcome with
  | ok written => exact congrArg Except.ok (Prod.mk.inj h).1
  | error cause => cases (Prod.mk.inj h).2

theorem Buffer.end_le_of_write {buffer changed : Buffer} {offset : Nat} {octets : List UInt8}
    (h : buffer.write? offset octets = .ok changed) :
    offset + octets.length ≤ changed.length := by
  have hlength := length_write h
  unfold write? at h
  split_ifs at h with hfits
  omega

/-- What fills a place ends where the zeros begin. -/
theorem takeWhile_fitted {octets : List UInt8} {capacity : Nat} (hzero : 0 ∉ octets) :
    (fitted capacity octets).takeWhile (· ≠ 0) = octets.take capacity := by
  have hall : ∀ octet ∈ octets.take capacity, decide (octet ≠ 0) = true := by
    rintro octet hoctet
    exact decide_eq_true (ne_of_mem_of_not_mem (List.mem_of_mem_take hoctet) hzero)
  unfold fitted
  rw [List.takeWhile_append_of_pos hall]
  cases capacity - octets.length with
  | zero => rw [List.replicate_zero, List.takeWhile_nil, List.append_nil]
  | succ left => rw [List.replicate_succ, List.takeWhile_cons_of_neg (by decide), List.append_nil]

namespace Field

variable {mismatch : DecodeError} {buffer changed : Buffer} {base : Nat}

/-- **A text in a fixed place** is read from those of its octets that fit. -/
theorem read_write_cut {capacity : Nat} {text : String} (hpos : 1 ≤ capacity)
    (hzero : '\x00' ∉ text.toList)
    (h : (Field.string (some capacity)).write mismatch buffer base (.text text) =
      (changed, .ok ())) :
    (Field.string (some capacity)).read changed base =
      .ok (.text (String.ofList (Text.Utf8.decode
        ((Text.Utf8.encode text.toList).take capacity)))) := by
  have hwrite : encodeString buffer (some capacity) base text = .ok changed := wholeWrite_eq_ok h
  unfold encodeString at hwrite
  dsimp only at hwrite
  split_ifs at hwrite with hfits
  have hset := liftFault_eq_ok hwrite
  have hread := Buffer.read?_of_write hset
  have hend := Buffer.end_le_of_write hset
  rw [length_fitted] at hread hend
  show decodeString changed (some capacity) base = _
  unfold decodeString
  dsimp only
  rw [if_neg (by omega), Nat.min_eq_left (by omega), hread]
  show Except.ok (Value.text (String.ofList (Text.Utf8.decode _))) = _
  rw [takeWhile_fitted (Text.Utf8.zero_not_mem_encode hzero)]

/-- **A text that fits** is read back from its place. -/
theorem read_write_fixed {capacity : Nat} {text : String} (hpos : 1 ≤ capacity)
    (hlength : (Text.Utf8.encode text.toList).length ≤ capacity) (hzero : '\x00' ∉ text.toList)
    (h : (Field.string (some capacity)).write mismatch buffer base (.text text) =
      (changed, .ok ())) :
    (Field.string (some capacity)).read changed base = .ok (.text text) := by
  rw [read_write_cut hpos hzero h, List.take_of_length_le hlength, Text.Utf8.decode_encode,
    String.ofList_toList]

/-- **A time** is read back. -/
theorem read_write_time {zone : BitVec 64} {octets : List UInt8} (hlength : octets.length = 8)
    (hlimit : changed.length < wordLimit)
    (h : (Field.times false zone 1).write mismatch buffer base (.bytes octets) =
      (changed, .ok ())) :
    (Field.times false zone 1).read changed base = .ok (.bytes octets) := by
  have hset := liftFault_eq_ok (wholeWrite_eq_ok h)
  have hread := Buffer.read?_of_write hset
  have hend := Buffer.end_le_of_write hset
  rw [hlength] at hread hend
  have hfirst : decodeTime changed false zone base 0 = .ok (.bytes octets) := by
    unfold decodeTime
    rw [elementOffset_eq_ok (by omega), Nat.zero_mul, Nat.add_zero]
    show (liftFault (changed.read? base 8) >>= _) = _
    rw [hread]
    rfl
  rw [read, readChecked, elementOffset_eq_ok (by omega), readElements, hfirst]
  rfl

end Field

/-! ## Elements -/

/-- Elements that are written are written each. -/
theorem exists_of_writeElements {write : Buffer → Nat → Value → Except DecodeError Buffer}
    {buffer changed : Buffer} {values : List Value} {index : Nat}
    (h : writeElements write buffer index values = (changed, .ok ())) {value : Value}
    (hvalue : value ∈ values) : ∃ before place after, write before place value = .ok after := by
  induction values generalizing buffer index with
  | nil => cases hvalue
  | cons first rest ih =>
    unfold writeElements at h
    split at h
    · next next hnext =>
      rcases List.mem_cons.mp hvalue with rfl | hvalue
      · exact ⟨buffer, index, next, hnext⟩
      · exact ih h hvalue
    · cases (Prod.mk.inj h).2

theorem encodeElements_eq_ok {write : Buffer → Nat → Value → Except DecodeError Buffer}
    {buffer changed : Buffer} {elements : Nat} {value : Value}
    (h : encodeElements write buffer elements value = (changed, .ok ())) :
    value.elements.length = elements ∧
      ∀ element ∈ value.elements, ∃ before place after, write before place element = .ok after := by
  unfold encodeElements at h
  split_ifs at h with hcount
  · exact ⟨hcount, fun element helement => exists_of_writeElements h helement⟩
  · cases (Prod.mk.inj h).2

theorem encodeElements_of_count {write : Buffer → Nat → Value → Except DecodeError Buffer}
    {buffer : Buffer} {elements : Nat} {value : Value} (h : value.elements.length ≠ elements) :
    encodeElements write buffer elements value =
      (buffer, .error (.elementCount elements value.elements.length)) :=
  if_neg h

/-- A number that is written is converted to the type. -/
theorem exists_of_encodeScalar {mismatch : DecodeError} {type : ScalarType} {base index : Nat}
    {buffer changed : Buffer} {value : Value}
    (h : encodeScalar mismatch type base buffer index value = .ok changed) :
    ∃ written stored, value = .number written ∧ written.as? type = some stored ∧
      value.asScalar type = .number stored := by
  unfold encodeScalar at h
  split at h
  · next written =>
    split at h
    · next stored hstored =>
      exact ⟨written, stored, rfl, hstored, by rw [Value.asScalar, hstored, Option.getD_some]⟩
    · cases h
  · cases h

/-! ## What comes back -/

/-- **The same integer**, read back as a scalar of a type. -/
def Value.SameInteger (type : ScalarType) (written found : Value) : Prop :=
  ∃ s t n, written = .number s ∧ found = .number t ∧ t.type = type ∧
    s.toInt? = some n ∧ t.toInt? = some n

/-- **The float that a number is stored as.** A float of the type itself is stored bit by bit,
unless it is a NaN. -/
def Value.StoredFloat (type : ScalarType) (written found : Value) : Prop :=
  ∃ s t, written = .number s ∧ found = .number t ∧ t.type = type ∧ s.as? type = some t ∧
    (s.type = type → s.isNan = false → t = s)

/-- **What comes back of a value that was written**, by its declared type. One element stands alone,
several make an array, in their order. -/
structure Descriptor.GivesBack (d : Descriptor) (options : DecodeOptions) (value : Value)
    (changed : Buffer) : Prop where
  flags : d.type = .bool → decode changed d options = .ok (.ofItems value.elements)
  integers : ∀ {signed width}, d.type ≠ .time →
    ScalarType.ofDataType? d.type = some (.integer signed width) →
    ∃ items, List.Forall₂ (Value.SameInteger (.integer signed width)) value.elements items ∧
      decode changed d options = .ok (.ofItems items)
  floats : ∀ {type}, d.type = .real ∨ d.type = .lreal →
    ScalarType.ofDataType? d.type = some type →
    ∃ items, List.Forall₂ (Value.StoredFloat type) value.elements items ∧
      decode changed d options = .ok (.ofItems items)
  countedText : d.type = .string → d.stringCapacity? options = none →
    decode changed d options = .ok value
  fixedText : ∀ {capacity text}, d.type = .string → d.stringCapacity? options = some capacity →
    value = .text text → 1 ≤ capacity → (Text.Utf8.encode text.toList).length ≤ capacity →
    '\x00' ∉ text.toList → decode changed d options = .ok value
  time : ∀ {octets}, d.type = .time → d.elements = 1 → value = .bytes octets →
    octets.length = 8 → decode changed d options = .ok value
  octets : ∀ {octets}, d.type = .udt → value = .bytes octets →
    octets.length = d.attributes.readSize.getD (changed.length - d.base options) →
    decode changed d options = .ok value

/-- Does a declared type hold an integer? Floats hold every one, flags, texts and structures none. -/
def DataType.Holds (type : DataType) (n : Int) : Prop :=
  ∃ stored, ScalarType.ofDataType? type = some stored ∧
    ∀ low high, Scalar.bounds? stored = some (low, high) → low ≤ n ∧ n ≤ high

/-- The types of flags and numbers. -/
def DataType.isElementary : DataType → Bool
  | .string | .udt | .time => false
  | _ => true

theorem eq_bool_or_scalars {type : DataType} (h : type.isElementary) : type = .bool ∨
    type ≠ .time ∧ ∃ stored, ScalarType.ofDataType? type = some stored := by
  cases type
  case bool => exact Or.inl rfl
  case string | udt | time => cases h
  all_goals exact Or.inr ⟨by decide, _, rfl⟩

section

variable {buffer changed : Buffer} {d : Descriptor} {value : Value} {options : DecodeOptions}
  {type : ScalarType}

/-- The field of a descriptor of numbers. -/
theorem Descriptor.field_of_scalars (hscalars : ScalarType.ofDataType? d.type = some type)
    (htime : d.type ≠ .time) : d.field options = .scalars type d.elements := by
  unfold field
  cases htype : d.type <;> rw [htype] at hscalars htime
  case time => exact absurd rfl htime
  all_goals cases hscalars
  all_goals rfl

/-- **Numbers come back** as they are stored. -/
theorem decode_scalars (hscalars : ScalarType.ofDataType? d.type = some type)
    (htime : d.type ≠ .time) (hlimit : changed.length < wordLimit)
    (h : encode buffer d value options = (changed, .ok ())) :
    ∃ items, List.Forall₂ (fun written found => ∃ s t, written = .number s ∧ found = .number t ∧
        s.as? type = some t) value.elements items ∧
      decode changed d options = .ok (.ofItems items) := by
  rw [encode_eq_write, Descriptor.field_of_scalars hscalars htime] at h
  rw [decode_eq_read, Descriptor.field_of_scalars hscalars htime]
  refine ⟨value.elements.map (Value.asScalar type), ?_,
    Field.read_write_scalars (Nat.le_max_right d.count 1) hlimit h⟩
  rw [List.forall₂_map_right_iff, List.forall₂_same]
  intro element helement
  obtain ⟨-, heach⟩ := encodeElements_eq_ok h
  obtain ⟨before, place, after, hwrite⟩ := heach element helement
  obtain ⟨written, stored, hwritten, hconverted, hstored⟩ := exists_of_encodeScalar hwrite
  exact ⟨written, stored, hwritten, hstored, hconverted⟩

/-- **What was written comes back.** -/
theorem givesBack_of_encode (hraw : d.attributes.readAsString = false)
    (hlimit : changed.length < wordLimit)
    (h : encode buffer d value options = (changed, .ok ())) : d.GivesBack options value changed where
  flags htype := by
    rw [encode_eq_write, Descriptor.field, htype] at h
    rw [decode_eq_read, Descriptor.field, htype]
    exact Field.read_write_flags h
  integers {signed width} htime hscalars := by
    obtain ⟨items, hitems, hdecode⟩ := decode_scalars hscalars htime hlimit h
    refine ⟨items, hitems.imp ?_, hdecode⟩
    rintro written found ⟨s, t, hwritten, hfound, hconverted⟩
    obtain ⟨n, hs, ht⟩ := Scalar.toInt?_of_as? hconverted
    exact ⟨s, t, n, hwritten, hfound, Scalar.type_as? hconverted, hs, ht⟩
  floats {type} htype hscalars := by
    have htime : d.type ≠ .time := by
      rcases htype with htype | htype <;> rw [htype] <;> decide
    obtain ⟨items, hitems, hdecode⟩ := decode_scalars hscalars htime hlimit h
    refine ⟨items, hitems.imp ?_, hdecode⟩
    rintro written found ⟨s, t, hwritten, hfound, hconverted⟩
    refine ⟨s, t, hwritten, hfound, Scalar.type_as? hconverted, hconverted, ?_⟩
    rintro rfl hnumber
    rw [Scalar.as?_self hnumber] at hconverted
    exact (Option.some.inj hconverted).symm
  countedText htype hcapacity := by
    rw [encode_eq_write, Descriptor.field, htype] at h
    rw [decode_eq_read, Descriptor.field, htype]
    dsimp only at h ⊢
    rw [hcapacity] at h ⊢
    exact Field.read_write_string h
  fixedText {capacity text} htype hcapacity hvalue hpos hlength hzero := by
    subst hvalue
    rw [encode_eq_write, Descriptor.field, htype] at h
    rw [decode_eq_read, Descriptor.field, htype]
    dsimp only at h ⊢
    rw [hcapacity] at h ⊢
    exact Field.read_write_fixed hpos hlength hzero h
  time {octets} htype hone hvalue hlength := by
    subst hvalue
    rw [encode_eq_write, Descriptor.field, htype] at h
    rw [decode_eq_read, Descriptor.field, htype]
    dsimp only at h ⊢
    rw [hraw, hone] at h ⊢
    exact Field.read_write_time hlength hlimit h
  octets {octets} htype hvalue hlength := by
    rw [encode_eq_write, Descriptor.field, htype] at h
    rw [decode_eq_read, Descriptor.field, htype]
    refine Field.read_write_octets (fun found hfound => ?_) h
    rw [← Value.bytes.inj (hvalue.symm.trans hfound)]
    exact hlength

/-- Flags and numbers are written element by element. -/
theorem exists_encodeElements (helementary : d.type.isElementary) :
    ∃ write, encode buffer d value options = encodeElements write buffer d.elements value ∧
      ∀ {before place after s n}, write before place (.number s) = .ok after →
        s.toInt? = some n → d.type.Holds n := by
  rw [encode_eq_write]
  rcases eq_bool_or_scalars helementary with htype | ⟨htime, type, hscalars⟩
  · rw [Descriptor.field, htype]
    refine ⟨_, rfl, ?_⟩
    intro before place after s n hwrite
    cases hwrite
  · rw [Descriptor.field_of_scalars hscalars htime]
    refine ⟨_, rfl, ?_⟩
    intro before place after s n hwrite hn
    refine ⟨type, hscalars, fun low high hbounds => ?_⟩
    by_contra hout
    obtain ⟨written, stored, hwritten, hconverted, -⟩ := exists_of_encodeScalar hwrite
    rw [← Value.number.inj hwritten, Scalar.as?_eq_none hbounds hn (by omega)] at hconverted
    cases hconverted

/-- **Encoding, then decoding.** What was written comes back; a wrong number of elements, or an
integer that the type does not hold, is refused. -/
theorem decode_after_encode (buffer : Buffer) (d : Descriptor) (value : Value)
    (options : DecodeOptions) (hraw : d.attributes.readAsString = false)
    (hbuffer : buffer.length < wordLimit) :
    (∀ changed, encode buffer d value options = (changed, .ok ()) →
      d.GivesBack options value changed) ∧
    (d.type.isElementary → value.elements.length ≠ d.elements →
      ∃ cause, encode buffer d value options = (buffer, .error cause)) ∧
    ∀ s n, d.type.isElementary → .number s ∈ value.elements → s.toInt? = some n →
      ¬ d.type.Holds n → ∃ cause, (encode buffer d value options).2 = .error cause := by
  refine ⟨fun changed h => givesBack_of_encode hraw ?_ h, fun helementary hcount => ?_,
    fun s n helementary hmem hn hholds => ?_⟩
  · have hlength := (sameOn_encode buffer d value options).length_eq
    rw [h] at hlength
    exact hlength.trans_lt hbuffer
  · obtain ⟨write, hwrite, -⟩ := exists_encodeElements helementary
    exact ⟨_, hwrite.trans (encodeElements_of_count hcount)⟩
  · obtain ⟨write, hwrite, hnumber⟩ := exists_encodeElements helementary
    cases hcase : encode buffer d value options with
    | mk changed outcome =>
      cases outcome with
      | error cause => exact ⟨cause, rfl⟩
      | ok done =>
        rw [hcase] at hwrite
        obtain ⟨-, heach⟩ := encodeElements_eq_ok hwrite.symm
        obtain ⟨before, place, after, hafter⟩ := heach _ hmem
        exact absurd (hnumber hafter hn) hholds

end

/-- Two levels of a tank, numbers of two octets behind a head of two. -/
def tankLevels : Descriptor where
  poller := none
  tag := "Tank.Levels"
  startIndex := none
  type := .int
  count := 2
  source := .literal 2
  offset := 2
  bitAddressed := false
  attributes := .defaults false
  extras := ""

/-- Minus two and two hundred, as numbers of other widths. -/
def newLevels : Value :=
  .array [.number ⟨.integer true .four, -2⟩, .number ⟨.integer false .one, 200⟩]

/-- A level that two octets do not hold. -/
def highLevel : Scalar := ⟨.integer true .four, 70000⟩

theorem decode_after_encode_levels :
    tankLevels.GivesBack ⟨true, 0⟩ newLevels [0, 0, 0xFE, 0xFF, 0xC8, 0] ∧
      (∃ cause, encode (octets 6 0) tankLevels (.number highLevel) ⟨true, 0⟩ =
        (octets 6 0, .error cause)) ∧
      ∃ cause, (encode (octets 6 0) tankLevels (.array [.number highLevel, .number highLevel])
        ⟨true, 0⟩).2 = .error cause := by
  have hlow : ¬ tankLevels.type.Holds 70000 := by
    rintro ⟨stored, hstored, hbounds⟩
    cases hstored
    exact absurd (hbounds _ _ rfl).2 (by decide)
  have hround := fun value => decode_after_encode (octets 6 0) tankLevels value ⟨true, 0⟩ rfl
    (by decide)
  exact ⟨(hround newLevels).1 _ (by with_unfolding_all rfl),
    (hround (.number highLevel)).2.1 rfl (by decide),
    (hround _).2.2 highLevel 70000 rfl List.mem_cons_self rfl hlow⟩

end PlcTags

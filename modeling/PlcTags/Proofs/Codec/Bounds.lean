import PlcTags.Proofs.Codec.RoundTrip

/-!
# Decoding inside a buffer

A value is decoded exactly if its field lies in the buffer, and it depends on the bits of the field
alone. Addresses have 64 bits: those of a field that lies in the buffer are all there, and a field
whose end has no address is refused before anything is read at a smaller one.

* `Decides`: a condition decides between a result and one cause.
* `decides_elements`: elements that follow each other, the last of which decides.
* `Field.LiesIn`, `Field.Reads`: the field lies in the buffer, and the bits that it has there.
* `Field.refusal`: why a field is refused that does not.
* `Field.decides_read`, `Field.read_eq_of_reads`: the two halves, field by field.
* `decode_exact`: **decoding reads exactly its field**.
-/

namespace PlcTags

open PlcTags.Number (twoTo)
open PlcTags.Text (wordLimit)

/-! ## Decided outcomes -/

/-- **A condition decides an outcome**: there is a result if it holds, and else one cause. -/
structure Decides {α ε : Type} (condition : Prop) (cause : ε) (outcome : Except ε α) : Prop where
  success : condition → ∃ a, outcome = .ok a
  failure : ¬ condition → outcome = .error cause

namespace Decides

variable {α β ε : Type} {p q : Prop} {cause : ε} {x : Except ε α}

theorem exists_ok_iff (h : Decides p cause x) : (∃ a, x = .ok a) ↔ p := by
  constructor
  · rintro ⟨a, rfl⟩
    by_contra hp
    cases h.failure hp
  · exact h.success

theorem congr (h : Decides p cause x) (hpq : p ↔ q) : Decides q cause x where
  success hq := h.success (hpq.mpr hq)
  failure hq := h.failure fun hp => hq (hpq.mp hp)

/-- What follows and always succeeds decides nothing. -/
theorem bind {f : α → Except ε β} (h : Decides p cause x) (hf : ∀ a, ∃ b, f a = .ok b) :
    Decides p cause (x >>= f) where
  success hp := by
    obtain ⟨a, rfl⟩ := h.success hp
    exact hf a
  failure hp := by
    rw [h.failure hp]
    rfl

theorem map (f : α → β) (h : Decides p cause x) : Decides p cause (x.map f) where
  success hp := by
    obtain ⟨a, rfl⟩ := h.success hp
    exact ⟨f a, rfl⟩
  failure hp := by
    rw [h.failure hp]
    rfl

theorem liftFault {fault : TagFault} {x : Except TagFault α} (h : Decides p fault x) :
    Decides p (.buffer fault) (PlcTags.liftFault x) where
  success hp := by
    obtain ⟨a, rfl⟩ := h.success hp
    exact ⟨a, rfl⟩
  failure hp := by
    rw [h.failure hp]
    rfl

end Decides

theorem Buffer.decides_read? (buffer : Buffer) (offset length : Nat) :
    Decides (offset + length ≤ buffer.length) .outOfBounds (buffer.read? offset length) where
  success hfits := ⟨_, if_pos hfits⟩
  failure hfits := if_neg hfits

theorem Buffer.decides_bit? (buffer : Buffer) (index : Nat) :
    Decides (index < 8 * buffer.length) .outOfBounds (buffer.bit? index) where
  success := exists_bit?
  failure hout := by
    unfold bit?
    rw [List.getElem?_eq_none (by omega)]

/-- Elements from an index on are read if each can be, when each is decided as soon as those before
it can be read. -/
theorem decides_readElements {read : Nat → Except DecodeError Value} {cause : DecodeError}
    (p : Nat → Prop) (left index : Nat)
    (h : ∀ i < left, (∀ j < i, p (index + j)) → Decides (p (index + i)) cause (read (index + i))) :
    Decides (∀ i < left, p (index + i)) cause (readElements read left index) := by
  induction left generalizing index with
  | zero =>
    refine ⟨fun _ => ⟨[], rfl⟩, fun hp => (hp fun i hi => ?_).elim⟩
    cases hi
  | succ left ih =>
    have hshift : ∀ i, index + 1 + i = index + (i + 1) := fun i => by omega
    have hfirst : Decides (p index) cause (read index) :=
      h 0 (Nat.succ_pos _) fun _ hj => absurd hj (Nat.not_lt_zero _)
    by_cases hp : p index
    · -- the first is read, and the rest decides
      obtain ⟨value, hvalue⟩ := hfirst.success hp
      have hrest := ih (index + 1) fun i hi hbefore => by
        rw [hshift]
        refine h (i + 1) (Nat.succ_lt_succ hi) fun j hj => ?_
        cases j with
        | zero => exact hp
        | succ j => exact hshift j ▸ hbefore j (Nat.lt_of_succ_lt_succ hj)
      rw [readElements, hvalue]
      refine (hrest.bind fun rest => ⟨value :: rest, rfl⟩).congr
        ⟨fun hall i hi => ?_, fun hall i hi => ?_⟩
      · cases i with
        | zero => exact hp
        | succ i => exact hshift i ▸ hall i (Nat.lt_of_succ_lt_succ hi)
      · exact hshift i ▸ hall (i + 1) (Nat.succ_lt_succ hi)
    · refine ⟨fun hall => absurd (hall 0 (Nat.succ_pos _)) hp, fun _ => ?_⟩
      rw [readElements, hfirst.failure hp]
      rfl

/-- **Elements one after the other** are read if the last of them can be, as those before the last
can be too. -/
theorem decides_elements {read : Nat → Except DecodeError Value} {cause : DecodeError}
    {elements : Nat} (p : Nat → Prop) (hpos : 0 < elements) (hdown : ∀ i j, i ≤ j → p j → p i)
    (h : ∀ i < elements, (∀ j < i, p j) → Decides (p i) cause (read i)) :
    Decides (p (elements - 1)) cause (readElements read elements 0) := by
  have hall : Decides (∀ i < elements, p (0 + i)) cause (readElements read elements 0) := by
    refine decides_readElements p elements 0 fun i hi hbefore => ?_
    rw [Nat.zero_add]
    exact h i hi fun j hj => Nat.zero_add j ▸ hbefore j hj
  refine hall.congr ⟨fun hp => ?_, fun hp i hi => ?_⟩
  · exact Nat.zero_add (elements - 1) ▸ hp (elements - 1) (Nat.sub_one_lt_of_lt hpos)
  · exact hdown (0 + i) (elements - 1) (by omega) hp

/-! ## The place of a field -/

namespace Field

/-- **A field lies in a buffer** from a place on: its last flag does, or its octets do. A counted
string tells in its first two octets how many follow; a structure without a read size is all that
is left. A fixed string has at least one octet. -/
def LiesIn (buffer : Buffer) (base : Nat) : Field → Prop
  | .flags true elements => base + elements - 1 < 8 * buffer.length
  | .flags false elements => base + 2 * (elements - 1) < buffer.length
  | .scalars type elements => base + elements * type.bytes ≤ buffer.length
  | .times _ _ elements => base + elements * 8 ≤ buffer.length
  | .string (some capacity) => 0 < capacity ∧ base + capacity ≤ buffer.length
  | .string none => base + (2 + ofOctets ((buffer.drop base).take 2)) ≤ buffer.length
  | .octets readSize => base + readSize.getD (buffer.length - base) ≤ buffer.length

/-- **The bits that a field has** in a buffer from a place on: one for each flag, and else those of
its octets. -/
def Reads (buffer : Buffer) (base bit : Nat) : Field → Prop
  | .flags inBits elements => ∃ index < elements,
    bit = if inBits then base + index else 8 * (base + index * 2)
  | .scalars type elements => InOctets base (elements * type.bytes) bit
  | .times _ _ elements => InOctets base (elements * 8) bit
  | .string (some capacity) => InOctets base capacity bit
  | .string none => InOctets base (2 + ofOctets ((buffer.drop base).take 2)) bit
  | .octets readSize => InOctets base (readSize.getD (buffer.length - base)) bit

/-- **Why a field is refused** that does not lie in the buffer: its end has no address, or it is
behind the end of the buffer. -/
def refusal (size base : Nat) : Field → DecodeError
  | .flags inBits _ =>
    if inBits ∨ 8 * base < wordLimit then .buffer .outOfBounds else .offsetOverflow base 0
  | .scalars type elements =>
    if base + elements * type.bytes < wordLimit then .buffer .outOfBounds
    else .offsetOverflow base elements
  | .times _ _ elements =>
    if base + elements * 8 < wordLimit then .buffer .outOfBounds
    else .offsetOverflow base elements
  | .string (some capacity) => .outOfRange base capacity size
  | .string none => .buffer .outOfBounds
  | .octets readSize => .outOfRange base (readSize.getD (size - base)) size

end Field

/-! ## Fields that are read -/

section

variable {buffer : Buffer} {base index elements : Nat}

theorem decides_decodeFlag {inBits : Bool} {position : Nat}
    (h : flagBit inBits base index = .ok position) :
    Decides (position < 8 * buffer.length) (.buffer .outOfBounds)
      (decodeFlag buffer inBits base index) := by
  unfold decodeFlag
  rw [h]
  exact (buffer.decides_bit? position).liftFault.bind fun flag => ⟨.bool flag, rfl⟩

/-- The buffer is so short that a bit behind it still has an address. -/
theorem decides_flags_inBits (hpos : 0 < elements) (hsize : 8 * buffer.length < wordLimit)
    (hbase : base < wordLimit) :
    Decides (base + elements - 1 < 8 * buffer.length) (.buffer .outOfBounds)
      (readElements (decodeFlag buffer true base) elements 0) := by
  have hflag : ∀ i, (∀ j < i, base + j < 8 * buffer.length) →
      Decides (base + i < 8 * buffer.length) (.buffer .outOfBounds)
        (decodeFlag buffer true base i) := by
    intro i hbefore
    have haddress : base + i < wordLimit := by
      cases i with
      | zero => exact hbase
      | succ i => have := hbefore i (Nat.lt_succ_self i); omega
    refine decides_decodeFlag ?_
    unfold flagBit
    rw [if_pos rfl, if_pos haddress]
  have hlast := decides_elements (fun i => base + i < 8 * buffer.length) hpos
    (fun i j hij hj => by omega) fun i _ => hflag i
  exact hlast.congr (by omega)

/-- A flag in octets has an address as soon as the octet of the flag before it has one. -/
theorem decides_flags_inOctets (hpos : 0 < elements) (hsize : 8 * buffer.length + 16 ≤ wordLimit)
    (hbase : base < wordLimit) :
    Decides (base + 2 * (elements - 1) < buffer.length)
      (if 8 * base < wordLimit then .buffer .outOfBounds else .offsetOverflow base 0)
      (readElements (decodeFlag buffer false base) elements 0) := by
  have hoffset : ∀ {i}, base + i * 2 < wordLimit → flagBit false base i =
      if 8 * (base + i * 2) < wordLimit then .ok (8 * (base + i * 2))
      else .error (.offsetOverflow base i) := by
    intro i hi
    unfold flagBit
    rw [if_neg Bool.false_ne_true, elementOffset_eq_ok hi]
  have hflag : ∀ i, (∀ j < i, base + j * 2 < buffer.length) →
      Decides (base + i * 2 < buffer.length)
        (if 8 * base < wordLimit then .buffer .outOfBounds else .offsetOverflow base 0)
        (decodeFlag buffer false base i) := by
    intro i hbefore
    by_cases haddress : 8 * (base + i * 2) < wordLimit
    · have hposition : flagBit false base i = .ok (8 * (base + i * 2)) := by
        rw [hoffset (by omega), if_pos haddress]
      rw [if_pos (by omega)]
      exact (decides_decodeFlag hposition).congr (by omega)
    · -- only the first flag can have no address
      cases i with
      | succ i => have := hbefore i (Nat.lt_succ_self i); omega
      | zero =>
        rw [if_neg (by omega)]
        refine ⟨fun hin => by omega, fun _ => ?_⟩
        unfold decodeFlag
        rw [hoffset (by omega), if_neg haddress]
        rfl
  have hlast := decides_elements (fun i => base + i * 2 < buffer.length) hpos
    (fun i j hij hj => by omega) fun i _ => hflag i
  exact hlast.congr (by omega)

/-- **Elements of some width** are read if the last of them lies in the buffer. All of them have
addresses if their end has one. -/
theorem Field.decides_readChecked {read : Nat → Except DecodeError Value} {width : Nat}
    (hpos : 0 < elements) (hsize : buffer.length < wordLimit)
    (hread : ∀ index < elements, base + index * width < wordLimit →
      Decides (base + index * width + width ≤ buffer.length) (.buffer .outOfBounds) (read index)) :
    Decides (base + elements * width ≤ buffer.length)
      (if base + elements * width < wordLimit then .buffer .outOfBounds
        else .offsetOverflow base elements)
      (readChecked read base elements width) := by
  by_cases haddress : base + elements * width < wordLimit
  · have hend : (elements - 1) * width + width = elements * width := by
      rw [← Nat.succ_mul, Nat.succ_eq_add_one, Nat.sub_add_cancel hpos]
    have hlast := decides_elements (fun i => base + i * width + width ≤ buffer.length) hpos
      (fun i j hij hj => by have := Nat.mul_le_mul_right width hij; omega)
      fun i hi _ => hread i hi (by have := element_le width hi; omega)
    rw [if_pos haddress, readChecked, elementOffset_eq_ok haddress]
    exact (hlast.bind fun values => ⟨Value.ofItems values, rfl⟩).congr (by omega)
  · rw [if_neg haddress]
    refine ⟨fun hin => by omega, fun _ => ?_⟩
    have hoverflow : elementOffset base elements width = .error (.offsetOverflow base elements) :=
      if_neg fun hfits => haddress hfits.2
    rw [readChecked, hoverflow]
    rfl

theorem decides_decodeScalar {type : ScalarType} (h : base + index * type.bytes < wordLimit) :
    Decides (base + index * type.bytes + type.bytes ≤ buffer.length) (.buffer .outOfBounds)
      (decodeScalar buffer type base index) := by
  unfold decodeScalar
  rw [elementOffset_eq_ok h]
  exact ((buffer.decides_read? _ _).map (Scalar.ofOctets type)).liftFault.bind
    fun scalar => ⟨.number scalar, rfl⟩

theorem decides_decodeTime {zone : BitVec 64} (h : base + index * 8 < wordLimit) :
    Decides (base + index * 8 + 8 ≤ buffer.length) (.buffer .outOfBounds)
      (decodeTime buffer false zone base index) := by
  unfold decodeTime
  rw [elementOffset_eq_ok h]
  exact (buffer.decides_read? _ _).liftFault.bind fun octets => ⟨Value.bytes octets, rfl⟩

/-- A counted string lies in the buffer if its length does, and then as many octets. -/
theorem Buffer.decides_string? (buffer : Buffer) (base : Nat) :
    Decides (base + (2 + ofOctets ((buffer.drop base).take 2)) ≤ buffer.length) .outOfBounds
      (buffer.string? base) := by
  unfold string?
  by_cases hcount : base + 2 ≤ buffer.length
  · have hread : buffer.read? base 2 = .ok ((buffer.drop base).take 2) := if_pos hcount
    rw [hread]
    exact ((buffer.decides_read? (base + 2) _).bind fun content => ⟨_, rfl⟩).congr (by omega)
  · refine ⟨fun hin => by omega, fun _ => ?_⟩
    rw [(buffer.decides_read? base 2).failure hcount]
    rfl

theorem decides_decodeUdt (buffer : Buffer) (readSize : Option Nat) (base : Nat) :
    Decides (base + readSize.getD (buffer.length - base) ≤ buffer.length)
      (.outOfRange base (readSize.getD (buffer.length - base)) buffer.length)
      (decodeUdt buffer readSize base) where
  success hin := by
    obtain ⟨content, hcontent⟩ := (buffer.decides_read? base _).success hin
    unfold decodeUdt
    dsimp only
    rw [if_pos hin, hcontent]
    exact ⟨.bytes content, rfl⟩
  failure hout := if_neg hout

end

/-- **Is a field decided by its place?** Texts of times can be out of the range of the calendar, and
strings of some capacity are cut at the end of the buffer. -/
def Field.isPlaced : Field → Bool
  | .times asText _ _ => !asText
  | .string capacity => capacity.isNone
  | _ => true

/-- How many elements a field has, if it is made of elements. -/
def Field.elements : Field → Nat
  | .flags _ elements | .scalars _ elements | .times _ _ elements => elements
  | .string _ | .octets _ => 1

/-- **A field is read if it lies in the buffer**, and is refused if it does not. -/
theorem Field.decides_read {f : Field} {buffer : Buffer} {base : Nat} (hplaced : f.isPlaced)
    (hpos : 0 < f.elements) (hsize : 8 * buffer.length + 16 ≤ wordLimit)
    (hbase : base < wordLimit) :
    Decides (f.LiesIn buffer base) (f.refusal buffer.length base) (f.read buffer base) := by
  cases f with
  | flags inBits elements =>
    cases inBits with
    | true => exact (decides_flags_inBits hpos (by omega) hbase).map Value.ofItems
    | false =>
      unfold refusal
      simp only [Bool.false_eq_true, false_or]
      exact (decides_flags_inOctets hpos hsize hbase).map Value.ofItems
  | scalars type elements =>
    exact decides_readChecked hpos (by omega) fun _ _ => decides_decodeScalar
  | times asText zone elements =>
    cases asText with
    | true => cases hplaced
    | false => exact decides_readChecked hpos (by omega) fun _ _ => decides_decodeTime
  | string capacity =>
    cases capacity with
    | some capacity => cases hplaced
    | none => exact (buffer.decides_string? base).liftFault.map Value.text
  | octets readSize => exact decides_decodeUdt buffer readSize base

/-! ## Fields that two buffers have -/

section

variable {a b : Buffer} {base length : Nat}

/-- Buffers with the same bits in a stretch that both have hold the same octets there. -/
theorem Buffer.agree_of_bits (ha : base + length ≤ a.length) (hb : base + length ≤ b.length)
    (h : ∀ bit, InOctets base length bit → a.bit? bit = b.bit? bit) :
    a.Agree base b base length where
  fits₁ := ha
  fits₂ := hb
  octet_eq i hi := getElem?_eq_of_bits (by omega) (by omega)
    fun k hk => h _ ⟨by omega, by omega⟩

/-- A counted string tells its length itself, so its bits need to agree in one of the buffers
only. -/
theorem Buffer.string?_eq_of_bits
    (ha : base + (2 + ofOctets ((a.drop base).take 2)) ≤ a.length)
    (hb : base + (2 + ofOctets ((b.drop base).take 2)) ≤ b.length)
    (h : ∀ bit, InOctets base (2 + ofOctets ((a.drop base).take 2)) bit →
      a.bit? bit = b.bit? bit) : a.string? base = b.string? base := by
  have hread : ∀ {buffer : Buffer}, base + 2 ≤ buffer.length →
      buffer.read? base 2 = .ok ((buffer.drop base).take 2) := fun hfits => if_pos hfits
  have hcount : (a.drop base).take 2 = (b.drop base).take 2 := by
    have hagree : a.Agree base b base 2 := agree_of_bits (by omega) (by omega) fun bit hbit => by
      have hlast := hbit.2
      exact h bit ⟨hbit.1, by omega⟩
    have hsame := hagree.read?_eq
    rw [hread (by omega), hread (by omega)] at hsame
    exact Except.ok.inj hsame
  rw [← hcount] at hb
  have hcontent : a.Agree (base + 2) b (base + 2) (ofOctets ((a.drop base).take 2)) :=
    (agree_of_bits ha hb h).part le_rfl
  unfold string?
  rw [hread (by omega), hread (by omega), ← hcount]
  show (a.read? (base + 2) _ >>= _) = (b.read? (base + 2) _ >>= _)
  rw [hcontent.read?_eq]

/-- A buffer has all the bits that it shares with another. -/
theorem Buffer.length_le_of_bits (ha : base ≤ a.length)
    (h : ∀ bit, InOctets base (b.length - base) bit → a.bit? bit = b.bit? bit) :
    b.length ≤ a.length := by
  by_contra hlonger
  obtain ⟨flag, hflag⟩ := exists_bit? (show 8 * a.length < 8 * b.length by omega)
  rw [← h _ ⟨by omega, by omega⟩] at hflag
  exact absurd (bit?_lt hflag) (lt_irrefl _)

/-- **What is read of a field depends on its bits alone**, in buffers that both have it. -/
theorem Field.read_eq_of_reads {f : Field} (ha : f.LiesIn a base) (hb : f.LiesIn b base)
    (hsizeA : a.length < wordLimit) (hsizeB : b.length < wordLimit)
    (h : ∀ bit, f.Reads a base bit ∨ f.Reads b base bit → a.bit? bit = b.bit? bit) :
    f.read a base = f.read b base := by
  cases f with
  | flags inBits elements =>
    rw [read, read]
    congr 1
    refine readElements_congr fun i hi => bind_congr_ok fun position hposition => ?_
    rw [Nat.zero_add] at hposition
    rw [h position (Or.inl ⟨i, hi, flagBit_eq hposition⟩)]
  | scalars type elements =>
    have hagree := Buffer.agree_of_bits ha hb fun bit hbit => h bit (Or.inl hbit)
    exact readChecked_eq hsizeA hsizeB hagree fun i hi => decodeScalar_eq hsizeA hsizeB hagree hi
  | times asText zone elements =>
    have hagree := Buffer.agree_of_bits ha hb fun bit hbit => h bit (Or.inl hbit)
    exact readChecked_eq hsizeA hsizeB hagree fun i hi => decodeTime_eq hsizeA hsizeB hagree hi
  | string capacity =>
    cases capacity with
    | some capacity =>
      have hagree := Buffer.agree_of_bits ha.2 hb.2 fun bit hbit => h bit (Or.inl hbit)
      exact decodeString_eq hagree ha.1
    | none =>
      show (liftFault (a.string? base)).map _ = (liftFault (b.string? base)).map _
      rw [Buffer.string?_eq_of_bits ha hb fun bit hbit => h bit (Or.inl hbit)]
  | octets readSize =>
    cases readSize with
    | some length =>
      exact decodeUdt_eq (Buffer.agree_of_bits ha hb fun bit hbit => h bit (Or.inl hbit))
    | none =>
      -- up to the ends they agree only if they end at one place
      have hends : a.length = b.length := by
        apply Nat.le_antisymm
        · refine Buffer.length_le_of_bits (Nat.le_of_add_right_le hb) fun bit hbit => ?_
          exact (h bit (Or.inl hbit)).symm
        · exact Buffer.length_le_of_bits (Nat.le_of_add_right_le ha) fun bit hbit =>
            h bit (Or.inr hbit)
      have hagree : a.Agree base b base (a.length - base) :=
        Buffer.agree_of_bits ha (hends ▸ ha) fun bit hbit => h bit (Or.inl hbit)
      show decodeUdt a (some (a.length - base)) base = decodeUdt b (some (b.length - base)) base
      rw [← hends, decodeUdt_eq hagree]

end

/-! ## Values -/

/-- The field of a descriptor lies in a buffer. -/
def Descriptor.LiesIn (d : Descriptor) (options : DecodeOptions) (buffer : Buffer) : Prop :=
  (d.field options).LiesIn buffer (d.base options)

/-- The bits that the field of a descriptor has in a buffer. -/
def Descriptor.Reads (d : Descriptor) (options : DecodeOptions) (buffer : Buffer) (bit : Nat) :
    Prop :=
  (d.field options).Reads buffer (d.base options) bit

section

variable {d : Descriptor} {options : DecodeOptions}

theorem Descriptor.base_le_offset (d : Descriptor) (options : DecodeOptions) :
    d.base options ≤ d.offset := by
  unfold base
  split_ifs
  · exact Nat.zero_le _
  · exact le_rfl

theorem Descriptor.elements_field_pos (d : Descriptor) (options : DecodeOptions) :
    0 < (d.field options).elements := by
  have hpos : 0 < d.elements := Nat.le_max_right d.count 1
  unfold field
  cases d.type
  case string | udt => exact Nat.one_pos
  all_goals exact hpos

theorem Descriptor.isPlaced_field (hstring : d.type = .string → d.stringCapacity? options = none)
    (htime : d.type = .time → d.attributes.readAsString = false) :
    (d.field options).isPlaced := by
  unfold field
  cases htype : d.type
  case string => exact Option.isNone_iff_eq_none.mpr (hstring htype)
  case time => exact congrArg not (htime htype)
  all_goals rfl

/-- **Decoding reads exactly its field.** It succeeds if the field lies in the buffer, and otherwise
fails with the cause that fits the exact address; strings that are cut at the end of the buffer and
texts of times apart. And what is decoded is the same in every buffer that has the same field. -/
theorem decode_exact (buffer : Buffer) (d : Descriptor) (options : DecodeOptions)
    (hsize : buffer.length < twoTo 60) (hoffset : d.offset < wordLimit) :
    ((d.type = .string → d.stringCapacity? options = none) →
      (d.type = .time → d.attributes.readAsString = false) →
      ((∃ value, decode buffer d options = .ok value) ↔ d.LiesIn options buffer) ∧
      (¬ d.LiesIn options buffer → decode buffer d options =
        .error ((d.field options).refusal buffer.length (d.base options)))) ∧
    ∀ other : Buffer, other.length < twoTo 60 →
      d.LiesIn options buffer → d.LiesIn options other →
      (∀ bit, d.Reads options buffer bit ∨ d.Reads options other bit →
        buffer.bit? bit = other.bit? bit) →
      decode buffer d options = decode other d options := by
  have hwords : 16 * twoTo 60 = wordLimit := by decide
  rw [decode_eq_read]
  refine ⟨fun hstring htime => ?_, fun other hother hin hin' hsame => ?_⟩
  · have hdecided : Decides _ _ ((d.field options).read buffer (d.base options)) :=
      Field.decides_read (d.isPlaced_field hstring htime) (d.elements_field_pos options) (by omega)
        ((d.base_le_offset options).trans_lt hoffset)
    exact ⟨hdecided.exists_ok_iff, hdecided.failure⟩
  · rw [decode_eq_read]
    exact Field.read_eq_of_reads hin hin' (by omega) (by omega) hsame

/-- Two levels are read up to the end of the buffer. They are refused when the buffer is one octet
shorter, and when they lie so far behind that the second one has no address. -/
theorem decode_exact_levels :
    (∃ value, decode (octets 6 0) tankLevels ⟨true, 0⟩ = .ok value) ∧
      decode (octets 5 0) tankLevels ⟨true, 0⟩ = .error (.buffer .outOfBounds) ∧
      decode (octets 6 0) { tankLevels with offset := wordLimit - 3 } ⟨true, 0⟩ =
        .error (.offsetOverflow (wordLimit - 3) 2) ∧
      decode [1, 2, 0, 0, 0, 0] tankLevels ⟨true, 0⟩ =
        decode [3, 4, 0, 0, 0, 0, 5] tankLevels ⟨true, 0⟩ := by
  have hnumbers : tankLevels.type ≠ .string ∧ tankLevels.type ≠ .time := by decide
  obtain ⟨hread, -⟩ := decode_exact (octets 6 0) tankLevels ⟨true, 0⟩ (by decide) (by decide)
  obtain ⟨hshort, -⟩ := decode_exact (octets 5 0) tankLevels ⟨true, 0⟩ (by decide) (by decide)
  obtain ⟨hfar, -⟩ := decode_exact (octets 6 0) { tankLevels with offset := wordLimit - 3 }
    ⟨true, 0⟩ (by decide) (by decide)
  obtain ⟨-, hsame⟩ := decode_exact [1, 2, 0, 0, 0, 0] tankLevels ⟨true, 0⟩ (by decide) (by decide)
  refine ⟨?_, ?_, ?_, ?_⟩
  · refine (hread (absurd · hnumbers.1) (absurd · hnumbers.2)).1.mpr ?_
    show 2 + 2 * 2 ≤ 6
    decide
  · refine (hshort (absurd · hnumbers.1) (absurd · hnumbers.2)).2 ?_
    show ¬ 2 + 2 * 2 ≤ 5
    decide
  · refine (hfar (absurd · hnumbers.1) (absurd · hnumbers.2)).2 ?_
    show ¬ wordLimit - 3 + 2 * 2 ≤ 6
    decide
  · refine hsame [3, 4, 0, 0, 0, 0, 5] (by decide) ?_ ?_ fun bit hbit => ?_
    · show 2 + 2 * 2 ≤ 6
      decide
    · show 2 + 2 * 2 ≤ 7
      decide
    · obtain ⟨hfirst, hlast⟩ : InOctets 2 (2 * 2) bit := hbit.elim id id
      refine Buffer.bit?_congr ?_
      have hoctet : bit / 8 = 2 ∨ bit / 8 = 3 ∨ bit / 8 = 4 ∨ bit / 8 = 5 := by omega
      rcases hoctet with h | h | h | h <;> rw [h] <;> rfl

end

end PlcTags

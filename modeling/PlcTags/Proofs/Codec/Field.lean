import Mathlib.Order.Nat
import PlcTags.Codec

/-!
# Fields

What a descriptor reads of a buffer, apart from where it reads it (`decode_eq_read`), and that
decoding depends on the octets of the field alone: two buffers that hold the same field, each at its
own place, decode alike (`Field.read_eq_of_agree`).

* `Field`: the five ways of decoding.
* `Field.Within`: the field is not empty and lies inside an area of a given size.
* `Buffer.Agree`, `Field.Agree`: the same octets, or bits, at two places.
* `Field.agree_of_area`: two places with the same area agree on every field within it.
-/

namespace PlcTags

open PlcTags.Text (wordLimit)

/-! ## Stretches of buffers -/

/-- **Two buffers hold the same octets**, each from its own position on. -/
structure Buffer.Agree (buffer₁ : Buffer) (position₁ : Nat) (buffer₂ : Buffer) (position₂ : Nat)
    (length : Nat) : Prop where
  fits₁ : position₁ + length ≤ buffer₁.length
  fits₂ : position₂ + length ≤ buffer₂.length
  octet_eq : ∀ i < length, buffer₁[position₁ + i]? = buffer₂[position₂ + i]?

namespace Buffer.Agree

variable {buffer₁ buffer₂ : Buffer} {position₁ position₂ length : Nat}

theorem part (h : buffer₁.Agree position₁ buffer₂ position₂ length) {offset inner : Nat}
    (hinner : offset + inner ≤ length) :
    buffer₁.Agree (position₁ + offset) buffer₂ (position₂ + offset) inner where
  fits₁ := by have := h.fits₁; omega
  fits₂ := by have := h.fits₂; omega
  octet_eq i hi := by
    rw [Nat.add_assoc, Nat.add_assoc]
    exact h.octet_eq (offset + i) (by omega)

theorem read?_eq (h : buffer₁.Agree position₁ buffer₂ position₂ length) :
    buffer₁.read? position₁ length = buffer₂.read? position₂ length := by
  unfold Buffer.read?
  rw [if_pos h.fits₁, if_pos h.fits₂]
  congr 1
  refine List.ext_getElem? fun i => ?_
  by_cases hi : i < length
  · rw [List.getElem?_take_of_lt hi, List.getElem?_take_of_lt hi, List.getElem?_drop,
      List.getElem?_drop, h.octet_eq i hi]
  · have hle : length ≤ i := Nat.le_of_not_lt hi
    rw [List.getElem?_eq_none ((List.length_take_le _ _).trans hle),
      List.getElem?_eq_none ((List.length_take_le _ _).trans hle)]

theorem bit?_eq (h : buffer₁.Agree position₁ buffer₂ position₂ length) {bit : Nat}
    (hbit : bit < 8 * length) :
    buffer₁.bit? (8 * position₁ + bit) = buffer₂.bit? (8 * position₂ + bit) := by
  unfold Buffer.bit?
  rw [show (8 * position₁ + bit) / 8 = position₁ + bit / 8 by omega,
    show (8 * position₂ + bit) / 8 = position₂ + bit / 8 by omega,
    h.octet_eq (bit / 8) (by omega), show (8 * position₁ + bit) % 8 = bit % 8 by omega,
    show (8 * position₂ + bit) % 8 = bit % 8 by omega]

end Buffer.Agree

theorem Buffer.exists_bit? {buffer : Buffer} {bit : Nat} (h : bit < 8 * buffer.length) :
    ∃ flag, buffer.bit? bit = .ok flag := by
  unfold Buffer.bit?
  rw [List.getElem?_eq_getElem (show bit / 8 < buffer.length by omega)]
  exact ⟨_, rfl⟩

/-! ## Fields -/

/-- **A way of decoding**: flags that lie at bits or in octets, scalars, times, a string with its
capacity, octets with their number. -/
inductive Field
  | flags (inBits : Bool) (elements : Nat)
  | scalars (type : ScalarType) (elements : Nat)
  | times (asText : Bool) (zone : BitVec 64) (elements : Nat)
  | string (capacity : Option Nat)
  | octets (readSize : Option Nat)

/-- What the decoder reads for a descriptor. -/
def Descriptor.field (d : Descriptor) (options : DecodeOptions) : Field :=
  match d.type, ScalarType.ofDataType? d.type with
  | .string, _ => .string (d.stringCapacity? options)
  | .udt, _ => .octets d.attributes.readSize
  | .bool, _ => .flags d.bitAddressed d.elements
  | .time, _ => .times d.attributes.readAsString options.zone d.elements
  | _, some type => .scalars type d.elements
  | _, none => .octets none

namespace Field

/-- Elements of which also the end has to have an address. -/
def readChecked (read : Nat → Except DecodeError Value) (base elements width : Nat) :
    Except DecodeError Value := do
  let _ ← elementOffset base elements width
  let values ← readElements read elements 0
  pure (.ofItems values)

/-- The value of a field at a place of a buffer. -/
def read (buffer : Buffer) (base : Nat) : Field → Except DecodeError Value
  | .flags inBits elements =>
    (readElements (decodeFlag buffer inBits base) elements 0).map .ofItems
  | .scalars type elements => readChecked (decodeScalar buffer type base) base elements type.bytes
  | .times asText zone elements => readChecked (decodeTime buffer asText zone base) base elements 8
  | .string capacity => decodeString buffer capacity base
  | .octets readSize => decodeUdt buffer readSize base

/-- Does the field count bits? -/
def inBits : Field → Bool
  | .flags inBits _ => inBits
  | _ => false

/-- The length of the field, in bits when it counts bits and else in octets. A flag in octets reads
the first of two. Counted strings and octets up to the end have none. -/
def length? : Field → Option Nat
  | .flags true elements => some elements
  | .flags false elements => some (2 * elements - 1)
  | .scalars type elements => some (elements * type.bytes)
  | .times _ _ elements => some (elements * 8)
  | .string capacity => capacity
  | .octets readSize => readSize

/-- What an octet counts in the unit of the field. -/
def scale (f : Field) : Nat := if f.inBits then 8 else 1

/-- **The field is not empty and lies inside** an area of `size` octets. -/
def Within (f : Field) (size base : Nat) : Prop :=
  ∃ length, f.length? = some length ∧ 0 < length ∧ base + length ≤ f.scale * size

/-- **Two buffers hold the same field**, each at its own place. -/
def Agree (f : Field) (buffer₁ : Buffer) (base₁ : Nat) (buffer₂ : Buffer) (base₂ : Nat) : Prop :=
  ∃ length, f.length? = some length ∧ 0 < length ∧
    if f.inBits then ∀ i < length, ∃ flag,
      buffer₁.bit? (base₁ + i) = .ok flag ∧ buffer₂.bit? (base₂ + i) = .ok flag
    else buffer₁.Agree base₁ buffer₂ base₂ length

end Field

theorem decode_eq_read (buffer : Buffer) (d : Descriptor) (options : DecodeOptions) :
    decode buffer d options = (d.field options).read buffer (d.base options) := by
  unfold decode Descriptor.field
  cases d.type <;> rfl

/-! ## Decoding depends on the field alone -/

theorem readElements_congr {read₁ read₂ : Nat → Except DecodeError Value} {left index : Nat}
    (h : ∀ i < left, read₁ (index + i) = read₂ (index + i)) :
    readElements read₁ left index = readElements read₂ left index := by
  induction left generalizing index with
  | zero => rfl
  | succ left ih =>
    rw [readElements, readElements, show read₁ index = read₂ index from h 0 (Nat.succ_pos _),
      ih fun i hi => by rw [Nat.add_assoc, Nat.add_comm 1]; exact h (i + 1) (Nat.succ_lt_succ hi)]

theorem elementOffset_eq_ok {base index width : Nat} (h : base + index * width < wordLimit) :
    elementOffset base index width = .ok (base + index * width) :=
  if_pos ⟨(Nat.le_add_left _ _).trans_lt h, h⟩

theorem bit?_lt {buffer : Buffer} {bit : Nat} {flag : Bool} (h : buffer.bit? bit = .ok flag) :
    bit < 8 * buffer.length := by
  unfold Buffer.bit? at h
  split at h
  · next hoctet =>
    have := (List.getElem?_eq_some_iff.mp hoctet).1
    omega
  · cases h

section

variable {buffer₁ buffer₂ : Buffer} {base₁ base₂ index elements length : Nat}

theorem decodeFlag_inBits_eq (h₁ : base₁ + index < wordLimit) (h₂ : base₂ + index < wordLimit)
    (h : buffer₁.bit? (base₁ + index) = buffer₂.bit? (base₂ + index)) :
    decodeFlag buffer₁ true base₁ index = decodeFlag buffer₂ true base₂ index := by
  unfold decodeFlag flagBit
  rw [if_pos rfl, if_pos rfl, if_pos h₁, if_pos h₂]
  show (liftFault _ >>= _) = (liftFault _ >>= _)
  rw [h]

/-- A flag in octets is the lowest bit of the first. -/
theorem decodeFlag_inOctets_eq (h₁ : 8 * buffer₁.length ≤ wordLimit)
    (h₂ : 8 * buffer₂.length ≤ wordLimit) (h : buffer₁.Agree base₁ buffer₂ base₂ length)
    (hindex : index * 2 < length) :
    decodeFlag buffer₁ false base₁ index = decodeFlag buffer₂ false base₂ index := by
  have hpart : buffer₁.Agree (base₁ + index * 2) buffer₂ (base₂ + index * 2) 1 :=
    h.part (by omega)
  have hfits₁ := hpart.fits₁
  have hfits₂ := hpart.fits₂
  have hbit := hpart.bit?_eq (show 0 < 8 * 1 by decide)
  rw [Nat.add_zero, Nat.add_zero] at hbit
  unfold decodeFlag flagBit
  rw [if_neg Bool.false_ne_true, if_neg Bool.false_ne_true, elementOffset_eq_ok (by omega),
    elementOffset_eq_ok (by omega)]
  show (if _ then Except.ok _ else _) >>= _ = (if _ then Except.ok _ else _) >>= _
  rw [if_pos (by omega), if_pos (by omega)]
  show (liftFault _ >>= _) = (liftFault _ >>= _)
  rw [hbit]

theorem decodeScalar_eq {type : ScalarType} (h₁ : buffer₁.length < wordLimit)
    (h₂ : buffer₂.length < wordLimit)
    (h : buffer₁.Agree base₁ buffer₂ base₂ (elements * type.bytes)) (hindex : index < elements) :
    decodeScalar buffer₁ type base₁ index = decodeScalar buffer₂ type base₂ index := by
  have hend : index * type.bytes + type.bytes ≤ elements * type.bytes := by
    rw [← Nat.succ_mul]
    exact Nat.mul_le_mul_right _ hindex
  have hpart := h.part hend
  have hfits₁ := hpart.fits₁
  have hfits₂ := hpart.fits₂
  unfold decodeScalar
  rw [elementOffset_eq_ok (by omega), elementOffset_eq_ok (by omega)]
  show (liftFault (Buffer.scalar? _ _ _) >>= _) = (liftFault (Buffer.scalar? _ _ _) >>= _)
  rw [Buffer.scalar?, Buffer.scalar?, hpart.read?_eq]

theorem decodeTime_eq {asText : Bool} {zone : BitVec 64} (h₁ : buffer₁.length < wordLimit)
    (h₂ : buffer₂.length < wordLimit) (h : buffer₁.Agree base₁ buffer₂ base₂ (elements * 8))
    (hindex : index < elements) :
    decodeTime buffer₁ asText zone base₁ index = decodeTime buffer₂ asText zone base₂ index := by
  have hpart : buffer₁.Agree (base₁ + index * 8) buffer₂ (base₂ + index * 8) 8 :=
    h.part (by omega)
  have hfits₁ := hpart.fits₁
  have hfits₂ := hpart.fits₂
  unfold decodeTime
  rw [elementOffset_eq_ok (by omega), elementOffset_eq_ok (by omega)]
  show (liftFault _ >>= _) = (liftFault _ >>= _)
  rw [hpart.read?_eq]

/-- A string of fixed capacity that lies inside the buffer is not cut at its end. -/
theorem decodeString_eq (h : buffer₁.Agree base₁ buffer₂ base₂ length) (hlength : 0 < length) :
    decodeString buffer₁ (some length) base₁ = decodeString buffer₂ (some length) base₂ := by
  have hfits₁ := h.fits₁
  have hfits₂ := h.fits₂
  have hread : ∀ {buffer : Buffer} {base : Nat}, base + length ≤ buffer.length →
      decodeString buffer (some length) base =
        (liftFault (buffer.read? base length)).bind fun octets =>
          .ok (.text (String.ofList (Text.Utf8.decode (octets.takeWhile (· ≠ 0))))) := by
    intro buffer base hfits
    show (if buffer.length ≤ base then _ else _) = _
    rw [if_neg (by omega), Nat.min_eq_left (by omega)]
    rfl
  rw [hread hfits₁, hread hfits₂, h.read?_eq]

theorem decodeUdt_eq (h : buffer₁.Agree base₁ buffer₂ base₂ length) :
    decodeUdt buffer₁ (some length) base₁ = decodeUdt buffer₂ (some length) base₂ := by
  unfold decodeUdt
  rw [Option.getD_some, Option.getD_some, if_pos h.fits₁, if_pos h.fits₂, h.read?_eq]

theorem Field.readChecked_eq {read₁ read₂ : Nat → Except DecodeError Value} {width : Nat}
    (h₁ : buffer₁.length < wordLimit) (h₂ : buffer₂.length < wordLimit)
    (h : buffer₁.Agree base₁ buffer₂ base₂ (elements * width))
    (hread : ∀ index < elements, read₁ index = read₂ index) :
    readChecked read₁ base₁ elements width = readChecked read₂ base₂ elements width := by
  have hfits₁ := h.fits₁
  have hfits₂ := h.fits₂
  have helements : readElements read₁ elements 0 = readElements read₂ elements 0 :=
    readElements_congr fun i hi => by rw [Nat.zero_add, hread i hi]
  unfold readChecked
  rw [elementOffset_eq_ok (by omega), elementOffset_eq_ok (by omega), helements]
  rfl

/-- **Decoding depends on the field alone.** The buffers are short enough for bits to have
addresses. -/
theorem Field.read_eq_of_agree {f : Field} (h₁ : 8 * buffer₁.length ≤ wordLimit)
    (h₂ : 8 * buffer₂.length ≤ wordLimit) (h : f.Agree buffer₁ base₁ buffer₂ base₂) :
    f.read buffer₁ base₁ = f.read buffer₂ base₂ := by
  have hlimit : 0 < wordLimit := by decide
  have hlt₁ : buffer₁.length < wordLimit := by omega
  have hlt₂ : buffer₂.length < wordLimit := by omega
  obtain ⟨length, hlength, hpos, hagree⟩ := h
  cases f with
  | flags inBits elements =>
    rw [Field.read, Field.read]
    congr 1
    refine readElements_congr fun i hi => ?_
    rw [Nat.zero_add]
    cases inBits with
    | true =>
      -- bits that are there have addresses, as their buffers are short
      cases hlength
      obtain ⟨flag, hflag₁, hflag₂⟩ := hagree i hi
      exact decodeFlag_inBits_eq ((bit?_lt hflag₁).trans_le h₁) ((bit?_lt hflag₂).trans_le h₂)
        (hflag₁.trans hflag₂.symm)
    | false =>
      cases hlength
      exact decodeFlag_inOctets_eq h₁ h₂ hagree (by omega)
  | scalars type elements =>
    cases hlength
    exact readChecked_eq hlt₁ hlt₂ hagree fun i hi => decodeScalar_eq hlt₁ hlt₂ hagree hi
  | times asText zone elements =>
    cases hlength
    exact readChecked_eq hlt₁ hlt₂ hagree fun i hi => decodeTime_eq hlt₁ hlt₂ hagree hi
  | string capacity =>
    cases hlength
    exact decodeString_eq hagree hpos
  | octets readSize =>
    cases hlength
    exact decodeUdt_eq hagree

end

/-! ## Areas -/

/-- Two places with the same area agree on every field within it. -/
theorem Field.agree_of_area {f : Field} {buffer₁ buffer₂ : Buffer}
    {position₁ position₂ size base : Nat} (h : buffer₁.Agree position₁ buffer₂ position₂ size)
    (hwithin : f.Within size base) :
    f.Agree buffer₁ (f.scale * position₁ + base) buffer₂ (f.scale * position₂ + base) := by
  obtain ⟨length, hlength, hpos, hend⟩ := hwithin
  refine ⟨length, hlength, hpos, ?_⟩
  unfold Field.scale at hend ⊢
  split_ifs at hend ⊢ with hbits
  · intro i hi
    have hfits₁ := h.fits₁
    obtain ⟨flag, hflag⟩ := Buffer.exists_bit?
      (show 8 * position₁ + (base + i) < 8 * buffer₁.length by omega)
    rw [Nat.add_assoc, Nat.add_assoc]
    exact ⟨flag, hflag, (h.bit?_eq (by omega)).symm.trans hflag⟩
  · rw [Nat.one_mul] at hend ⊢
    rw [Nat.one_mul]
    exact h.part hend

end PlcTags

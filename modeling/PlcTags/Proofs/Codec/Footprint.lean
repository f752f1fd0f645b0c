import Mathlib.Tactic.SplitIfs
import PlcTags.Proofs.Codec.Field
import PlcTags.Proofs.Outcome

/-!
# Footprints of fields

A field takes a stretch of the bits of a buffer. Decoding looks at no other bits, and encoding
changes no other bits; hence fields without a common bit do not disturb each other.

* `Buffer.SameOn`: two buffers of one length with the same bits in some places.
* `Field.Covers`: the bits of a field.
* `Field.read_congr`: decoding depends on the length of the buffer and on the bits of the field.
* `Field.sameOn_write`: encoding keeps the length of the buffer and all bits outside the field, also
  when it fails.
* `decode_encode_of_disjoint`: fields without a common bit.
-/

namespace PlcTags

open PlcTags.Number (twoTo)

/-! ## Bits of buffers -/

/-- **Two buffers of one length have the same bits** in some places. -/
structure Buffer.SameOn (place : Nat → Prop) (a b : Buffer) : Prop where
  length_eq : a.length = b.length
  bit_eq : ∀ i, place i → a.bit? i = b.bit? i

namespace Buffer

variable {place part : Nat → Prop} {a b c changed : Buffer} {offset index : Nat}

namespace SameOn

theorem refl (a : Buffer) : a.SameOn place a := ⟨rfl, fun _ _ => rfl⟩

theorem trans (h : a.SameOn place b) (h' : b.SameOn place c) : a.SameOn place c :=
  ⟨h.length_eq.trans h'.length_eq, fun i hi => (h.bit_eq i hi).trans (h'.bit_eq i hi)⟩

theorem mono (h : a.SameOn place b) (hpart : ∀ i, part i → place i) : a.SameOn part b :=
  ⟨h.length_eq, fun i hi => h.bit_eq i (hpart i hi)⟩

end SameOn

theorem bit?_of_getElem? {octet : UInt8} (h : a[index / 8]? = some octet) :
    a.bit? index = .ok (octet.toNat.testBit (index % 8)) := by
  unfold bit?
  rw [h]

theorem bit?_congr (h : a[index / 8]? = b[index / 8]?) : a.bit? index = b.bit? index := by
  unfold bit?
  rw [h]

/-- Octets with the same eight bits are the same. -/
theorem octet_ext {x y : UInt8} (h : ∀ k < 8, x.toNat.testBit k = y.toNat.testBit k) : x = y := by
  refine UInt8.toNat_inj.mp (Nat.eq_of_testBit_eq fun k => ?_)
  by_cases hk : k < 8
  · exact h k hk
  · have hpow := Nat.pow_le_pow_right (show 0 < 2 by decide) (Nat.le_of_not_lt hk)
    rw [Nat.testBit_lt_two_pow (x.toNat_lt.trans_le hpow),
      Nat.testBit_lt_two_pow (y.toNat_lt.trans_le hpow)]

/-- An octet is the same when its bits are. -/
theorem getElem?_eq_of_bits (ha : index < a.length) (hb : index < b.length)
    (h : ∀ k < 8, a.bit? (8 * index + k) = b.bit? (8 * index + k)) : a[index]? = b[index]? := by
  rw [List.getElem?_eq_getElem ha, List.getElem?_eq_getElem hb, Option.some_inj]
  refine octet_ext fun k hk => ?_
  have hoctet : (8 * index + k) / 8 = index := by omega
  have hina : a[(8 * index + k) / 8]? = some a[index] := by
    rw [hoctet, List.getElem?_eq_getElem ha]
  have hinb : b[(8 * index + k) / 8]? = some b[index] := by
    rw [hoctet, List.getElem?_eq_getElem hb]
  have hbits := h k hk
  rwa [bit?_of_getElem? hina, bit?_of_getElem? hinb, Except.ok.injEq,
    show (8 * index + k) % 8 = k by omega] at hbits

theorem SameOn.getElem?_eq (h : a.SameOn place b) (hplace : ∀ k < 8, place (8 * index + k)) :
    a[index]? = b[index]? := by
  by_cases hlt : index < a.length
  · exact getElem?_eq_of_bits hlt (h.length_eq ▸ hlt) fun k hk => h.bit_eq _ (hplace k hk)
  · have hge : a.length ≤ index := Nat.le_of_not_lt hlt
    rw [List.getElem?_eq_none hge, List.getElem?_eq_none (h.length_eq ▸ hge)]

/-- A stretch reads the same when its bits are the same. -/
theorem SameOn.read?_eq (h : a.SameOn place b) {length : Nat}
    (hplace : ∀ i, 8 * offset ≤ i → i < 8 * (offset + length) → place i) :
    a.read? offset length = b.read? offset length := by
  unfold read?
  rw [h.length_eq]
  split_ifs
  · congr 1
    refine List.ext_getElem? fun i => ?_
    by_cases hi : i < length
    · rw [List.getElem?_take_of_lt hi, List.getElem?_take_of_lt hi, List.getElem?_drop,
        List.getElem?_drop]
      exact h.getElem?_eq fun k hk => hplace _ (by omega) (by omega)
    · have hle : length ≤ i := Nat.le_of_not_lt hi
      rw [List.getElem?_eq_none ((List.length_take_le _ _).trans hle),
        List.getElem?_eq_none ((List.length_take_le _ _).trans hle)]
  · rfl

/-! ## Writes -/

theorem getElem?_write {octets : List UInt8} (h : a.write? offset octets = .ok changed) {i : Nat}
    (hi : i < offset ∨ offset + octets.length ≤ i) : changed[i]? = a[i]? := by
  unfold write? at h
  split_ifs at h with hfits
  cases h
  have htake : (a.take offset).length = offset := List.length_take_of_le (by omega)
  rw [List.append_assoc]
  rcases hi with hi | hi
  · rw [List.getElem?_append_left (htake.symm ▸ hi), List.getElem?_take_of_lt hi]
  · rw [List.getElem?_append_right (by omega), htake, List.getElem?_append_right (by omega),
      List.getElem?_drop]
    congr 1
    omega

/-- **Writing octets** changes the bits of the stretch only. -/
theorem sameOn_write {octets : List UInt8} (h : a.write? offset octets = .ok changed) :
    changed.SameOn (fun i => i < 8 * offset ∨ 8 * (offset + octets.length) ≤ i) a where
  length_eq := length_write h
  bit_eq i hi := bit?_congr (getElem?_write h (by omega))

theorem testBit_not {x : UInt8} {k : Nat} (hk : k < 8) :
    (~~~x).toNat.testBit k = !x.toNat.testBit k := by
  rw [UInt8.toNat_not, Nat.sub_sub, Nat.add_comm 1]
  exact (Nat.testBit_two_pow_sub_succ x.toNat_lt k).trans (by simp [hk])

theorem testBit_withBit (octet : UInt8) (flag : Bool) {index k : Nat} (hindex : index < 8)
    (hk : k < 8) : (withBit octet index flag).toNat.testBit k =
      if k = index then flag else octet.toNat.testBit k := by
  have hmask : (UInt8.ofNat (twoTo index)).toNat.testBit k = decide (index = k) := by
    have hlt : twoTo index < UInt8.size := by
      rw [twoTo, Nat.one_shiftLeft]
      exact Nat.pow_lt_pow_right (by decide) hindex
    rw [UInt8.toNat_ofNat_of_lt' hlt, twoTo, Nat.one_shiftLeft, Nat.testBit_two_pow]
  unfold withBit
  cases flag with
  | true =>
    rw [if_pos rfl, UInt8.toNat_or, Nat.testBit_or, hmask]
    split_ifs with heq
    · simp [heq]
    · simp [Ne.symm heq]
  | false =>
    rw [if_neg Bool.false_ne_true, UInt8.toNat_and, Nat.testBit_and, testBit_not hk, hmask]
    split_ifs with heq
    · simp [heq]
    · simp [Ne.symm heq]

/-- **Writing a flag** changes its bit only. -/
theorem sameOn_setBit {flag : Bool} (h : a.setBit? index flag = .ok changed) :
    changed.SameOn (fun i => i ≠ index) a := by
  unfold setBit? at h
  split at h
  · next octet hoctet =>
    cases h
    refine ⟨List.length_set, fun i hi => ?_⟩
    by_cases hsame : i / 8 = index / 8
    · have hlt := (List.getElem?_eq_some_iff.mp hoctet).1
      have hset : (a.set (index / 8) (withBit octet (index % 8) flag))[i / 8]? =
          some (withBit octet (index % 8) flag) := by
        rw [hsame, List.getElem?_set_self hlt]
      rw [bit?_of_getElem? hset, bit?_of_getElem? (hsame.symm ▸ hoctet),
        testBit_withBit octet flag (Nat.mod_lt _ (by decide)) (Nat.mod_lt _ (by decide)),
        if_neg (by omega)]
    · exact bit?_congr (List.getElem?_set_ne (Ne.symm hsame))
  · cases h

end Buffer

/-! ## The bits of a field -/

/-- The bits of what a field counts in. -/
def Field.unit (f : Field) : Nat := if f.inBits then 1 else 8

/-- **The bits of a field** of some length, in its own unit, at a place. -/
def Field.Covers (f : Field) (base length bit : Nat) : Prop :=
  f.unit * base ≤ bit ∧ bit < f.unit * (base + length)

theorem elementOffset_eq {base index width offset : Nat}
    (h : elementOffset base index width = .ok offset) : offset = base + index * width := by
  unfold elementOffset at h
  split_ifs at h
  exact (Except.ok.inj h).symm

theorem flagBit_eq {inBits : Bool} {base index position : Nat}
    (h : flagBit inBits base index = .ok position) :
    position = if inBits then base + index else 8 * (base + index * 2) := by
  unfold flagBit at h
  cases inBits with
  | true =>
    rw [if_pos rfl] at h
    split_ifs at h
    exact (Except.ok.inj h).symm
  | false =>
    rw [if_neg Bool.false_ne_true] at h
    split at h
    · next offset hoffset =>
      split_ifs at h
      rw [← Except.ok.inj h, elementOffset_eq hoffset]
      rfl
    · cases h

/-- A flag lies among the bits of its field. -/
theorem Field.covers_flag {inBits : Bool} {base elements index position length : Nat}
    (hlength : (Field.flags inBits elements).length? = some length) (hindex : index < elements)
    (h : flagBit inBits base index = .ok position) :
    (Field.flags inBits elements).Covers base length position := by
  rw [flagBit_eq h]
  cases inBits with
  | true =>
    cases hlength
    show 1 * base ≤ base + index ∧ base + index < 1 * (base + elements)
    omega
  | false =>
    cases hlength
    show 8 * base ≤ 8 * (base + index * 2) ∧
      8 * (base + index * 2) < 8 * (base + (2 * elements - 1))
    omega

/-! ## Decoding looks at the field only -/

theorem bind_congr_ok {α β ε : Type} {x : Except ε α} {f g : α → Except ε β}
    (h : ∀ a, x = .ok a → f a = g a) : x >>= f = x >>= g := by
  cases x with
  | error cause => rfl
  | ok a => exact h a rfl

section

variable {a b : Buffer} {base index elements length : Nat}

/-- Elements of some width lie in a stretch one behind the other. -/
theorem element_le (width : Nat) (h : index < elements) :
    index * width + width ≤ elements * width := by
  rw [← Nat.succ_mul]
  exact Nat.mul_le_mul_right _ h

theorem readChecked_congr {read₁ read₂ : Nat → Except DecodeError Value} {width : Nat}
    (h : ∀ index < elements, read₁ index = read₂ index) :
    Field.readChecked read₁ base elements width = Field.readChecked read₂ base elements width := by
  have helements : readElements read₁ elements 0 = readElements read₂ elements 0 :=
    readElements_congr fun i hi => by rw [Nat.zero_add, h i hi]
  unfold Field.readChecked
  rw [helements]

/-- **Decoding looks at the bits of the field only**, and at the length of the buffer. -/
theorem Field.read_congr {f : Field} (hlength : f.length? = some length)
    (h : a.SameOn (f.Covers base length) b) : f.read a base = f.read b base := by
  cases f with
  | flags inBits elements =>
    have hflag : ∀ index < elements,
        decodeFlag a inBits base index = decodeFlag b inBits base index := by
      intro index hindex
      refine bind_congr_ok fun position hposition => ?_
      rw [h.bit_eq position (covers_flag hlength hindex hposition)]
    rw [read, read, readElements_congr fun i hi => hflag (0 + i) (by omega)]
  | scalars type elements =>
    cases hlength
    refine readChecked_congr fun index hindex => bind_congr_ok fun offset hoffset => ?_
    have hend := element_le type.bytes hindex
    have hread : a.read? offset type.bytes = b.read? offset type.bytes := by
      rw [elementOffset_eq hoffset]
      exact h.read?_eq fun i hfirst hlast =>
        show 8 * base ≤ i ∧ i < 8 * (base + elements * type.bytes) by omega
    rw [Buffer.scalar?, Buffer.scalar?, hread]
  | times asText zone elements =>
    cases hlength
    refine readChecked_congr fun index hindex => bind_congr_ok fun offset hoffset => ?_
    have hread : a.read? offset 8 = b.read? offset 8 := by
      rw [elementOffset_eq hoffset]
      exact h.read?_eq fun i hfirst hlast =>
        show 8 * base ≤ i ∧ i < 8 * (base + elements * 8) by omega
    rw [hread]
  | string capacity =>
    cases hlength
    have hread : a.read? base (min length (b.length - base)) =
        b.read? base (min length (b.length - base)) :=
      h.read?_eq fun i hfirst hlast => show 8 * base ≤ i ∧ i < 8 * (base + length) by omega
    rw [read, read, decodeString, decodeString, h.length_eq, hread]
  | octets readSize =>
    cases hlength
    have hread : a.read? base length = b.read? base length :=
      h.read?_eq fun i hfirst hlast => show 8 * base ≤ i ∧ i < 8 * (base + length) by omega
    rw [read, read, decodeUdt, decodeUdt, Option.getD_some, Option.getD_some, h.length_eq, hread]

end

/-! ## Encoding changes the field only -/

theorem liftFault_eq_ok {α : Type} {x : Except TagFault α} {result : α}
    (h : liftFault x = .ok result) : x = .ok result := by
  cases x with
  | error fault => cases h
  | ok _ => exact congrArg Except.ok (Except.ok.inj h)

theorem Scalar.type_as? {s stored : Scalar} {type : ScalarType} (h : s.as? type = some stored) :
    stored.type = type := by
  cases type with
  | integer signed width =>
    obtain ⟨n, -, hn⟩ := Option.bind_eq_some_iff.mp h
    unfold ofInt? at hn
    split at hn
    · split_ifs at hn
      rw [← Option.some.inj hn]
    · cases hn
  | binary32 => rw [← Option.some.inj h]
  | binary64 => rw [← Option.some.inj h]

theorem Scalar.length_toOctets (s : Scalar) : s.toOctets.length = s.type.bytes :=
  length_octets _ _

theorem length_fitted (length : Nat) (octets : List UInt8) :
    (fitted length octets).length = length := by
  unfold fitted
  rw [List.length_append, List.length_take, List.length_replicate]
  omega

variable {place : Nat → Prop} {buffer changed : Buffer}

/-- Elements that are written one after the other, whether or not all of them can be. -/
theorem sameOn_writeElements {write : Buffer → Nat → Value → Except DecodeError Buffer}
    {values : List Value} {index last : Nat}
    (hwrite : ∀ buffer index value changed, index < last →
      write buffer index value = .ok changed → changed.SameOn place buffer)
    (hlast : index + values.length ≤ last) :
    (writeElements write buffer index values).1.SameOn place buffer := by
  induction values generalizing buffer index with
  | nil => exact .refl buffer
  | cons value rest ih =>
    rw [List.length_cons] at hlast
    unfold writeElements
    split
    · next changed hchanged =>
      exact (ih (by omega)).trans (hwrite buffer index value changed (by omega) hchanged)
    · exact .refl buffer

theorem sameOn_encodeElements {write : Buffer → Nat → Value → Except DecodeError Buffer}
    {elements : Nat} {value : Value}
    (hwrite : ∀ buffer index value changed, index < elements →
      write buffer index value = .ok changed → changed.SameOn place buffer) :
    (encodeElements write buffer elements value).1.SameOn place buffer := by
  unfold encodeElements
  split_ifs with hcount
  · exact sameOn_writeElements hwrite (by omega)
  · exact .refl buffer

theorem sameOn_wholeWrite {outcome : Except DecodeError Buffer}
    (h : ∀ changed, outcome = .ok changed → changed.SameOn place buffer) :
    (wholeWrite buffer outcome).1.SameOn place buffer := by
  cases outcome with
  | error cause => exact .refl buffer
  | ok changed => exact h changed rfl

/-- What the encoder does to a field at a place. -/
def Field.write (mismatch : DecodeError) (buffer : Buffer) (base : Nat) (value : Value) :
    Field → Buffer × Except DecodeError Unit
  | .flags inBits elements =>
    encodeElements (encodeFlag mismatch inBits base) buffer elements value
  | .scalars type elements =>
    encodeElements (encodeScalar mismatch type base) buffer elements value
  | .string capacity =>
    match value with
    | .text text => wholeWrite buffer (encodeString buffer capacity base text)
    | _ => (buffer, .error mismatch)
  | .times _ _ _ | .octets _ =>
    match value with
    | .bytes content => wholeWrite buffer (liftFault (buffer.write? base content))
    | _ => (buffer, .error mismatch)

theorem encode_eq_write (buffer : Buffer) (d : Descriptor) (value : Value)
    (options : DecodeOptions) : encode buffer d value options =
      (d.field options).write (.typeMismatch d.type value.display) buffer (d.base options)
        value := by
  unfold encode Descriptor.field
  cases d.type <;> rfl

theorem Buffer.sameOn_write_within {octets : List UInt8} {base length : Nat}
    (h : buffer.write? base octets = .ok changed) (hlength : octets.length ≤ length)
    (hplace : ∀ i, place i → ¬ (8 * base ≤ i ∧ i < 8 * (base + length))) :
    changed.SameOn place buffer :=
  (sameOn_write h).mono fun i hi => by have := hplace i hi; omega

/-- A scalar is written inside its field. -/
theorem sameOn_encodeScalar {mismatch : DecodeError} {type : ScalarType}
    {base index elements : Nat} {value : Value} (hindex : index < elements)
    (h : encodeScalar mismatch type base buffer index value = .ok changed) :
    changed.SameOn
      (fun bit => ¬ (8 * base ≤ bit ∧ bit < 8 * (base + elements * type.bytes))) buffer := by
  unfold encodeScalar at h
  split at h
  · split at h
    · next stored hstored =>
      obtain ⟨offset, hoffset, hset⟩ := bind_eq_ok_iff.mp h
      have hend := element_le type.bytes hindex
      have hstart := elementOffset_eq hoffset
      have hwidth : stored.toOctets.length = type.bytes := by
        rw [Scalar.length_toOctets, Scalar.type_as? hstored]
      refine Buffer.sameOn_write_within (liftFault_eq_ok hset) hwidth.le fun bit hbit hin => ?_
      exact hbit (by omega)
    · cases h
  · cases h

/-- Octets that are written as they come are not longer than their field. -/
theorem sameOn_writeOctets {octets : List UInt8} {base length : Nat}
    (hlength : octets.length ≤ length)
    (hplace : ∀ i, place i → ¬ (8 * base ≤ i ∧ i < 8 * (base + length))) :
    (wholeWrite buffer (liftFault (buffer.write? base octets))).1.SameOn place buffer :=
  sameOn_wholeWrite fun _ h => Buffer.sameOn_write_within (liftFault_eq_ok h) hlength hplace

/-- Is the field written as the octets that come? -/
def Field.isRaw : Field → Bool
  | .times _ _ _ | .octets _ => true
  | _ => false

/-- **Encoding changes the bits of the field only.** Octets are written as they come, so they must
not be longer than the field. -/
theorem Field.sameOn_write {f : Field} {length : Nat} {value : Value} (mismatch : DecodeError)
    (buffer : Buffer) (base : Nat) (hlength : f.length? = some length)
    (hoctets : f.isRaw = true → ∀ octets, value = .bytes octets → octets.length ≤ length) :
    (f.write mismatch buffer base value).1.SameOn (fun bit => ¬ f.Covers base length bit)
      buffer := by
  cases f with
  | flags inBits elements =>
    refine sameOn_encodeElements fun buffer index value changed hindex h => ?_
    unfold encodeFlag at h
    split at h
    · obtain ⟨position, hposition, hset⟩ := bind_eq_ok_iff.mp h
      have hcovers := covers_flag hlength hindex hposition
      exact (Buffer.sameOn_setBit (liftFault_eq_ok hset)).mono
        fun bit hbit heq => hbit (heq ▸ hcovers)
    · cases h
  | scalars type elements =>
    cases hlength
    exact sameOn_encodeElements fun buffer index value changed hindex h =>
      sameOn_encodeScalar hindex h
  | times asText zone elements =>
    cases value with
    | bytes octets => exact sameOn_writeOctets (hoctets rfl octets rfl) fun _ hbit => hbit
    | _ => exact .refl buffer
  | string capacity =>
    cases hlength
    cases value with
    | text text =>
      refine sameOn_wholeWrite fun changed h => ?_
      unfold encodeString at h
      dsimp only at h
      split_ifs at h
      exact Buffer.sameOn_write_within (liftFault_eq_ok h) (length_fitted _ _).le fun _ hbit => hbit
    | _ => exact .refl buffer
  | octets readSize =>
    cases value with
    | bytes octets => exact sameOn_writeOctets (hoctets rfl octets rfl) fun _ hbit => hbit
    | _ => exact .refl buffer

/-- **Fields without a common bit do not disturb each other**: what is encoded at one leaves what is
decoded at the other as it was. -/
theorem decode_encode_of_disjoint {d e : Descriptor} {value : Value}
    {options options' : DecodeOptions} {length length' : Nat}
    (hlength : (d.field options).length? = some length)
    (hlength' : (e.field options').length? = some length')
    (hdisjoint : ∀ bit, (d.field options).Covers (d.base options) length bit →
      ¬ (e.field options').Covers (e.base options') length' bit)
    (hoctets : (d.field options).isRaw = true →
      ∀ octets, value = .bytes octets → octets.length ≤ length) :
    decode (encode buffer d value options).1 e options' = decode buffer e options' := by
  have hsame := Field.sameOn_write (.typeMismatch d.type value.display) buffer (d.base options)
    hlength hoctets
  rw [decode_eq_read, decode_eq_read, encode_eq_write]
  exact Field.read_congr hlength' (hsame.mono fun bit hcovers hbit => hdisjoint bit hbit hcovers)

end PlcTags

import PlcTags.Proofs.Codec.Footprint
import PlcTags.Proofs.Text.Utf8

/-!
# Reading what was written

What the decoder finds where the encoder has written: the value, as its declared type stores it.

* `Elementwise`: elements are read as they were written, and each is apart from the others.
* `readElements_writeElements`: so are several of them, written one after the other.
* `Value.storedAs`: a value as it is stored in a declared type.
* `decode_of_encode`: the decoder finds it.
-/

namespace PlcTags

open PlcTags.Text (wordLimit)

/-! ## Buffers -/

section

variable {buffer changed : Buffer} {offset : Nat}

theorem Buffer.read?_of_write {octets : List UInt8} (h : buffer.write? offset octets = .ok changed) :
    changed.read? offset octets.length = .ok octets := by
  have hlength := length_write h
  unfold write? at h
  split_ifs at h with hfits
  have htake : (buffer.take offset).length = offset := List.length_take_of_le (by omega)
  unfold read?
  rw [if_pos (by omega), ← Except.ok.inj h, List.append_assoc, List.drop_left' htake,
    List.take_left' rfl]

theorem Buffer.bit?_of_setBit {flag : Bool} (h : buffer.setBit? offset flag = .ok changed) :
    changed.bit? offset = .ok flag := by
  unfold setBit? at h
  split at h
  · next octet hoctet =>
    have hlt := (List.getElem?_eq_some_iff.mp hoctet).1
    have hbit : offset % 8 < 8 := Nat.mod_lt _ (by decide)
    rw [← Except.ok.inj h, bit?_of_getElem? (List.getElem?_set_self hlt),
      testBit_withBit octet flag hbit hbit, if_pos rfl]
  · cases h

/-- The octets of a scalar give the scalar. -/
theorem Scalar.ofOctets_toOctets (s : Scalar) : ofOctets s.type s.toOctets = s := by
  obtain ⟨type, word⟩ := s
  show Scalar.mk type (BitVec.ofNat _ (PlcTags.ofOctets (octets type.bytes word.toNat))) = _
  have hword : word.toNat < Number.twoTo (8 * type.bytes) := by
    rw [Number.twoTo, Nat.one_shiftLeft]
    exact word.isLt
  rw [ofOctets_octets, Nat.mod_eq_of_lt hword, BitVec.ofNat_toNat, BitVec.setWidth_eq]

theorem Buffer.scalar?_of_setScalar {scalar : Scalar}
    (h : buffer.setScalar? offset scalar = .ok changed) :
    changed.scalar? offset scalar.type = .ok scalar := by
  have hread := read?_of_write h
  rw [Scalar.length_toOctets] at hread
  rw [scalar?, hread]
  exact congrArg Except.ok (Scalar.ofOctets_toOctets scalar)

/-- A counted string begins with its length. -/
theorem Buffer.string?_of_setString {text : String}
    (h : buffer.setString? offset text = .ok changed) : changed.string? offset = .ok text := by
  unfold setString? at h
  dsimp only at h
  split_ifs at h with hlimit
  generalize hcontent : Text.Utf8.encode text.toList = content at h hlimit
  have hread := read?_of_write h
  rw [List.length_append, length_octets] at hread
  have hfits : offset + (2 + content.length) ≤ changed.length := by
    unfold read? at hread
    split_ifs at hread with hfits
    exact hfits
  have hwhole : (changed.drop offset).take (2 + content.length) =
      octets 2 content.length ++ content := by
    unfold read? at hread
    rw [if_pos hfits] at hread
    exact Except.ok.inj hread
  -- the first two octets are the length, and the content follows them
  have hcount : changed.read? offset 2 = .ok (octets 2 content.length) := by
    unfold read?
    rw [if_pos (by omega)]
    have htake := congrArg (List.take 2) hwhole
    rw [List.take_take, Nat.min_eq_left (by omega),
      List.take_left' (length_octets 2 content.length)] at htake
    rw [htake]
  have hrest : changed.read? (offset + 2) content.length = .ok content := by
    unfold read?
    rw [if_pos (by omega)]
    have hdrop := congrArg (List.drop 2) hwhole
    rw [List.drop_take, List.drop_drop, List.drop_left' (length_octets 2 content.length),
      Nat.add_sub_cancel_left] at hdrop
    rw [hdrop]
  have hlength : ofOctets (octets 2 content.length) = content.length := by
    rw [ofOctets_octets]
    refine Nat.mod_eq_of_lt ?_
    show content.length < 65536
    exact Nat.lt_succ_of_le hlimit
  unfold string?
  rw [hcount]
  show (changed.read? (offset + 2) (ofOctets (octets 2 content.length)) >>= _) = _
  rw [hlength, hrest]
  show Except.ok (String.ofList (Text.Utf8.decode content)) = _
  rw [← hcontent, Text.Utf8.decode_encode, String.ofList_toList]

end

/-! ## Elements -/

/-- **Elements are read as they were written**, and writing one leaves the others. -/
structure Elementwise (write : Buffer → Nat → Value → Except DecodeError Buffer)
    (read : Buffer → Nat → Except DecodeError Value) (stored : Value → Value) : Prop where
  back : ∀ {buffer changed : Buffer} {index : Nat} {value : Value},
    write buffer index value = .ok changed → read changed index = .ok (stored value)
  apart : ∀ {buffer changed : Buffer} {index other : Nat} {value : Value},
    write buffer index value = .ok changed → other ≠ index → read changed other = read buffer other

section

variable {write : Buffer → Nat → Value → Except DecodeError Buffer}
  {read : Buffer → Nat → Except DecodeError Value} {stored : Value → Value}
  {buffer changed : Buffer} {values : List Value} {index : Nat}

/-- Elements that follow leave the ones before them. -/
theorem Elementwise.before (h : Elementwise write read stored)
    (hwrite : writeElements write buffer index values = (changed, .ok ())) {other : Nat}
    (hother : other < index) : read changed other = read buffer other := by
  induction values generalizing buffer index with
  | nil =>
    obtain ⟨rfl, -⟩ := Prod.mk.inj hwrite
    rfl
  | cons value rest ih =>
    unfold writeElements at hwrite
    split at hwrite
    · next next hnext =>
      rw [ih hwrite (by omega), h.apart hnext (by omega)]
    · cases (Prod.mk.inj hwrite).2

/-- **Several elements** are read as they were written. -/
theorem readElements_writeElements (h : Elementwise write read stored)
    (hwrite : writeElements write buffer index values = (changed, .ok ())) :
    readElements (read changed) values.length index = .ok (values.map stored) := by
  induction values generalizing buffer index with
  | nil => rfl
  | cons value rest ih =>
    unfold writeElements at hwrite
    split at hwrite
    · next next hnext =>
      have hfirst : read changed index = .ok (stored value) := by
        rw [h.before hwrite (Nat.lt_succ_self index), h.back hnext]
      rw [List.length_cons, readElements, hfirst]
      show (readElements (read changed) rest.length (index + 1) >>= _) = _
      rw [ih hwrite]
      rfl
    · cases (Prod.mk.inj hwrite).2

theorem readElements_encodeElements (h : Elementwise write read stored) {elements : Nat}
    {value : Value} (hwrite : encodeElements write buffer elements value = (changed, .ok ())) :
    readElements (read changed) elements 0 = .ok (value.elements.map stored) := by
  unfold encodeElements at hwrite
  split_ifs at hwrite with hcount
  · rw [← hcount]
    exact readElements_writeElements h hwrite
  · cases (Prod.mk.inj hwrite).2

end

/-- Flags are written as they come, to bits of their own. -/
theorem elementwise_flags (mismatch : DecodeError) (inBits : Bool) (base : Nat) :
    Elementwise (encodeFlag mismatch inBits base) (fun buffer => decodeFlag buffer inBits base)
      id where
  back h := by
    unfold encodeFlag at h
    split at h
    · obtain ⟨position, hposition, hset⟩ := bind_eq_ok_iff.mp h
      unfold decodeFlag
      rw [hposition]
      show (liftFault (Buffer.bit? _ position) >>= _) = _
      rw [Buffer.bit?_of_setBit (liftFault_eq_ok hset)]
      rfl
    · cases h
  apart {buffer changed index other value} h hother := by
    unfold encodeFlag at h
    split at h
    · obtain ⟨position, hposition, hset⟩ := bind_eq_ok_iff.mp h
      refine bind_congr_ok fun position' hposition' => ?_
      have hne : position' ≠ position := by
        rw [flagBit_eq hposition, flagBit_eq hposition']
        split_ifs <;> omega
      rw [(Buffer.sameOn_setBit (liftFault_eq_ok hset)).bit_eq position' hne]
    · cases h

/-- An element as a scalar of a type. -/
def Value.asScalar (type : ScalarType) : Value → Value
  | .number scalar => .number ((scalar.as? type).getD scalar)
  | value => value

/-- **A scalar that is written** is one of the type, and lies in the buffer. -/
theorem encodeScalar_eq_ok {mismatch : DecodeError} {type : ScalarType} {base index : Nat}
    {buffer changed : Buffer} {value : Value}
    (h : encodeScalar mismatch type base buffer index value = .ok changed) :
    ∃ stored offset, value.asScalar type = .number stored ∧ stored.type = type ∧
      elementOffset base index type.bytes = .ok offset ∧
      buffer.setScalar? offset stored = .ok changed := by
  unfold encodeScalar at h
  split at h
  · next scalar =>
    split at h
    · next stored hstored =>
      obtain ⟨offset, hoffset, hset⟩ := bind_eq_ok_iff.mp h
      refine ⟨stored, offset, ?_, Scalar.type_as? hstored, hoffset, liftFault_eq_ok hset⟩
      rw [Value.asScalar, hstored, Option.getD_some]
    · cases h
  · cases h

/-- Scalars are written one behind the other. -/
theorem elementwise_scalars (mismatch : DecodeError) (type : ScalarType) (base : Nat) :
    Elementwise (encodeScalar mismatch type base) (fun buffer => decodeScalar buffer type base)
      (Value.asScalar type) where
  back h := by
    obtain ⟨stored, offset, hvalue, rfl, hoffset, hset⟩ := encodeScalar_eq_ok h
    unfold decodeScalar
    rw [hoffset, hvalue]
    show (liftFault (Buffer.scalar? _ offset stored.type) >>= _) = _
    rw [Buffer.scalar?_of_setScalar hset]
    rfl
  apart {buffer changed index other value} h hother := by
    obtain ⟨stored, offset, -, rfl, hoffset, hset⟩ := encodeScalar_eq_ok h
    refine bind_congr_ok fun offset' hoffset' => ?_
    have hstart := elementOffset_eq hoffset
    have hstart' := elementOffset_eq hoffset'
    have hapart : index * stored.type.bytes + stored.type.bytes ≤ other * stored.type.bytes ∨
        other * stored.type.bytes + stored.type.bytes ≤ index * stored.type.bytes := by
      rcases Nat.lt_or_gt_of_ne hother with hlt | hlt
      · exact Or.inr (element_le _ hlt)
      · exact Or.inl (element_le _ hlt)
    have hread : changed.read? offset' stored.type.bytes =
        buffer.read? offset' stored.type.bytes := by
      refine (Buffer.sameOn_write hset).read?_eq fun i hfirst hlast => ?_
      rw [Scalar.length_toOctets]
      omega
    rw [Buffer.scalar?, Buffer.scalar?, hread]

/-- Scalars that are written all lie in the buffer. -/
theorem end_le_of_writeElements {mismatch : DecodeError} {type : ScalarType} {base index : Nat}
    {buffer changed : Buffer} {values : List Value} (hvalues : values ≠ [])
    (h : writeElements (encodeScalar mismatch type base) buffer index values =
      (changed, .ok ())) :
    base + (index + values.length) * type.bytes ≤ changed.length := by
  induction values generalizing buffer index with
  | nil => exact absurd rfl hvalues
  | cons value rest ih =>
    unfold writeElements at h
    split at h
    · next next hnext =>
      rw [List.length_cons, show index + (rest.length + 1) = index + 1 + rest.length by omega]
      cases rest with
      | nil =>
        obtain ⟨rfl, -⟩ := Prod.mk.inj h
        obtain ⟨stored, offset, -, rfl, hoffset, hset⟩ := encodeScalar_eq_ok hnext
        have hlength := Buffer.length_write hset
        have hread := Buffer.read?_of_write hset
        have hstart := elementOffset_eq hoffset
        unfold Buffer.read? at hread
        split_ifs at hread with hfits
        rw [Scalar.length_toOctets] at hfits
        rw [List.length_nil, Nat.add_zero, Nat.succ_mul]
        omega
      | cons second more => exact ih (List.cons_ne_nil _ _) h
    · cases (Prod.mk.inj h).2

/-! ## Fields -/

namespace Field

variable {mismatch : DecodeError} {buffer changed : Buffer} {base elements : Nat} {value : Value}

theorem read_write_flags {inBits : Bool} (h : (Field.flags inBits elements).write mismatch buffer
    base value = (changed, .ok ())) :
    (Field.flags inBits elements).read changed base = .ok (.ofItems value.elements) := by
  rw [read, readElements_encodeElements (elementwise_flags mismatch inBits base) h, List.map_id]
  rfl

/-- Scalars are read back from buffers whose octets have addresses. -/
theorem read_write_scalars {type : ScalarType} (hpos : 0 < elements)
    (hlimit : changed.length < wordLimit)
    (h : (Field.scalars type elements).write mismatch buffer base value = (changed, .ok ())) :
    (Field.scalars type elements).read changed base =
      .ok (.ofItems (value.elements.map (Value.asScalar type))) := by
  have helements := readElements_encodeElements (elementwise_scalars mismatch type base) h
  have hend : base + elements * type.bytes ≤ changed.length := by
    rw [write, encodeElements] at h
    split_ifs at h with hcount
    · have hvalues : value.elements ≠ [] := by
        rintro hnil
        rw [hnil, List.length_nil] at hcount
        omega
      have hend := end_le_of_writeElements hvalues h
      rwa [Nat.zero_add, hcount] at hend
    · cases (Prod.mk.inj h).2
  rw [read, readChecked, elementOffset_eq_ok (by omega), helements]
  rfl

theorem read_write_string (h : (Field.string none).write mismatch buffer base value =
    (changed, .ok ())) : (Field.string none).read changed base = .ok value := by
  cases value with
  | text text =>
    show (liftFault (changed.string? base)).map Value.text = _
    have hset : wholeWrite buffer (liftFault (buffer.setString? base text)) = (changed, .ok ()) := h
    cases hcase : buffer.setString? base text with
    | error fault =>
      rw [hcase] at hset
      cases (Prod.mk.inj hset).2
    | ok written =>
      rw [hcase] at hset
      obtain ⟨rfl, -⟩ := Prod.mk.inj hset
      rw [Buffer.string?_of_setString hcase]
      rfl
  | _ => cases (Prod.mk.inj h).2

/-- Octets are read back if as many are read as were written. -/
theorem read_write_octets {readSize : Option Nat}
    (hsize : ∀ octets, value = .bytes octets →
      octets.length = readSize.getD (changed.length - base))
    (h : (Field.octets readSize).write mismatch buffer base value = (changed, .ok ())) :
    (Field.octets readSize).read changed base = .ok value := by
  cases value with
  | bytes octets =>
    have hwrite : wholeWrite buffer (liftFault (buffer.write? base octets)) = (changed, .ok ()) := h
    cases hcase : buffer.write? base octets with
    | error fault =>
      rw [hcase] at hwrite
      cases (Prod.mk.inj hwrite).2
    | ok written =>
      rw [hcase] at hwrite
      obtain ⟨rfl, -⟩ := Prod.mk.inj hwrite
      have hread := Buffer.read?_of_write hcase
      have hfits : base + octets.length ≤ written.length := by
        unfold Buffer.read? at hread
        split_ifs at hread with hfits
        exact hfits
      rw [read, decodeUdt, ← hsize octets rfl, if_pos hfits, hread]
      rfl
  | _ => cases (Prod.mk.inj h).2

end Field

/-! ## Values -/

/-- **A value as it is stored in a declared type**: numbers are those of the type, several elements
make an array, and a single one stands alone. Texts and octets are stored as they are. -/
def Value.storedAs (type : DataType) (value : Value) : Value :=
  match type, ScalarType.ofDataType? type with
  | .string, _ | .udt, _ | .time, _ => value
  | .bool, _ => .ofItems value.elements
  | _, some type => .ofItems (value.elements.map (asScalar type))
  | _, none => value

/-- **Values that are read back from a tag of their own**: flags, numbers, counted strings, and
structures of as many octets as are read from the buffer. -/
def Descriptor.ReadsBack (d : Descriptor) (value : Value) (buffer : Buffer) : Prop :=
  match d.type with
  | .time => False
  | .string => d.stringCapacity? {} = none
  | .udt => ∀ octets, value = .bytes octets →
      octets.length = d.attributes.readSize.getD (buffer.length - d.base {})
  | _ => True

/-- **The decoder finds what the encoder has written.** -/
theorem decode_of_encode {d : Descriptor} {value : Value} {buffer changed : Buffer}
    {zone : BitVec 64} (h : encode buffer d value ⟨false, zone⟩ = (changed, .ok ()))
    (hback : d.ReadsBack value changed) (hlimit : changed.length < wordLimit) :
    decode changed d ⟨false, zone⟩ = .ok (value.storedAs d.type) := by
  have hpos : 0 < d.elements := (Nat.le_max_right d.count 1)
  rw [encode_eq_write] at h
  rw [decode_eq_read]
  unfold Descriptor.field at h ⊢
  unfold Descriptor.ReadsBack at hback
  unfold Value.storedAs
  cases htype : d.type <;> rw [htype] at h hback
  case bool => exact Field.read_write_flags h
  case string =>
    have hcounted : d.stringCapacity? ⟨false, zone⟩ = none := hback
    dsimp only at h ⊢
    rw [hcounted] at h ⊢
    exact Field.read_write_string h
  case udt => exact Field.read_write_octets hback h
  case time => exact hback.elim
  all_goals exact Field.read_write_scalars hpos hlimit h

end PlcTags

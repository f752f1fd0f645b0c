import PlcTags.Proofs.Codec.RoundTrip

/-!
# Decoding, then encoding

A value that was read is written back without a change to the buffer. Only several times in a row
cannot be written: they are read as an array, and a time is written from its octets alone.

* `Buffer.write?_of_read?`, `Buffer.setBit?_of_bit?`, `Buffer.setScalar?_of_scalar?`: writing what
  was read changes nothing.
* `writeElements_of_readElements`: element by element.
* `encode_after_decode`: **what was read is written back as it was**, or it is several times and is
  refused.
-/

namespace PlcTags

/-! ## Buffers -/

section

variable {buffer : Buffer} {offset index length : Nat}

theorem Buffer.length_of_read? {octets : List UInt8}
    (h : buffer.read? offset length = .ok octets) : octets.length = length := by
  unfold read? at h
  split_ifs at h with hfits
  rw [← Except.ok.inj h, List.length_take, List.length_drop]
  omega

theorem Buffer.write?_of_read? {octets : List UInt8}
    (h : buffer.read? offset length = .ok octets) : buffer.write? offset octets = .ok buffer := by
  have hlength := length_of_read? h
  unfold read? at h
  split_ifs at h with hfits
  unfold write?
  rw [hlength, if_pos hfits, ← Except.ok.inj h, List.append_assoc, ← List.drop_drop,
    List.take_append_drop, List.take_append_drop]

theorem Buffer.setBit?_of_bit? {flag : Bool} (h : buffer.bit? index = .ok flag) :
    buffer.setBit? index flag = .ok buffer := by
  unfold bit? at h
  split at h
  · next octet hoctet =>
    have hbit : index % 8 < 8 := Nat.mod_lt _ (by decide)
    have hsame : withBit octet (index % 8) flag = octet := by
      refine octet_ext fun k hk => ?_
      rw [testBit_withBit octet flag hbit hk]
      split_ifs with heq
      · rw [heq]
        exact (Except.ok.inj h).symm
      · rfl
    obtain ⟨hlt, rfl⟩ := List.getElem?_eq_some_iff.mp hoctet
    unfold setBit?
    rw [hoctet]
    dsimp only
    rw [hsame, List.set_getElem_self]
  · cases h

/-- Octets give a scalar that has these octets. -/
theorem Scalar.toOctets_ofOctets {type : ScalarType} {octets : List UInt8}
    (h : octets.length = type.bytes) : (ofOctets type octets).toOctets = octets := by
  have hback := octets_ofOctets octets
  have hlt : PlcTags.ofOctets octets % 2 ^ type.bits = PlcTags.ofOctets octets := by
    have hmod := ofOctets_octets octets.length (PlcTags.ofOctets octets)
    rw [hback, h, Number.twoTo_eq_pow] at hmod
    exact hmod.symm
  show PlcTags.octets type.bytes (BitVec.ofNat type.bits (PlcTags.ofOctets octets)).toNat = octets
  rw [BitVec.toNat_ofNat, hlt, ← h, hback]

theorem Buffer.setScalar?_of_scalar? {type : ScalarType} {scalar : Scalar}
    (h : buffer.scalar? offset type = .ok scalar) :
    scalar.type = type ∧ buffer.setScalar? offset scalar = .ok buffer := by
  obtain ⟨octets, hread, rfl⟩ := map_eq_ok_iff.mp h
  refine ⟨rfl, ?_⟩
  rw [setScalar?, Scalar.toOctets_ofOctets (length_of_read? hread)]
  exact write?_of_read? hread

end

/-! ## Elements -/

theorem Value.elements_ofItems {items : List Value} (h : ∀ item ∈ items, item.elements = [item]) :
    (Value.ofItems items).elements = items := by
  match items with
  | [] => rfl
  | [item] => exact h item List.mem_cons_self
  | _ :: _ :: _ => rfl

section

variable {buffer : Buffer} {read : Nat → Except DecodeError Value}
  {write : Buffer → Nat → Value → Except DecodeError Buffer} {left index : Nat}
  {values : List Value}

theorem length_of_readElements (h : readElements read left index = .ok values) :
    values.length = left := by
  induction left generalizing index values with
  | zero =>
    cases h
    rfl
  | succ left ih =>
    obtain ⟨value, -, h⟩ := bind_eq_ok_iff.mp h
    obtain ⟨rest, hrest, h⟩ := bind_eq_ok_iff.mp h
    rw [← Except.ok.inj h, List.length_cons, ih hrest]

/-- Every element that was read was read at some place. -/
theorem exists_of_readElements (h : readElements read left index = .ok values) {value : Value}
    (hvalue : value ∈ values) : ∃ place, read place = .ok value := by
  induction left generalizing index values with
  | zero =>
    cases h
    cases hvalue
  | succ left ih =>
    obtain ⟨first, hfirst, h⟩ := bind_eq_ok_iff.mp h
    obtain ⟨rest, hrest, h⟩ := bind_eq_ok_iff.mp h
    rw [← Except.ok.inj h] at hvalue
    rcases List.mem_cons.mp hvalue with rfl | hvalue
    · exact ⟨index, hfirst⟩
    · exact ih hrest hvalue

/-- **Elements that were read** are written back without a change, if each of them is. -/
theorem writeElements_of_readElements
    (hback : ∀ place, ∀ value ∈ values, read place = .ok value →
      write buffer place value = .ok buffer)
    (h : readElements read left index = .ok values) :
    writeElements write buffer index values = (buffer, .ok ()) := by
  induction left generalizing index values with
  | zero =>
    cases h
    rfl
  | succ left ih =>
    obtain ⟨first, hfirst, h⟩ := bind_eq_ok_iff.mp h
    obtain ⟨rest, hrest, h⟩ := bind_eq_ok_iff.mp h
    obtain rfl := Except.ok.inj h
    unfold writeElements
    rw [hback index first List.mem_cons_self hfirst]
    exact ih (fun place value hvalue => hback place value (List.mem_cons_of_mem _ hvalue)) hrest

/-- **A value of several elements** is written back without a change, if each element is. -/
theorem encodeElements_of_readElements (hplain : ∀ value ∈ values, value.elements = [value])
    (hback : ∀ place, ∀ value ∈ values, read place = .ok value →
      write buffer place value = .ok buffer)
    (h : readElements read left 0 = .ok values) :
    encodeElements write buffer left (.ofItems values) = (buffer, .ok ()) := by
  unfold encodeElements
  rw [Value.elements_ofItems hplain, if_pos (length_of_readElements h)]
  exact writeElements_of_readElements hback h

end

section

variable {buffer : Buffer} (mismatch : DecodeError) {base index : Nat} {value : Value}

theorem encodeFlag_of_decodeFlag {inBits : Bool}
    (h : decodeFlag buffer inBits base index = .ok value) :
    value.elements = [value] ∧ encodeFlag mismatch inBits base buffer index value = .ok buffer := by
  obtain ⟨position, hposition, h⟩ := bind_eq_ok_iff.mp h
  obtain ⟨flag, hflag, h⟩ := bind_eq_ok_iff.mp h
  obtain rfl := Except.ok.inj h
  refine ⟨rfl, ?_⟩
  unfold encodeFlag
  dsimp only
  rw [hposition]
  show liftFault (buffer.setBit? position flag) = _
  rw [Buffer.setBit?_of_bit? (liftFault_eq_ok hflag)]
  rfl

theorem encodeScalar_of_decodeScalar {type : ScalarType}
    (h : decodeScalar buffer type base index = .ok value) :
    value.elements = [value] ∧ ((∀ s, value = .number s → s.isNan = false) →
      encodeScalar mismatch type base buffer index value = .ok buffer) := by
  obtain ⟨offset, hoffset, h⟩ := bind_eq_ok_iff.mp h
  obtain ⟨scalar, hscalar, h⟩ := bind_eq_ok_iff.mp h
  obtain rfl := Except.ok.inj h
  refine ⟨rfl, fun hnumber => ?_⟩
  obtain ⟨rfl, hset⟩ := Buffer.setScalar?_of_scalar? (liftFault_eq_ok hscalar)
  unfold encodeScalar
  dsimp only
  rw [Scalar.as?_self (hnumber scalar rfl)]
  dsimp only
  rw [hoffset]
  show liftFault (buffer.setScalar? offset scalar) = _
  rw [hset]
  rfl

theorem bytes_of_decodeTime {zone : BitVec 64}
    (h : decodeTime buffer false zone base index = .ok value) :
    ∃ octets, value = .bytes octets ∧ buffer.write? (base + index * 8) octets = .ok buffer := by
  obtain ⟨offset, hoffset, h⟩ := bind_eq_ok_iff.mp h
  obtain ⟨octets, hoctets, h⟩ := bind_eq_ok_iff.mp h
  refine ⟨octets, (Except.ok.inj h).symm, ?_⟩
  rw [← elementOffset_eq hoffset]
  exact Buffer.write?_of_read? (liftFault_eq_ok hoctets)

end

/-! ## Fields -/

namespace Field

variable {mismatch : DecodeError} {buffer : Buffer} {base elements : Nat} {value : Value}

theorem write_read_flags {inBits : Bool}
    (h : (Field.flags inBits elements).read buffer base = .ok value) :
    (Field.flags inBits elements).write mismatch buffer base value = (buffer, .ok ()) := by
  obtain ⟨values, hvalues, rfl⟩ := map_eq_ok_iff.mp h
  refine encodeElements_of_readElements (fun item hitem => ?_) (fun place item _ hread => ?_) hvalues
  · obtain ⟨place, hread⟩ := exists_of_readElements hvalues hitem
    exact (encodeFlag_of_decodeFlag mismatch hread).1
  · exact (encodeFlag_of_decodeFlag mismatch hread).2

theorem readChecked_eq_ok {read : Nat → Except DecodeError Value} {width : Nat}
    (h : readChecked read base elements width = .ok value) :
    ∃ values, readElements read elements 0 = .ok values ∧ value = .ofItems values := by
  obtain ⟨-, -, h⟩ := bind_eq_ok_iff.mp h
  obtain ⟨values, hvalues, h⟩ := bind_eq_ok_iff.mp h
  exact ⟨values, hvalues, (Except.ok.inj h).symm⟩

theorem write_read_scalars {type : ScalarType}
    (hnumbers : ∀ s, .number s ∈ value.elements → s.isNan = false)
    (h : (Field.scalars type elements).read buffer base = .ok value) :
    (Field.scalars type elements).write mismatch buffer base value = (buffer, .ok ()) := by
  obtain ⟨values, hvalues, rfl⟩ := readChecked_eq_ok h
  have hplain : ∀ item ∈ values, item.elements = [item] := by
    intro item hitem
    obtain ⟨place, hread⟩ := exists_of_readElements hvalues hitem
    exact (encodeScalar_of_decodeScalar mismatch hread).1
  rw [Value.elements_ofItems hplain] at hnumbers
  refine encodeElements_of_readElements hplain (fun place item hitem hread => ?_) hvalues
  exact (encodeScalar_of_decodeScalar mismatch hread).2 fun s hs => hnumbers s (hs ▸ hitem)

theorem write_read_octets {readSize : Option Nat}
    (h : (Field.octets readSize).read buffer base = .ok value) :
    (Field.octets readSize).write mismatch buffer base value = (buffer, .ok ()) := by
  have hread : decodeUdt buffer readSize base = .ok value := h
  unfold decodeUdt at hread
  dsimp only at hread
  split_ifs at hread
  obtain ⟨octets, hoctets, rfl⟩ := map_eq_ok_iff.mp hread
  show wholeWrite buffer (liftFault (buffer.write? base octets)) = _
  rw [Buffer.write?_of_read? (liftFault_eq_ok hoctets)]
  rfl

/-- **Times** are written back one at a time only. -/
theorem write_read_times {zone : BitVec 64} (hpos : 0 < elements)
    (h : (Field.times false zone elements).read buffer base = .ok value) :
    (Field.times false zone elements).write mismatch buffer base value =
      (buffer, if 1 < elements then .error mismatch else .ok ()) := by
  obtain ⟨values, hvalues, rfl⟩ := readChecked_eq_ok h
  have hlength := length_of_readElements hvalues
  match values with
  | [] => exact absurd hlength.symm hpos.ne'
  | [item] =>
    obtain ⟨first, hfirst, hrest⟩ := bind_eq_ok_iff.mp
      (show readElements _ (0 + 1) 0 = .ok [item] from hlength ▸ hvalues)
    obtain ⟨octets, rfl, hwrite⟩ := bytes_of_decodeTime hfirst
    obtain rfl : Value.bytes octets = item := (List.cons.inj (Except.ok.inj hrest)).1
    rw [Nat.zero_mul, Nat.add_zero] at hwrite
    rw [if_neg (by rw [← hlength]; exact lt_irrefl 1)]
    show wholeWrite buffer (liftFault (buffer.write? base octets)) = _
    rw [hwrite]
    rfl
  | _ :: _ :: rest =>
    rw [if_pos (by rw [← hlength]; exact Nat.succ_lt_succ (Nat.succ_pos _))]
    rfl

end Field

/-! ## Values -/

/-- **Decoding, then encoding.** What was read is written back as it was, unless it is several times
in a row: these are refused, and the buffer stays as it is. -/
theorem encode_after_decode {buffer : Buffer} {d : Descriptor} {value : Value}
    {options : DecodeOptions} (hstring : d.type ≠ .string)
    (hraw : d.type = .time → d.attributes.readAsString = false)
    (hnumbers : ∀ s, .number s ∈ value.elements → s.isNan = false)
    (h : decode buffer d options = .ok value) :
    encode buffer d value options = (buffer, if d.type = .time ∧ 1 < d.elements then
      .error (.typeMismatch .time value.display) else .ok ()) := by
  have hpos : 0 < d.elements := Nat.le_max_right d.count 1
  rw [decode_eq_read] at h
  rw [encode_eq_write]
  unfold Descriptor.field at h ⊢
  cases htype : d.type <;> rw [htype] at h hstring
  case string => exact absurd rfl hstring
  case bool => exact Field.write_read_flags h
  case udt => exact Field.write_read_octets h
  case time =>
    dsimp only at h ⊢
    rw [hraw htype] at h ⊢
    rw [Field.write_read_times hpos h]
    simp
  all_goals exact Field.write_read_scalars hnumbers h

/-- The times at which two shifts began, the elements of an array from the first on. -/
def shiftStarts : Descriptor where
  poller := none
  tag := "Shifts[1]"
  startIndex := some 1
  type := .time
  count := 2
  source := .unspecified
  offset := 0
  bitAddressed := false
  attributes := .defaults false
  extras := ""

/-- What is read of them. -/
def startTimes : Value :=
  .array [.bytes [1, 0, 0, 0, 0, 0, 0, 0], .bytes [2, 0, 0, 0, 0, 0, 0, 0]]

theorem no_numbers_startTimes {s : Scalar} : .number s ∉ startTimes.elements := by
  intro hs
  rcases List.mem_cons.mp hs with hs | hs
  · cases hs
  · cases List.mem_singleton.mp hs

theorem encode_after_decode_shiftStarts :
    encode (octets 8 1 ++ octets 8 2) shiftStarts startTimes {} =
        (octets 8 1 ++ octets 8 2, .error (.typeMismatch .time startTimes.display)) ∧
      encode (octets 8 1) { shiftStarts with count := 1 } (.bytes [1, 0, 0, 0, 0, 0, 0, 0]) {} =
        (octets 8 1, .ok ()) := by
  constructor
  · exact encode_after_decode (by decide) (fun _ => rfl)
      (fun _ hs => absurd hs no_numbers_startTimes) (by with_unfolding_all rfl)
  · exact encode_after_decode (by decide) (fun _ => rfl)
      (fun _ hs => nomatch List.mem_singleton.mp hs) (by with_unfolding_all rfl)

/-- **Several times** are read but not written. -/
theorem not_forall_encode_after_decode :
    ¬ ∀ (buffer : Buffer) (d : Descriptor) (value : Value) (options : DecodeOptions),
      d.type ≠ .string → (d.type = .time → d.attributes.readAsString = false) →
      (∀ s, .number s ∈ value.elements → s.isNan = false) →
      decode buffer d options = .ok value → encode buffer d value options = (buffer, .ok ()) := by
  intro h
  have hwritten := h (octets 8 1 ++ octets 8 2) shiftStarts startTimes {} (by decide) (fun _ => rfl)
    (fun _ hs => absurd hs no_numbers_startTimes) (by with_unfolding_all rfl)
  cases (Prod.mk.inj hwritten).2

end PlcTags

import PlcTags.Proofs.Codec.Footprint

/-!
# What the encoder writes

The bits that the encoder writes for a value, which may be fewer than those of the field or, for
octets that are written as they come, more: `Descriptor.Written`. It writes no other bits
(`sameOn_encode`), so a controller may keep several values in one buffer.
-/

namespace PlcTags

/-- What a text or octets come to when they are stored. -/
def Value.content : Value → List UInt8
  | .text string => Text.Utf8.encode string.toList
  | .bytes octets => octets
  | _ => []

/-- Does a bit lie in a stretch of octets? -/
def InOctets (base length bit : Nat) : Prop :=
  8 * base ≤ bit ∧ bit < 8 * (base + length)

/-- **The bits that are written** for a value into a field at a place: those of the flags, or a
stretch of octets. A string of some capacity fills it, a counted one is as long as its length and its
content, and octets are written as they come. -/
def Field.Written (value : Value) (base bit : Nat) : Field → Prop
  | .flags inBits elements => ∃ index < elements,
    bit = if inBits then base + index else 8 * (base + index * 2)
  | .scalars type elements => InOctets base (elements * type.bytes) bit
  | .string capacity => InOctets base (capacity.getD (2 + value.content.length)) bit
  | .times _ _ _ | .octets _ => InOctets base value.content.length bit

/-- **The bits that the encoder writes** for a value of a descriptor. -/
def Descriptor.Written (d : Descriptor) (value : Value) (options : DecodeOptions) (bit : Nat) :
    Prop :=
  (d.field options).Written value (d.base options) bit

variable {buffer changed : Buffer} {base index elements : Nat} {value : Value}

/-- A flag is written to its bit. -/
theorem sameOn_encodeFlag {mismatch : DecodeError} {inBits : Bool} (hindex : index < elements)
    (h : encodeFlag mismatch inBits base buffer index value = .ok changed) :
    changed.SameOn (fun bit => ¬ ∃ index < elements,
      bit = if inBits then base + index else 8 * (base + index * 2)) buffer := by
  unfold encodeFlag at h
  split at h
  · obtain ⟨position, hposition, hset⟩ := bind_eq_ok_iff.mp h
    refine (Buffer.sameOn_setBit (liftFault_eq_ok hset)).mono fun bit hbit heq => ?_
    exact hbit ⟨index, hindex, heq.trans (flagBit_eq hposition)⟩
  · cases h

/-- A string is written as long as its capacity, or as its length and content. -/
theorem sameOn_encodeString {capacity : Option Nat} {text : String}
    (h : encodeString buffer capacity base text = .ok changed) :
    changed.SameOn (fun bit => ¬ InOctets base
      (capacity.getD (2 + (Text.Utf8.encode text.toList).length)) bit) buffer := by
  cases capacity with
  | some capacity =>
    unfold encodeString at h
    dsimp only at h
    split_ifs at h
    exact Buffer.sameOn_write_within (liftFault_eq_ok h) (length_fitted _ _).le fun _ hbit => hbit
  | none =>
    have hset : buffer.setString? base text = .ok changed := liftFault_eq_ok h
    unfold Buffer.setString? at hset
    dsimp only at hset
    split_ifs at hset
    have hlength : (octets 2 (Text.Utf8.encode text.toList).length ++
        Text.Utf8.encode text.toList).length = 2 + (Text.Utf8.encode text.toList).length := by
      rw [List.length_append, length_octets]
    exact Buffer.sameOn_write_within hset hlength.le fun _ hbit => hbit

/-- **The encoder writes no other bits** of a field. -/
theorem Field.sameOn_written (f : Field) (mismatch : DecodeError) (buffer : Buffer) (base : Nat)
    (value : Value) : (f.write mismatch buffer base value).1.SameOn
      (fun bit => ¬ f.Written value base bit) buffer := by
  cases f with
  | flags inBits elements =>
    exact sameOn_encodeElements fun buffer index value changed hindex h =>
      sameOn_encodeFlag hindex h
  | scalars type elements =>
    exact sameOn_encodeElements fun buffer index value changed hindex h =>
      sameOn_encodeScalar hindex h
  | times asText zone elements =>
    cases value with
    | bytes octets => exact sameOn_writeOctets le_rfl fun _ hbit => hbit
    | _ => exact .refl buffer
  | string capacity =>
    cases value with
    | text text => exact sameOn_wholeWrite fun changed h => sameOn_encodeString h
    | _ => exact .refl buffer
  | octets readSize =>
    cases value with
    | bytes octets => exact sameOn_writeOctets le_rfl fun _ hbit => hbit
    | _ => exact .refl buffer

/-- **Encoding** keeps the length of the buffer and all bits that it does not write, also when it
fails. -/
theorem sameOn_encode (buffer : Buffer) (d : Descriptor) (value : Value) (options : DecodeOptions) :
    (encode buffer d value options).1.SameOn (fun bit => ¬ d.Written value options bit) buffer := by
  rw [encode_eq_write]
  exact Field.sameOn_written _ _ _ _ _

end PlcTags

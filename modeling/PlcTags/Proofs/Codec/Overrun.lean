import PlcTags.Proofs.Codec.WriteBack
import PlcTags.Proofs.Codec.Written

/-!
# Octets longer than their field

Times and structures are written as the octets that come, however many. Octets that are longer than
the field are written over what lies behind it.

* `Buffer.write?_eq_ok_iff`: octets are written if they end inside the buffer.
* `Buffer.getElem?_write_of_lt`: what is found where they were written.
* `Buffer.sameOn_write_iff`: a writing keeps what lies behind a field exactly if the octets that it
  puts there were there before.
* `encode_octets`: **how far octets reach** that are written for a time or a structure.
-/

namespace PlcTags

/-! ## Buffers -/

namespace Buffer

variable {buffer changed : Buffer} {octets : List UInt8} {offset length : Nat}

theorem write?_eq_ok_iff : (∃ changed, buffer.write? offset octets = .ok changed) ↔
    offset + octets.length ≤ buffer.length := by
  unfold write?
  split_ifs with hfits
  · exact ⟨fun _ => hfits, fun _ => ⟨_, rfl⟩⟩
  · constructor
    · rintro ⟨_, h⟩
      cases h
    · intro h
      exact absurd h hfits

theorem getElem?_write_of_lt (h : buffer.write? offset octets = .ok changed) {i : Nat}
    (hi : i < octets.length) : changed[offset + i]? = octets[i]? := by
  unfold write? at h
  split_ifs at h with hfits
  have htake : (buffer.take offset).length = offset := List.length_take_of_le (by omega)
  rw [← Except.ok.inj h, List.append_assoc, List.getElem?_append_right (by omega), htake,
    Nat.add_sub_cancel_left, List.getElem?_append_left hi]

/-- **What lies behind a field stays** exactly if the octets that go there were there before. -/
theorem sameOn_write_iff (h : buffer.write? offset octets = .ok changed) :
    changed.SameOn (fun bit => ¬ InOctets offset length bit) buffer ↔
      ∀ i, length ≤ i → i < octets.length → buffer[offset + i]? = octets[i]? := by
  constructor
  · intro hsame i hbehind hi
    have hoctet : changed[offset + i]? = buffer[offset + i]? := by
      refine hsame.getElem?_eq fun k _ hin => ?_
      have hlast := hin.2
      omega
    rw [← hoctet, getElem?_write_of_lt h hi]
  · intro hsame
    refine ⟨length_write h, fun bit hbit => bit?_congr ?_⟩
    -- an octet outside the field was not written, or is one of those behind it
    by_cases hwritten : offset ≤ bit / 8 ∧ bit / 8 < offset + octets.length
    · obtain ⟨i, hi⟩ := Nat.exists_eq_add_of_le hwritten.1
      have hbehind : length ≤ i := by
        by_contra hin
        exact hbit ⟨by omega, by omega⟩
      rw [hi, getElem?_write_of_lt h (by omega), hsame i hbehind (by omega)]
    · exact getElem?_write h (by omega)

end Buffer

/-! ## Values -/

section

variable {buffer : Buffer} {d : Descriptor} {options : DecodeOptions} {octets : List UInt8}

theorem encode_bytes (htype : d.type = .time ∨ d.type = .udt) :
    encode buffer d (.bytes octets) options =
      wholeWrite buffer (liftFault (buffer.write? (d.base options) octets)) := by
  rw [encode_eq_write]
  unfold Descriptor.field
  rcases htype with htype | htype <;> rw [htype] <;> rfl

theorem wholeWrite_liftFault_eq_ok_iff {outcome : Except TagFault Buffer} {changed : Buffer} :
    wholeWrite buffer (liftFault outcome) = (changed, .ok ()) ↔ outcome = .ok changed := by
  cases outcome with
  | error fault =>
    constructor
    · intro h
      cases (Prod.mk.inj h).2
    · intro h
      cases h
  | ok written =>
    constructor
    · intro h
      rw [(Prod.mk.inj h).1]
    · intro h
      rw [Except.ok.inj h]
      rfl

/-- **Octets for a time or a structure** are written if they end inside the buffer, whatever the
length of the field. They are found at its place, and all else stays; so what lies behind the field
stays exactly if the octets that do not fit it were there before. -/
theorem encode_octets (buffer : Buffer) (octets : List UInt8)
    (htype : d.type = .time ∨ d.type = .udt) :
    ((∃ changed, encode buffer d (.bytes octets) options = (changed, .ok ())) ↔
      d.base options + octets.length ≤ buffer.length) ∧
    ∀ changed, encode buffer d (.bytes octets) options = (changed, .ok ()) →
      changed.read? (d.base options) octets.length = .ok octets ∧
      changed.SameOn (fun bit => ¬ InOctets (d.base options) octets.length bit) buffer ∧
      ∀ length, (d.field options).length? = some length →
        (changed.SameOn (fun bit => ¬ InOctets (d.base options) length bit) buffer ↔
          ∀ i, length ≤ i → i < octets.length → buffer[d.base options + i]? = octets[i]?) := by
  rw [encode_bytes htype]
  simp only [wholeWrite_liftFault_eq_ok_iff]
  refine ⟨Buffer.write?_eq_ok_iff, fun changed h => ⟨Buffer.read?_of_write h, ?_, ?_⟩⟩
  · exact (Buffer.sameOn_write h).mono fun bit hout => by
      unfold InOctets at hout
      omega
  · exact fun _ _ => Buffer.sameOn_write_iff h

end

/-! ## A shift that began -/

/-- The time at which a shift began, in front of the number of its crew. -/
def shiftStart : Descriptor :=
  { shiftStarts with count := 1 }

/-- Ten octets for the time change the crew. -/
theorem encode_octets_shiftStart :
    encode (octets 8 0 ++ octets 2 7) shiftStart (.bytes (octets 8 1 ++ octets 2 9)) {} =
        (octets 8 1 ++ octets 2 9, .ok ()) ∧
      (shiftStart.field {}).length? = some 8 ∧
      ¬ Buffer.SameOn (fun bit => ¬ InOctets 0 8 bit) (octets 8 1 ++ octets 2 9)
        (octets 8 0 ++ octets 2 7) := by
  have hwritten : encode (octets 8 0 ++ octets 2 7) shiftStart
      (.bytes (octets 8 1 ++ octets 2 9)) {} = (octets 8 1 ++ octets 2 9, .ok ()) := by
    with_unfolding_all rfl
  have htime : shiftStart.type = .time ∨ shiftStart.type = .udt := Or.inl rfl
  obtain ⟨-, -, hbehind⟩ :=
    (encode_octets (octets 8 0 ++ octets 2 7) (octets 8 1 ++ octets 2 9) htime).2 _ hwritten
  refine ⟨hwritten, rfl, fun hsame => ?_⟩
  exact absurd ((hbehind 8 rfl).mp hsame 8 (by decide) (by decide)) (by decide)

/-- **Octets do not stay inside their field**. -/
theorem not_forall_encode_octets_within :
    ¬ ∀ (buffer changed : Buffer) (d : Descriptor) (octets : List UInt8) (options : DecodeOptions)
      (length : Nat), d.type = .time ∨ d.type = .udt → (d.field options).length? = some length →
      encode buffer d (.bytes octets) options = (changed, .ok ()) →
        changed.SameOn (fun bit => ¬ InOctets (d.base options) length bit) buffer := by
  intro h
  have hsame := h (octets 8 0 ++ octets 2 7) (octets 8 1 ++ octets 2 9) shiftStart
    (octets 8 1 ++ octets 2 9) {} 8 (Or.inl rfl) rfl (by with_unfolding_all rfl)
  have hcrew : (octets 8 1 ++ octets 2 9)[8]? = (octets 8 0 ++ octets 2 7)[8]? := by
    refine hsame.getElem?_eq fun k _ hin => ?_
    have hlast : 8 * 8 + k < 8 * (0 + 8) := hin.2
    omega
  exact absurd hcrew (by decide)

end PlcTags

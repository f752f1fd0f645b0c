import PlcTags.Proofs.Codec.RoundTrip
import PlcTags.Proofs.Text.Cut

/-!
# Texts longer than their place

A string of fixed capacity is stored as its first octets, which need not end with a character. What
is read back are the whole characters that fit the capacity, and a replacement if the octets of one
more were cut.

* `decode_of_encode_text`: **what is read back of a text in a fixed place**.
-/

namespace PlcTags

open PlcTags.Text.Utf8 (CutClean LongestFit replacement)

variable {buffer changed : Buffer} {d : Descriptor} {options : DecodeOptions} {capacity : Nat}
  {text : String}

/-- **A text in a fixed place** is read back as its longest beginning that fits if it is cut between
characters. A text that is cut inside a character gets a replacement behind that beginning. -/
theorem decode_of_encode_text (htype : d.type = .string)
    (hcapacity : d.stringCapacity? options = some capacity) (hpos : 1 ≤ capacity)
    (hzero : '\x00' ∉ text.toList)
    (h : encode buffer d (.text text) options = (changed, .ok ())) :
    ∃ kept, LongestFit capacity text.toList kept ∧
      (CutClean capacity text.toList kept →
        decode changed d options = .ok (.text (String.ofList kept))) ∧
      (¬ CutClean capacity text.toList kept →
        decode changed d options = .ok (.text (String.ofList (kept ++ [replacement])))) := by
  have hfield : d.field options = .string (some capacity) := by
    rw [Descriptor.field, htype, ← hcapacity]
  rw [encode_eq_write, hfield] at h
  rw [decode_eq_read, hfield, Field.read_write_cut hpos hzero h]
  obtain ⟨kept, hkept, hclean, hcut⟩ := Text.Utf8.decode_take_encode capacity text.toList
  exact ⟨kept, hkept, fun hends => by rw [hclean hends], fun hends => by rw [hcut hends]⟩

/-- A sign with place for two octets. -/
def doorSign : Descriptor where
  poller := none
  tag := "Door.Sign"
  startIndex := none
  type := .string
  count := 1
  source := .literal 0
  offset := 0
  bitAddressed := false
  attributes := { Attributes.defaults false with maxCapacity := some 2 }
  extras := ""

/-- A text of two characters and three octets. -/
def longSign : String :=
  String.ofList ['a', 'é']

theorem encode_longSign : encode (octets 2 0) doorSign (.text longSign) ⟨true, 0⟩ =
    ([0x61, 0xC3], .ok ()) := by
  have hcontent : Text.Utf8.encode longSign.toList = [0x61, 0xC3, 0xA9] := by
    rw [longSign, String.toList_ofList]
    decide
  show wholeWrite (octets 2 0) (encodeString (octets 2 0) (some 2) 0 longSign) = _
  unfold encodeString
  rw [hcontent]
  rfl

/-- The part of a text that fits its sign, which is not all of it and does not fill it. -/
theorem cut_longSign : LongestFit 2 longSign.toList ['a'] ∧
    ¬ CutClean 2 longSign.toList ['a'] ∧ '\x00' ∉ longSign.toList := by
  rw [longSign, String.toList_ofList]
  refine ⟨Text.Utf8.longestFit_wholePart 2 ['a', 'é'], ?_, by decide⟩
  rintro (h | h)
  · cases h
  · exact absurd h (by decide)

theorem decode_of_encode_text_longSign :
    decode [0x61, 0xC3] doorSign ⟨true, 0⟩ = .ok (.text (String.ofList ['a', replacement])) := by
  obtain ⟨hfit, hcut, hzero⟩ := cut_longSign
  obtain ⟨kept, hkept, -, hread⟩ :=
    decode_of_encode_text rfl rfl (by decide) hzero encode_longSign
  rw [hkept.eq hfit] at hread
  exact hread hcut

/-- **A text that does not fit** may be read back as one that does not begin it. -/
theorem not_forall_decode_of_encode_text :
    ¬ ∀ (buffer changed : Buffer) (d : Descriptor) (options : DecodeOptions) (capacity : Nat)
      (text : String) (kept : List Char), d.type = .string →
      d.stringCapacity? options = some capacity → 1 ≤ capacity → '\x00' ∉ text.toList →
      encode buffer d (.text text) options = (changed, .ok ()) →
      LongestFit capacity text.toList kept →
        decode changed d options = .ok (.text (String.ofList kept)) := by
  intro h
  obtain ⟨hfit, -, hzero⟩ := cut_longSign
  have hread := h (octets 2 0) [0x61, 0xC3] doorSign ⟨true, 0⟩ 2 longSign ['a'] rfl rfl
    (by decide) hzero encode_longSign hfit
  have hfound : decode [0x61, 0xC3] doorSign ⟨true, 0⟩ =
      .ok (.text (String.ofList ['a', replacement])) := by
    with_unfolding_all rfl
  rw [hfound] at hread
  have hchars : ['a', replacement] = ['a'] :=
    String.ofList_injective (Value.text.inj (Except.ok.inj hread))
  cases hchars

end PlcTags

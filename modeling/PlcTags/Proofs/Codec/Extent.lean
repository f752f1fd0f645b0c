import PlcTags.Proofs.Codec.RoundTrip

/-!
# Encoding inside a field

A value is written element by element, so an error may leave some elements written. Whatever happens,
flags, numbers and strings of fixed capacity are written inside their field (`encode_within_extent`),
and a string that fails is not written at all.

* `Descriptor.Extent`: the bits of such a field, by the declared type.
* `Descriptor.extent_of_written`: the encoder writes no others.
-/

namespace PlcTags

/-- **The extent of a field** of flags, of numbers or of a string of fixed capacity: consecutive bits
for flags that are bit addressed, the lowest bit of every second octet for other flags, the octets of
the capacity for the string, and the elements one behind the other for numbers. A count of zero is
taken as one. -/
def Descriptor.Extent (d : Descriptor) (options : DecodeOptions) (bit : Nat) : Prop :=
  match d.type with
  | .bool =>
    if d.bitAddressed then d.base options ≤ bit ∧ bit < d.base options + d.elements
    else ∃ index < d.elements, bit = 8 * (d.base options + 2 * index)
  | .string => ∃ capacity, d.stringCapacity? options = some capacity ∧
    InOctets (d.base options) capacity bit
  | type => ∃ width, type.width? = some width ∧
    InOctets (d.base options) (d.elements * width) bit

section

variable {d : Descriptor} {options : DecodeOptions} {value : Value} {bit : Nat}

theorem Descriptor.extent_of_written_flags (htype : d.type = .bool)
    (h : d.Written value options bit) : d.Extent options bit := by
  unfold Written field at h
  unfold Extent
  rw [htype] at h ⊢
  obtain ⟨index, hindex, rfl⟩ := h
  dsimp only
  split_ifs
  · omega
  · exact ⟨index, hindex, by rw [Nat.mul_comm 2]⟩

theorem Descriptor.extent_of_written_string {capacity : Nat} (htype : d.type = .string)
    (hcapacity : d.stringCapacity? options = some capacity) (h : d.Written value options bit) :
    d.Extent options bit := by
  unfold Written field at h
  unfold Extent
  rw [htype] at h ⊢
  refine ⟨capacity, hcapacity, ?_⟩
  dsimp only at h
  rw [hcapacity] at h
  exact h

/-- A scalar is as wide as its declared type. -/
theorem Descriptor.extent_of_written_scalars {type : ScalarType} (htime : d.type ≠ .time)
    (hscalars : ScalarType.ofDataType? d.type = some type) (h : d.Written value options bit) :
    d.Extent options bit := by
  unfold Written at h
  rw [field_of_scalars hscalars htime] at h
  unfold Extent
  -- flags and strings are no scalars, so one case of the extent is left
  cases htype : d.type <;> rw [htype] at hscalars <;> cases hscalars
  all_goals exact ⟨_, rfl, h⟩

/-- **The encoder writes inside the extent.** -/
theorem Descriptor.extent_of_written
    (hfield : d.type.isElementary ∨ d.type = .string ∧ (d.stringCapacity? options).isSome)
    (h : d.Written value options bit) : d.Extent options bit := by
  rcases hfield with helementary | ⟨htype, hcapacity⟩
  · rcases eq_bool_or_scalars helementary with htype | ⟨htime, type, hscalars⟩
    · exact extent_of_written_flags htype h
    · exact extent_of_written_scalars htime hscalars h
  · obtain ⟨capacity, hcapacity⟩ := Option.isSome_iff_exists.mp hcapacity
    exact extent_of_written_string htype hcapacity h

theorem wholeWrite_eq_error {buffer changed : Buffer} {outcome : Except DecodeError Buffer}
    {cause : DecodeError} (h : wholeWrite buffer outcome = (changed, .error cause)) :
    changed = buffer := by
  cases outcome with
  | ok written => cases (Prod.mk.inj h).2
  | error other => exact (Prod.mk.inj h).1.symm

/-- A string that fails is not written. -/
theorem eq_of_encode_string_error {buffer changed : Buffer} {cause : DecodeError}
    (htype : d.type = .string) (h : encode buffer d value options = (changed, .error cause)) :
    changed = buffer := by
  rw [encode_eq_write, Descriptor.field, htype] at h
  cases value with
  | text text => exact wholeWrite_eq_error h
  | _ => exact (Prod.mk.inj h).1.symm

/-- **Encoding stays inside its field**, also when it fails on the way: the buffer keeps its length
and all bits outside the extent. A string that fails changes nothing. -/
theorem encode_within_extent (buffer : Buffer) (d : Descriptor) (value : Value)
    (options : DecodeOptions)
    (hfield : d.type.isElementary ∨ d.type = .string ∧ (d.stringCapacity? options).isSome) :
    (encode buffer d value options).1.SameOn (fun bit => ¬ d.Extent options bit) buffer ∧
      (d.type = .string → ∀ cause, (encode buffer d value options).2 = .error cause →
        (encode buffer d value options).1 = buffer) := by
  refine ⟨(sameOn_encode buffer d value options).mono fun bit hout hwritten => ?_,
    fun htype cause hcause => eq_of_encode_string_error htype (Prod.ext rfl hcause)⟩
  exact hout (Descriptor.extent_of_written hfield hwritten)

end

/-- Three flags that lie from the seventh bit of an area on. -/
def lampFlags : Descriptor where
  poller := none
  tag := "Panel.Lamps[6]"
  startIndex := some 6
  type := .bool
  count := 3
  source := .literal 6
  offset := 6
  bitAddressed := true
  attributes := .defaults false
  extras := ""

/-- Two flags and a number in the place of the third. -/
def mixedLamps : Value :=
  .array [.bool true, .bool true, .number ⟨.integer false .one, 1⟩]

/-- Two flags are written before the number is refused, and the first octet keeps its lower bits. -/
theorem encode_within_extent_lamps :
    (encode [2, 0] lampFlags mixedLamps ⟨true, 0⟩).1 = [0xC2, 0] ∧
      (∃ cause, (encode [2, 0] lampFlags mixedLamps ⟨true, 0⟩).2 = .error cause) ∧
      Buffer.SameOn (fun bit => ¬ (6 ≤ bit ∧ bit < 9)) [0xC2, 0] [2, 0] := by
  have hwritten : (encode [2, 0] lampFlags mixedLamps ⟨true, 0⟩).1 = [0xC2, 0] := by
    with_unfolding_all rfl
  obtain ⟨hsame, -⟩ := encode_within_extent [2, 0] lampFlags mixedLamps ⟨true, 0⟩ (.inl rfl)
  rw [hwritten] at hsame
  exact ⟨hwritten, ⟨_, by with_unfolding_all rfl⟩, hsame⟩

end PlcTags

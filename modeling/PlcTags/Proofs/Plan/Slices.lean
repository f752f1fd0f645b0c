import Mathlib.Data.List.TakeWhile
import Mathlib.Tactic.SplitIfs
import PlcTags.Plan.Slices
import PlcTags.Proofs.Codec.Field

/-!
# Slices hold the fields of their elements

A value that is moved from the tag of its array element to a slice reads the same octets there,
whichever way it is decoded.

* `Slice.Spans`: a slice reaches over each of its elements and no farther than one message does.
* `Slice.joined`: the buffer of a slice, its elements one after the other.
* `Family.Ascending`: the elements of a family come by ascending index, as `Family.ofGroups` sorts
  them; the cover relies on it.
-/

namespace PlcTags

open PlcTags.Number (twoTo)
open PlcTags.Text (wordLimit)

/-! ## Families -/

/-- The elements come by ascending index. -/
def Family.Ascending (family : Family) : Prop :=
  family.elements.Pairwise fun a b => a.1 ≤ b.1

namespace Family

theorem before_iff {a b : Nat × Nat} : before a b = true ↔ a.1 < b.1 ∨ a.1 = b.1 ∧ a.2 ≤ b.2 := by
  simp [before]

/-- **Families are ascending.** -/
theorem ascending_of_mem_ofGroups {groups : List Group} {family : Family}
    (h : family ∈ ofGroups groups) : family.Ascending := by
  obtain ⟨key, -, rfl⟩ := List.mem_map.mp (List.mem_filter.mp h).1
  have htrans : ∀ a b c, before a b = true → before b c = true → before a c = true := by
    intro a b c hab hbc
    rw [before_iff] at hab hbc ⊢
    omega
  have htotal : ∀ a b, (before a b || before b a) = true := by
    intro a b
    rw [Bool.or_eq_true, before_iff, before_iff]
    omega
  refine (List.pairwise_mergeSort htrans htotal _).imp fun hab => ?_
  rw [before_iff] at hab
  omega

end Family

/-! ## Spans -/

namespace Slice

/-- **The slice reaches over its elements**, fewer than `reach` of the array. -/
structure Spans (slice : Slice) (reach : Nat) : Prop where
  count_le : slice.count ≤ reach
  start_le : ∀ element ∈ slice.elements, slice.start ≤ element.1
  lt_end : ∀ element ∈ slice.elements, element.1 < slice.start + slice.count

variable {reach : Nat} {first : Nat × Nat} {others elements : List (Nat × Nat)}

/-- The last of ascending elements has the largest index. -/
theorem le_getLast (h : (first :: others).Pairwise fun a b => a.1 ≤ b.1) :
    ∀ element ∈ first :: others, element.1 ≤ (others.getLast?.getD first).1 := by
  induction others generalizing first with
  | nil => simp
  | cons next rest ih =>
    have hlast : (next :: rest).getLast?.getD first = rest.getLast?.getD next := by
      rw [List.getLast?_cons, Option.getD_some]
    obtain ⟨hfirst, hrest⟩ := List.pairwise_cons.mp h
    intro element helement
    rw [hlast]
    rcases List.mem_cons.mp helement with rfl | helement
    · exact (hfirst next List.mem_cons_self).trans (ih hrest next List.mem_cons_self)
    · exact ih hrest element helement

theorem spans_ofElements (h : (first :: others).Pairwise fun a b => a.1 ≤ b.1)
    (hreach : 0 < reach) (hfits : ∀ element ∈ others, element.1 - first.1 < reach) :
    (ofElements first others).Spans reach := by
  have hle : ∀ element ∈ first :: others, first.1 ≤ element.1 := by
    intro element helement
    rcases List.mem_cons.mp helement with rfl | helement
    · exact le_rfl
    · exact (List.pairwise_cons.mp h).1 element helement
  refine ⟨?_, hle, fun element helement => ?_⟩
  · show (others.getLast?.getD first).1 - first.1 + 1 ≤ reach
    cases hlast : others.getLast? with
    | none => rw [Option.getD_none]; omega
    | some last => exact hfits last (List.mem_of_getLast? hlast)
  · show element.1 < first.1 + ((others.getLast?.getD first).1 - first.1 + 1)
    have hlast := le_getLast h element helement
    have := hle element helement
    omega

/-- The cover of ascending elements. Induction on the elements that are left. -/
theorem spans_of_mem_cover (hreach : 0 < reach) (h : elements.Pairwise fun a b => a.1 ≤ b.1) :
    ∀ slice ∈ cover reach elements, slice.Spans reach := by
  induction elements using cover.induct reach with
  | case1 => simp [cover]
  | case2 first rest fits ih =>
    intro slice hslice
    rw [cover] at hslice
    obtain ⟨hfirst, hrest⟩ := List.pairwise_cons.mp h
    rcases List.mem_cons.mp hslice with rfl | hslice
    · -- what is taken starts at the smallest index and ends before the reach
      refine spans_ofElements (h.sublist ((List.takeWhile_sublist _).cons_cons first)) hreach ?_
      exact fun element helement => by simpa using List.mem_takeWhile_imp helement
    · exact ih (hrest.sublist (List.dropWhile_sublist _)) slice hslice

end Slice

theorem Family.spans_of_mem_slices {family : Family} {size : Nat} {slice : Slice}
    (h : family.Ascending) (hslice : slice ∈ family.slices size) :
    slice.Spans (perSlice size) := by
  unfold slices at hslice
  split_ifs at hslice with hfew
  · cases hslice
  · exact Slice.spans_of_mem_cover (by omega) h slice (List.mem_filter.mp hslice).1

/-! ## The buffer of a slice -/

namespace Slice

/-- **The buffer of a slice**: what the elements of the array hold, one after the other. -/
def joined (slice : Slice) (contents : Nat → Buffer) : Buffer :=
  (List.range slice.count).flatMap fun i => contents (slice.start + i)

section

variable {blocks : Nat → Buffer} {size count : Nat}

theorem length_flatMap_range (h : ∀ i < count, (blocks i).length = size) :
    ((List.range count).flatMap blocks).length = count * size := by
  induction count with
  | zero => rw [Nat.zero_mul]; rfl
  | succ count ih =>
    rw [List.range_succ, List.flatMap_append, List.length_append, List.flatMap_singleton,
      ih fun i hi => h i (Nat.lt_succ_of_lt hi), h count (Nat.lt_succ_self count), Nat.succ_mul]

/-- Blocks of one size, one after the other. -/
theorem getElem?_flatMap_range (h : ∀ i < count, (blocks i).length = size) {i j : Nat}
    (hi : i < count) (hj : j < size) :
    ((List.range count).flatMap blocks)[i * size + j]? = (blocks i)[j]? := by
  induction count with
  | zero => cases hi
  | succ count ih =>
    have hlength := length_flatMap_range fun i hi => h i (Nat.lt_succ_of_lt hi)
    rw [List.range_succ, List.flatMap_append, List.flatMap_singleton]
    rcases Nat.lt_succ_iff_lt_or_eq.mp hi with hi | rfl
    · have hend : (i + 1) * size ≤ count * size := Nat.mul_le_mul_right _ hi
      rw [Nat.succ_mul] at hend
      rw [List.getElem?_append_left (by omega), ih (fun i hi => h i (Nat.lt_succ_of_lt hi)) hi]
    · rw [List.getElem?_append_right (by omega), hlength, Nat.add_sub_cancel_left]

end

variable {slice : Slice} {contents : Nat → Buffer} {size index : Nat}

theorem length_joined (h : ∀ index, slice.start ≤ index → index < slice.start + slice.count →
    (contents index).length = size) : (slice.joined contents).length = slice.count * size :=
  length_flatMap_range fun i hi => h (slice.start + i) (by omega) (by omega)

/-- An element lies in the slice as many sizes behind its start as there are elements before it. -/
theorem agree_joined (h : ∀ index, slice.start ≤ index → index < slice.start + slice.count →
    (contents index).length = size) (hstart : slice.start ≤ index)
    (hend : index < slice.start + slice.count) :
    (contents index).Agree 0 (slice.joined contents) ((index - slice.start) * size) size where
  fits₁ := by rw [h index hstart hend, Nat.zero_add]
  fits₂ := by
    rw [length_joined h, ← Nat.succ_mul]
    exact Nat.mul_le_mul_right _ (by omega)
  octet_eq i hi := by
    have hblocks : ∀ i < slice.count, (contents (slice.start + i)).length = size :=
      fun i hi => h (slice.start + i) (by omega) (by omega)
    have hblock := getElem?_flatMap_range hblocks
      (show index - slice.start < slice.count by omega) hi
    rw [Nat.zero_add, joined, hblock, Nat.add_sub_cancel' hstart]

end Slice

theorem Family.count_mul_le {family : Family} {size : Nat} {slice : Slice} (h : family.Ascending)
    (hslice : slice ∈ family.slices size) : slice.count * size ≤ messageCapacity :=
  (Nat.mul_le_mul_right size (spans_of_mem_slices h hslice).count_le).trans
    (Nat.div_mul_le_self messageCapacity size)

/-! ## Moved values -/

theorem Descriptor.inBits_field {d : Descriptor} (h : d.bitAddressed = true → d.type = .bool)
    (options : DecodeOptions) : (d.field options).inBits = d.bitAddressed := by
  unfold Descriptor.field
  cases htype : d.type with
  | bool => rfl
  | _ =>
    cases hbits : d.bitAddressed with
    | false => rfl
    | true => cases htype.symm.trans (h hbits)

/-- An offset of a field within an element can be moved: nothing leaves the addresses. -/
theorem Slice.rebase?_eq {slice : Slice} {index size : Nat} {d : Descriptor}
    {options : DecodeOptions} (hstart : slice.start ≤ index)
    (hend : index < slice.start + slice.count) (hmessage : slice.count * size ≤ messageCapacity)
    (hwithin : (d.field options).Within size d.offset)
    (hbits : d.bitAddressed = true → d.type = .bool) :
    slice.rebase? index size d.offset d.bitAddressed =
      some ((d.field options).scale * ((index - slice.start) * size) + d.offset) := by
  obtain ⟨length, -, -, hfits⟩ := hwithin
  have hcapacity : messageCapacity = 1994 := rfl
  have hlimit : wordLimit = 18446744073709551616 := rfl
  have hmoved : (index - slice.start + 1) * size ≤ slice.count * size :=
    Nat.mul_le_mul_right _ (by omega)
  rw [Nat.succ_mul] at hmoved
  -- the field ends inside the message, so no sum comes near the limit
  unfold Field.scale at hfits ⊢
  rw [Descriptor.inBits_field hbits options] at hfits ⊢
  show (if index < slice.start then none else if _ ∧ _ then some _ else none) = _
  rw [if_neg (Nat.not_lt.mpr hstart)]
  split_ifs at hfits ⊢ with hbit hword hword
  · rw [Nat.add_comm]
  · exact absurd ⟨by omega, by omega, by omega⟩ hword
  · rw [Nat.one_mul, Nat.add_comm]
  · exact absurd ⟨by omega, by omega, by omega⟩ hword

/-- **A slice holds the fields of its elements.** A field inside an array element has an offset in
the slice, and decoding it there from the elements put together is decoding it from its own
element. -/
theorem decode_rebase {family : Family} {size : Nat} {slice : Slice} {element : Nat × Nat}
    {contents : Nat → Buffer} {d : Descriptor} {zone : BitVec 64} (hascending : family.Ascending)
    (hslice : slice ∈ family.slices size) (helement : element ∈ slice.elements)
    (hcontents : ∀ index, slice.start ≤ index → index < slice.start + slice.count →
      (contents index).length = size)
    (hwithin : (d.field ⟨true, zone⟩).Within size d.offset)
    (hbits : d.bitAddressed = true → d.type = .bool) :
    ∃ offset, slice.rebase? element.1 size d.offset d.bitAddressed = some offset ∧
      decode (slice.joined contents) { d with offset := offset } ⟨true, zone⟩ =
        decode (contents element.1) d ⟨true, zone⟩ := by
  have hspans := Family.spans_of_mem_slices hascending hslice
  have hstart := hspans.start_le element helement
  have hend := hspans.lt_end element helement
  have hmessage := Family.count_mul_le hascending hslice
  have hcapacity : 8 * messageCapacity ≤ wordLimit := by decide
  have hlength := Slice.length_joined hcontents
  have harea := Slice.agree_joined hcontents hstart hend
  have hsize := harea.fits₂
  have hagree := Field.agree_of_area harea hwithin
  rw [Nat.mul_zero, Nat.zero_add] at hagree
  have hread := Field.read_eq_of_agree
    (by rw [hcontents _ hstart hend]; omega) (by rw [hlength]; omega) hagree
  refine ⟨_, Slice.rebase?_eq hstart hend hmessage hwithin hbits, ?_⟩
  rw [decode_eq_read, decode_eq_read]
  exact hread.symm

/-- Two motors of an array that are read every time, the first and the third. -/
def motors : Family := ⟨"fast", "Motors", [(1, 0), (3, 1)]⟩

/-- The slice with both. -/
def motorSlice : Slice := ⟨1, 3, [(1, 0), (3, 1)]⟩

/-- The speed of the third one, a number four octets behind its start. -/
def motorSpeed : Descriptor where
  poller := some "fast"
  tag := "Motors[3].Speed"
  startIndex := some 3
  type := .int
  count := 1
  source := .literal 4
  offset := 4
  bitAddressed := false
  attributes := .defaults false
  extras := ""

theorem decode_rebase_motorSpeed :
    ∃ offset, motorSlice.rebase? 3 8 4 false = some offset ∧
      decode (motorSlice.joined fun index => octets 8 (index * twoTo 40))
          { motorSpeed with offset := offset } ⟨true, 0⟩ =
        decode (octets 8 (3 * twoTo 40)) motorSpeed ⟨true, 0⟩ := by
  have hascending : motors.Ascending := by
    unfold Family.Ascending
    decide
  have hslice : motorSlice ∈ motors.slices 8 := by with_unfolding_all decide
  exact decode_rebase (d := motorSpeed) hascending hslice
    (List.mem_cons_of_mem _ List.mem_cons_self) (fun _ _ _ => length_octets 8 _)
    ⟨2, rfl, by decide, by decide⟩ (fun h => nomatch h)

end PlcTags

import Mathlib.Data.List.Pairwise
import PlcTags.Proofs.Plan.Cover

/-!
# Slices need the fewest reads

A family is read slice by slice, and element by element where there is no slice. No other way of
reading elements together needs fewer reads, as long as one message carries what is read together.

* `Family.ReadBy`: a way of reading the elements of a family together.
* `Family.reads`: how often a family is read.
* `Slice.length_cover_le`: the first elements of two slices are never read together.
* `Family.reads_fewest`: slices need the fewest reads.
-/

namespace PlcTags

namespace Family

/-- **The elements of a family are read in blocks**: every element is in one of them, and the
indices in a block are less than `reach` apart. An empty block only adds to their number. -/
structure ReadBy (family : Family) (reach : Nat) (blocks : List (List (Nat × Nat))) : Prop where
  perm : blocks.flatten.Perm family.elements
  narrow : ∀ block ∈ blocks, ∀ a ∈ block, ∀ b ∈ block, a.1 < b.1 + reach

/-- The elements that are in no slice. -/
def alone (family : Family) (size : Nat) : List (Nat × Nat) :=
  family.elements.filter fun element => ∀ slice ∈ family.slices size, element ∉ slice.elements

/-- How often a family is read: once for each slice, and once for each element that is in none. -/
def reads (family : Family) (size : Nat) : Nat :=
  (family.slices size).length + (family.alone size).length

end Family

/-! ## No cover is smaller -/

namespace Slice

variable {reach : Nat} {elements : List (Nat × Nat)} {a b slice : Slice} {element : Nat × Nat}

/-- **Slices are no more than any blocks** that hold the elements. Induction on the elements that are
left: the block of the first one reaches no element behind the first slice, so all of these are in
the other blocks. -/
theorem length_cover_le (h : elements.Pairwise fun a b => a.1 ≤ b.1) :
    ∀ blocks : List (List (Nat × Nat)),
      (∀ block ∈ blocks, ∀ a ∈ block, ∀ b ∈ block, a.1 < b.1 + reach) →
      (∀ element ∈ elements, ∃ block ∈ blocks, element ∈ block) →
        (cover reach elements).length ≤ blocks.length := by
  induction elements using cover.induct reach with
  | case1 =>
    intro blocks _ _
    rw [cover]
    exact Nat.zero_le _
  | case2 first rest fits ih =>
    intro blocks hnarrow hcovers
    obtain ⟨hleast, hrest⟩ := List.pairwise_cons.mp h
    obtain ⟨block, hblock, hfirst⟩ := hcovers first List.mem_cons_self
    have hothers : ∀ element ∈ rest.dropWhile fits, ∃ other ∈ blocks.erase block,
        element ∈ other := by
      intro element helement
      rw [dropWhile_eq_filter_of_pairwise (pairwise_fits hrest first reach)] at helement
      obtain ⟨hmem, hbeyond⟩ := List.mem_filter.mp helement
      obtain ⟨other, hother, hin⟩ := hcovers element (List.mem_cons_of_mem _ hmem)
      refine ⟨other, (List.mem_erase_of_ne ?_).mpr hother, hin⟩
      rintro rfl
      have hnear := hnarrow other hother element hin first hfirst
      have hle := hleast element hmem
      simp only [Bool.not_eq_true', decide_eq_false_iff_not] at hbeyond
      omega
    have hle := ih (hrest.sublist (List.dropWhile_sublist _)) (blocks.erase block)
      (fun other hother => hnarrow other (List.mem_of_mem_erase hother)) hothers
    rw [List.length_erase_of_mem hblock] at hle
    have hpos := List.length_pos_of_mem hblock
    have hlength : (cover reach (first :: rest)).length =
        (cover reach (rest.dropWhile fits)).length + 1 := by
      rw [cover, List.length_cons]
    omega

/-! ## Elements without a slice -/

/-- An element is in one slice only. -/
theorem eq_of_mem_cover (hreach : 0 < reach) (h : elements.Pairwise fun a b => a.1 ≤ b.1)
    (ha : a ∈ cover reach elements) (hb : b ∈ cover reach elements) (hina : element ∈ a.elements)
    (hinb : element ∈ b.elements) : a = b := by
  have hwithin : ∀ slice ∈ cover reach elements, element ∈ slice.elements →
      slice.start ≤ element.1 ∧ element.1 < slice.start + reach := by
    intro slice hslice hin
    rw [elements_of_mem_cover hreach h hslice] at hin
    exact of_decide_eq_true (List.mem_filter.mp hin).2
  have hapart : (cover reach elements).Pairwise fun a b =>
      a.start + reach ≤ b.start ∨ b.start + reach ≤ a.start :=
    (pairwise_cover h).imp Or.inl
  obtain ⟨hstarta, henda⟩ := hwithin a ha hina
  obtain ⟨hstartb, hendb⟩ := hwithin b hb hinb
  have hsymm : Std.Symm fun a b : Slice => a.start + reach ≤ b.start ∨ b.start + reach ≤ a.start :=
    ⟨fun _ _ => Or.symm⟩
  by_contra hne
  rcases hapart.forall ha hb hne with hbehind | hbefore
  · omega
  · omega

theorem length_elements_pos (h : slice ∈ cover reach elements) : 0 < slice.elements.length := by
  obtain ⟨first, others, -, rfl⟩ := exists_ofElements h
  exact Nat.succ_pos _

end Slice

theorem length_flatMap_eq_countP {α β : Type} {xs : List α} {f : α → List β} {p : α → Bool}
    (h : ∀ x ∈ xs, (f x).length = if p x then 1 else 0) : (xs.flatMap f).length = xs.countP p := by
  induction xs with
  | nil => rfl
  | cons x rest ih =>
    have hrest := ih fun y hy => h y (List.mem_cons_of_mem x hy)
    rw [List.flatMap_cons, List.length_append, h x List.mem_cons_self, hrest, List.countP_cons,
      Nat.add_comm]

namespace Family

variable {family : Family} {size : Nat} {slice : Slice}

/-- The elements of a slice are left alone exactly if there is only one. -/
theorem filter_alone (h : family.Ascending) (hfew : 2 ≤ perSlice size)
    (hslice : slice ∈ Slice.cover (perSlice size) family.elements) :
    (slice.elements.filter fun element => ∀ s ∈ family.slices size, element ∉ s.elements) =
      if 1 < slice.elements.length then [] else slice.elements := by
  have hsize : size ≠ 0 := by
    rintro rfl
    exact absurd hfew (by decide)
  split
  · next hseveral =>
    refine List.filter_eq_nil_iff.mpr fun element helement halone => ?_
    have hmem : slice ∈ family.slices size := mem_slices_iff.mpr ⟨hsize, hfew, hslice, hseveral⟩
    exact of_decide_eq_true halone slice hmem helement
  · next hone =>
    refine List.filter_eq_self.mpr fun element helement => decide_eq_true fun s hs hin => ?_
    obtain ⟨-, -, hcover, hseveral⟩ := mem_slices_iff.mp hs
    obtain rfl := Slice.eq_of_mem_cover (by omega) h hcover hslice hin helement
    omega

/-- **A family is read once for each slice of the whole cover**: those with one element are the
elements without a slice. -/
theorem reads_eq_length_cover (h : family.Ascending) (hfew : 2 ≤ perSlice size) :
    family.reads size = (Slice.cover (perSlice size) family.elements).length := by
  have halone : (family.alone size).length =
      (Slice.cover (perSlice size) family.elements).countP fun slice =>
        decide (¬decide (1 < slice.elements.length) = true) := by
    unfold alone
    conv_lhs => rw [← Slice.elements_cover (perSlice size) family.elements, List.filter_flatMap]
    refine length_flatMap_eq_countP fun slice hslice => ?_
    have hpos := Slice.length_elements_pos hslice
    rw [filter_alone h hfew hslice]
    split
    · next hseveral => simp [hseveral]
    · next hone =>
      have hlength : slice.elements.length = 1 := by omega
      simp [hlength]
  have hslices : (family.slices size).length =
      (Slice.cover (perSlice size) family.elements).countP fun slice =>
        decide (1 < slice.elements.length) := by
    have hmany : ¬(size = 0 ∨ perSlice size < 2) := by
      rintro (rfl | hlt)
      · exact absurd hfew (by decide)
      · omega
    rw [slices, if_neg hmany, List.countP_eq_length_filter]
  rw [reads, hslices, halone, ← List.length_eq_countP_add_countP]

/-! ## The fewest reads -/

/-- The slices of the cover are a way of reading the elements. -/
theorem readBy_cover (h : family.Ascending) {reach : Nat} (hreach : 0 < reach) :
    family.ReadBy reach ((Slice.cover reach family.elements).map Slice.elements) where
  perm := by rw [← List.flatMap_def, Slice.elements_cover]
  narrow block hblock a ha b hb := by
    obtain ⟨slice, hslice, rfl⟩ := List.mem_map.mp hblock
    rw [Slice.elements_of_mem_cover hreach h hslice] at ha hb
    have hnear := of_decide_eq_true (List.mem_filter.mp ha).2
    have hbehind := of_decide_eq_true (List.mem_filter.mp hb).2
    omega

/-- **Slices need the fewest reads.** Where one message carries several elements of a size, a family
is read as often as some blocks of neighbouring elements, and never more often than any. -/
theorem reads_fewest (h : family.Ascending) (hfew : 2 ≤ messageCapacity / size) :
    (∃ blocks, family.ReadBy (messageCapacity / size) blocks ∧
        blocks.length = family.reads size) ∧
      ∀ blocks, family.ReadBy (messageCapacity / size) blocks →
        family.reads size ≤ blocks.length := by
  rw [reads_eq_length_cover h hfew]
  refine ⟨⟨_, readBy_cover h (by omega), List.length_map _⟩, fun blocks hblocks => ?_⟩
  refine Slice.length_cover_le h blocks hblocks.narrow fun element helement => ?_
  exact List.mem_flatten.mp (hblocks.perm.mem_iff.mpr helement)

/-- Motors of an array, one of them twice; the last one has no neighbours. -/
def sparseMotors : Family := ⟨"fast", "Motors", [(1, 0), (3, 1), (3, 4), (250, 2), (600, 3)]⟩

/-- Three reads for these motors of eight octets: the first three elements make up a slice. -/
theorem reads_fewest_sparseMotors :
    (sparseMotors.Ascending ∧ 2 ≤ messageCapacity / 8 ∧ sparseMotors.reads 8 = 3) ∧
      (∃ blocks, sparseMotors.ReadBy (messageCapacity / 8) blocks ∧
        blocks.length = sparseMotors.reads 8) ∧
      ∀ blocks, sparseMotors.ReadBy (messageCapacity / 8) blocks →
        sparseMotors.reads 8 ≤ blocks.length := by
  have hascending : sparseMotors.Ascending := by
    unfold Ascending
    decide
  have hfew : 2 ≤ messageCapacity / 8 := by decide
  have hreads : sparseMotors.reads 8 = 3 := by with_unfolding_all decide
  exact ⟨⟨hascending, hfew, hreads⟩, reads_fewest hascending hfew⟩

end Family

end PlcTags

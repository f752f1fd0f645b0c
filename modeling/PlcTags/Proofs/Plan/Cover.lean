import Mathlib.Data.List.Flatten
import PlcTags.Proofs.Plan.Checked

/-!
# Families and slices partition array elements

What the second level of a plan promises, for any groups and any element sizes.

* `Family.Gathers`: a family has exactly the groups of one poller whose parents are elements of one
  array.
* `Slice.Window`: a slice has the elements of a family within reach of its first one, and fits a
  message.
* `Family.Partitions`: no group is moved twice, slices lie apart, and who is in no slice has nobody
  within reach.
* `Family.partitions_ofGroups`: this holds of all groups.
-/

namespace PlcTags

/-! ## Elements by ascending index -/

section

variable {α : Type} {p : α → Bool} {xs : List α}

/-- Where a condition that has failed does not come back, what is taken is what meets it. -/
theorem takeWhile_eq_filter_of_pairwise (h : xs.Pairwise fun a b => p b = true → p a = true) :
    xs.takeWhile p = xs.filter p := by
  induction xs with
  | nil => rfl
  | cons x rest ih =>
    obtain ⟨hx, hrest⟩ := List.pairwise_cons.mp h
    rw [List.takeWhile_cons, List.filter_cons, ih hrest]
    split
    · rfl
    · next hnot =>
      exact (List.filter_eq_nil_iff.mpr fun y hy hpy => hnot (hx y hy hpy)).symm

theorem dropWhile_eq_filter_of_pairwise (h : xs.Pairwise fun a b => p b = true → p a = true) :
    xs.dropWhile p = xs.filter fun x => !p x := by
  induction xs with
  | nil => rfl
  | cons x rest ih =>
    obtain ⟨hx, hrest⟩ := List.pairwise_cons.mp h
    rw [List.dropWhile_cons, List.filter_cons]
    by_cases hpx : p x = true
    · simp only [hpx, Bool.not_true, Bool.false_eq_true, if_true, if_false]
      exact ih hrest
    · have hall : ∀ y ∈ rest, (!p y) = true := fun y hy => by
        have : ¬p y = true := fun hpy => hpx (hx y hy hpy)
        simpa using this
      simp [hpx, List.filter_eq_self.mpr hall]

end

namespace Slice

variable {reach : Nat} {first : Nat × Nat} {rest elements : List (Nat × Nat)} {slice : Slice}

/-- Behind an element that is out of reach all others are, too. -/
theorem pairwise_fits (h : rest.Pairwise fun a b => a.1 ≤ b.1) (first : Nat × Nat) (reach : Nat) :
    rest.Pairwise fun a b =>
      decide (b.1 - first.1 < reach) = true → decide (a.1 - first.1 < reach) = true := by
  refine h.imp fun hab hb => ?_
  simp only [decide_eq_true_eq] at hb ⊢
  omega

/-- A slice starts at its first element and ends at its last one. -/
theorem exists_ofElements (h : slice ∈ cover reach elements) :
    ∃ first others, first ∈ elements ∧ slice = ofElements first others := by
  induction elements using cover.induct reach with
  | case1 => simp [cover] at h
  | case2 first rest fits ih =>
    rw [cover] at h
    rcases List.mem_cons.mp h with rfl | h
    · exact ⟨first, _, List.mem_cons_self, rfl⟩
    · obtain ⟨first', others, hfirst', rfl⟩ := ih h
      have hrest := (List.dropWhile_suffix _).subset hfirst'
      exact ⟨first', others, List.mem_cons_of_mem first hrest, rfl⟩

/-- The slices behind the first one start out of its reach. -/
theorem le_start_of_mem_cover (h : (first :: rest).Pairwise fun a b => a.1 ≤ b.1)
    (hslice : slice ∈ cover reach (rest.dropWhile fun element => element.1 - first.1 < reach)) :
    first.1 + reach ≤ slice.start := by
  obtain ⟨hfirst, hrest⟩ := List.pairwise_cons.mp h
  obtain ⟨next, others, hnext, rfl⟩ := exists_ofElements hslice
  rw [dropWhile_eq_filter_of_pairwise (pairwise_fits hrest first reach)] at hnext
  obtain ⟨hmem, hbeyond⟩ := List.mem_filter.mp hnext
  have hle := hfirst next hmem
  show first.1 + reach ≤ next.1
  simp only [Bool.not_eq_true', decide_eq_false_iff_not] at hbeyond
  omega

/-- **Slices lie apart**, each out of the reach of those before it. -/
theorem pairwise_cover (h : elements.Pairwise fun a b => a.1 ≤ b.1) :
    (cover reach elements).Pairwise fun a b => a.start + reach ≤ b.start := by
  induction elements using cover.induct reach with
  | case1 => simp [cover]
  | case2 first rest fits ih =>
    rw [cover]
    have hrest := (List.pairwise_cons.mp h).2
    exact List.pairwise_cons.mpr ⟨fun slice hslice => le_start_of_mem_cover h hslice,
      ih (hrest.sublist (List.dropWhile_sublist _))⟩

/-- The elements within reach of an index, from the index on. -/
def within (reach start : Nat) (elements : List (Nat × Nat)) : List (Nat × Nat) :=
  elements.filter fun element => start ≤ element.1 ∧ element.1 < start + reach

/-- **A slice has all elements within its reach.** Induction on the elements that are left: those
that are taken lie before the slices behind, and those that are left behind the first slice. -/
theorem elements_of_mem_cover (hreach : 0 < reach) (h : elements.Pairwise fun a b => a.1 ≤ b.1)
    (hslice : slice ∈ cover reach elements) :
    slice.elements = within reach slice.start elements := by
  induction elements using cover.induct reach with
  | case1 => simp [cover] at hslice
  | case2 first rest fits ih =>
    obtain ⟨hfirst, hrest⟩ := List.pairwise_cons.mp h
    have hfits := pairwise_fits hrest first reach
    rw [cover] at hslice
    unfold within
    rcases List.mem_cons.mp hslice with rfl | hslice
    · show first :: rest.takeWhile fits =
        (first :: rest).filter fun element => first.1 ≤ element.1 ∧ element.1 < first.1 + reach
      rw [takeWhile_eq_filter_of_pairwise hfits, List.filter_cons_of_pos (by simpa using hreach)]
      refine congrArg _ (List.filter_congr fun element helement => ?_)
      have hle := hfirst element helement
      refine decide_eq_decide.mpr ?_
      omega
    · have hstart := le_start_of_mem_cover h hslice
      rw [ih (hrest.sublist (List.dropWhile_sublist _)) hslice, within,
        dropWhile_eq_filter_of_pairwise hfits, List.filter_filter,
        List.filter_cons_of_neg (by simp only [decide_eq_true_eq]; omega)]
      refine List.filter_congr fun element _ => ?_
      by_cases hin : slice.start ≤ element.1 ∧ element.1 < slice.start + reach
      · have hbeyond : ¬element.1 - first.1 < reach := by omega
        simp [hin, hbeyond]
      · simp [hin]

/-- Every element is in a slice. -/
theorem exists_mem_cover (reach : Nat) {element : Nat × Nat} (h : element ∈ elements) :
    ∃ slice ∈ cover reach elements, element ∈ slice.elements := by
  rw [← elements_cover reach elements] at h
  exact List.mem_flatMap.mp h

end Slice

/-! ## What families and slices promise -/

/-- **A family gathers** the groups of its poller whose parents are elements of its array. -/
structure Family.Gathers (groups : List Group) (family : Family) : Prop where
  /-- Exactly these groups are its elements, each with its index. -/
  elements : ∀ index number, (index, number) ∈ family.elements ↔
    ∃ group, groups[number]? = some group ∧ group.poller = family.poller ∧
      arrayElement? group.parent = some (family.array, index)
  /-- They are at least two. -/
  several : 2 ≤ family.elements.length
  /-- They come by ascending index. -/
  ascending : family.Ascending

/-- **A slice is a window** on a family whose elements have a size. -/
structure Slice.Window (slice : Slice) (family : Family) (size : Nat) : Prop where
  /-- It starts at its first element, and reaches to its last one. -/
  ends : ∃ first last, slice.elements.head? = some first ∧ slice.elements.getLast? = some last ∧
    first.1 ≤ last.1 ∧ slice.start = first.1 ∧ slice.count = last.1 - first.1 + 1
  /-- One message carries it. -/
  fits : slice.count * size ≤ messageCapacity
  /-- It has all elements of the family within reach of its start. -/
  elements : slice.elements = Slice.within (messageCapacity / size) slice.start family.elements
  /-- They are at least two. -/
  several : 2 ≤ slice.elements.length

/-- **Families and slices partition the array elements** among groups, where the elements of each
family have a size. -/
structure Family.Partitions (groups : List Group) (size : Family → Nat) : Prop where
  /-- A group is in one family at most. -/
  families : ((ofGroups groups).flatMap fun family => groupNumbers family.elements).Nodup
  /-- A group is in one slice at most. -/
  slices : ((ofGroups groups).flatMap fun family =>
    (family.slices (size family)).flatMap fun slice => groupNumbers slice.elements).Nodup
  /-- A family has exactly its groups. -/
  gathers : ∀ family ∈ ofGroups groups, family.Gathers groups
  /-- Two groups of one poller and one array have a family. -/
  complete : ∀ (i j : Nat) (a b : Group) (array : String) (m n : Nat), i ≠ j →
    groups[i]? = some a → groups[j]? = some b → a.poller = b.poller →
    arrayElement? a.parent = some (array, m) → arrayElement? b.parent = some (array, n) →
      ∃ family ∈ ofGroups groups, family.poller = a.poller ∧ family.array = array
  /-- Without a size, or if no two elements fit a message, there are no slices. -/
  few : ∀ family ∈ ofGroups groups, size family = 0 ∨ messageCapacity / size family < 2 →
    family.slices (size family) = []
  /-- The slices are windows. -/
  windows : ∀ family ∈ ofGroups groups, ∀ slice ∈ family.slices (size family),
    slice.Window family (size family)
  /-- A slice starts behind the end of those before it. -/
  apart : ∀ family ∈ ofGroups groups, (family.slices (size family)).Pairwise fun a b =>
    a.start + a.count ≤ b.start
  /-- An element that is in no slice has no other one within its reach. -/
  alone : ∀ family ∈ ofGroups groups, size family ≠ 0 → 2 ≤ messageCapacity / size family →
    ∀ element ∈ family.elements, (∀ slice ∈ family.slices (size family),
      element ∉ slice.elements) → ∀ other ∈ family.elements, other ≠ element →
        ¬(element.1 ≤ other.1 ∧ other.1 < element.1 + messageCapacity / size family)
  /-- No difference falls below zero, neither in the loop over the groups nor in those over the
  elements. -/
  differences : planned? groups = some (ofGroups groups) ∧ ∀ family ∈ ofGroups groups,
    family.sliced? (size family) = some (family.slices (size family))

namespace Family

variable {groups : List Group} {family : Family} {size : Nat} {slice : Slice}

/-! ## Families -/

theorem mem_arrayMembers_iff {m : ArrayMember} :
    m ∈ arrayMembers groups ↔ ∃ group, groups[m.element.2]? = some group ∧
      group.poller = m.key.1 ∧ arrayElement? group.parent = some (m.key.2, m.element.1) := by
  constructor
  · intro hm
    obtain ⟨⟨group, number⟩, hnumbered, hm⟩ := List.mem_filterMap.mp hm
    obtain ⟨found, hfound, rfl⟩ := Option.map_eq_some_iff.mp hm
    exact ⟨group, List.mem_zipIdx_iff_getElem?.mp hnumbered, rfl, hfound⟩
  · rintro ⟨group, hgroup, hpoller, hparent⟩
    have hnumbered : (group, m.element.2) ∈ groups.zipIdx :=
      List.mem_zipIdx_iff_getElem?.mpr hgroup
    refine List.mem_filterMap.mpr ⟨_, hnumbered, ?_⟩
    simp [ArrayMember.ofGroup?, hparent, hpoller]

theorem mem_elements_ofKey_iff {members : List ArrayMember} {key : String × String}
    {element : Nat × Nat} : element ∈ (ofKey members key).elements ↔ ⟨key, element⟩ ∈ members := by
  constructor
  · intro h
    obtain ⟨m, hm, rfl, rfl⟩ := mem_elements_ofKey h
    exact hm
  · intro h
    exact List.mem_mergeSort.mpr (List.mem_map.mpr
      ⟨⟨key, element⟩, List.mem_filter.mpr ⟨h, beq_self_eq_true _⟩, rfl⟩)

theorem gathers_of_mem_ofGroups (h : family ∈ ofGroups groups) : family.Gathers groups := by
  have hseveral : 1 < family.elements.length := of_decide_eq_true (List.mem_filter.mp h).2
  refine ⟨fun index number => ?_, hseveral, ascending_of_mem_ofGroups h⟩
  obtain ⟨key, -, rfl⟩ := mem_ofGroups h
  rw [mem_elements_ofKey_iff, mem_arrayMembers_iff]
  rfl

/-- Two groups under one key make up a family. -/
theorem exists_family {key : String × String} {a b : Nat × Nat} (hne : a ≠ b)
    (ha : ⟨key, a⟩ ∈ arrayMembers groups) (hb : ⟨key, b⟩ ∈ arrayMembers groups) :
    ofKey (arrayMembers groups) key ∈ ofGroups groups := by
  refine List.mem_filter.mpr ⟨List.mem_map_of_mem (List.mem_eraseDups.mpr
    (List.mem_map_of_mem (f := ArrayMember.key) ha)), decide_eq_true ?_⟩
  have hmema := mem_elements_ofKey_iff.mpr ha
  have hmemb := mem_elements_ofKey_iff.mpr hb
  by_contra hfew
  rcases Nat.lt_or_eq_of_le (Nat.not_lt.mp hfew) with hlt | hone
  · have hnil := List.length_eq_zero_iff.mp (Nat.lt_one_iff.mp hlt)
    rw [hnil] at hmema
    cases hmema
  · obtain ⟨only, honly⟩ := List.length_eq_one_iff.mp hone
    rw [honly] at hmema hmemb
    exact hne ((List.mem_singleton.mp hmema).trans (List.mem_singleton.mp hmemb).symm)

/-! ## Slices -/

theorem mem_slices_iff : slice ∈ family.slices size ↔
    size ≠ 0 ∧ 2 ≤ perSlice size ∧ slice ∈ Slice.cover (perSlice size) family.elements ∧
      2 ≤ slice.elements.length := by
  unfold slices
  split
  · next hnone =>
    constructor
    · intro h
      cases h
    · rintro ⟨hsize, hfew, -, -⟩
      omega
  · next hsome =>
    rw [List.mem_filter, decide_eq_true_eq]
    constructor
    · rintro ⟨hmem, hlength⟩
      exact ⟨by omega, by omega, hmem, hlength⟩
    · rintro ⟨-, -, hmem, hlength⟩
      exact ⟨hmem, hlength⟩

theorem window_of_mem_slices (h : family.Ascending) (hslice : slice ∈ family.slices size) :
    slice.Window family size := by
  obtain ⟨-, hfew, hcover, hseveral⟩ := mem_slices_iff.mp hslice
  refine ⟨?_, count_mul_le h hslice, ?_, hseveral⟩
  · have hstart := (spans_of_mem_slices h hslice).start_le
    obtain ⟨first, others, -, rfl⟩ := Slice.exists_ofElements hcover
    refine ⟨first, others.getLast?.getD first, rfl, List.getLast?_cons, ?_, rfl, rfl⟩
    exact hstart _ (List.mem_of_getLast? (List.getLast?_cons (a := first) (l := others)))
  · have hreach : 0 < perSlice size := by omega
    exact Slice.elements_of_mem_cover hreach h hcover

theorem pairwise_slices (h : family.Ascending) :
    (family.slices size).Pairwise fun a b => a.start + a.count ≤ b.start := by
  have hsublist : (family.slices size).Sublist (Slice.cover (perSlice size) family.elements) := by
    unfold slices
    split
    · exact List.nil_sublist _
    · exact List.filter_sublist
  refine ((Slice.pairwise_cover h).sublist hsublist).imp_of_mem fun ha _ hab => ?_
  have := (spans_of_mem_slices h ha).count_le
  omega

/-- An element that is in no slice is the only one within its reach. -/
theorem within_of_alone (h : family.Ascending) (hsize : size ≠ 0) (hfew : 2 ≤ perSlice size)
    {element : Nat × Nat} (helement : element ∈ family.elements)
    (halone : ∀ slice ∈ family.slices size, element ∉ slice.elements) :
    Slice.within (perSlice size) element.1 family.elements = [element] := by
  obtain ⟨slice, hslice, hmem⟩ := Slice.exists_mem_cover (perSlice size) helement
  have hone : slice.elements.length < 2 := by
    by_contra hseveral
    exact halone slice (mem_slices_iff.mpr ⟨hsize, hfew, hslice, by omega⟩) hmem
  have hwithin := Slice.elements_of_mem_cover (by omega) h hslice
  obtain ⟨first, others, -, rfl⟩ := Slice.exists_ofElements hslice
  obtain rfl : others = [] := by
    have hlength : others.length + 1 < 2 := hone
    exact List.length_eq_zero_iff.mp (by omega)
  obtain rfl : element = first := List.mem_singleton.mp hmem
  exact hwithin.symm

/-- No group stands twice in all slices together. -/
theorem nodup_numbers_slices (groups : List Group) (size : Family → Nat) :
    ((ofGroups groups).flatMap fun family =>
      (family.slices (size family)).flatMap fun slice => groupNumbers slice.elements).Nodup := by
  refine (nodup_numbers groups).sublist (List.Sublist.flatMap_right _ fun family _ => ?_)
  exact numbers_slices_sublist family (size family)

/-- **Families and slices partition the array elements** among any groups, whatever sizes the
elements have. -/
theorem partitions_ofGroups (groups : List Group) (size : Family → Nat) :
    Partitions groups size where
  families := nodup_numbers groups
  slices := nodup_numbers_slices groups size
  gathers _ := gathers_of_mem_ofGroups
  complete i j a b array m n hne ha hb hpoller hparenta hparentb := by
    have hmema : ⟨(a.poller, array), (m, i)⟩ ∈ arrayMembers groups :=
      mem_arrayMembers_iff.mpr ⟨a, ha, rfl, hparenta⟩
    have hmemb : ⟨(a.poller, array), (n, j)⟩ ∈ arrayMembers groups :=
      mem_arrayMembers_iff.mpr ⟨b, hb, hpoller.symm, hparentb⟩
    exact ⟨_, exists_family (fun heq => hne (congrArg Prod.snd heq)) hmema hmemb, rfl, rfl⟩
  few family _ hfew := if_pos hfew
  windows family hfamily slice := window_of_mem_slices (ascending_of_mem_ofGroups hfamily)
  apart family hfamily := pairwise_slices (ascending_of_mem_ofGroups hfamily)
  alone family hfamily hsize hfew element helement halone other hother hne hreach := by
    have hwithin := within_of_alone (ascending_of_mem_ofGroups hfamily) hsize hfew helement halone
    have hmem : other ∈ Slice.within (perSlice (size family)) element.1 family.elements :=
      List.mem_filter.mpr ⟨hother, decide_eq_true hreach⟩
    rw [hwithin] at hmem
    exact hne (List.mem_singleton.mp hmem)
  differences := ⟨planned?_eq groups, fun family hfamily =>
    sliced?_eq (ascending_of_mem_ofGroups hfamily) (size family)⟩

/-- A message carries 249 elements of eight octets: the 250th behind the first one starts a slice of
its own. -/
example : slices ⟨"fast", "Motors", [(1, 0), (3, 1), (250, 2), (251, 3)]⟩ 8 =
    [⟨1, 3, [(1, 0), (3, 1)]⟩, ⟨250, 2, [(250, 2), (251, 3)]⟩] := by
  with_unfolding_all decide

end Family

end PlcTags

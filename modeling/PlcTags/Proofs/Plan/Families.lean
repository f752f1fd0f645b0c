import PlcTags.Proofs.Plan.Groups
import PlcTags.Plan.Slices

/-!
# What families and slices take

Which groups are moved together, and that no group is moved twice.

* `Family.exists_group`: the elements of a family are groups of its poller.
* `Family.nodup_numbers`: no group stands twice in all families together.
* `Family.elements_slices_sublist`: the slices of a family take its elements in order, each at most
  once.
-/

namespace PlcTags

/-! ## Families -/

/-- The numbers of the groups of elements. -/
def groupNumbers (elements : List (Nat × Nat)) : List Nat :=
  elements.map Prod.snd

/-- The groups as elements of arrays, those that are. -/
def arrayMembers (groups : List Group) : List ArrayMember :=
  groups.zipIdx.filterMap ArrayMember.ofGroup?

variable {groups : List Group}

theorem exists_of_mem_arrayMembers {m : ArrayMember} (h : m ∈ arrayMembers groups) :
    ∃ group, groups[m.element.2]? = some group ∧ group.poller = m.key.1 := by
  obtain ⟨⟨group, number⟩, hnumbered, hm⟩ := List.mem_filterMap.mp h
  obtain ⟨found, -, rfl⟩ := Option.map_eq_some_iff.mp hm
  exact ⟨group, List.mem_zipIdx_iff_getElem?.mp hnumbered, rfl⟩

/-- Group numbers tell the elements apart. -/
theorem nodup_arrayMembers (groups : List Group) :
    ((arrayMembers groups).map fun m => m.element.2).Nodup := by
  have hsublist : ((arrayMembers groups).map fun m => m.element.2).Sublist
      (groups.zipIdx.map Prod.snd) := by
    refine map_filterMap_sublist (fun numbered m hm => ?_) groups.zipIdx
    obtain ⟨found, -, rfl⟩ := Option.map_eq_some_iff.mp hm
    rfl
  refine List.Nodup.sublist hsublist ?_
  rw [List.zipIdx_map_snd]
  exact List.nodup_range'

namespace Family

theorem mem_ofGroups {family : Family} (h : family ∈ ofGroups groups) :
    ∃ key ∈ ((arrayMembers groups).map ArrayMember.key).eraseDups,
      family = ofKey (arrayMembers groups) key := by
  obtain ⟨key, hkey, rfl⟩ := List.mem_map.mp (List.mem_filter.mp h).1
  exact ⟨key, hkey, rfl⟩

theorem mem_elements_ofKey {members : List ArrayMember} {key : String × String}
    {element : Nat × Nat} (h : element ∈ (ofKey members key).elements) :
    ∃ m ∈ members, m.key = key ∧ m.element = element := by
  obtain ⟨m, hm, rfl⟩ := List.mem_map.mp (List.mem_mergeSort.mp h)
  obtain ⟨hmem, hkey⟩ := List.mem_filter.mp hm
  exact ⟨m, hmem, eq_of_beq hkey, rfl⟩

/-- **The elements of a family are groups of its poller.** -/
theorem exists_group {family : Family} (h : family ∈ ofGroups groups) {element : Nat × Nat}
    (helement : element ∈ family.elements) :
    ∃ group, groups[element.2]? = some group ∧ group.poller = family.poller := by
  obtain ⟨key, -, rfl⟩ := mem_ofGroups h
  obtain ⟨m, hm, rfl, rfl⟩ := mem_elements_ofKey helement
  exact exists_of_mem_arrayMembers hm

/-- A group number has one key. -/
theorem key_eq_of_number_eq {m m' : ArrayMember} (hm : m ∈ arrayMembers groups)
    (hm' : m' ∈ arrayMembers groups) (h : m.element.2 = m'.element.2) : m = m' :=
  List.inj_on_of_nodup_map (nodup_arrayMembers groups) hm hm' h

/-- **No group stands twice** in all families together. -/
theorem nodup_numbers (groups : List Group) :
    ((ofGroups groups).flatMap fun family => groupNumbers family.elements).Nodup := by
  rw [List.nodup_flatMap]
  constructor
  · intro family hfamily
    obtain ⟨key, -, rfl⟩ := mem_ofGroups hfamily
    have hperm := (List.mergeSort_perm (((arrayMembers groups).filter fun m => m.key == key).map
      ArrayMember.element) before).map Prod.snd
    refine hperm.nodup_iff.mpr ?_
    rw [List.map_map]
    exact (nodup_arrayMembers groups).sublist (List.filter_sublist.map _)
  · -- families have different keys, and a group has only one
    refine List.Pairwise.sublist List.filter_sublist (List.Pairwise.map _ ?_ (nodup_eraseDups _))
    intro key key' hne number hnumber hnumber'
    obtain ⟨element, helement, rfl⟩ := List.mem_map.mp hnumber
    obtain ⟨element', helement', heq⟩ := List.mem_map.mp hnumber'
    obtain ⟨m, hm, rfl, rfl⟩ := mem_elements_ofKey helement
    obtain ⟨m', hm', rfl, rfl⟩ := mem_elements_ofKey helement'
    exact hne (congrArg ArrayMember.key (key_eq_of_number_eq hm hm' heq.symm))

end Family

/-! ## Slices -/

theorem Slice.elements_cover (reach : Nat) (elements : List (Nat × Nat)) :
    (Slice.cover reach elements).flatMap Slice.elements = elements := by
  induction elements using Slice.cover.induct reach with
  | case1 => simp [Slice.cover]
  | case2 first rest fits ih =>
    rw [Slice.cover, List.flatMap_cons, ih]
    show first :: rest.takeWhile fits ++ rest.dropWhile fits = first :: rest
    rw [List.cons_append, List.takeWhile_append_dropWhile]

theorem sublist_flatMap_filter {α β : Type} (f : α → List β) (p : α → Bool) (xs : List α) :
    ((xs.filter p).flatMap f).Sublist (xs.flatMap f) := by
  induction xs with
  | nil => exact .slnil
  | cons x rest ih =>
    rw [List.filter_cons, List.flatMap_cons]
    split
    · exact ih.append_left _
    · exact ih.trans (List.sublist_append_right _ _)

/-- **The slices of a family take its elements in order**, each at most once. -/
theorem Family.elements_slices_sublist (family : Family) (size : Nat) :
    ((family.slices size).flatMap Slice.elements).Sublist family.elements := by
  unfold slices
  split
  · exact List.nil_sublist _
  · have hsublist := sublist_flatMap_filter Slice.elements
      (fun slice => decide (1 < slice.elements.length))
      (Slice.cover (perSlice size) family.elements)
    rwa [Slice.elements_cover] at hsublist

/-- The slices of a family take its groups in order, each at most once. -/
theorem Family.numbers_slices_sublist (family : Family) (size : Nat) :
    ((family.slices size).flatMap fun slice => groupNumbers slice.elements).Sublist
      (groupNumbers family.elements) := by
  have hsublist := (elements_slices_sublist family size).map Prod.snd
  rwa [List.map_flatMap] at hsublist

/-- A slice has elements. -/
theorem Family.elements_ne_nil {family : Family} {size : Nat} {slice : Slice}
    (h : slice ∈ family.slices size) : slice.elements ≠ [] := by
  unfold slices at h
  split at h
  · cases h
  · have hlength : 1 < slice.elements.length := of_decide_eq_true (List.mem_filter.mp h).2
    exact List.ne_nil_of_length_pos (Nat.zero_lt_of_lt hlength)

end PlcTags

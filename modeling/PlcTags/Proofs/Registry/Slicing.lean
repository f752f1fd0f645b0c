import Mathlib.Data.List.Flatten
import Mathlib.Tactic.SplitIfs
import PlcTags.Proofs.Outcome
import PlcTags.Proofs.Plan.Families
import PlcTags.Proofs.Registry.Sound

/-!
# What the second level makes of the values

The second level moves whole groups to slices, no group twice. So a value and the master that reads
for it move together or not at all, whichever slices can be read and whichever tags can be created.

* `moved_cases`: what a slice makes of a value; `le_of_rebased?`: its offset in the slice is not
  smaller than the one in its element.
* `Relocated`: what all slices together make of a value.
* `Slicing`: the invariant of the second level, for the groups that are left.
* `Slicing.mergeSlice`: one slice keeps it; `Slicing.foldl` all slices of a family.
-/

namespace PlcTags

open Registry MergePass

/-! ## Moved values -/

/-- What a slice makes of a value, if it has an offset there. -/
def moved (master : ValueId) (tag : TagRef) (offsets : List (ValueId × Nat)) (v : Registered) :
    Registered :=
  match Keyed.find? v.id offsets with
  | some offset => v.joinSlice master tag offset
  | none => v

section

variable {offsets : List (ValueId × Nat)} {v : Registered}

theorem moveToSlice_eq (values : List Registered) (master : ValueId) (tag : TagRef)
    (offsets : List (ValueId × Nat)) :
    moveToSlice values master tag offsets = values.map (moved master tag offsets) := rfl

theorem moved_of_mem (master : ValueId) (tag : TagRef) (h : v.id ∈ offsets.map Prod.fst) :
    ∃ offset, Keyed.find? v.id offsets = some offset ∧
      moved master tag offsets v = v.joinSlice master tag offset := by
  obtain ⟨offset, hoffset⟩ := Option.isSome_iff_exists.mp (Keyed.isSome_find?_iff.mpr h)
  exact ⟨offset, hoffset, by rw [moved, hoffset]⟩

theorem moved_of_not_mem (master : ValueId) (tag : TagRef) (h : v.id ∉ offsets.map Prod.fst) :
    moved master tag offsets v = v := by
  have hnone : Keyed.find? v.id offsets = none :=
    Option.not_isSome_iff_eq_none.mp fun hsome => h (Keyed.isSome_find?_iff.mp hsome)
  rw [moved, hnone]

/-- **A slice moves a value, or leaves it as it is.** -/
theorem moved_cases (master : ValueId) (tag : TagRef) (offsets : List (ValueId × Nat))
    (v : Registered) :
    (v.id ∈ offsets.map Prod.fst ∧ ∃ offset, Keyed.find? v.id offsets = some offset ∧
      moved master tag offsets v = v.joinSlice master tag offset) ∨
    (v.id ∉ offsets.map Prod.fst ∧ moved master tag offsets v = v) := by
  by_cases h : v.id ∈ offsets.map Prod.fst
  · exact Or.inl ⟨h, moved_of_mem master tag h⟩
  · exact Or.inr ⟨h, moved_of_not_mem master tag h⟩

@[simp] theorem id_moved (master : ValueId) (tag : TagRef) (offsets : List (ValueId × Nat))
    (v : Registered) : (moved master tag offsets v).id = v.id := by
  unfold moved
  split <;> rfl

@[simp] theorem poller_moved (master : ValueId) (tag : TagRef) (offsets : List (ValueId × Nat))
    (v : Registered) : (moved master tag offsets v).poller = v.poller := by
  unfold moved
  split <;> rfl

end

/-! ## What a slice moves -/

variable {values : List Registered} {groups : List Group} {slice : Slice} {size : Nat}

theorem mapM_eq_some_map_fst {α β γ : Type} {f : α → Option (β × γ)} {g : α → β}
    (hf : ∀ x y, f x = some y → y.1 = g x) {xs : List α} {ys : List (β × γ)}
    (h : xs.mapM f = some ys) : ys.map Prod.fst = xs.map g := by
  induction xs generalizing ys with
  | nil =>
    cases h
    rfl
  | cons x rest ih =>
    rw [List.mapM_cons] at h
    obtain ⟨y, hy, h⟩ := Option.bind_eq_some_iff.mp h
    obtain ⟨more, hmore, h⟩ := Option.bind_eq_some_iff.mp h
    cases h
    rw [List.map_cons, List.map_cons, hf x y hy, ih hmore]

/-- The offsets in a slice are those of the members of its groups. -/
theorem ids_rebased? {offsets : List (ValueId × Nat)}
    (h : rebased? values groups slice size = some offsets) :
    offsets.map Prod.fst = (groupNumbers slice.elements).flatMap (membersOf groups) := by
  have hids := mapM_eq_some_map_fst (g := Prod.snd) (fun placed found hfound => by
    obtain ⟨v, -, hv⟩ := Option.bind_eq_some_iff.mp hfound
    obtain ⟨offset, -, hoffset⟩ := Option.bind_eq_some_iff.mp hv
    cases hoffset
    rfl) h
  rw [hids, List.map_flatMap, groupNumbers, List.flatMap_map]
  congr 1
  funext element
  rw [List.map_map]
  exact List.map_id _

/-- The values with an offset in a slice are the members of its groups. -/
theorem mem_rebased?_iff {offsets : List (ValueId × Nat)}
    (h : rebased? values groups slice size = some offsets) {id : ValueId} :
    id ∈ offsets.map Prod.fst ↔
      ∃ number ∈ groupNumbers slice.elements, id ∈ membersOf groups number := by
  rw [ids_rebased? h, List.mem_flatMap]

theorem mem_membersOf {number : Nat} {id : ValueId} (h : id ∈ membersOf groups number) :
    ∃ group, groups[number]? = some group ∧ id ∈ group.members := by
  unfold membersOf at h
  cases hgroup : groups[number]? with
  | none =>
    rw [hgroup] at h
    cases h
  | some group =>
    rw [hgroup] at h
    exact ⟨group, rfl, h⟩

theorem mem_membersOf_of_getElem? {number : Nat} {group : Group} {id : ValueId}
    (hgroup : groups[number]? = some group) (h : id ∈ group.members) :
    id ∈ membersOf groups number := by
  unfold membersOf
  rw [hgroup]
  exact h

/-- A value is a member of one group only. -/
theorem number_unique (hdisjoint : groups.Pairwise Group.Disjoint) {id : ValueId} {i j : Nat}
    (hi : id ∈ membersOf groups i) (hj : id ∈ membersOf groups j) : i = j := by
  obtain ⟨a, ha, hida⟩ := mem_membersOf hi
  obtain ⟨b, hb, hidb⟩ := mem_membersOf hj
  obtain ⟨hlti, rfl⟩ := List.getElem?_eq_some_iff.mp ha
  obtain ⟨hltj, rfl⟩ := List.getElem?_eq_some_iff.mp hb
  have hpairwise := List.pairwise_iff_getElem.mp hdisjoint
  rcases Nat.lt_trichotomy i j with hlt | heq | hlt
  · exact absurd hidb (hpairwise i j hlti hltj hlt id hida)
  · exact heq
  · exact absurd hida (hpairwise j i hltj hlti hlt id hidb)

theorem mem_mapM_eq_some {α β : Type} {f : α → Option β} {xs : List α} {ys : List β}
    (h : xs.mapM f = some ys) {y : β} (hy : y ∈ ys) : ∃ x ∈ xs, f x = some y := by
  induction xs generalizing ys with
  | nil =>
    cases h
    cases hy
  | cons x rest ih =>
    rw [List.mapM_cons] at h
    obtain ⟨first, hfirst, h⟩ := Option.bind_eq_some_iff.mp h
    obtain ⟨more, hmore, h⟩ := Option.bind_eq_some_iff.mp h
    cases h
    rcases List.mem_cons.mp hy with rfl | hy
    · exact ⟨x, List.mem_cons_self, hfirst⟩
    · obtain ⟨x', hx', hy'⟩ := ih hmore hy
      exact ⟨x', List.mem_cons_of_mem _ hx', hy'⟩

theorem Slice.le_of_rebase? {slice : Slice} {index offset rebased : Nat} {bitAddressed : Bool}
    (h : slice.rebase? index size offset bitAddressed = some rebased) : offset ≤ rebased := by
  unfold Slice.rebase? at h
  dsimp only at h
  split_ifs at h <;>
    · cases h
      exact Nat.le_add_right _ _

/-- **The offset in a slice** is not smaller than the offset of the value before. -/
theorem le_of_rebased? (hids : (values.map Registered.id).Nodup) {offsets : List (ValueId × Nat)}
    (h : rebased? values groups slice size = some offsets) {v : Registered} (hv : v ∈ values)
    {offset : Nat} (hoffset : Keyed.find? v.id offsets = some offset) :
    v.descriptor.offset ≤ offset := by
  obtain ⟨placed, -, hplaced⟩ := mem_mapM_eq_some h (Keyed.mem_of_find? hoffset)
  obtain ⟨u, hu, hplaced⟩ := Option.bind_eq_some_iff.mp hplaced
  obtain ⟨rebased, hrebased, heq⟩ := Option.bind_eq_some_iff.mp hplaced
  obtain ⟨hid, rfl⟩ := Prod.mk.inj (Option.some.inj heq)
  have huid : u.id = v.id := by
    rw [← hid]
    simpa using List.find?_some hu
  obtain rfl := List.inj_on_of_nodup_map hids (List.mem_of_find?_eq_some hu) hv huid
  exact Slice.le_of_rebase? hrebased

/-- The master of a slice is that of its first group. -/
theorem sliceMaster?_eq_some {master : ValueId} (h : sliceMaster? groups slice = some master) :
    ∃ number ∈ groupNumbers slice.elements, ∃ group, groups[number]? = some group ∧
      master = group.master := by
  obtain ⟨first, hfirst, h⟩ := Option.bind_eq_some_iff.mp h
  obtain ⟨group, hgroup, h⟩ := Option.bind_eq_some_iff.mp h
  cases h
  exact ⟨first.2, List.mem_map_of_mem (List.mem_of_head? hfirst), group, hgroup, rfl⟩

/-! ## The invariant -/

/-- A value that shares a buffer, and the same value at a place of another one that is shared. Its
offset in its own tag is not forgotten. -/
structure Registered.GoesOn (v w : Registered) : Prop where
  id : w.id = v.id
  connection : w.connection = v.connection
  own : w.elementOffset.getD w.descriptor.offset = v.elementOffset.getD v.descriptor.offset
  before : v.state.sharesBuffer = true
  after : w.state.sharesBuffer = true
  offset_le : v.descriptor.offset ≤ w.descriptor.offset
  descriptor : w.descriptor = { v.descriptor with offset := w.descriptor.offset }

/-- **What the second level makes of a value**: nothing, or it goes on in a slice. -/
def Relocated (v w : Registered) : Prop := w = v ∨ v.GoesOn w

theorem Relocated.id_eq {v w : Registered} (h : Relocated v w) : w.id = v.id := by
  rcases h with rfl | h
  · rfl
  · exact h.id

/-- A value that moves for the first time keeps the offset that it has. -/
theorem Registered.goesOn_joinSlice {v : Registered} (hshared : v.state.sharesBuffer = true)
    (halone : v.elementOffset = none) (master : ValueId) (tag : TagRef) {offset : Nat}
    (hle : v.descriptor.offset ≤ offset) : v.GoesOn (v.joinSlice master tag offset) where
  id := rfl
  connection := rfl
  own := by
    rw [halone]
    rfl
  before := hshared
  after := Registered.Sound.sharesBuffer_joined v master tag
  offset_le := hle
  descriptor := rfl

theorem Registered.GoesOn.trans {u v w : Registered} (h : u.GoesOn v) (h' : v.GoesOn w) :
    u.GoesOn w where
  id := h'.id.trans h.id
  connection := h'.connection.trans h.connection
  own := h'.own.trans h.own
  before := h.before
  after := h'.after
  offset_le := Nat.le_trans h.offset_le h'.offset_le
  descriptor := by
    rw [h'.descriptor, h.descriptor]

/-- **The invariant of the second level**, for the numbers of the groups that may still be moved. A
value and the one that reads for it are members of the same of these groups. -/
structure Slicing (route : String) (parsed : List Descriptor) (base : List Registered)
    (groups : List Group) (left : List Nat) (values : List Registered) : Prop where
  relocated : List.Forall₂ Relocated base values
  sound : List.Forall₂ (Registered.Sound route) parsed values
  requested : ∀ v ∈ values, v.state ≠ .notRequested
  masters : ∀ number ∈ left, ∀ group, groups[number]? = some group →
    group.master ∈ group.members ∧ ∃ v ∈ values, v.id = group.master
  movable : ∀ number ∈ left, ∀ group, groups[number]? = some group → ∀ v ∈ values,
    v.id ∈ group.members → v.state.sharesBuffer = true ∧ v.tag.isSome = true ∧
      v.poller = group.poller ∧ v.elementOffset = none
  readers : ∀ v ∈ values, v.state = .optimised → ∃ m ∈ values, m.ReadsFor v ∧
    ∀ number ∈ left, v.id ∈ membersOf groups number ↔ m.id ∈ membersOf groups number

namespace Slicing

variable {route : String} {parsed : List Descriptor} {base : List Registered} {left more : List Nat}

theorem mono (h : Slicing route parsed base groups left values) (hmore : ∀ k ∈ more, k ∈ left) :
    Slicing route parsed base groups more values where
  relocated := h.relocated
  sound := h.sound
  requested := h.requested
  masters k hk := h.masters k (hmore k hk)
  movable k hk := h.movable k (hmore k hk)
  readers v hv hstate := by
    obtain ⟨m, hm, hreads, hblocks⟩ := h.readers v hv hstate
    exact ⟨m, hm, hreads, fun k hk => hblocks k (hmore k hk)⟩

theorem ids_eq (h : Slicing route parsed base groups left values) :
    values.map Registered.id = base.map Registered.id := by
  have hrelocated := h.relocated
  clear h
  induction hrelocated with
  | nil => rfl
  | cons hfirst _ ih => rw [List.map_cons, List.map_cons, hfirst.id_eq, ih]

section

variable {poller : String} {master : ValueId} {tag : TagRef} {offsets : List (ValueId × Nat)}
  (h : Slicing route parsed base groups (groupNumbers slice.elements ++ left) values)
  (hids : (base.map Registered.id).Nodup) (hdisjoint : groups.Pairwise Group.Disjoint)
  (hnodup : (groupNumbers slice.elements ++ left).Nodup)
  (hpoller : ∀ number ∈ groupNumbers slice.elements, ∀ group, groups[number]? = some group →
    group.poller = poller)
  (hmaster : sliceMaster? groups slice = some master)
  (hoffsets : rebased? values groups slice size = some offsets)

include h hdisjoint hnodup hpoller hoffsets

/-- A value of a slice has a tag and the poller of the slice, and cannot be moved again. -/
theorem of_moved {v : Registered} (hv : v ∈ values) (hid : v.id ∈ offsets.map Prod.fst) :
    v.state.sharesBuffer = true ∧ v.tag.isSome = true ∧ v.poller = poller ∧
      v.elementOffset = none ∧ ∀ number ∈ left, v.id ∉ membersOf groups number := by
  obtain ⟨number, hnumber, hin⟩ := (mem_rebased?_iff hoffsets).mp hid
  obtain ⟨group, hgroup, hmem⟩ := mem_membersOf hin
  obtain ⟨hshared, htag, hvpoller, halone⟩ :=
    h.movable number (List.mem_append_left _ hnumber) group hgroup v hv hmem
  refine ⟨hshared, htag, hvpoller.trans (hpoller number hnumber group hgroup), halone,
    fun other hother hin' => ?_⟩
  obtain rfl := number_unique hdisjoint hin hin'
  exact (List.nodup_append.mp hnodup).2.2 number hnumber number hother rfl

include hmaster

/-- **The reader of a value after a slice was moved**: the master of the slice for its values, and
who it was before for the others. -/
theorem readers_moved {v : Registered} (hv : v ∈ values)
    (hstate : (moved master tag offsets v).state = .optimised) :
    ∃ m ∈ values, (moved master tag offsets m).ReadsFor (moved master tag offsets v) ∧
      ∀ number ∈ left, v.id ∈ membersOf groups number ↔ m.id ∈ membersOf groups number := by
  rcases moved_cases master tag offsets v with ⟨hid, offset, -, heq⟩ | ⟨hid, heq⟩
  · obtain ⟨number, hnumber, group, hgroup, rfl⟩ := sliceMaster?_eq_some hmaster
    obtain ⟨hin, m, hm, hmid⟩ := h.masters number (List.mem_append_left _ hnumber) group hgroup
    have hmoved : m.id ∈ offsets.map Prod.fst := (mem_rebased?_iff hoffsets).mpr
      ⟨number, hnumber, hmid ▸ mem_membersOf_of_getElem? hgroup hin⟩
    obtain ⟨-, -, hvpoller, -, hvleft⟩ := of_moved h hdisjoint hnodup hpoller hoffsets hv hid
    obtain ⟨-, -, hmpoller, -, hmleft⟩ := of_moved h hdisjoint hnodup hpoller hoffsets hm hmoved
    obtain ⟨place, -, hplace⟩ := moved_of_mem group.master tag hmoved
    refine ⟨m, hm, ⟨?_, ?_, ?_⟩, fun k hk => iff_of_false (hvleft k hk) (hmleft k hk)⟩
    · rw [hplace]
      exact if_pos hmid
    · rw [poller_moved, poller_moved, hvpoller, hmpoller]
    · rw [hplace, heq]
      rfl
  · -- the old reader is a member of the same groups, so it stays too
    rw [heq] at hstate ⊢
    obtain ⟨m, hm, hreads, hblocks⟩ := h.readers v hv hstate
    have hmid : m.id ∉ offsets.map Prod.fst := by
      intro hmid
      obtain ⟨number, hnumber, hin⟩ := (mem_rebased?_iff hoffsets).mp hmid
      exact hid ((mem_rebased?_iff hoffsets).mpr
        ⟨number, hnumber, (hblocks number (List.mem_append_left _ hnumber)).mpr hin⟩)
    rw [← moved_of_not_mem master tag hmid] at hreads
    exact ⟨m, hm, hreads, fun k hk => hblocks k (List.mem_append_right _ hk)⟩

include hids

/-- **Moving a slice** keeps the invariant for the groups that are left. -/
theorem move : Slicing route parsed base groups left (moveToSlice values master tag offsets) := by
  rw [moveToSlice_eq]
  have hleft : ∀ number ∈ left, number ∈ groupNumbers slice.elements ++ left :=
    fun number hnumber => List.mem_append_right _ hnumber
  constructor
  case relocated =>
    refine forall₂_map_of_mem h.relocated fun u v hv hrelocated => ?_
    rcases moved_cases master tag offsets v with ⟨hid, offset, hoffset, heq⟩ | ⟨-, heq⟩
    · obtain ⟨hshared, -, -, halone, -⟩ := of_moved h hdisjoint hnodup hpoller hoffsets hv hid
      have hle := le_of_rebased? (h.ids_eq ▸ hids) hoffsets hv hoffset
      have hon := Registered.goesOn_joinSlice hshared halone master tag hle
      rw [heq]
      rcases hrelocated with rfl | hbefore
      · exact Or.inr hon
      · exact Or.inr (hbefore.trans hon)
    · rw [heq]
      exact hrelocated
  case sound =>
    refine forall₂_map_of_mem h.sound fun d v hv hsound => ?_
    rcases moved_cases master tag offsets v with ⟨hid, offset, -, heq⟩ | ⟨-, heq⟩
    · have htag := (of_moved h hdisjoint hnodup hpoller hoffsets hv hid).2.1
      rw [heq]
      exact hsound.joinSlice htag master tag offset
    · rw [heq]
      exact hsound
  case requested =>
    intro v' hv'
    obtain ⟨v, hv, rfl⟩ := List.mem_map.mp hv'
    rcases moved_cases master tag offsets v with ⟨-, offset, -, heq⟩ | ⟨-, heq⟩
    · rw [heq]
      exact Registered.Sound.requested_joined v master tag
    · rw [heq]
      exact h.requested v hv
  case masters =>
    intro number hnumber group hgroup
    obtain ⟨hin, v, hv, hid⟩ := h.masters number (hleft number hnumber) group hgroup
    exact ⟨hin, _, List.mem_map_of_mem hv, (id_moved _ _ _ _).trans hid⟩
  case movable =>
    intro number hnumber group hgroup v' hv' hid
    obtain ⟨v, hv, rfl⟩ := List.mem_map.mp hv'
    rw [id_moved] at hid
    rcases moved_cases master tag offsets v with ⟨hmoved, -⟩ | ⟨-, heq⟩
    · -- a value that was moved is in none of the groups that are left
      obtain ⟨-, -, -, -, hvleft⟩ := of_moved h hdisjoint hnodup hpoller hoffsets hv hmoved
      exact absurd (mem_membersOf_of_getElem? hgroup hid) (hvleft number hnumber)
    · rw [heq]
      exact h.movable number (hleft number hnumber) group hgroup v hv hid
  case readers =>
    intro v' hv' hstate
    obtain ⟨v, hv, rfl⟩ := List.mem_map.mp hv'
    obtain ⟨m, hm, hreads, hblocks⟩ :=
      readers_moved h hdisjoint hnodup hpoller hmaster hoffsets hv hstate
    refine ⟨_, List.mem_map_of_mem hm, hreads, fun k hk => ?_⟩
    rw [id_moved, id_moved]
    exact hblocks k hk

end

end Slicing

/-! ## All slices -/

namespace MergePass

/-- The pass after others have changed its controller. -/
def amid (outside : MergePass → Plc) (pass : MergePass) : MergePass :=
  { pass with plc := outside pass }

/-- One family, while others change the controller between the steps. -/
def mergeFamilyAmid (outside : MergePass → Plc) (route : String) (groups : List Group)
    (pass : MergePass) (family : Family) : MergePass :=
  let usableFamily := usable pass.shared family
  match elementSize? (pass.amid outside) usableFamily with
  | none => pass
  | some size => (usableFamily.slices size).foldl
      (fun pass slice => mergeSlice route groups usableFamily size (pass.amid outside) slice) pass

theorem mergeFamilyAmid_plc (route : String) (groups : List Group) (pass : MergePass)
    (family : Family) :
    mergeFamilyAmid MergePass.plc route groups pass family = mergeFamily route groups pass family :=
  rfl

end MergePass

section

variable (outside : MergePass → Plc) {route : String} {parsed : List Descriptor}
  {base : List Registered} {left : List Nat} {family : Family} {pass : MergePass}

/-- **One slice** keeps the invariant for the groups that are left, whatever comes of it. -/
theorem slicing_mergeSlice
    (h : Slicing route parsed base groups (groupNumbers slice.elements ++ left) pass.values)
    (hids : (base.map Registered.id).Nodup) (hdisjoint : groups.Pairwise Group.Disjoint)
    (hnodup : (groupNumbers slice.elements ++ left).Nodup)
    (hpoller : ∀ number ∈ groupNumbers slice.elements, ∀ group, groups[number]? = some group →
      group.poller = family.poller) :
    Slicing route parsed base groups left
      (mergeSlice route groups family size pass slice).values := by
  have hkept : Slicing route parsed base groups left pass.values :=
    h.mono fun _ hnumber => List.mem_append_right _ hnumber
  unfold mergeSlice
  split
  · next master offsets hmaster hoffsets =>
    dsimp only
    split
    · exact h.move hids hdisjoint hnodup hpoller hmaster hoffsets
    · exact hkept
  · exact hkept

@[simp] theorem shared_mergeSlice (route : String) (groups : List Group) (family : Family)
    (size : Nat) (pass : MergePass) (slice : Slice) :
    (mergeSlice route groups family size pass slice).shared = pass.shared := by
  unfold mergeSlice
  split
  · dsimp only
    split <;> rfl
  · rfl

/-- All slices of a family: induction on those that are left. -/
theorem slicing_foldl {slices : List Slice}
    (h : Slicing route parsed base groups (groupNumbers (slices.flatMap Slice.elements) ++ left)
      pass.values)
    (hids : (base.map Registered.id).Nodup) (hdisjoint : groups.Pairwise Group.Disjoint)
    (hnodup : (groupNumbers (slices.flatMap Slice.elements) ++ left).Nodup)
    (hpoller : ∀ number ∈ groupNumbers (slices.flatMap Slice.elements), ∀ group,
      groups[number]? = some group → group.poller = family.poller) :
    Slicing route parsed base groups left (slices.foldl (fun pass slice =>
        mergeSlice route groups family size (pass.amid outside) slice) pass).values ∧
      (slices.foldl (fun pass slice =>
        mergeSlice route groups family size (pass.amid outside) slice) pass).shared =
          pass.shared := by
  induction slices generalizing pass with
  | nil => exact ⟨h, rfl⟩
  | cons slice rest ih =>
    have hsplit : groupNumbers ((slice :: rest).flatMap Slice.elements) ++ left =
        groupNumbers slice.elements ++ (groupNumbers (rest.flatMap Slice.elements) ++ left) := by
      unfold groupNumbers
      rw [List.flatMap_cons, List.map_append, List.append_assoc]
    rw [hsplit] at h hnodup
    have hnumbers : ∀ number, number ∈ groupNumbers ((slice :: rest).flatMap Slice.elements) ↔
        number ∈ groupNumbers slice.elements ∨
          number ∈ groupNumbers (rest.flatMap Slice.elements) := by
      intro number
      unfold groupNumbers
      rw [List.flatMap_cons, List.map_append, List.mem_append]
    have hfirst : Slicing route parsed base groups
        (groupNumbers (rest.flatMap Slice.elements) ++ left)
        (mergeSlice route groups family size (pass.amid outside) slice).values :=
      slicing_mergeSlice h hids hdisjoint hnodup fun number hnumber =>
        hpoller number ((hnumbers number).mpr (Or.inl hnumber))
    obtain ⟨hrest, hshared⟩ := ih hfirst (List.nodup_append.mp hnodup).2.1
      fun number hnumber => hpoller number ((hnumbers number).mpr (Or.inr hnumber))
    exact ⟨hrest, hshared.trans (shared_mergeSlice _ _ _ _ _ _)⟩

/-- The groups of a family that have a tag. -/
def usableNumbers (shared : List (Option TagRef)) (family : Family) : List Nat :=
  groupNumbers (usable shared family).elements

/-- **One family** keeps the invariant for the groups of the other families. -/
theorem slicing_mergeFamilyAmid
    (h : Slicing route parsed base groups (usableNumbers pass.shared family ++ left) pass.values)
    (hids : (base.map Registered.id).Nodup) (hdisjoint : groups.Pairwise Group.Disjoint)
    (hnodup : (usableNumbers pass.shared family ++ left).Nodup)
    (hfamily : family ∈ Family.ofGroups groups) :
    Slicing route parsed base groups left
        (mergeFamilyAmid outside route groups pass family).values ∧
      (mergeFamilyAmid outside route groups pass family).shared = pass.shared := by
  unfold mergeFamilyAmid
  dsimp only
  split
  · exact ⟨h.mono fun _ hnumber => List.mem_append_right _ hnumber, rfl⟩
  · next size _ =>
    have hsublist := ((usable pass.shared family).elements_slices_sublist size).map Prod.snd
    refine slicing_foldl outside (h.mono fun number hnumber => ?_) hids hdisjoint
      (hnodup.sublist (hsublist.append_right left)) fun number hnumber group hgroup => ?_
    · exact (hsublist.append_right left).subset hnumber
    · obtain ⟨element, helement, rfl⟩ := List.mem_map.mp (hsublist.subset hnumber)
      obtain ⟨found, hfound, hpoller⟩ :=
        Family.exists_group hfamily (List.mem_filter.mp helement).1
      cases hgroup.symm.trans hfound
      exact hpoller

/-- **All families**: induction on those that are left. -/
theorem slicing_families {families : List Family} {shared : List (Option TagRef)}
    (hshared : pass.shared = shared)
    (h : Slicing route parsed base groups (families.flatMap (usableNumbers shared)) pass.values)
    (hids : (base.map Registered.id).Nodup) (hdisjoint : groups.Pairwise Group.Disjoint)
    (hnodup : (families.flatMap (usableNumbers shared)).Nodup)
    (hfamilies : ∀ family ∈ families, family ∈ Family.ofGroups groups) :
    Slicing route parsed base groups []
      (families.foldl (mergeFamilyAmid outside route groups) pass).values := by
  induction families generalizing pass with
  | nil => exact h
  | cons family rest ih =>
    subst hshared
    rw [List.flatMap_cons] at h hnodup
    obtain ⟨hfirst, hfirstShared⟩ := slicing_mergeFamilyAmid outside h hids hdisjoint hnodup
      (hfamilies family List.mem_cons_self)
    exact ih hfirstShared hfirst (List.nodup_append.mp hnodup).2.1
      fun family hfamily => hfamilies family (List.mem_cons_of_mem _ hfamily)

/-- The groups of all families that have a tag, each once. -/
theorem nodup_usableNumbers (groups : List Group) (shared : List (Option TagRef)) :
    ((Family.ofGroups groups).flatMap (usableNumbers shared)).Nodup :=
  (Family.nodup_numbers groups).sublist
    (List.Sublist.flatMap_right _ fun _ _ => List.filter_sublist.map Prod.snd)

end

end PlcTags

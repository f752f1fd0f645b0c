import Mathlib.Data.List.Nodup
import PlcTags.Plan.Groups

/-!
# What groups hold

The groups of a plan, taken back to the values that it was made of.

* `Group.Holds`: the members of a group are values with its poller and its parent, the master is one
  of them, and if the master is the parent then its tag has the name of the parent.
* `Plan.groups_hold`, `Plan.groups_disjoint`, `Plan.nodup_members`: every group of a plan holds, and
  no value is in two of them or twice in one.
* `Plan.covers`: every value is in a group or stays alone.
-/

namespace PlcTags

variable {α : Type} [BEq α] [LawfulBEq α]

theorem nodup_eraseDups : ∀ xs : List α, xs.eraseDups.Nodup
  | [] => List.nodup_nil
  | x :: xs => by
    rw [List.eraseDups_cons]
    refine List.nodup_cons.mpr ⟨fun hx => ?_, nodup_eraseDups _⟩
    rw [List.mem_eraseDups, List.mem_filter] at hx
    simp at hx
termination_by xs => xs.length
decreasing_by exact Nat.lt_succ_of_le (List.length_filter_le _ _)

/-- Two keys that tell the elements of a list apart in the same way have as many values. -/
theorem length_eraseDups_map_congr {ι β : Type} [BEq β] [LawfulBEq β] {f : ι → α} {g : ι → β} :
    ∀ xs : List ι, (∀ x ∈ xs, ∀ y ∈ xs, f x = f y ↔ g x = g y) →
      (xs.map f).eraseDups.length = (xs.map g).eraseDups.length
  | [], _ => rfl
  | x :: xs, h => by
    have hothers : xs.filter (fun y => !f y == f x) = xs.filter fun y => !g y == g x := by
      refine List.filter_congr fun y hy => congrArg _ ?_
      rw [Bool.eq_iff_iff, beq_iff_eq, beq_iff_eq]
      exact h y (List.mem_cons_of_mem x hy) x List.mem_cons_self
    have hrest := length_eraseDups_map_congr (xs.filter fun y => !f y == f x) fun y hy z hz =>
      h y (List.mem_cons_of_mem x (List.mem_filter.mp hy).1) z
        (List.mem_cons_of_mem x (List.mem_filter.mp hz).1)
    rw [List.map_cons, List.map_cons, List.eraseDups_cons, List.eraseDups_cons, List.length_cons,
      List.length_cons, List.filter_map, List.filter_map]
    exact congrArg Nat.succ (hrest.trans (by rw [hothers]; rfl))
termination_by xs => xs.length
decreasing_by exact Nat.lt_succ_of_le (List.length_filter_le _ _)

/-- What some elements of a list become, told by the elements themselves, stands in their order. -/
theorem map_filterMap_sublist {α β γ : Type} {f : α → Option β} {g : β → γ} {h : α → γ}
    (hf : ∀ x y, f x = some y → g y = h x) (xs : List α) :
    ((xs.filterMap f).map g).Sublist (xs.map h) := by
  induction xs with
  | nil => exact .slnil
  | cons x rest ih =>
    rw [List.filterMap_cons, List.map_cons]
    cases hx : f x with
    | none => exact ih.cons _
    | some y =>
      dsimp only
      rw [List.map_cons, hf x y hx]
      exact ih.cons_cons _

/-- Cut into groups by their keys and put together again, the elements are the same. -/
theorem perm_flatMap_filter {α κ : Type} [BEq κ] [LawfulBEq κ] {key : α → κ} {keys : List κ}
    {xs : List α} (hkeys : keys.Nodup) (hxs : xs.Nodup) (hall : ∀ x ∈ xs, key x ∈ keys) :
    (keys.flatMap fun k => xs.filter fun x => key x == k).Perm xs := by
  refine (List.perm_ext_iff_of_nodup ?_ hxs).mpr fun x => ?_
  · refine List.nodup_flatMap.mpr
      ⟨fun k _ => hxs.filter _, hkeys.imp fun hne x hfirst hsecond => ?_⟩
    have heq := (List.mem_filter.mp hfirst).2
    have heq' := (List.mem_filter.mp hsecond).2
    exact hne ((beq_iff_eq.mp heq).symm.trans (beq_iff_eq.mp heq'))
  · rw [List.mem_flatMap]
    constructor
    · rintro ⟨k, -, hx⟩
      exact (List.mem_filter.mp hx).1
    · intro hx
      exact ⟨key x, hall x hx, List.mem_filter.mpr ⟨hx, beq_self_eq_true _⟩⟩

/-! ## Groups -/

/-- No value is a member of both groups. -/
def Group.Disjoint (a b : Group) : Prop :=
  ∀ id ∈ a.members, id ∉ b.members

/-- **What a group says of the values** that it was made of. -/
structure Group.Holds (values : List (ValueId × Descriptor)) (group : Group) : Prop where
  member : ∀ id ∈ group.members, ∃ d, (id, d) ∈ values ∧ d.mergeParent? = some group.parent ∧
    d.pollerName = group.poller
  master : group.master ∈ group.members
  parent : group.masterIsParent = true → ∃ d, (group.master, d) ∈ values ∧ d.tag = group.parent

variable {values : List (ValueId × Descriptor)} {threshold : Nat}

/-- A candidate is a value with its parent. -/
theorem mem_candidates {c : Candidate} (h : c ∈ values.filterMap Candidate.ofValue?) :
    (c.id, c.descriptor) ∈ values ∧ c.descriptor.mergeParent? = some c.parent := by
  obtain ⟨⟨id, d⟩, hvalue, hc⟩ := List.mem_filterMap.mp h
  obtain ⟨parent, hparent, rfl⟩ := Option.map_eq_some_iff.mp hc
  exact ⟨hvalue, hparent⟩

namespace Plan

variable {candidates : List Candidate} {key : String × String} {group : Group}

theorem mem_withKey {c : Candidate} (h : c ∈ withKey candidates key) :
    c ∈ candidates ∧ c.descriptor.pollerName = key.1 ∧ c.parent = key.2 := by
  obtain ⟨hmem, hkey⟩ := List.mem_filter.mp h
  have heq : c.key = key := eq_of_beq hkey
  exact ⟨hmem, congrArg Prod.fst heq, congrArg Prod.snd heq⟩

/-- A group is that of the candidates with its key. -/
theorem group?_eq_some (h : group? threshold candidates key = some group) :
    ∃ first ∈ withKey candidates key,
      group = Group.ofMembers key first (withKey candidates key) := by
  unfold group? at h
  cases hmembers : withKey candidates key with
  | nil => simp [hmembers] at h
  | cons first rest =>
    simp only [hmembers] at h
    split at h
    · exact ⟨first, List.mem_cons_self, (Option.some.inj h).symm⟩
    · cases h

theorem mem_groups (h : group ∈ (ofValues values threshold).groups) :
    ∃ key first, first ∈ withKey (values.filterMap Candidate.ofValue?) key ∧
      group = Group.ofMembers key first (withKey (values.filterMap Candidate.ofValue?) key) := by
  obtain ⟨key, -, hgroup⟩ := List.mem_filterMap.mp h
  obtain ⟨first, hfirst, heq⟩ := group?_eq_some hgroup
  exact ⟨key, first, hfirst, heq⟩

/-- The master is the first candidate that is the parent, else the first one. -/
theorem master_ofMembers (key : String × String) {members : List Candidate} {first : Candidate}
    (hfirst : first ∈ members) :
    ∃ c ∈ members, (Group.ofMembers key first members).master = c.id ∧
      ((Group.ofMembers key first members).masterIsParent = true →
        c.descriptor.tag = c.parent) := by
  unfold Group.ofMembers
  cases hparent : members.find? Candidate.isParent with
  | none => exact ⟨first, hfirst, rfl, fun h => (by cases h)⟩
  | some c =>
    refine ⟨c, List.mem_of_find?_eq_some hparent, rfl, fun _ => ?_⟩
    have his := List.find?_some hparent
    exact eq_of_beq (Bool.and_eq_true_iff.mp his).1

/-- **Every group of a plan holds.** -/
theorem groups_hold (h : group ∈ (ofValues values threshold).groups) : group.Holds values := by
  obtain ⟨key, first, hfirst, rfl⟩ := mem_groups h
  obtain ⟨c, hc, hmaster, hparent⟩ := master_ofMembers key hfirst
  obtain ⟨hcandidate, -, hckey⟩ := mem_withKey hc
  refine ⟨fun id hid => ?_, ?_, fun his => ?_⟩
  · obtain ⟨member, hmember, rfl⟩ := List.mem_map.mp hid
    obtain ⟨hcandidate, hpoller, hkey⟩ := mem_withKey hmember
    obtain ⟨hvalue, hmerge⟩ := mem_candidates hcandidate
    exact ⟨member.descriptor, hvalue, hmerge.trans (congrArg some hkey), hpoller⟩
  · rw [hmaster]
    exact List.mem_map_of_mem hc
  · obtain ⟨hvalue, -⟩ := mem_candidates hcandidate
    rw [hmaster]
    exact ⟨c.descriptor, hvalue, (hparent his).trans hckey⟩

theorem eq_of_mem_nodup {α β : Type} {pairs : List (α × β)} {a : α} {b b' : β}
    (h : (pairs.map Prod.fst).Nodup) (hb : (a, b) ∈ pairs) (hb' : (a, b') ∈ pairs) : b = b' := by
  induction pairs with
  | nil => cases hb
  | cons pair rest ih =>
    rw [List.map_cons, List.nodup_cons] at h
    have hnot : ∀ {b}, (a, b) ∈ rest → pair.1 ≠ a := fun hmem heq =>
      h.1 (heq ▸ List.mem_map_of_mem hmem)
    rcases List.mem_cons.mp hb with rfl | hrest
    · rcases List.mem_cons.mp hb' with heq | hrest'
      · exact (Prod.mk.inj heq).2.symm
      · exact absurd rfl (hnot hrest')
    · rcases List.mem_cons.mp hb' with rfl | hrest'
      · exact absurd rfl (hnot hrest)
      · exact ih h.2 hrest hrest'

/-- **No value is in two groups.** -/
theorem groups_disjoint (h : (values.map Prod.fst).Nodup) :
    (ofValues values threshold).groups.Pairwise Group.Disjoint := by
  refine List.Pairwise.filterMap _ (fun key key' hne group hgroup group' hgroup' => ?_)
    (nodup_eraseDups _)
  intro id hid hid'
  obtain ⟨first, -, rfl⟩ := group?_eq_some hgroup
  obtain ⟨first', -, rfl⟩ := group?_eq_some hgroup'
  obtain ⟨c, hc, rfl⟩ := List.mem_map.mp hid
  obtain ⟨c', hc', hids⟩ := List.mem_map.mp hid'
  obtain ⟨hcandidate, hpoller, hparent⟩ := mem_withKey hc
  obtain ⟨hcandidate', hpoller', hparent'⟩ := mem_withKey hc'
  obtain ⟨hvalue, hmerge⟩ := mem_candidates hcandidate
  obtain ⟨hvalue', hmerge'⟩ := mem_candidates hcandidate'
  rw [hids] at hvalue'
  have hd := eq_of_mem_nodup h hvalue hvalue'
  rw [← hd] at hmerge' hpoller'
  refine hne (Prod.ext ?_ ?_)
  · rw [← hpoller, ← hpoller']
  · rw [← hparent, ← hparent']
    exact Option.some.inj (hmerge.symm.trans hmerge')

/-- The candidates are values, in their order. -/
theorem ids_candidates_sublist (values : List (ValueId × Descriptor)) :
    ((values.filterMap Candidate.ofValue?).map Candidate.id).Sublist (values.map Prod.fst) := by
  refine map_filterMap_sublist (fun value c hc => ?_) values
  obtain ⟨parent, -, rfl⟩ := Option.map_eq_some_iff.mp hc
  rfl

/-- **No value is twice in a group.** -/
theorem nodup_members (h : (values.map Prod.fst).Nodup)
    (hgroup : group ∈ (ofValues values threshold).groups) : group.members.Nodup := by
  obtain ⟨key, first, -, rfl⟩ := mem_groups hgroup
  exact (h.sublist (ids_candidates_sublist values)).sublist (List.filter_sublist.map _)

/-! ## What a plan covers -/

theorem exists_of_mem_notMerged {id : ValueId} (h : id ∈ (ofValues values threshold).notMerged) :
    ∃ d, (id, d) ∈ values := by
  rcases List.mem_append.mp h with h | h
  · obtain ⟨⟨_, d⟩, hvalue, rfl⟩ := List.mem_map.mp h
    exact ⟨d, (List.mem_filter.mp hvalue).1⟩
  · obtain ⟨key, -, hid⟩ := List.mem_flatMap.mp h
    unfold leftovers at hid
    dsimp only at hid
    split at hid
    · cases hid
    · obtain ⟨c, hc, rfl⟩ := List.mem_map.mp hid
      exact ⟨c.descriptor, (mem_candidates (mem_withKey hc).1).1⟩

/-- The candidates of a key form a group, or all of them stay alone. -/
theorem group_or_leftover {c : Candidate} (h : c ∈ candidates) :
    (∃ group, group? threshold candidates c.key = some group ∧ c.id ∈ group.members) ∨
      c.id ∈ leftovers threshold candidates c.key := by
  have hmem : c ∈ withKey candidates c.key := List.mem_filter.mpr ⟨h, beq_self_eq_true _⟩
  unfold group? leftovers
  cases hmembers : withKey candidates c.key with
  | nil =>
    rw [hmembers] at hmem
    cases hmem
  | cons first rest =>
    rw [hmembers] at hmem
    have hid := List.mem_map_of_mem (f := Candidate.id) hmem
    dsimp only
    split
    · exact Or.inl ⟨_, rfl, hid⟩
    · exact Or.inr hid

/-- **Every value is in a group or stays alone.** -/
theorem covers {value : ValueId × Descriptor} (h : value ∈ values) :
    value.1 ∈ (ofValues values threshold).notMerged ∨
      ∃ group ∈ (ofValues values threshold).groups, value.1 ∈ group.members := by
  cases hparent : value.2.mergeParent? with
  | none =>
    refine Or.inl (List.mem_append_left _ (List.mem_map_of_mem (List.mem_filter.mpr ⟨h, ?_⟩)))
    rw [hparent]
    rfl
  | some parent =>
    have hcandidate : (⟨value.1, value.2, parent⟩ : Candidate) ∈
        values.filterMap Candidate.ofValue? :=
      List.mem_filterMap.mpr ⟨value, h, by rw [Candidate.ofValue?, hparent]; rfl⟩
    have hkey := List.mem_eraseDups.mpr (List.mem_map_of_mem (f := Candidate.key) hcandidate)
    have hplaced := @group_or_leftover threshold _ _ hcandidate
    rcases hplaced with ⟨group, hgroup, hid⟩ | hid
    · exact Or.inr ⟨group, List.mem_filterMap.mpr ⟨_, hkey, hgroup⟩, hid⟩
    · exact Or.inl (List.mem_append_right _ (List.mem_flatMap.mpr ⟨_, hkey, hid⟩))

end Plan

end PlcTags

import Mathlib.Data.List.Find
import Mathlib.Data.List.Perm.Basic
import PlcTags.Proofs.Plan.Groups

/-!
# Plans are partitions

What `Plan.ofValues` makes of a list of values, said of the values alone.

* `Descriptor.MergesUnder`: a value may be merged, and these are its poller and its parent.
* `Group.Gathers`: a group has all values of its poller and parent, in their order. Its master is
  the first one whose tag is the parent itself, else the first one.
* `Plan.Partitions`: every value stands once in a plan, alone or in the group of those with its
  poller and parent.
* `Plan.partitions_ofValues`: plans are partitions.
-/

namespace PlcTags

/-! ## Parents -/

theorem beforeLastDot?_length {depth : Nat} {name before : List Char}
    (h : beforeLastDot? depth name = some before) : before.length < name.length := by
  induction name generalizing depth before with
  | nil => cases h
  | cons c rest ih =>
    simp only [beforeLastDot?] at h
    split at h
    · next before' hrest =>
      cases h
      have := ih hrest
      simp only [List.length_cons]
      omega
    · split at h
      · cases h
        simp
      · cases h

/-- No tag is a member of itself. -/
theorem dottedParent?_ne (tag : String) : dottedParent? tag ≠ some tag := by
  intro h
  obtain ⟨before, hfilter, heq⟩ := Option.map_eq_some_iff.mp h
  have hlength := beforeLastDot?_length (Option.filter_eq_some_iff.mp hfilter).1
  rw [← heq, String.toList_ofList] at hlength
  exact Nat.lt_irrefl _ hlength

/-- The tag of a value is its parent only if it may be merged itself, and then it has one element. -/
theorem Descriptor.elementCount_of_own_parent {d : Descriptor} (h : d.parent? = some d.tag) :
    d.elementCount = 1 := by
  unfold parent? at h
  unfold elementCount
  split at h
  · next hoptimise => rw [if_pos hoptimise]
  · exact absurd h (dottedParent?_ne d.tag)

/-- **The value may be merged**, by this poller and through this parent: a string needs a
capacity. -/
def Descriptor.MergesUnder (d : Descriptor) (poller parent : String) : Prop :=
  d.pollerName = poller ∧ d.parent? = some parent ∧
    (d.type = .string → d.attributes.maxCapacity.isSome)

instance (d : Descriptor) (poller parent : String) : Decidable (d.MergesUnder poller parent) := by
  unfold Descriptor.MergesUnder; infer_instance

/-- The values with a poller and a parent that may be merged, in their order. -/
def mergeable (values : List (ValueId × Descriptor)) (poller parent : String) :
    List (ValueId × Descriptor) :=
  values.filter fun value => value.2.MergesUnder poller parent

theorem Descriptor.mergesUnder_iff {d : Descriptor} {poller parent : String} :
    d.MergesUnder poller parent ↔ d.pollerName = poller ∧ d.mergeParent? = some parent := by
  unfold MergesUnder mergeParent?
  cases hcapacity : d.attributes.maxCapacity <;> by_cases htype : d.type = .string <;>
    simp [htype]

/-! ## What a plan promises -/

/-- **What a group gathers** of the values, and who reads for it. -/
structure Group.Gathers (values : List (ValueId × Descriptor)) (threshold : Nat)
    (group : Group) : Prop where
  /-- There are enough values with the poller and the parent. -/
  enough : max threshold 1 ≤ (mergeable values group.poller group.parent).length
  /-- All of them are members, in their order. -/
  members : group.members = (mergeable values group.poller group.parent).map Prod.fst
  /-- The first one whose tag is the parent reads for all, else the first one. -/
  master : some group.master =
    (((mergeable values group.poller group.parent).find? fun value =>
      value.2.tag == group.parent).or
        (mergeable values group.poller group.parent).head?).map Prod.fst
  /-- The master counts as the parent exactly if there is one whose tag is the parent. -/
  parent : group.masterIsParent = true ↔
    ∃ value ∈ mergeable values group.poller group.parent, value.2.tag = group.parent

/-- **A plan is the partition** of the values by poller and parent. -/
structure Plan.Partitions (plan : Plan) (values : List (ValueId × Descriptor))
    (threshold : Nat) : Prop where
  /-- Every value stands once in the plan, alone or in a group. -/
  once : (plan.notMerged ++ plan.groups.flatMap Group.members).Perm (values.map Prod.fst)
  /-- Two values are in one group exactly if both may be merged, by one poller and through one
  parent, and enough values share these. -/
  together : ∀ a ∈ values, ∀ b ∈ values,
    (∃ group ∈ plan.groups, a.1 ∈ group.members ∧ b.1 ∈ group.members) ↔
      ∃ poller parent, a.2.MergesUnder poller parent ∧ b.2.MergesUnder poller parent ∧
        max threshold 1 ≤ (mergeable values poller parent).length
  /-- Each group has all its values in their order, and the right master. -/
  gathers : ∀ group ∈ plan.groups, group.Gathers values threshold
  /-- The groups stand in the order of their first members. -/
  ordered : (plan.groups.map fun group => group.members.head?).Sublist
    (values.map fun value => some value.1)

namespace Plan

variable {values : List (ValueId × Descriptor)} {threshold : Nat} {candidates : List Candidate}
  {key : String × String} {group : Group}

/-! ## Groups by their keys -/

/-- The candidates with a key are the values that may be merged under it. -/
theorem withKey_candidates (values : List (ValueId × Descriptor)) (key : String × String) :
    withKey (values.filterMap Candidate.ofValue?) key =
      (mergeable values key.1 key.2).map fun value => ⟨value.1, value.2, key.2⟩ := by
  induction values with
  | nil => rfl
  | cons value rest ih =>
    unfold withKey mergeable at ih ⊢
    rw [List.filterMap_cons, List.filter_cons]
    cases hparent : value.2.mergeParent? with
    | none =>
      have hnot : ¬value.2.MergesUnder key.1 key.2 := by
        simp [Descriptor.mergesUnder_iff, hparent]
      simpa [Candidate.ofValue?, hparent, hnot] using ih
    | some parent =>
      have hkey : (Candidate.key ⟨value.1, value.2, parent⟩ == key) =
          decide (value.2.MergesUnder key.1 key.2) := by
        simp [Descriptor.mergesUnder_iff, hparent, Candidate.key, Prod.ext_iff, beq_eq_decide]
      simp only [Candidate.ofValue?, hparent, Option.map_some, List.filter_cons, hkey]
      split
      · next hunder =>
        have hunder := of_decide_eq_true hunder
        obtain rfl : parent = key.2 :=
          Option.some.inj (hparent.symm.trans (Descriptor.mergesUnder_iff.mp hunder).2)
        rw [List.map_cons, ih]
      · exact ih

theorem length_withKey_candidates (values : List (ValueId × Descriptor))
    (key : String × String) :
    (withKey (values.filterMap Candidate.ofValue?) key).length =
      (mergeable values key.1 key.2).length := by
  rw [withKey_candidates, List.length_map]

theorem map_id_withKey_candidates :
    (withKey (values.filterMap Candidate.ofValue?) key).map Candidate.id =
      (mergeable values key.1 key.2).map Prod.fst := by
  rw [withKey_candidates, List.map_map]
  rfl

theorem group?_eq_some_iff :
    group? threshold candidates key = some group ↔
      max threshold 1 ≤ (withKey candidates key).length ∧
        ∃ first, (withKey candidates key).head? = some first ∧
          group = Group.ofMembers key first (withKey candidates key) := by
  unfold group? isLarge
  cases hmembers : withKey candidates key with
  | nil => simp
  | cons first rest => simp [eq_comm]

/-- A key that is large enough has a group. -/
theorem exists_group (hlarge : max threshold 1 ≤ (withKey candidates key).length) :
    ∃ group ∈ (keys candidates).filterMap (group? threshold candidates),
      group.members = (withKey candidates key).map Candidate.id := by
  cases hmembers : withKey candidates key with
  | nil => simp [hmembers] at hlarge
  | cons first rest =>
    have hfirst : first ∈ withKey candidates key := by simp [hmembers]
    obtain ⟨hcandidate, -, -⟩ := mem_withKey hfirst
    have hkey : first.key = key := eq_of_beq (List.mem_filter.mp hfirst).2
    refine ⟨Group.ofMembers key first (withKey candidates key), ?_, by rw [← hmembers]; rfl⟩
    refine List.mem_filterMap.mpr ⟨key, ?_, ?_⟩
    · exact List.mem_eraseDups.mpr (hkey ▸ List.mem_map_of_mem hcandidate)
    · exact group?_eq_some_iff.mpr ⟨hlarge, first, by rw [hmembers]; rfl, rfl⟩

/-! ## Masters -/

/-- Among the candidates of a key, those that are the parent are those whose tag is the parent. -/
theorem find?_isParent (values : List (ValueId × Descriptor)) (key : String × String) :
    (withKey (values.filterMap Candidate.ofValue?) key).find? Candidate.isParent =
      ((mergeable values key.1 key.2).find? fun value => value.2.tag == key.2).map
        fun value => ⟨value.1, value.2, key.2⟩ := by
  rw [withKey_candidates, List.find?_map]
  congr 1
  refine List.find?_congr fun value hvalue => ?_
  have hunder : value.2.MergesUnder key.1 key.2 :=
    of_decide_eq_true (List.mem_filter.mp hvalue).2
  show (value.2.tag == key.2 && value.2.elementCount == 1) = (value.2.tag == key.2)
  by_cases htag : value.2.tag = key.2
  · have hcount := Descriptor.elementCount_of_own_parent (htag ▸ hunder.2.1)
    simp [hcount]
  · simp [htag]

theorem gathers_of_mem (h : group ∈ (ofValues values threshold).groups) :
    group.Gathers values threshold := by
  obtain ⟨key, -, hgroup⟩ := List.mem_filterMap.mp h
  obtain ⟨hlarge, first, hfirst, rfl⟩ := group?_eq_some_iff.mp hgroup
  have hparent := find?_isParent values key
  rw [length_withKey_candidates] at hlarge
  rw [withKey_candidates, List.head?_map] at hfirst
  refine ⟨hlarge, map_id_withKey_candidates, ?_, ?_⟩
  · show some (((withKey _ key).find? Candidate.isParent).getD first).id = _
    rw [hparent]
    obtain ⟨value, hvalue, rfl⟩ := Option.map_eq_some_iff.mp hfirst
    rw [show (Group.ofMembers key _ _).poller = key.1 from rfl,
      show (Group.ofMembers key _ _).parent = key.2 from rfl, hvalue]
    cases (mergeable values key.1 key.2).find? fun value => value.2.tag == key.2 <;> rfl
  · show ((withKey _ key).find? Candidate.isParent).isSome = true ↔ _
    rw [hparent, Option.isSome_map, List.find?_isSome]
    simp only [beq_iff_eq]
    rfl

/-! ## The order of groups -/

/-- The first elements with their keys stand in the order of the list. Induction on the length: the
elements with the key of the first one are taken out. -/
theorem heads_sublist {α κ : Type} [BEq κ] [LawfulBEq κ] (key : α → κ) : ∀ xs : List α,
    ((xs.map key).eraseDups.map fun k => (xs.filter fun x => key x == k).head?).Sublist
      (xs.map some)
  | [] => .slnil
  | x :: xs => by
    have hfilter : ((xs.map key).filter fun k => !k == key x) =
        (xs.filter fun y => !key y == key x).map key := List.filter_map
    have ih := heads_sublist key (xs.filter fun y => !key y == key x)
    rw [List.map_cons, List.eraseDups_cons, List.map_cons, List.map_cons, hfilter]
    have hhead : ((x :: xs).filter fun y => key y == key x).head? = some x := by simp
    rw [hhead]
    refine List.Sublist.cons_cons _ ?_
    refine List.Sublist.trans ?_ (ih.trans (List.filter_sublist.map some))
    refine (List.map_congr_left fun k hk => ?_) ▸ List.Sublist.refl _
    -- a key that is left is not that of the first element
    obtain ⟨y, hy, rfl⟩ := List.mem_map.mp (List.mem_eraseDups.mp hk)
    have hne : key y ≠ key x := by simpa using (List.mem_filter.mp hy).2
    have hsame : (xs.filter fun z => key z == key y) =
        (xs.filter fun z => !key z == key x).filter fun z => key z == key y := by
      rw [List.filter_filter]
      refine List.filter_congr fun z _ => ?_
      by_cases hz : key z = key y <;> simp [hz, hne]
    rw [← hsame, List.filter_cons_of_neg (by simpa using hne.symm)]
termination_by xs => xs.length
decreasing_by exact Nat.lt_succ_of_le (List.length_filter_le _ _)

theorem heads_groups_sublist :
    ((ofValues values threshold).groups.map fun group => group.members.head?).Sublist
      (values.map fun value => some value.1) := by
  have hgroups := map_filterMap_sublist (f := group? threshold
      (values.filterMap Candidate.ofValue?)) (g := fun group => group.members.head?)
    (h := fun key => (withKey (values.filterMap Candidate.ofValue?) key).head?.map Candidate.id)
    (fun key group hgroup => by
      obtain ⟨-, first, hfirst, rfl⟩ := group?_eq_some_iff.mp hgroup
      exact List.head?_map)
    (keys (values.filterMap Candidate.ofValue?))
  have hheads := (heads_sublist Candidate.key (values.filterMap Candidate.ofValue?)).map
    (Option.map Candidate.id)
  have hids := (ids_candidates_sublist values).map some
  rw [List.map_map, List.map_map] at hheads
  rw [List.map_map, List.map_map] at hids
  exact hgroups.trans (hheads.trans hids)

/-! ## Every value once -/

theorem ids_candidates (values : List (ValueId × Descriptor)) :
    (values.filterMap Candidate.ofValue?).map Candidate.id =
      (values.filter fun value => !value.2.mergeParent?.isNone).map Prod.fst := by
  induction values with
  | nil => rfl
  | cons value rest ih =>
    rw [List.filterMap_cons, List.filter_cons]
    cases hparent : value.2.mergeParent? <;> simpa [Candidate.ofValue?, hparent] using ih

/-- The candidates of a key are left over or stand in its group. -/
theorem leftovers_append_members (threshold : Nat) (candidates : List Candidate)
    (key : String × String) :
    leftovers threshold candidates key ++
        (group? threshold candidates key).toList.flatMap Group.members =
      (withKey candidates key).map Candidate.id := by
  unfold leftovers group?
  cases hmembers : withKey candidates key with
  | nil => simp [isLarge]
  | cons first rest =>
    dsimp only
    split <;> simp [Group.ofMembers]

/-- Together the candidates that are left over and those in groups are all candidates. -/
theorem perm_candidates (h : candidates.Nodup) (threshold : Nat) :
    ((keys candidates).flatMap (leftovers threshold candidates) ++
      ((keys candidates).filterMap (group? threshold candidates)).flatMap Group.members).Perm
        (candidates.map Candidate.id) := by
  have hgroups : ((keys candidates).filterMap (group? threshold candidates)).flatMap
      Group.members = (keys candidates).flatMap fun key =>
        (group? threshold candidates key).toList.flatMap Group.members := by
    rw [List.filterMap_eq_flatMap_toList, List.flatMap_assoc]
  have hall : ((keys candidates).flatMap (withKey candidates)).Perm candidates :=
    perm_flatMap_filter (nodup_eraseDups _) h fun c hc =>
      List.mem_eraseDups.mpr (List.mem_map_of_mem hc)
  rw [hgroups]
  refine (List.flatMap_append_perm _ _ _).trans ?_
  simp only [leftovers_append_members]
  rw [← List.map_flatMap]
  exact hall.map Candidate.id

theorem perm_ofValues (h : (values.map Prod.fst).Nodup) :
    ((ofValues values threshold).notMerged ++
      (ofValues values threshold).groups.flatMap Group.members).Perm (values.map Prod.fst) := by
  have hids : ((values.filterMap Candidate.ofValue?).map Candidate.id).Nodup :=
    h.sublist (ids_candidates_sublist values)
  have hcandidates := perm_candidates (List.Nodup.of_map _ hids) threshold
  rw [ids_candidates] at hcandidates
  have hsplit := (List.filter_append_perm (fun value => value.2.mergeParent?.isNone) values).map
    Prod.fst
  rw [List.map_append] at hsplit
  show (_ ++ _ ++ _ : List ValueId).Perm _
  rw [List.append_assoc]
  exact (hcandidates.append_left _).trans hsplit

/-! ## The partition -/

/-- A value is in a group with others exactly if it may be merged under the poller and parent of the
group. -/
theorem mem_members_iff (h : (values.map Prod.fst).Nodup) (hgroup : group.Gathers values threshold)
    {value : ValueId × Descriptor} (hvalue : value ∈ values) :
    value.1 ∈ group.members ↔ value.2.MergesUnder group.poller group.parent := by
  rw [hgroup.members]
  constructor
  · intro hid
    obtain ⟨value', hvalue', heq⟩ := List.mem_map.mp hid
    obtain ⟨hmem, hunder⟩ := List.mem_filter.mp hvalue'
    have hmem : (value.1, value'.2) ∈ values := by rw [← heq]; exact hmem
    rw [eq_of_mem_nodup h hvalue hmem]
    exact of_decide_eq_true hunder
  · intro hunder
    exact List.mem_map_of_mem (List.mem_filter.mpr ⟨hvalue, decide_eq_true hunder⟩)

/-- **Plans are partitions** by poller and parent, of any values that are told apart by their
ids. -/
theorem partitions_ofValues (h : (values.map Prod.fst).Nodup) (threshold : Nat) :
    (ofValues values threshold).Partitions values threshold where
  once := perm_ofValues h
  together a ha b hb := by
    constructor
    · rintro ⟨group, hgroup, hida, hidb⟩
      have hgathers := gathers_of_mem hgroup
      exact ⟨group.poller, group.parent, (mem_members_iff h hgathers ha).mp hida,
        (mem_members_iff h hgathers hb).mp hidb, hgathers.enough⟩
    · rintro ⟨poller, parent, hundera, hunderb, henough⟩
      rw [← length_withKey_candidates values (poller, parent)] at henough
      obtain ⟨group, hgroup, hmembers⟩ := exists_group henough
      rw [map_id_withKey_candidates] at hmembers
      refine ⟨group, hgroup, ?_, ?_⟩ <;> rw [hmembers]
      · exact List.mem_map_of_mem (List.mem_filter.mpr ⟨ha, decide_eq_true hundera⟩)
      · exact List.mem_map_of_mem (List.mem_filter.mpr ⟨hb, decide_eq_true hunderb⟩)
  gathers _ := gathers_of_mem
  ordered := heads_groups_sublist

/-- A number of a drum, read by the fast poller. -/
def drumNumber (tag : String) : Descriptor where
  poller := some "fast"
  tag := tag
  startIndex := none
  type := .int
  count := 1
  source := .unspecified
  offset := 0
  bitAddressed := false
  attributes := .defaults false
  extras := ""

/-- An alarm and the values of a drum. Its load has another poller, the drum itself may be merged,
and the label has no capacity. -/
def drumValues : List (ValueId × Descriptor) :=
  [(⟨1⟩, drumNumber "Alarm"),
   (⟨2⟩, drumNumber "Drum.Speed"),
   (⟨3⟩, { drumNumber "Drum.Load" with poller := some "slow" }),
   (⟨4⟩, { drumNumber "Drum" with attributes := .defaults true }),
   (⟨5⟩, { drumNumber "Drum.Label" with type := .string })]

theorem partitions_ofValues_drum :
    (ofValues drumValues 2).Partitions drumValues 2 ∧
      ofValues drumValues 2 =
        ⟨[⟨"fast", "Drum", ⟨4⟩, [⟨2⟩, ⟨4⟩], true⟩], [⟨1⟩, ⟨5⟩, ⟨3⟩]⟩ :=
  ⟨partitions_ofValues (by decide) 2, by decide +kernel⟩

end Plan

end PlcTags

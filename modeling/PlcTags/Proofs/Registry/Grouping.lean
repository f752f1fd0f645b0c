import PlcTags.Proofs.Registry.Merge
import PlcTags.Proofs.Registry.Slicing

/-!
# What the first level makes of the values

The first level of a pass, over the values of any registry. It treats the values that no pass has
seen; all others stay as they are.

* `Plan.Fits`: what a plan has to do with the values of a registry.
* `Grouped`: the values after groups were treated. Each group settles its members.
* `placed_cases`: what becomes of a value.
* `slicing_placed`: what the second level starts from.
-/

namespace PlcTags

open Registry MergePass

/-! ## Plans of registries -/

/-- **The plan fits the values**: it is about those that no pass has seen, all of them. -/
structure Plan.Fits (plan : Plan) (values : List Registered) : Prop where
  alone : ∀ v ∈ values, v.id ∈ plan.notMerged → v.state = .notRequested
  members : ∀ group ∈ plan.groups, ∀ v ∈ values, v.id ∈ group.members →
    v.state = .notRequested ∧ v.poller = group.poller
  masters : ∀ group ∈ plan.groups, group.master ∈ group.members ∧
    ∃ v ∈ values, v.id = group.master
  disjoint : plan.groups.Pairwise Group.Disjoint
  covers : ∀ v ∈ values, v.state = .notRequested →
    v.id ∈ plan.notMerged ∨ ∃ group ∈ plan.groups, v.id ∈ group.members

/-- The values that no pass has seen. -/
def waitingFor (values : List Registered) : List Registered :=
  values.filter fun v => v.state == .notRequested

theorem mem_planned_waitingFor {values : List Registered} {id : ValueId} {d : Descriptor}
    (h : (id, d) ∈ planned (waitingFor values)) :
    ∃ v ∈ values, v.state = .notRequested ∧ v.id = id ∧ v.descriptor = d := by
  obtain ⟨v, hv, heq⟩ := List.mem_map.mp h
  obtain ⟨hmem, hstate⟩ := List.mem_filter.mp hv
  obtain ⟨hid, hd⟩ := Prod.mk.inj heq
  exact ⟨v, hmem, eq_of_beq hstate, hid, hd⟩

/-- **The plan of a registry fits its values.** -/
theorem Registry.fits_plan {r : Registry} (hids : (r.values.map Registered.id).Nodup)
    (threshold : Nat) : (r.plan threshold).Fits r.values := by
  have hplan : r.plan threshold = Plan.ofValues (planned (waitingFor r.values)) threshold := rfl
  have hsame : ∀ u ∈ r.values, ∀ v ∈ r.values, u.id = v.id → u = v :=
    fun u hu v hv heq => List.inj_on_of_nodup_map hids hu hv heq
  rw [hplan]
  refine ⟨?_, ?_, ?_, ?_, ?_⟩
  · intro v hv hid
    obtain ⟨d, hd⟩ := Plan.exists_of_mem_notMerged hid
    obtain ⟨u, hu, hstate, huid, -⟩ := mem_planned_waitingFor hd
    exact hsame u hu v hv huid ▸ hstate
  · intro group hgroup v hv hid
    obtain ⟨d, hd, -, hpoller⟩ := (Plan.groups_hold hgroup).member v.id hid
    obtain ⟨u, hu, hstate, huid, rfl⟩ := mem_planned_waitingFor hd
    obtain rfl := hsame u hu v hv huid
    exact ⟨hstate, hpoller⟩
  · intro group hgroup
    have hholds := Plan.groups_hold hgroup
    obtain ⟨d, hd, -, -⟩ := hholds.member _ hholds.master
    obtain ⟨u, hu, -, huid, -⟩ := mem_planned_waitingFor hd
    exact ⟨hholds.master, u, hu, huid⟩
  · refine Plan.groups_disjoint ?_
    rw [ids_planned]
    exact hids.sublist (List.filter_sublist.map Registered.id)
  · intro v hv hstate
    have hplanned : (v.id, v.descriptor) ∈ planned (waitingFor r.values) :=
      List.mem_map.mpr ⟨v, List.mem_filter.mpr ⟨hv, by rw [hstate]; rfl⟩, rfl⟩
    exact Plan.covers hplanned

/-- The members of groups are values of the registry. -/
theorem Registry.mem_ids_of_membersOf {r : Registry} {threshold number : Nat} {id : ValueId}
    (hid : id ∈ membersOf (r.plan threshold).groups number) :
    id ∈ r.values.map Registered.id := by
  obtain ⟨group, hgroup, hmem⟩ := mem_membersOf hid
  have hholds : group.Holds (planned (waitingFor r.values)) :=
    Plan.groups_hold (List.mem_of_getElem? hgroup)
  obtain ⟨d, hd, -, -⟩ := hholds.member id hmem
  obtain ⟨v, hv, -, rfl, -⟩ := mem_planned_waitingFor hd
  exact List.mem_map_of_mem hv

/-! ## All groups -/

/-- **The values after groups were treated**, each with the tag it got. -/
structure Grouped (base : List Registered) (done : List (Group × Option TagRef))
    (pass : MergePass) : Prop where
  values : pass.values = base.map (settle done)
  shared : pass.shared = done.map Prod.snd

section

variable {base : List Registered} {done : List (Group × Option TagRef)} {pass : MergePass}
  {group : Group}

theorem shared_mergeGroup {route : String} {next : Plc} {result : Except TransportError TagRef}
    (h : groupTag (update pass.values group.members fun v => v.withState .pending) pass.plc route
      group = (next, result)) :
    (mergeGroup route pass group).shared = pass.shared ++ [result.toOption] := by
  unfold mergeGroup
  simp only [h]
  cases result <;> rfl

theorem Grouped.append (h : Grouped base done pass)
    (hnew : ∀ entry ∈ done, entry.1.Disjoint group) {route : String} {next : Plc}
    {result : Except TransportError TagRef}
    (hgroup : groupTag (update pass.values group.members fun v => v.withState .pending) pass.plc
      route group = (next, result)) :
    Grouped base (done ++ [(group, result.toOption)]) (mergeGroup route pass group) := by
  obtain ⟨hvalues, -, -⟩ := mergeGroup_eq hgroup
  have hsettled : ∀ v, group.settled result.toOption (v.withState .pending) =
      group.settled result.toOption v := by
    intro v
    cases result <;> rfl
  refine ⟨?_, ?_⟩
  · rw [hvalues, h.values, update_waiting hnew hsettled]
  · rw [shared_mergeGroup hgroup, h.shared, List.map_append]
    rfl

theorem Grouped.mergeGroup (h : Grouped base done pass) (route : String)
    (hnew : ∀ entry ∈ done, entry.1.Disjoint group) :
    ∃ outcome, Grouped base (done ++ [(group, outcome)])
      (MergePass.mergeGroup route pass group) := by
  cases hgroup : groupTag (update pass.values group.members fun v => v.withState .pending) pass.plc
    route group with
  | mk next result => exact ⟨_, h.append hnew hgroup⟩

/-- **All groups**, while others change the controller: induction on those that are left. -/
theorem Grouped.foldl {groups : List Group} (h : Grouped base done pass)
    (outside : MergePass → Plc) (route : String)
    (hdisjoint : (done.map Prod.fst ++ groups).Pairwise Group.Disjoint) :
    ∃ all : List (Group × Option TagRef), all.map Prod.fst = done.map Prod.fst ++ groups ∧
      Grouped base all (groups.foldl
        (fun pass group => MergePass.mergeGroup route (pass.amid outside) group) pass) := by
  induction groups generalizing done pass with
  | nil => exact ⟨done, (List.append_nil _).symm, h⟩
  | cons group rest ih =>
    have hnew : ∀ entry ∈ done, entry.1.Disjoint group := fun entry hentry =>
      (List.pairwise_append.mp hdisjoint).2.2 entry.1 (List.mem_map_of_mem hentry) group
        List.mem_cons_self
    have hamid : Grouped base done (pass.amid outside) := ⟨h.values, h.shared⟩
    obtain ⟨outcome, hnext⟩ := hamid.mergeGroup route hnew
    have hlist : (done ++ [(group, outcome)]).map Prod.fst ++ rest =
        done.map Prod.fst ++ group :: rest := by
      rw [List.map_append, List.append_assoc]
      rfl
    obtain ⟨all, hall, hgrouped⟩ := ih hnext (hlist ▸ hdisjoint)
    exact ⟨all, hall.trans hlist, hgrouped⟩

end

/-! ## What becomes of a value -/

/-- **What the first level makes of a value**: its group settles it, or it stays alone for good. -/
def placed (plan : Plan) (done : List (Group × Option TagRef)) (v : Registered) : Registered :=
  settle done (leftAlone plan.notMerged v)

section

variable {plan : Plan} {values : List Registered} {done : List (Group × Option TagRef)}
  {v : Registered}

@[simp] theorem id_placed (plan : Plan) (done : List (Group × Option TagRef)) (v : Registered) :
    (placed plan done v).id = v.id :=
  (id_settle _ _).trans (id_leftAlone _ _)

@[simp] theorem descriptor_placed (plan : Plan) (done : List (Group × Option TagRef))
    (v : Registered) : (placed plan done v).descriptor = v.descriptor :=
  (descriptor_settle _ _).trans (descriptor_leftAlone _ _)

@[simp] theorem poller_placed (plan : Plan) (done : List (Group × Option TagRef)) (v : Registered) :
    (placed plan done v).poller = v.poller :=
  congrArg Descriptor.pollerName (descriptor_placed plan done v)

/-- A group settles its members whatever state they were in. -/
theorem settled_leftAlone (group : Group) (outcome : Option TagRef) (notMerged : List ValueId)
    (v : Registered) : group.settled outcome (leftAlone notMerged v) = group.settled outcome v := by
  unfold leftAlone
  split
  · cases outcome <;> rfl
  · rfl

/-- A member of a group is settled by it. -/
theorem placed_of_mem (hfits : plan.Fits values) (hdone : done.map Prod.fst = plan.groups)
    {group : Group} {outcome : Option TagRef} (hentry : (group, outcome) ∈ done)
    (hid : v.id ∈ group.members) : placed plan done v = group.settled outcome v := by
  unfold placed
  rw [settle_of_mem (hdone ▸ hfits.disjoint) hentry (by rwa [id_leftAlone]), settled_leftAlone]

/-- **What becomes of a value**: its group settles it, or it is left alone for good, or it had been
treated by an earlier pass and stays as it is. -/
theorem placed_cases (hfits : plan.Fits values) (hdone : done.map Prod.fst = plan.groups)
    (hv : v ∈ values) :
    (∃ group outcome, (group, outcome) ∈ done ∧ v.id ∈ group.members ∧
      v.state = .notRequested ∧ placed plan done v = group.settled outcome v) ∨
    (v.state = .notRequested ∧ placed plan done v = v.withState .doNotOptimise) ∨
    (v.state ≠ .notRequested ∧ (∀ group ∈ plan.groups, v.id ∉ group.members) ∧
      placed plan done v = v) := by
  by_cases hmember : ∃ group ∈ plan.groups, v.id ∈ group.members
  · obtain ⟨group, hgroup, hid⟩ := hmember
    obtain ⟨⟨group, outcome⟩, hentry, rfl⟩ := List.mem_map.mp (hdone ▸ hgroup)
    exact Or.inl ⟨group, outcome, hentry, hid, (hfits.members group hgroup v hv hid).1,
      placed_of_mem hfits hdone hentry hid⟩
  · have hnone : ∀ group ∈ plan.groups, v.id ∉ group.members :=
      fun group hgroup hid => hmember ⟨group, hgroup, hid⟩
    have hplaced : placed plan done v = leftAlone plan.notMerged v :=
      settle_of_not_mem fun entry hentry hid =>
        hnone entry.1 (hdone ▸ List.mem_map_of_mem hentry) (by rwa [id_leftAlone] at hid)
    refine Or.inr ?_
    by_cases hid : v.id ∈ plan.notMerged
    · exact Or.inl ⟨hfits.alone v hv hid, hplaced.trans (if_pos hid)⟩
    · refine Or.inr ⟨fun hstate => ?_, hnone, hplaced.trans (if_neg hid)⟩
      exact (hfits.covers v hv hstate).elim hid hmember

/-- Placing a value keeps it sound. -/
theorem sound_placed (hfits : plan.Fits values) (hdone : done.map Prod.fst = plan.groups)
    (hv : v ∈ values) {route : String} {d : Descriptor} (h : v.Sound route d) :
    (placed plan done v).Sound route d := by
  rcases placed_cases hfits hdone hv with
    ⟨group, outcome, -, -, hstate, heq⟩ | ⟨hstate, heq⟩ | ⟨-, -, heq⟩
  · rw [heq]
    cases outcome with
    | some tag => exact h.joinGroup group.master tag
    | none => exact h.withState (by rw [hstate]; rfl) rfl nofun
  · rw [heq]
    exact h.withState (by rw [hstate]; rfl) rfl nofun
  · rw [heq]
    exact h

/-- No value still waits for a pass. -/
theorem requested_placed (hfits : plan.Fits values) (hdone : done.map Prod.fst = plan.groups)
    (hv : v ∈ values) : (placed plan done v).state ≠ .notRequested := by
  rcases placed_cases hfits hdone hv with
    ⟨group, outcome, -, -, -, heq⟩ | ⟨-, heq⟩ | ⟨hstate, -, heq⟩
  · rw [heq]
    cases outcome with
    | some tag => exact Registered.Sound.requested_joined v group.master tag
    | none => exact nofun
  · rw [heq]
    exact nofun
  · rw [heq]
    exact hstate

/-- The entry of a group with a number. -/
theorem entry_of_number {number : Nat} {group : Group} {tag : TagRef}
    (hdone : done.map Prod.fst = plan.groups) (hgroup : plan.groups[number]? = some group)
    (htag : (done.map Prod.snd)[number]? = some (some tag)) : (group, some tag) ∈ done := by
  rw [← hdone, List.getElem?_map] at hgroup
  rw [List.getElem?_map] at htag
  obtain ⟨entry, hentry, rfl⟩ := Option.map_eq_some_iff.mp hgroup
  rw [hentry] at htag
  obtain ⟨first, second⟩ := entry
  cases htag
  exact List.mem_of_getElem? hentry

/-- **A value and the one that reads for it** after the first level are members of the same
groups. -/
theorem readers_placed (hfits : plan.Fits values) (hdone : done.map Prod.fst = plan.groups)
    (hreaders : ∀ v ∈ values, v.state = .optimised → ∃ m ∈ values, m.ReadsFor v) (hv : v ∈ values)
    (hstate : (placed plan done v).state = .optimised) :
    ∃ m ∈ values, (placed plan done m).ReadsFor (placed plan done v) ∧
      ∀ number, v.id ∈ membersOf plan.groups number ↔ m.id ∈ membersOf plan.groups number := by
  rcases placed_cases hfits hdone hv with
    ⟨group, outcome, hentry, hid, -, heq⟩ | ⟨-, heq⟩ | ⟨-, hnone, heq⟩
  · rw [heq] at hstate
    cases outcome with
    | none => cases hstate
    | some tag =>
      -- the master of the group reads for its members
      have hgroup : group ∈ plan.groups := hdone ▸ List.mem_map_of_mem hentry
      obtain ⟨hmaster, m, hm, hmid⟩ := hfits.masters group hgroup
      have hmember : m.id ∈ group.members := hmid ▸ hmaster
      have hplaced := placed_of_mem hfits hdone hentry hmember
      refine ⟨m, hm, ⟨?_, ?_, ?_⟩, fun number => ?_⟩
      · rw [hplaced]
        exact if_pos hmid
      · rw [poller_placed, poller_placed, (hfits.members group hgroup v hv hid).2,
          (hfits.members group hgroup m hm hmember).2]
      · rw [hplaced, heq]
        rfl
      · obtain ⟨own, hown⟩ := List.mem_iff_getElem?.mp hgroup
        constructor
        · intro hin
          obtain rfl := number_unique hfits.disjoint hin (mem_membersOf_of_getElem? hown hid)
          exact mem_membersOf_of_getElem? hown hmember
        · intro hin
          obtain rfl := number_unique hfits.disjoint hin (mem_membersOf_of_getElem? hown hmember)
          exact mem_membersOf_of_getElem? hown hid
  · rw [heq] at hstate
    cases hstate
  · -- an earlier pass has merged both, so this one has no group with either
    rw [heq] at hstate ⊢
    have hno : ∀ {u : Registered}, (∀ group ∈ plan.groups, u.id ∉ group.members) →
        ∀ number, u.id ∉ membersOf plan.groups number := by
      intro u hu number hin
      obtain ⟨group, hgroup, hid⟩ := mem_membersOf hin
      exact hu group (List.mem_of_getElem? hgroup) hid
    obtain ⟨m, hm, hreads⟩ := hreaders v hv hstate
    have hmaster := hreads.master
    rcases placed_cases hfits hdone hm with ⟨_, _, -, -, hwaits, -⟩ | ⟨hwaits, -⟩ | ⟨-, hnom, hmeq⟩
    · cases hmaster.symm.trans hwaits
    · cases hmaster.symm.trans hwaits
    · exact ⟨m, hm, hmeq.symm ▸ hreads, fun number =>
        iff_of_false (hno hnone number) (hno hnom number)⟩

/-- **What the second level starts from.** -/
theorem slicing_placed {route : String} {parsed : List Descriptor} (hfits : plan.Fits values)
    (hdone : done.map Prod.fst = plan.groups)
    (hsound : List.Forall₂ (Registered.Sound route) parsed values)
    (hreaders : ∀ v ∈ values, v.state = .optimised → ∃ m ∈ values, m.ReadsFor v) :
    Slicing route parsed (values.map (placed plan done)) plan.groups
      ((Family.ofGroups plan.groups).flatMap (usableNumbers (done.map Prod.snd)))
      (values.map (placed plan done)) := by
  constructor
  case relocated => exact List.forall₂_same.mpr fun v _ => Or.inl rfl
  case sound => exact forall₂_map_of_mem hsound fun d v hv h => sound_placed hfits hdone hv h
  case requested =>
    intro v' hv'
    obtain ⟨v, hv, rfl⟩ := List.mem_map.mp hv'
    exact requested_placed hfits hdone hv
  case masters =>
    intro number _ group hgroup
    obtain ⟨hmaster, v, hv, hid⟩ := hfits.masters group (List.mem_of_getElem? hgroup)
    exact ⟨hmaster, _, List.mem_map_of_mem hv, (id_placed _ _ _).trans hid⟩
  case movable =>
    intro number hnumber group hgroup v' hv' hid
    obtain ⟨v, hv, rfl⟩ := List.mem_map.mp hv'
    rw [id_placed] at hid
    -- the group has a tag, so its members got it
    obtain ⟨family, -, hfamily⟩ := List.mem_flatMap.mp hnumber
    obtain ⟨element, helement, rfl⟩ := List.mem_map.mp hfamily
    have husable := (List.mem_filter.mp helement).2
    obtain ⟨tag, htag⟩ := Option.isSome_iff_exists.mp husable
    have hentry := entry_of_number hdone hgroup (Option.join_eq_some_iff.mp htag)
    obtain ⟨hstate, hpoller⟩ := hfits.members group (List.mem_of_getElem? hgroup) v hv hid
    obtain ⟨d, -, hd⟩ := exists_of_mem_forall₂ hsound hv
    rw [placed_of_mem hfits hdone hentry hid]
    exact ⟨Registered.Sound.sharesBuffer_joined v group.master tag, rfl, hpoller,
      (hd.unmerged (by rw [hstate]; rfl)).alone⟩
  case readers =>
    intro v' hv' hstate
    obtain ⟨v, hv, rfl⟩ := List.mem_map.mp hv'
    obtain ⟨m, hm, hreads, hblocks⟩ := readers_placed hfits hdone hreaders hv hstate
    refine ⟨_, List.mem_map_of_mem hm, hreads, fun number _ => ?_⟩
    rw [id_placed, id_placed]
    exact hblocks number

end

end PlcTags

import Mathlib.Data.Finset.Card
import PlcTags.Proofs.Registry.Owners
import PlcTags.Proofs.Registry.Spared

/-!
# The tally of a pass

The counters of a report go up group by group and slice by slice, while slices turn readers of
groups into values that are read for.

* `countP_map_add`: how a count changes when some values change.
* `MergePass.Tallied`: the invariant of both levels. Every value reads or is counted as merged, and
  every slice that is counted has a tag of its own.
* `countP_settle_append`, `Registry.Sound.countP_moveToSlice`: how many readers a group and a slice
  leave.
* `MergePass.Tallied.mergeGroup`, `Registry.Sound.tallied_after`: one step keeps it.
-/

namespace PlcTags

open Registry MergePass

/-! ## Counts -/

section

variable {α β : Type}

/-- Pointwise sums of two properties are sums of counts. -/
theorem countP_add_countP {xs : List α} {p q p' q' : α → Bool}
    (h : ∀ x ∈ xs, (p x).toNat + (q x).toNat = (p' x).toNat + (q' x).toNat) :
    xs.countP p + xs.countP q = xs.countP p' + xs.countP q' := by
  induction xs with
  | nil => rfl
  | cons x rest ih =>
    have hrest := ih fun y hy => h y (List.mem_cons_of_mem _ hy)
    have hx := h x List.mem_cons_self
    have hcount : ∀ r : α → Bool, (x :: rest).countP r = rest.countP r + (r x).toNat := by
      intro r
      rw [List.countP_cons]
      cases r x <;> rfl
    rw [hcount, hcount, hcount, hcount]
    omega

/-- Elements that are told apart are found once each. -/
theorem countP_key_mem [DecidableEq β] {xs : List α} {key : α → β} {ys : List β}
    (hxs : (xs.map key).Nodup) (hys : ys.Nodup) (hfound : ∀ y ∈ ys, y ∈ xs.map key) :
    xs.countP (fun x => decide (key x ∈ ys)) = ys.length := by
  have hperm : ((xs.map key).filter fun y => decide (y ∈ ys)).Perm ys := by
    refine (List.perm_ext_iff_of_nodup (hxs.filter _) hys).mpr fun y => ?_
    simp only [List.mem_filter, decide_eq_true_eq]
    exact ⟨fun h => h.2, fun h => ⟨hfound y h, h⟩⟩
  rw [← hperm.length_eq, ← List.countP_eq_length_filter, List.countP_map]
  rfl

/-- **How a count changes** when elements change: those of some keys have the property before, those
of others after. -/
theorem countP_map_add [DecidableEq β] {γ : Type} {xs : List α} {key : α → β}
    (now next : α → γ) (p : γ → Bool) {before after : List β} (hxs : (xs.map key).Nodup)
    (hbefore : before.Nodup) (hafter : after.Nodup)
    (hbeforeFound : ∀ y ∈ before, y ∈ xs.map key)
    (hafterFound : ∀ y ∈ after, y ∈ xs.map key)
    (h : ∀ x ∈ xs, (p (next x)).toNat + (decide (key x ∈ before)).toNat =
      (p (now x)).toNat + (decide (key x ∈ after)).toNat) :
    (xs.map next).countP p + before.length = (xs.map now).countP p + after.length := by
  rw [List.countP_map, List.countP_map, ← countP_key_mem hxs hbefore hbeforeFound,
    ← countP_key_mem hxs hafter hafterFound]
  exact countP_add_countP h

end

/-! ## The tally -/

/-- The handles of values that were moved to slices. -/
def slicedHandles (values : List Registered) : List Nat :=
  handles (values.filter fun v => v.elementOffset.isSome)

theorem mem_slicedHandles_iff {values : List Registered} {handle : Nat} :
    handle ∈ slicedHandles values ↔
      ∃ v ∈ values, v.elementOffset.isSome = true ∧ v.handle? = some handle := by
  simp [slicedHandles, handles, List.mem_filterMap, List.mem_filter, and_assoc]

/-- **The tally of a pass** over values that all read themselves at its start. -/
structure MergePass.Tallied (plan : Plan) (base : List Registered) (pass : MergePass) : Prop where
  ids : pass.values.map Registered.id = base.map Registered.id
  notMerged : pass.report.notMerged = plan.notMerged.length
  /-- Every value reads, or is counted as merged. -/
  readers : pass.report.values + pass.values.countP Registered.readFlag = base.length
  /-- Every slice that is counted has a tag of its own. -/
  slices : pass.report.slices = (slicedHandles pass.values).toFinset.card
  given : ∀ handle ∈ slicedHandles pass.values, handle ≤ pass.plc.created

section

variable {outside : MergePass → Plc} {route : String} {plan : Plan} {base : List Registered}
  {done : List (Group × Option TagRef)} {pass : MergePass} {group : Group} {groups : List Group}

/-! ## Groups -/

/-- The values before each group are those that the groups before it have settled. -/
theorem Grouped.of_steps (h : Grouped base done pass)
    (hdisjoint : (done.map Prod.fst ++ groups).Pairwise Group.Disjoint) :
    ∀ e ∈ steps (fun pass group => MergePass.mergeGroup route (pass.amid outside) group) pass
      groups, ∃ before, Grouped base before e.1 ∧ ∀ entry ∈ before, entry.1.Disjoint e.2 := by
  induction groups generalizing done pass with
  | nil => exact fun e he => nomatch he
  | cons group rest ih =>
    have hnew : ∀ entry ∈ done, entry.1.Disjoint group := fun entry hentry =>
      (List.pairwise_append.mp hdisjoint).2.2 entry.1 (List.mem_map_of_mem hentry) group
        List.mem_cons_self
    intro e he
    rcases List.mem_cons.mp he with rfl | he
    · exact ⟨done, h, hnew⟩
    · have hamid : Grouped base done (pass.amid outside) := ⟨h.values, h.shared⟩
      obtain ⟨outcome, hnext⟩ := hamid.mergeGroup route hnew
      refine ih hnext ?_ e he
      rw [List.map_append, List.append_assoc]
      exact hdisjoint

/-- What a group adds to the report. -/
theorem report_mergeGroup {next : Plc} {result : Except TransportError TagRef}
    (h : groupTag (update pass.values group.members fun v => v.withState .pending) pass.plc route
      group = (next, result)) :
    (mergeGroup route pass group).report =
      match result with
      | .ok _ => { pass.report with
          groups := pass.report.groups + 1
          values := pass.report.values + (group.members.length - 1) }
      | .error cause => { pass.report with
          failures := pass.report.failures ++ [.sharedTag group.poller group.parent cause] } := by
  unfold mergeGroup
  simp only [h]
  cases result <;> rfl

/-- Each group is counted as merged or as failed. -/
theorem groups_add_failures_mergeGroup
    (h : pass.report.groups + pass.report.failures.length = pass.shared.length) :
    (mergeGroup route pass group).report.groups +
      (mergeGroup route pass group).report.failures.length =
        (mergeGroup route pass group).shared.length := by
  cases hgroup : groupTag (update pass.values group.members fun v => v.withState .pending) pass.plc
    route group with
  | mk next result =>
    rw [report_mergeGroup hgroup, shared_mergeGroup hgroup, List.length_append,
      List.length_singleton, ← h]
    cases result with
    | ok tag => exact Nat.add_right_comm _ _ _
    | error cause => simp [Nat.add_assoc]

/-- Values that were settled by groups are in no slice. -/
theorem slicedHandles_settle (halone : ∀ v ∈ base, v.elementOffset = none)
    (done : List (Group × Option TagRef)) : slicedHandles (base.map (settle done)) = [] := by
  have hnone : ∀ v, (settle done v).elementOffset = v.elementOffset := by
    intro v
    rcases settle_cases done v with heq | ⟨⟨_, outcome⟩, -, -, heq⟩
    · rw [heq]
    · rw [heq]
      cases outcome <;> rfl
  refine List.eq_nil_iff_forall_not_mem.mpr fun handle hin => ?_
  obtain ⟨w, hw, hsliced, -⟩ := mem_slicedHandles_iff.mp hin
  obtain ⟨v, hv, rfl⟩ := List.mem_map.mp hw
  rw [hnone, halone v hv] at hsliced
  cases hsliced

/-- What a group leaves of the readers: all of them without a tag, else its master. -/
def readersOf (group : Group) : Option TagRef → List ValueId
  | none => group.members
  | some _ => [group.master]

/-- **A group takes its members as readers**, and leaves its own. -/
theorem countP_settle_append (hnew : ∀ entry ∈ done, entry.1.Disjoint group)
    (hids : (base.map Registered.id).Nodup) (hreads : ∀ v ∈ base, v.readFlag = true)
    (hmembers : group.members.Nodup) (hmaster : group.master ∈ group.members)
    (hfound : ∀ id ∈ group.members, id ∈ base.map Registered.id) (outcome : Option TagRef) :
    (base.map (settle (done ++ [(group, outcome)]))).countP Registered.readFlag +
        group.members.length =
      (base.map (settle done)).countP Registered.readFlag + (readersOf group outcome).length := by
  have hsubset : ∀ id ∈ readersOf group outcome, id ∈ group.members := by
    intro id hid
    cases outcome with
    | none => exact hid
    | some tag => exact List.mem_singleton.mp hid ▸ hmaster
  have hnodup : (readersOf group outcome).Nodup := by
    cases outcome with
    | none => exact hmembers
    | some tag => exact List.nodup_singleton group.master
  refine countP_map_add (settle done) (settle (done ++ [(group, outcome)])) Registered.readFlag
    hids hmembers hnodup hfound (fun id hid => hfound id (hsubset id hid)) fun v hv => ?_
  by_cases hid : v.id ∈ group.members
  · -- a member was untouched before its group
    have hfree : ∀ entry ∈ done, v.id ∉ entry.1.members := fun entry hentry hin =>
      hnew entry hentry v.id hin hid
    rw [settle_append_of_mem hfree hid, settle_of_not_mem hfree, hreads v hv]
    have hread : (group.settled outcome v).readFlag = decide (v.id ∈ readersOf group outcome) := by
      cases outcome with
      | none => exact (hreads v hv).trans (decide_eq_true hid).symm
      | some tag => exact decide_eq_decide.mpr List.mem_singleton.symm
    rw [hread, decide_eq_true hid]
    exact Nat.add_comm _ _
  · have hnot : v.id ∉ readersOf group outcome := fun hin => hid (hsubset v.id hin)
    rw [settle_append_of_not_mem hid]
    simp [hid, hnot]

/-- **One group** keeps the tally. -/
theorem MergePass.Tallied.mergeGroup (h : pass.Tallied plan base) (hgrouped : Grouped base done pass)
    (hnew : ∀ entry ∈ done, entry.1.Disjoint group) (hids : (base.map Registered.id).Nodup)
    (hreads : ∀ v ∈ base, v.readFlag = true) (halone : ∀ v ∈ base, v.elementOffset = none)
    (hmembers : group.members.Nodup) (hmaster : group.master ∈ group.members)
    (hfound : ∀ id ∈ group.members, id ∈ base.map Registered.id) :
    (MergePass.mergeGroup route (pass.amid outside) group).Tallied plan base := by
  have hamid : Grouped base done (pass.amid outside) := ⟨hgrouped.values, hgrouped.shared⟩
  cases hgroup : groupTag (update (pass.amid outside).values group.members fun v =>
    v.withState .pending) (pass.amid outside).plc route group with
  | mk next result =>
    have hnext := hamid.append hnew hgroup
    have hbefore : slicedHandles pass.values = [] :=
      hgrouped.values ▸ slicedHandles_settle halone done
    have hsliced : slicedHandles (MergePass.mergeGroup route (pass.amid outside) group).values = [] :=
      hnext.values ▸ slicedHandles_settle halone _
    have hslices := h.slices
    have hreaders := h.readers
    rw [hbefore] at hslices
    rw [hgrouped.values] at hreaders
    have hcount := countP_settle_append hnew hids hreads hmembers hmaster hfound result.toOption
    have hpositive := List.length_pos_of_mem hmaster
    constructor
    case ids => rw [hnext.values, List.map_map]; simp
    case given => simp [hsliced]
    case notMerged => rw [report_mergeGroup hgroup]; cases result <;> exact h.notMerged
    case slices => rw [report_mergeGroup hgroup, hsliced]; cases result <;> exact hslices
    case readers =>
      rw [report_mergeGroup hgroup, hnext.values]
      cases result with
      | error cause =>
        simp only [Except.toOption, readersOf, amid] at hcount ⊢
        omega
      | ok tag =>
        simp only [Except.toOption, readersOf, List.length_singleton, amid] at hcount ⊢
        omega

end

/-! ## Slices -/

/-- The master of the group with a number. -/
def masterOf (groups : List Group) (number : Nat) : ValueId :=
  ((groups[number]?).map Group.master).getD .nil

section

variable {outside : MergePass → Plc} {route : String} {groups : List Group}

theorem masterOf_eq {number : Nat} {group : Group} (h : groups[number]? = some group) :
    masterOf groups number = group.master := by
  rw [masterOf, h]
  rfl

/-- What a slice adds to the pass, whether it gets a tag or not. -/
theorem SliceStep.report_cases (groups : List Group) (e : SliceStep) :
    (∃ master tag offsets, sliceMaster? groups e.slice = some master ∧
      rebased? e.before.values groups e.slice e.size = some offsets ∧
      tag.handle = (outside e.before).created + 1 ∧
      (e.after outside route groups).values = moveToSlice e.before.values master tag offsets ∧
      (e.after outside route groups).plc.created = (outside e.before).created + 1 ∧
      (e.after outside route groups).report = { e.before.report with
        slices := e.before.report.slices + 1
        values := e.before.report.values + (e.slice.elements.length - 1) }) ∨
    ((e.after outside route groups).values = e.before.values ∧
      (e.after outside route groups).plc.created = (outside e.before).created ∧
      ∃ failures, (e.after outside route groups).report =
        { e.before.report with failures := failures }) := by
  unfold after mergeSlice
  dsimp only [amid]
  cases hmaster : sliceMaster? groups e.slice with
  | none => exact Or.inr ⟨rfl, rfl, _, rfl⟩
  | some master =>
    cases hoffsets : rebased? e.before.values groups e.slice e.size with
    | none => exact Or.inr ⟨rfl, rfl, _, rfl⟩
    | some offsets =>
      dsimp only
      cases hcreate : (outside e.before).create (sharedConnection e.before.values route
        s!"{e.family.array}[{e.slice.start}]" e.slice.count master) with
      | mk plc outcome =>
        cases outcome with
        | error cause =>
          refine Or.inr ⟨rfl, ?_, _, rfl⟩
          rw [Plc.create_eq_error hcreate]
        | ok tag =>
          obtain ⟨-, rfl, rfl⟩ := Plc.create_eq_ok hcreate
          exact Or.inl ⟨master, _, offsets, rfl, rfl, rfl, rfl, rfl, rfl⟩

end

namespace Registry.Sound

variable {outside : MergePass → Plc} {route : String} {parsed : List Descriptor} {r : Registry}
  {plc : Plc} {threshold : Nat} {step : SliceStep} {base : List Registered}

/-- **A value of a slice before its step** has joined its group, and nothing else has happened to
it. -/
theorem exists_joined (h : r.Sound route parsed)
    (hstep : step ∈ r.sliceSteps outside route plc threshold)
    (hids : step.before.values.map Registered.id = r.values.map Registered.id)
    {v : Registered} (hv : v ∈ step.before.values) {element : Nat × Nat}
    (helement : element ∈ step.slice.elements)
    (hid : v.id ∈ membersOf (r.plan threshold).groups element.2) :
    ∃ group tag, ∃ u ∈ r.values, (r.plan threshold).groups[element.2]? = some group ∧
      v = u.joinGroup group.master tag := by
  have hfits := fits_plan h.ids_nodup threshold
  have hbefore := (find?_sliceStep hfits.disjoint hstep ⟨element, helement, hid⟩).1
  rw [find?_id_eq (hids ▸ h.ids_nodup) hv] at hbefore
  have hmem := List.mem_of_find?_eq_some hbefore.symm
  rw [h.values_groupAmid] at hmem
  obtain ⟨u, hu, rfl⟩ := List.mem_map.mp hmem
  obtain ⟨group, tag, hgroup, hshared⟩ := exists_group_of_sliceStep hstep helement
  rw [(h.grouped_entries outside plc threshold).shared] at hshared
  have hentry := entry_of_number (r.groups_groupEntries plc threshold) hgroup hshared
  obtain ⟨found, hfound, hmember⟩ := mem_membersOf hid
  obtain rfl : found = group := Option.some.inj (hfound.symm.trans hgroup)
  rw [id_placed] at hmember
  exact ⟨found, tag, u, hu, hgroup,
    placed_of_mem hfits (r.groups_groupEntries plc threshold) hentry hmember⟩

/-- The masters of the groups of a slice are told apart, and are members of their groups. -/
theorem masters_of_sliceStep (h : r.Sound route parsed)
    (hstep : step ∈ r.sliceSteps outside route plc threshold) :
    (∀ element ∈ step.slice.elements, masterOf (r.plan threshold).groups element.2 ∈
      membersOf (r.plan threshold).groups element.2) ∧
    ((groupNumbers step.slice.elements).map (masterOf (r.plan threshold).groups)).Nodup := by
  have hfits := fits_plan h.ids_nodup threshold
  have hmember : ∀ element ∈ step.slice.elements, masterOf (r.plan threshold).groups element.2 ∈
      membersOf (r.plan threshold).groups element.2 := by
    intro element helement
    obtain ⟨group, -, hgroup, -⟩ := exists_group_of_sliceStep hstep helement
    rw [masterOf_eq hgroup]
    exact mem_membersOf_of_getElem? hgroup (hfits.masters group (List.mem_of_getElem? hgroup)).1
  have hnumbers : (groupNumbers step.slice.elements).Nodup :=
    (List.nodup_flatMap.mp (@nodup_numbers_sliceSteps outside route (r.plan threshold).groups
      _)).1 step hstep
  refine ⟨hmember, hnumbers.map_on fun i hi j hj heq => ?_⟩
  obtain ⟨a, ha, rfl⟩ := List.mem_map.mp hi
  obtain ⟨b, hb, rfl⟩ := List.mem_map.mp hj
  exact number_unique hfits.disjoint (heq ▸ hmember a ha) (hmember b hb)

section

variable {master : ValueId} {offsets : List (ValueId × Nat)}
  (h : r.Sound route parsed) (halone : ∀ v ∈ r.values, v.elementOffset = none)
  (hstep : step ∈ r.sliceSteps outside route plc threshold)
  (hids : step.before.values.map Registered.id = r.values.map Registered.id)
  (hmaster : sliceMaster? (r.plan threshold).groups step.slice = some master)
  (hoffsets : rebased? step.before.values (r.plan threshold).groups step.slice step.size =
    some offsets)

include h hstep hoffsets

/-- The masters of the groups of a slice are among its values. -/
theorem masters_subset :
    ∀ id ∈ (groupNumbers step.slice.elements).map (masterOf (r.plan threshold).groups),
      id ∈ offsets.map Prod.fst := by
  intro id hid
  obtain ⟨number, hnumber, rfl⟩ := List.mem_map.mp hid
  obtain ⟨element, helement, rfl⟩ := List.mem_map.mp hnumber
  exact (mem_rebased?_iff hoffsets).mpr
    ⟨element.2, hnumber, (h.masters_of_sliceStep hstep).1 element helement⟩

include halone hids

/-- **The readers of a slice before its step** are the masters of its groups. None of its values is
in a slice yet. -/
theorem reads_before {v : Registered}
    (hv : v ∈ step.before.values) (hid : v.id ∈ offsets.map Prod.fst) :
    v.elementOffset = none ∧ v.readFlag = decide (v.id ∈
      (groupNumbers step.slice.elements).map (masterOf (r.plan threshold).groups)) := by
  obtain ⟨number, hnumber, hin⟩ := (mem_rebased?_iff hoffsets).mp hid
  obtain ⟨element, helement, rfl⟩ := List.mem_map.mp hnumber
  obtain ⟨group, tag, u, hu, hgroup, heq⟩ := h.exists_joined hstep hids hv helement hin
  have hread : v.readFlag = decide (v.id = group.master) := by rw [heq]; rfl
  refine ⟨by rw [heq]; exact halone u hu, hread.trans (decide_eq_decide.mpr ?_)⟩
  constructor
  · intro hmaster
    exact List.mem_map.mpr ⟨element.2, hnumber, (masterOf_eq hgroup).trans hmaster.symm⟩
  · intro hmaster
    -- a master is a member of its own group only
    obtain ⟨other, hother, hsame⟩ := List.mem_map.mp hmaster
    obtain ⟨found, hfound, rfl⟩ := List.mem_map.mp hother
    have hown := (h.masters_of_sliceStep hstep).1 found hfound
    rw [hsame] at hown
    rw [number_unique (fits_plan h.ids_nodup threshold).disjoint hown hin,
      masterOf_eq hgroup] at hsame
    exact hsame.symm

include hmaster

/-- **A slice takes as many readers as it has elements**, and gives one. -/
theorem countP_moveToSlice (tag : TagRef) :
    (moveToSlice step.before.values master tag offsets).countP Registered.readFlag +
        step.slice.elements.length =
      step.before.values.countP Registered.readFlag + 1 := by
  obtain ⟨number, hnumber, group, hgroup, rfl⟩ := sliceMaster?_eq_some hmaster
  have hsubset := h.masters_subset hstep hoffsets
  have hin : group.master ∈
      (groupNumbers step.slice.elements).map (masterOf (r.plan threshold).groups) :=
    List.mem_map.mpr ⟨number, hnumber, masterOf_eq hgroup⟩
  have hfound : ∀ id ∈ offsets.map Prod.fst, id ∈ step.before.values.map Registered.id := by
    intro id hid
    obtain ⟨_, -, hmem⟩ := (mem_rebased?_iff hoffsets).mp hid
    exact hids ▸ mem_ids_of_membersOf hmem
  have hnodup : (step.before.values.map Registered.id).Nodup := hids ▸ h.ids_nodup
  have hcount := countP_map_add (fun v => v) (moved group.master tag offsets) Registered.readFlag
    hnodup (h.masters_of_sliceStep hstep).2 (List.nodup_singleton group.master)
    (fun id hid => hfound id (hsubset id hid))
    (fun id hid => hfound id (hsubset id (List.mem_singleton.mp hid ▸ hin))) fun v hv => by
      rcases moved_cases group.master tag offsets v with ⟨hid, offset, -, heq⟩ | ⟨hid, heq⟩
      · rw [heq, (h.reads_before halone hstep hids hoffsets hv hid).2]
        show (decide (v.id = group.master)).toNat + _ = _
        rw [Nat.add_comm]
        simp
      · have hnot : v.id ∉ (groupNumbers step.slice.elements).map
            (masterOf (r.plan threshold).groups) := fun hmem => hid (hsubset v.id hmem)
        have hne : v.id ≠ group.master := fun heq => hnot (heq ▸ hin)
        rw [heq, decide_eq_false hnot]
        simp [hne]
  rw [List.map_id'] at hcount
  simpa [moveToSlice_eq, groupNumbers] using hcount

/-- A slice adds its tag to those of slices. -/
theorem mem_slicedHandles_moveToSlice (tag : TagRef) {handle : Nat} :
    handle ∈ slicedHandles (moveToSlice step.before.values master tag offsets) ↔
      handle = tag.handle ∨ handle ∈ slicedHandles step.before.values := by
  rw [moveToSlice_eq, mem_slicedHandles_iff, mem_slicedHandles_iff]
  constructor
  · rintro ⟨w, hw, hsliced, hhandle⟩
    obtain ⟨v, hv, rfl⟩ := List.mem_map.mp hw
    rcases moved_cases master tag offsets v with ⟨-, offset, -, heq⟩ | ⟨-, heq⟩
    · rw [heq] at hhandle
      exact Or.inl (Option.some.inj hhandle).symm
    · rw [heq] at hsliced hhandle
      exact Or.inr ⟨v, hv, hsliced, hhandle⟩
  · rintro (rfl | ⟨v, hv, hsliced, hhandle⟩)
    · -- the master has moved
      obtain ⟨number, hnumber, group, hgroup, rfl⟩ := sliceMaster?_eq_some hmaster
      have hid := h.masters_subset hstep hoffsets group.master
        (List.mem_map.mpr ⟨number, hnumber, masterOf_eq hgroup⟩)
      obtain ⟨_, -, hmem⟩ := (mem_rebased?_iff hoffsets).mp hid
      obtain ⟨v, hv, hvid⟩ := List.mem_map.mp (hids ▸ mem_ids_of_membersOf hmem)
      obtain ⟨offset, -, heq⟩ := moved_of_mem group.master tag (hvid ▸ hid)
      exact ⟨_, List.mem_map_of_mem hv, by rw [heq]; rfl, by rw [heq]; rfl⟩
    · have hid : v.id ∉ offsets.map Prod.fst := by
        intro hid
        rw [(h.reads_before halone hstep hids hoffsets hv hid).1] at hsliced
        cases hsliced
      refine ⟨v, List.mem_map.mpr ⟨v, hv, moved_of_not_mem master tag hid⟩, hsliced, hhandle⟩

/-- A slice has one more tag if its tag is new. -/
theorem card_slicedHandles_moveToSlice {tag : TagRef}
    (hnew : tag.handle ∉ slicedHandles step.before.values) :
    (slicedHandles (moveToSlice step.before.values master tag offsets)).toFinset.card =
      (slicedHandles step.before.values).toFinset.card + 1 := by
  have hsets : (slicedHandles (moveToSlice step.before.values master tag offsets)).toFinset =
      insert tag.handle (slicedHandles step.before.values).toFinset := by
    ext handle
    rw [List.mem_toFinset, Finset.mem_insert, List.mem_toFinset,
      h.mem_slicedHandles_moveToSlice halone hstep hids hmaster hoffsets tag]
  rw [hsets, Finset.card_insert_of_notMem (hnew ∘ List.mem_toFinset.mp)]

end

/-- **One slice** keeps the tally. -/
theorem tallied_after {plan : Plan} (h : r.Sound route parsed)
    (halone : ∀ v ∈ r.values, v.elementOffset = none)
    (hcreated : step.before.plc.created ≤ (outside step.before).created)
    (hbase : base.map Registered.id = r.values.map Registered.id)
    (hstep : step ∈ r.sliceSteps outside route plc threshold)
    (hbefore : step.before.Tallied plan base) :
    (step.after outside route (r.plan threshold).groups).Tallied plan base := by
  have hids := hbefore.ids.trans hbase
  have hreaders := hbefore.readers
  have hslices := hbefore.slices
  have hgiven : ∀ handle ∈ slicedHandles step.before.values,
      handle ≤ (outside step.before).created :=
    fun handle hin => (hbefore.given handle hin).trans hcreated
  rcases @SliceStep.report_cases outside route (r.plan threshold).groups step with
    ⟨master, tag, offsets, hmaster, hoffsets, hhandle, hvalues, hplc, hreport⟩ |
      ⟨hvalues, hplc, failures, hreport⟩
  · have hcount := h.countP_moveToSlice halone hstep hids hmaster hoffsets tag
    have hnew : tag.handle ∉ slicedHandles step.before.values := by
      intro hin
      have := hgiven _ hin
      omega
    constructor
    case ids => rw [hvalues, moveToSlice_eq, List.map_map, ← hbefore.ids]; simp
    case notMerged => rw [hreport]; exact hbefore.notMerged
    case readers =>
      have hpositive : 0 < step.slice.elements.length := by
        obtain ⟨number, hnumber, -⟩ := sliceMaster?_eq_some hmaster
        obtain ⟨element, helement, -⟩ := List.mem_map.mp hnumber
        exact List.length_pos_of_mem helement
      rw [hvalues, hreport]
      dsimp only
      omega
    case slices =>
      rw [hvalues, hreport, hslices,
        h.card_slicedHandles_moveToSlice halone hstep hids hmaster hoffsets hnew]
    case given =>
      intro handle hin
      rw [hvalues, h.mem_slicedHandles_moveToSlice halone hstep hids hmaster hoffsets] at hin
      rw [hplc]
      rcases hin with rfl | hin
      · exact hhandle.le
      · exact (hgiven handle hin).trans (Nat.le_succ _)
  · constructor
    case ids => rw [hvalues]; exact hbefore.ids
    case notMerged => rw [hreport]; exact hbefore.notMerged
    case readers => rw [hvalues, hreport]; exact hreaders
    case slices => rw [hvalues, hreport]; exact hslices
    case given => rw [hvalues, hplc]; exact hgiven

end Registry.Sound

end PlcTags

import PlcTags.Proofs.Plan.Partition
import PlcTags.Proofs.Registry.Tally

/-!
# What a pass reports

The report of the first pass over a registry accounts for all its values, whichever tags could not
be created.

* `Registry.Sound.state_mergeAmid`: who is left alone in the end.
* `Registry.Sound.tallied_slicedAmid`: the tally is right after both levels.
* `Registry.Reports`: what the report says; `reports_of_reached`: **it is true of every first pass**.
-/

namespace PlcTags

open Registry MergePass

/-! ## The report -/

section

variable {outside : MergePass → Plc} {route : String} {parsed : List Descriptor} {passes : Nat}
  {r : Registry} {plc : Plc} {threshold : Nat}

/-- Before the first pass all values wait for it. -/
theorem Registry.Reached.waiting (h : Registry.Reached route parsed passes r plc)
    (hpasses : passes = 0) :
    r.optimised = false ∧ ∀ v ∈ r.values, v.state = .notRequested := by
  induction h with
  | start plc => exact ⟨rfl, fun v hv => nomatch hv⟩
  | scope _ _ _ ih => exact ih hpasses
  | outside _ _ ih => exact ih hpasses
  | register _ _ hadded ih =>
    obtain ⟨hoptimised, hall⟩ := ih hpasses
    obtain ⟨d, outcome, -, -, rfl, rfl⟩ := register_eq_ok hadded
    refine ⟨hoptimised, fun v hv => ?_⟩
    rcases List.mem_append.mp hv with hv | hv
    · exact hall v hv
    · rw [List.mem_singleton.mp hv]
      simp [newValue, hoptimised]
  | merge => cases hpasses

/-- The ids that the plan leaves alone, and those in groups, are those of the values. -/
theorem Registry.Sound.perm_plan (h : r.Sound route parsed)
    (hwaiting : ∀ v ∈ r.values, v.state = .notRequested) (threshold : Nat) :
    ((r.plan threshold).notMerged ++ (r.plan threshold).groups.flatMap Group.members).Perm
      (r.values.map Registered.id) := by
  have hall : waitingFor r.values = r.values :=
    List.filter_eq_self.mpr fun v hv => by rw [hwaiting v hv]; rfl
  have hids : ((planned r.values).map Prod.fst).Nodup := ids_planned r.values ▸ h.ids_nodup
  have hplan : r.plan threshold = Plan.ofValues (planned (waitingFor r.values)) threshold := rfl
  rw [hplan, hall, ← ids_planned]
  exact Plan.perm_ofValues hids

/-- **The values that are left alone** by the first level are those that the plan leaves alone. -/
theorem Registry.Sound.state_placed (h : r.Sound route parsed)
    (hwaiting : ∀ v ∈ r.values, v.state = .notRequested) {done : List (Group × Option TagRef)}
    (hdone : done.map Prod.fst = (r.plan threshold).groups) {u : Registered} (hu : u ∈ r.values) :
    (placed (r.plan threshold) done u).state = .doNotOptimise ↔
      u.id ∈ (r.plan threshold).notMerged := by
  have hfits := fits_plan h.ids_nodup threshold
  have hnodup := (h.perm_plan hwaiting threshold).nodup_iff.mpr h.ids_nodup
  -- what is left alone is in no group
  have hapart : u.id ∈ (r.plan threshold).notMerged → ∀ group ∈ (r.plan threshold).groups,
      u.id ∉ group.members := fun halone group hgroup hid =>
    (List.nodup_append.mp hnodup).2.2 u.id halone u.id
      (List.mem_flatMap.mpr ⟨group, hgroup, hid⟩) rfl
  rcases hfits.covers u hu (hwaiting u hu) with halone | ⟨group, hgroup, hid⟩
  · have hnone : ∀ entry ∈ done, (leftAlone (r.plan threshold).notMerged u).id ∉
        entry.1.members := by
      intro entry hentry
      rw [id_leftAlone]
      exact hapart halone entry.1 (hdone ▸ List.mem_map_of_mem hentry)
    rw [placed, settle_of_not_mem hnone, leftAlone, if_pos halone]
    exact iff_of_true rfl halone
  · obtain ⟨⟨group, outcome⟩, hentry, rfl⟩ := List.mem_map.mp (hdone ▸ hgroup)
    rw [placed_of_mem hfits hdone hentry hid]
    refine iff_of_false (fun heq => ?_) fun halone => hapart halone group hgroup hid
    cases outcome with
    | none => cases heq
    | some tag =>
      have hshares := Registered.Sound.sharesBuffer_joined u group.master tag
      cases (congrArg MergeState.sharesBuffer heq).symm.trans hshares

/-- **So are those that are left alone in the end**: slices leave none. -/
theorem Registry.Sound.state_mergeAmid (h : r.Sound route parsed)
    (hwaiting : ∀ v ∈ r.values, v.state = .notRequested) {w : Registered}
    (hw : w ∈ (r.mergeAmid outside plc route threshold).1.values) :
    w.state = .doNotOptimise ↔ w.id ∈ (r.plan threshold).notMerged := by
  obtain ⟨done, hdone, hvalues, hslicing⟩ := h.exists_slicing outside plc threshold
  obtain ⟨v, hv, hrelocated⟩ := exists_of_mem_forall₂ hslicing.relocated hw
  rw [hvalues] at hv
  obtain ⟨u, hu, rfl⟩ := List.mem_map.mp hv
  rw [Relocated.id_eq hrelocated, id_placed, ← h.state_placed hwaiting hdone hu]
  rcases hrelocated with rfl | hgoes
  · rfl
  · constructor <;> intro heq
    · cases (congrArg MergeState.sharesBuffer heq).symm.trans hgoes.after
    · cases (congrArg MergeState.sharesBuffer heq).symm.trans hgoes.before

/-- The values that are left alone are as many as the plan leaves alone. -/
theorem Registry.Sound.countP_leftAlone (h : r.Sound route parsed)
    (hwaiting : ∀ v ∈ r.values, v.state = .notRequested) (outside : MergePass → Plc) (plc : Plc)
    (threshold : Nat) :
    (r.mergeAmid outside plc route threshold).1.values.countP
      (fun v => v.state == .doNotOptimise) = (r.plan threshold).notMerged.length := by
  have hperm := h.perm_plan hwaiting threshold
  have hnodup := hperm.nodup_iff.mpr h.ids_nodup
  obtain ⟨done, -, hvalues, hslicing⟩ := h.exists_slicing outside plc threshold
  have hids : (r.mergeAmid outside plc route threshold).1.values.map Registered.id =
      r.values.map Registered.id := by
    rw [hslicing.ids_eq, hvalues, List.map_map]
    exact List.map_congr_left fun v _ => id_placed _ _ v
  have hfound : ∀ id ∈ (r.plan threshold).notMerged,
      id ∈ (r.mergeAmid outside plc route threshold).1.values.map Registered.id := fun id hid =>
    hids ▸ hperm.subset (List.mem_append_left _ hid)
  rw [← countP_key_mem (hids ▸ h.ids_nodup) (List.nodup_append.mp hnodup).1 hfound]
  refine List.countP_congr fun v hv => ?_
  rw [beq_iff_eq, decide_eq_true_eq]
  exact h.state_mergeAmid hwaiting hv

/-- All other values are masters, are read for, or were in a group that failed. -/
theorem Registry.Sound.countP_treated (h : r.Sound route parsed)
    (hwaiting : ∀ v ∈ r.values, v.state = .notRequested) (outside : MergePass → Plc) (plc : Plc)
    (threshold : Nat) :
    (r.plan threshold).notMerged.length +
      (r.mergeAmid outside plc route threshold).1.values.countP (fun v =>
        v.state == .master || v.state == .optimised || v.state == .failed) =
      (r.mergeAmid outside plc route threshold).1.values.length := by
  have hafter := h.mergeAmid outside plc threshold
  -- a pass leaves no value waiting
  have hothers : ∀ v ∈ (r.mergeAmid outside plc route threshold).1.values,
      (v.state == .master || v.state == .optimised || v.state == .failed) = true ↔
        decide (¬(v.state == .doNotOptimise) = true) = true := by
    intro v hv
    obtain ⟨d, hd⟩ := hafter.exists_sound hv
    have hrequested := hafter.requested rfl v hv
    have hsettled := hd.settled
    cases hstate : v.state <;> simp_all
  rw [List.countP_congr hothers, ← h.countP_leftAlone hwaiting]
  exact (List.length_eq_countP_add_countP _).symm

/-- Values that wait for a pass read themselves and are in no slice, also when some of them are left
alone. -/
theorem Registry.Sound.registered_leftAlone (h : r.Sound route parsed)
    (hwaiting : ∀ v ∈ r.values, v.state = .notRequested) (alone : List ValueId) :
    ∀ v ∈ r.values.map (leftAlone alone), v.readFlag = true ∧ v.elementOffset = none := by
  intro v hv
  obtain ⟨u, hu, rfl⟩ := List.mem_map.mp hv
  obtain ⟨d, hd⟩ := h.exists_sound hu
  have hown := hd.unmerged (by rw [hwaiting u hu]; rfl)
  unfold leftAlone
  split <;> exact ⟨hown.reads, hown.alone⟩

/-- The tally is right before the first group. -/
theorem Registry.Sound.tallied_startMerge (h : r.Sound route parsed)
    (hwaiting : ∀ v ∈ r.values, v.state = .notRequested) (plc : Plc) (plan : Plan) :
    (r.startMerge plc plan).Tallied plan (r.values.map (leftAlone plan.notMerged)) := by
  have hstart : (r.startMerge plc plan).values = r.values.map (leftAlone plan.notMerged) := rfl
  have hregistered := h.registered_leftAlone hwaiting plan.notMerged
  have hsliced : slicedHandles (r.startMerge plc plan).values = [] := by
    have hempty : settle [] = id := rfl
    have := slicedHandles_settle (fun v hv => (hregistered v hv).2) []
    rwa [hempty, List.map_id] at this
  constructor
  case ids => rw [hstart]
  case notMerged => rfl
  case readers =>
    rw [hstart, List.countP_eq_length.mpr fun v hv => (hregistered v hv).1]
    exact Nat.zero_add _
  case slices => rw [hsliced]; rfl
  case given => simp [hsliced]

/-- **The first level tallies**, and counts each group as merged or as failed. -/
theorem Registry.Sound.tallied_groupAmid (h : r.Sound route parsed)
    (hwaiting : ∀ v ∈ r.values, v.state = .notRequested) (outside : MergePass → Plc) (plc : Plc)
    (threshold : Nat) :
    (r.groupAmid outside plc route threshold).Tallied (r.plan threshold)
        (r.values.map (leftAlone (r.plan threshold).notMerged)) ∧
      (r.groupAmid outside plc route threshold).report.groups +
        (r.groupAmid outside plc route threshold).report.failures.length =
          (r.groupAmid outside plc route threshold).shared.length := by
  have hfits := fits_plan h.ids_nodup threshold
  have hregistered := h.registered_leftAlone hwaiting (r.plan threshold).notMerged
  have hids : (r.values.map (leftAlone (r.plan threshold).notMerged)).map Registered.id =
      r.values.map Registered.id := by simp
  have hgrouped : Grouped (r.values.map (leftAlone (r.plan threshold).notMerged)) []
      (r.startMerge plc (r.plan threshold)) := ⟨(List.map_id _).symm, rfl⟩
  refine foldl_of_steps (P := fun pass : MergePass => pass.Tallied (r.plan threshold)
    (r.values.map (leftAlone (r.plan threshold).notMerged)) ∧
      pass.report.groups + pass.report.failures.length = pass.shared.length)
    ⟨h.tallied_startMerge hwaiting plc _, rfl⟩ ?_
  rintro e he ⟨htallied, hcounted⟩
  obtain ⟨before, hbefore, hnew⟩ := hgrouped.of_steps hfits.disjoint e he
  have hgroup : e.2 ∈ (r.plan threshold).groups :=
    map_snd_steps _ _ (r.plan threshold).groups ▸ List.mem_map_of_mem he
  have hfound : ∀ id ∈ e.2.members, id ∈ r.values.map Registered.id := by
    intro id hid
    obtain ⟨number, hnumber⟩ := List.mem_iff_getElem?.mp hgroup
    exact mem_ids_of_membersOf (mem_membersOf_of_getElem? hnumber hid)
  exact ⟨htallied.mergeGroup hbefore hnew (hids ▸ h.ids_nodup) (fun v hv => (hregistered v hv).1)
    (fun v hv => (hregistered v hv).2) (nodup_members_plan h.ids_nodup threshold e.2 hgroup)
    (hfits.masters e.2 hgroup).1 (hids ▸ hfound), groups_add_failures_mergeGroup hcounted⟩

/-- **Both levels tally**, and slices leave the count of the groups. -/
theorem Registry.Sound.tallied_slicedAmid (h : r.Sound route parsed)
    (hwaiting : ∀ v ∈ r.values, v.state = .notRequested)
    (hcreated : ∀ pass, pass.plc.created ≤ (outside pass).created) (plc : Plc) (threshold : Nat) :
    (r.slicedAmid outside route plc threshold).Tallied (r.plan threshold)
        (r.values.map (leftAlone (r.plan threshold).notMerged)) ∧
      (r.slicedAmid outside route plc threshold).report.groups =
        (r.groupAmid outside plc route threshold).report.groups := by
  have hids : (r.values.map (leftAlone (r.plan threshold).notMerged)).map Registered.id =
      r.values.map Registered.id := by simp
  have halone : ∀ v ∈ r.values, v.elementOffset = none := by
    intro v hv
    obtain ⟨d, hd⟩ := h.exists_sound hv
    exact (hd.unmerged (by rw [hwaiting v hv]; rfl)).alone
  refine foldl_of_sliceSteps (P := fun pass : MergePass => pass.Tallied (r.plan threshold)
    (r.values.map (leftAlone (r.plan threshold).notMerged)) ∧
      pass.report.groups = (r.groupAmid outside plc route threshold).report.groups)
    ⟨(h.tallied_groupAmid hwaiting outside plc threshold).1, rfl⟩ ?_
  rintro step hstep ⟨hbefore, hsame⟩
  refine ⟨h.tallied_after halone (hcreated step.before) hids hstep hbefore, ?_⟩
  rcases @SliceStep.report_cases outside route (r.plan threshold).groups step with
    ⟨_, _, _, -, -, -, -, -, hreport⟩ | ⟨-, -, _, hreport⟩ <;>
    · rw [hreport]
      exact hsame

/-- **What a pass reports** of the values of a registry. The report of a pass that nobody disturbs is
the one that `Registry.merge` gives: `Registry.merge_eq_slicedAmid`. -/
structure Registry.Reports (outside : MergePass → Plc) (route : String) (r : Registry) (plc : Plc)
    (threshold : Nat) : Prop where
  /-- The merged values are those that do not start reads any more. -/
  values : (r.slicedAmid outside route plc threshold).report.values =
    (r.mergeAmid outside plc route threshold).1.values.countP fun v => !v.readFlag
  /-- The values that are left alone, the masters, and those that are merged or whose group failed
  are all values. -/
  kept : (r.slicedAmid outside route plc threshold).report.notMerged +
    (r.mergeAmid outside plc route threshold).1.values.countP (fun v =>
      v.state == .master || v.state == .optimised || v.state == .failed) = r.values.length
  /-- The merged groups and the failures of the first level are all groups of the plan. -/
  groups : (r.slicedAmid outside route plc threshold).report.groups +
    ((r.groupSteps outside route plc threshold).flatMap (groupFailures outside route)).length =
      (r.plan threshold).groups.length
  /-- These failures are reported first, then those of the second level. -/
  failures : (r.slicedAmid outside route plc threshold).report.failures =
    (r.groupSteps outside route plc threshold).flatMap (groupFailures outside route) ++
      (r.sliceSteps outside route plc threshold).flatMap
        (SliceStep.failures outside route (r.plan threshold).groups)
  /-- The slices are as many as the tags of values that have an offset in their element. -/
  slices : (r.slicedAmid outside route plc threshold).report.slices =
    (slicedHandles (r.mergeAmid outside plc route threshold).1.values).toFinset.card

/-- **The report of a first pass accounts for all values**, whichever tags can be created. Others
may change the controller between the steps, but no handle is given twice. -/
theorem reports_of_reached (h : Registry.Reached route parsed 0 r plc)
    (outside : MergePass → Plc) (hcreated : ∀ pass, pass.plc.created ≤ (outside pass).created)
    (threshold : Nat) : r.Reports outside route plc threshold := by
  have hsound := h.sound
  have hwaiting := (h.waiting rfl).2
  have hmerged : (r.mergeAmid outside plc route threshold).1.values =
      (r.slicedAmid outside route plc threshold).values := rfl
  have hcounted := (hsound.tallied_groupAmid hwaiting outside plc threshold).2
  obtain ⟨htallied, hgroups⟩ := hsound.tallied_slicedAmid hwaiting hcreated plc threshold
  have hreaders := htallied.readers
  have hlength := congrArg List.length htallied.ids
  simp only [List.length_map] at hlength hreaders
  constructor
  case values =>
    have hsplit := (r.slicedAmid outside route plc threshold).values.length_eq_countP_add_countP
      Registered.readFlag
    have hnot : ∀ v : Registered, (!v.readFlag) = decide ¬v.readFlag = true := by
      intro v
      cases v.readFlag <;> rfl
    simp only [hmerged, hnot]
    omega
  case kept =>
    have htreated := hsound.countP_treated hwaiting outside plc threshold
    rw [htallied.notMerged, htreated, hmerged]
    simpa using hlength
  case groups =>
    have hshared := congrArg List.length (hsound.grouped_entries outside plc threshold).shared
    have hentries := congrArg List.length (@groups_groupEntries outside route r plc threshold)
    rw [List.length_map] at hshared hentries
    rw [← failures_groupAmid, hgroups]
    omega
  case failures => exact failures_slicedAmid r plc threshold
  case slices => exact htallied.slices

end

/-! ## Two motors beside a pump that is refused -/

/-- A field of a motor in an array of them. -/
def motorAt (index : Nat) (field : String) (offset : Nat) : Descriptor :=
  { plainAt s!"Motors[{index}].{field}" .int offset with startIndex := some index }

def motorFields : List Descriptor :=
  [motorAt 1 "Speed" 0, motorAt 1 "Load" 2, motorAt 2 "Speed" 0, motorAt 2 "Load" 2]

/-- The values of the pump, then those of the motors. -/
def plant : Registry × Plc := motorFields.foldl enrolled pump

/-- The values of the pump and the first fields of the motors. -/
def plantUpTo (n : Nat) : Registry × Plc := (motorFields.take n).foldl enrolled pump

theorem reached_plant :
    Registry.Reached pumpRoute ([pumpSpeed, pumpLoad, sumpLevel] ++ motorFields) 0 plant.1
      plant.2 := by
  have hparse₁ : Descriptor.parse ⟨[], .empty⟩ "Motors[1].Speed INT none 0 none" =
      .ok (motorAt 1 "Speed" 0) := by
    with_unfolding_all rfl
  have hparse₂ : Descriptor.parse ⟨[], .empty⟩ "Motors[1].Load INT none 2 none" =
      .ok (motorAt 1 "Load" 2) := by
    with_unfolding_all rfl
  have hparse₃ : Descriptor.parse ⟨[], .empty⟩ "Motors[2].Speed INT none 0 none" =
      .ok (motorAt 2 "Speed" 0) := by
    with_unfolding_all rfl
  have hparse₄ : Descriptor.parse ⟨[], .empty⟩ "Motors[2].Load INT none 2 none" =
      .ok (motorAt 2 "Load" 2) := by
    with_unfolding_all rfl
  have hadded₁ := register_enrolled (plantUpTo 0) hparse₁ (by decide +kernel) (by decide +kernel)
  have hadded₂ := register_enrolled (plantUpTo 1) hparse₂ (by decide +kernel) (by decide +kernel)
  have hadded₃ := register_enrolled (plantUpTo 2) hparse₃ (by decide +kernel) (by decide +kernel)
  have hadded₄ := register_enrolled (plantUpTo 3) hparse₄ (by decide +kernel) (by decide +kernel)
  exact (((reached_pump.register hparse₁ hadded₁).register hparse₂ hadded₂).register hparse₃
    hadded₃).register hparse₄ hadded₄

/-- The pump and both motors are groups, and the motors are a family. -/
theorem plan_plant : plant.1.plan 2 =
    ⟨[⟨"driverInitPoller", "Pump", ⟨1⟩, [⟨1⟩, ⟨2⟩], false⟩,
      ⟨"driverInitPoller", "Motors[1]", ⟨4⟩, [⟨4⟩, ⟨5⟩], false⟩,
      ⟨"driverInitPoller", "Motors[2]", ⟨6⟩, [⟨6⟩, ⟨7⟩], false⟩], [⟨3⟩]⟩ := by
  decide +kernel

theorem families_plant : Family.ofGroups (plant.1.plan 2).groups =
    [⟨"driverInitPoller", "Motors", [(1, 1), (2, 2)]⟩] := by
  have hmembers : arrayMembers (plant.1.plan 2).groups =
      [⟨("driverInitPoller", "Motors"), (1, 1)⟩, ⟨("driverInitPoller", "Motors"), (2, 2)⟩] := by
    rw [plan_plant]
    decide +kernel
  have hsorted : ([(1, 1), (2, 2)] : List (Nat × Nat)).mergeSort Family.before =
      [(1, 1), (2, 2)] := List.mergeSort_of_pairwise (by decide)
  show (((arrayMembers _).map ArrayMember.key).eraseDups.map (Family.ofKey (arrayMembers _))).filter
    (fun family => decide (1 < family.elements.length)) = _
  rw [hmembers]
  simp [List.eraseDups_cons, Family.ofKey, hsorted]

/-- The motors are read as one slice, so three values are read with another one. The values of the
pump are read as before, and so is the level. -/
theorem reports_of_reached_plant :
    (plant.1.slicedAmid MergePass.plc pumpRoute (plant.2.refuse "Pump") 2).report =
      ⟨2, 3, 1, 1, [.sharedTag "driverInitPoller" "Pump" (.createFailed
        (connectionText pumpRoute "Pump" 1 ((Attributes.sharedParent true).render .udt))
        TagFault.notFound.code)]⟩ ∧
    plant.1.Reports MergePass.plc pumpRoute (plant.2.refuse "Pump") 2 := by
  refine ⟨?_, reports_of_reached (.outside _ reached_plant) MergePass.plc
    (fun _ => Nat.le_refl _) 2⟩
  unfold slicedAmid groupAmid
  rw [families_plant, plan_plant]
  -- the names of tags are computed without the options in their texts
  unfold mergeFamilyAmid mergeSlice mergeGroup groupTag sharedConnection obtainTag
  simp only [Plc.create_connectionText]
  decide +kernel

end PlcTags

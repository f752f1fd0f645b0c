import Mathlib.Data.List.Flatten
import PlcTags.Proofs.Registry.OpenEnded
import PlcTags.Proofs.Runs

/-!
# Merges that fail

Any tag of a pass may fail to be created. Only the group or the slice that it was for goes without:
the members of the group stay as they were registered, those of the slice as their groups have made
them, and everything else is merged.

* `Registry.groupSteps`, `Registry.sliceSteps`: the steps of a pass, each with the pass before it.
* `exists_slices`: a family is merged slice by slice.
* `find?_sliceStep`: a value changes in the step of its own slice only.
* `foldl_of_sliceSteps`: what every slice keeps holds after the pass.
* `Registry.Spares`: what a pass spares; `spares_of_reached`: **every pass does**.
-/

namespace PlcTags

open Registry MergePass

/-! ## The steps of a pass -/

variable (outside : MergePass → Plc) (route : String)

/-- The steps of the first level: the groups of the plan, each with the pass before it. -/
def Registry.groupSteps (r : Registry) (plc : Plc) (threshold : Nat) : List (MergePass × Group) :=
  steps (fun pass group => mergeGroup route (pass.amid outside) group)
    (r.startMerge plc (r.plan threshold)) (r.plan threshold).groups

/-- What came of obtaining the tag of a group. -/
def groupOutcome (e : MergePass × Group) : Except TransportError TagRef :=
  (groupTag (update e.1.values e.2.members fun v => v.withState .pending) (outside e.1) route
    e.2).2

/-- A slice of a family whose elements have some size, with the pass before it. -/
structure SliceStep where
  before : MergePass
  family : Family
  size : Nat
  slice : Slice

namespace SliceStep

/-- The name of the tag of a slice. -/
def name (e : SliceStep) : String :=
  s!"{e.family.array}[{e.slice.start}]"

/-- Is a value one of the slice? -/
def Has (groups : List Group) (e : SliceStep) (id : ValueId) : Prop :=
  ∃ element ∈ e.slice.elements, id ∈ membersOf groups element.2

/-- What came of creating the tag of a slice, if that was tried. -/
def outcome? (groups : List Group) (e : SliceStep) : Option (Except TransportError TagRef) :=
  match sliceMaster? groups e.slice, rebased? e.before.values groups e.slice e.size with
  | some master, some _ =>
    some ((outside e.before).create
      (sharedConnection e.before.values route e.name e.slice.count master)).2
  | _, _ => none

/-- The pass after the slice. -/
def after (groups : List Group) (e : SliceStep) : MergePass :=
  mergeSlice route groups e.family e.size (e.before.amid outside) e.slice

end SliceStep

/-- The slices of a family, each with the pass before it. -/
def familySteps (groups : List Group) (e : MergePass × Family) : List SliceStep :=
  let usableFamily := usable e.1.shared e.2
  match elementSize? (e.1.amid outside) usableFamily with
  | none => []
  | some size =>
    (steps (fun pass slice => mergeSlice route groups usableFamily size (pass.amid outside) slice)
      e.1 (usableFamily.slices size)).map fun e => ⟨e.1, usableFamily, size, e.2⟩

/-- **A family is merged slice by slice**, by none if it has no element size. -/
theorem exists_slices (groups : List Group) (e : MergePass × Family) :
    ∃ size slices, slices.Sublist ((usable e.1.shared e.2).slices size) ∧
      familySteps outside route groups e =
        (steps (fun pass slice =>
          mergeSlice route groups (usable e.1.shared e.2) size (pass.amid outside) slice) e.1
          slices).map (fun e' => ⟨e'.1, usable e.1.shared e.2, size, e'.2⟩) ∧
      mergeFamilyAmid outside route groups e.1 e.2 =
        slices.foldl (fun pass slice =>
          mergeSlice route groups (usable e.1.shared e.2) size (pass.amid outside) slice) e.1 := by
  unfold familySteps mergeFamilyAmid
  dsimp only
  cases elementSize? (e.1.amid outside) (usable e.1.shared e.2) with
  | none => exact ⟨0, [], List.nil_sublist _, rfl, rfl⟩
  | some size => exact ⟨size, _, List.Sublist.refl _, rfl, rfl⟩

/-- The slices of all families, each with the pass before it. -/
def sliceStepsFrom (groups : List Group) (pass : MergePass) (families : List Family) :
    List SliceStep :=
  (steps (mergeFamilyAmid outside route groups) pass families).flatMap
    (familySteps outside route groups)

/-- The steps of the second level. -/
def Registry.sliceSteps (r : Registry) (plc : Plc) (threshold : Nat) : List SliceStep :=
  sliceStepsFrom outside route (r.plan threshold).groups (r.groupAmid outside plc route threshold)
    (Family.ofGroups (r.plan threshold).groups)

/-- The pass after the second level. -/
def Registry.slicedAmid (r : Registry) (plc : Plc) (threshold : Nat) : MergePass :=
  (Family.ofGroups (r.plan threshold).groups).foldl
    (mergeFamilyAmid outside route (r.plan threshold).groups)
    (r.groupAmid outside plc route threshold)

/-- A merge pass and its report are those of a pass that nobody disturbs. -/
theorem Registry.merge_eq_slicedAmid (r : Registry) (plc : Plc) (threshold : Nat) :
    r.merge plc route threshold =
      let sliced := r.slicedAmid MergePass.plc route plc threshold
      ({ r with values := sliced.values, optimised := true },
        sliced.plc.keepOnly (handles sliced.values), sliced.report) := by
  have hfamily : mergeFamilyAmid MergePass.plc route (r.plan threshold).groups =
      mergeFamily route (r.plan threshold).groups :=
    funext fun pass => funext fun family => mergeFamilyAmid_plc route _ pass family
  unfold slicedAmid Registry.merge
  rw [hfamily]
  rfl

/-! ## Failures -/

/-- What a step of the first level reports. -/
def groupFailures (e : MergePass × Group) : List MergeError :=
  match groupOutcome outside route e with
  | .ok _ => []
  | .error cause => [.sharedTag e.2.poller e.2.parent cause]

/-- What a step of the second level reports. -/
def SliceStep.failures (groups : List Group) (e : SliceStep) : List MergeError :=
  match e.outcome? outside route groups with
  | some (.error cause) => [.sharedTag e.family.poller e.name cause]
  | _ => []

section

variable {outside route} {groups : List Group} {e : SliceStep} {pass : MergePass}

theorem failures_mergeGroup (pass : MergePass) (group : Group) :
    (mergeGroup route (pass.amid outside) group).report.failures =
      pass.report.failures ++ groupFailures outside route (pass, group) := by
  unfold groupFailures groupOutcome mergeGroup
  dsimp only [amid]
  split
  · next htag =>
    rw [htag]
    exact (List.append_nil _).symm
  · next htag => rw [htag]

/-- **What a slice does** when its tag is created, cannot be created, or is not asked for. -/
theorem SliceStep.after_cases (groups : List Group) (e : SliceStep) :
    (∃ master tag offsets, e.outcome? outside route groups = some (.ok tag) ∧
      sliceMaster? groups e.slice = some master ∧
      rebased? e.before.values groups e.slice e.size = some offsets ∧
      (e.after outside route groups).values = moveToSlice e.before.values master tag offsets ∧
      (e.after outside route groups).report.failures = e.before.report.failures) ∨
    (∃ cause, e.outcome? outside route groups = some (.error cause) ∧
      (e.after outside route groups).values = e.before.values ∧
      (e.after outside route groups).report.failures =
        e.before.report.failures ++ [.sharedTag e.family.poller e.name cause]) ∨
    (e.outcome? outside route groups = none ∧
      (e.after outside route groups).values = e.before.values ∧
      (e.after outside route groups).report.failures = e.before.report.failures) := by
  unfold outcome? after mergeSlice
  dsimp only [amid]
  cases hmaster : sliceMaster? groups e.slice with
  | none => exact Or.inr (Or.inr ⟨rfl, rfl, rfl⟩)
  | some master =>
    cases hoffsets : rebased? e.before.values groups e.slice e.size with
    | none => exact Or.inr (Or.inr ⟨rfl, rfl, rfl⟩)
    | some offsets =>
      dsimp only [name]
      cases hcreate : (outside e.before).create (sharedConnection e.before.values route
        s!"{e.family.array}[{e.slice.start}]" e.slice.count master) with
      | mk plc outcome =>
        cases outcome with
        | ok tag => exact Or.inl ⟨master, tag, offsets, rfl, rfl, rfl, rfl, rfl⟩
        | error cause => exact Or.inr (Or.inl ⟨cause, rfl, rfl, rfl⟩)

theorem SliceStep.failures_after (groups : List Group) (e : SliceStep) :
    (e.after outside route groups).report.failures =
      e.before.report.failures ++ e.failures outside route groups := by
  unfold failures
  rcases e.after_cases groups with
    ⟨_, _, _, houtcome, -, -, -, h⟩ | ⟨_, houtcome, -, h⟩ | ⟨houtcome, -, h⟩ <;>
    rw [houtcome, h]
  · exact (List.append_nil _).symm
  · exact (List.append_nil _).symm

theorem failures_mergeFamily (pass : MergePass) (family : Family) :
    (mergeFamilyAmid outside route groups pass family).report.failures =
      pass.report.failures ++ (familySteps outside route groups (pass, family)).flatMap
        (SliceStep.failures outside route groups) := by
  obtain ⟨size, slices, -, hsteps, hmerge⟩ := exists_slices outside route groups (pass, family)
  rw [hsteps, hmerge, List.flatMap_map]
  exact foldl_append_of_steps (f := fun pass : MergePass => pass.report.failures)
    (fun before slice =>
      SliceStep.failures_after groups ⟨before, usable pass.shared family, size, slice⟩) _ _

theorem failures_groupAmid (r : Registry) (plc : Plc) (threshold : Nat) :
    (r.groupAmid outside plc route threshold).report.failures =
      (r.groupSteps outside route plc threshold).flatMap (groupFailures outside route) :=
  (foldl_append_of_steps (f := fun pass : MergePass => pass.report.failures)
    failures_mergeGroup _ _).trans (List.nil_append _)

/-- **The failures of a pass** are those of its steps, in their order. -/
theorem failures_slicedAmid (r : Registry) (plc : Plc) (threshold : Nat) :
    (r.slicedAmid outside route plc threshold).report.failures =
      (r.groupSteps outside route plc threshold).flatMap (groupFailures outside route) ++
        (r.sliceSteps outside route plc threshold).flatMap
          (SliceStep.failures outside route (r.plan threshold).groups) := by
  rw [← failures_groupAmid, sliceSteps, sliceStepsFrom, List.flatMap_assoc]
  exact foldl_append_of_steps (f := fun pass : MergePass => pass.report.failures)
    failures_mergeFamily _ _

end

/-! ## A value and its slice -/

section

variable {outside route} {groups : List Group} {pass : MergePass} {families : List Family}
  {id : ValueId}

/-- The slices of a family are made of its groups. -/
theorem numbers_familySteps_sublist (e : MergePass × Family) :
    ((familySteps outside route groups e).flatMap fun step =>
      groupNumbers step.slice.elements).Sublist (groupNumbers e.2.elements) := by
  obtain ⟨size, slices, hslices, hsteps, -⟩ := exists_slices outside route groups e
  have hsublist : (slices.flatMap Slice.elements).Sublist e.2.elements :=
    ((hslices.flatMap Slice.elements).trans
      ((usable e.1.shared e.2).elements_slices_sublist size)).trans List.filter_sublist
  have hnumbers := hsublist.map Prod.snd
  rw [List.map_flatMap, ← map_snd_steps (fun pass slice => mergeSlice route groups
    (usable e.1.shared e.2) size (pass.amid outside) slice) e.1 slices, List.flatMap_map]
    at hnumbers
  rw [hsteps, List.flatMap_map]
  exact hnumbers

/-- No group is in two slices. -/
theorem nodup_numbers_sliceSteps (groups : List Group) (pass : MergePass) :
    ((sliceStepsFrom outside route groups pass (Family.ofGroups groups)).flatMap fun step =>
      groupNumbers step.slice.elements).Nodup := by
  have hfamilies := map_snd_steps (mergeFamilyAmid outside route groups) pass
    (Family.ofGroups groups)
  have hnodup := Family.nodup_numbers groups
  rw [← hfamilies, List.flatMap_map] at hnodup
  rw [sliceStepsFrom, List.flatMap_assoc]
  exact hnodup.sublist (List.Sublist.flatMap_right _ fun e _ => numbers_familySteps_sublist e)

/-- No value is in two slices. -/
theorem pairwise_sliceSteps (hdisjoint : groups.Pairwise Group.Disjoint) (pass : MergePass)
    (id : ValueId) :
    (sliceStepsFrom outside route groups pass (Family.ofGroups groups)).Pairwise fun e e' =>
      e.Has groups id → ¬ e'.Has groups id := by
  refine (List.nodup_flatMap.mp (nodup_numbers_sliceSteps groups pass)).2.imp ?_
  rintro e e' hapart ⟨element, helement, hid⟩ ⟨element', helement', hid'⟩
  have hsame : element.2 = element'.2 := number_unique hdisjoint hid hid'
  exact hapart (List.mem_map_of_mem helement) (hsame ▸ List.mem_map_of_mem helement')

theorem find?_moveToSlice (values : List Registered) (master : ValueId) (tag : TagRef)
    (offsets : List (ValueId × Nat)) (id : ValueId) :
    (moveToSlice values master tag offsets).find? (fun v => v.id == id) =
      (values.find? fun v => v.id == id).map (moved master tag offsets) := by
  have hsame : (fun v : Registered => v.id == id) ∘ moved master tag offsets =
      fun v => v.id == id :=
    funext fun v => by rw [Function.comp_apply, id_moved]
  rw [moveToSlice_eq, List.find?_map, hsame]

/-- **A slice leaves the values** that are not its own. -/
theorem SliceStep.find?_after_of_not_has {e : SliceStep} (h : ¬ e.Has groups id) :
    (e.after outside route groups).values.find? (fun v => v.id == id) =
      e.before.values.find? fun v => v.id == id := by
  rcases @after_cases outside route groups e with
    ⟨master, tag, offsets, -, -, hoffsets, hvalues, -⟩ | ⟨_, -, hvalues, -⟩ | ⟨-, hvalues, -⟩
  · rw [hvalues, find?_moveToSlice]
    cases hfind : e.before.values.find? fun v => v.id == id with
    | none => rfl
    | some v =>
      have hid : v.id = id := by simpa using List.find?_some hfind
      refine congrArg some (moved_of_not_mem master tag fun hmem => h ?_)
      obtain ⟨number, hnumber, hin⟩ := (mem_rebased?_iff hoffsets).mp hmem
      obtain ⟨element, helement, rfl⟩ := List.mem_map.mp hnumber
      exact ⟨element, helement, hid ▸ hin⟩
  · rw [hvalues]
  · rw [hvalues]

theorem find?_mergeFamily_of_not_has {e : MergePass × Family}
    (h : ∀ step ∈ familySteps outside route groups e, ¬ step.Has groups id) :
    (mergeFamilyAmid outside route groups e.1 e.2).values.find? (fun v => v.id == id) =
      e.1.values.find? fun v => v.id == id := by
  obtain ⟨size, slices, -, hsteps, hmerge⟩ := exists_slices outside route groups e
  rw [hsteps] at h
  rw [hmerge]
  refine foldl_eq_of_steps (f := fun pass : MergePass => pass.values.find? fun v => v.id == id)
    fun inner hinner => ?_
  exact SliceStep.find?_after_of_not_has (h _ (List.mem_map_of_mem hinner))

/-- A value changes with its slice, and no other slice of the family. -/
theorem find?_mergeFamily {e : MergePass × Family} {step : SliceStep}
    (honce : (familySteps outside route groups e).Pairwise fun step step' =>
      step.Has groups id → ¬ step'.Has groups id)
    (hstep : step ∈ familySteps outside route groups e) (hid : step.Has groups id) :
    step.before.values.find? (fun v => v.id == id) = e.1.values.find? (fun v => v.id == id) ∧
      (mergeFamilyAmid outside route groups e.1 e.2).values.find? (fun v => v.id == id) =
        (step.after outside route groups).values.find? fun v => v.id == id := by
  obtain ⟨size, slices, -, hsteps, hmerge⟩ := exists_slices outside route groups e
  rw [hsteps] at honce hstep
  rw [hmerge]
  obtain ⟨inner, hinner, rfl⟩ := List.mem_map.mp hstep
  exact eq_of_steps (f := fun pass : MergePass => pass.values.find? fun v => v.id == id)
    (fun _ _ hnot => SliceStep.find?_after_of_not_has hnot) (List.pairwise_map.mp honce) hinner
    hid

/-- **A value changes in the step of its own slice only.** -/
theorem find?_sliceStep (hdisjoint : groups.Pairwise Group.Disjoint) {step : SliceStep}
    (hstep : step ∈ sliceStepsFrom outside route groups pass (Family.ofGroups groups))
    (hid : step.Has groups id) :
    step.before.values.find? (fun v => v.id == id) = pass.values.find? (fun v => v.id == id) ∧
      ((Family.ofGroups groups).foldl (mergeFamilyAmid outside route groups) pass).values.find?
          (fun v => v.id == id) =
        (step.after outside route groups).values.find? fun v => v.id == id := by
  obtain ⟨hinside, hacross⟩ := List.pairwise_flatMap.mp
    (@pairwise_sliceSteps outside route groups hdisjoint pass id)
  obtain ⟨e, he, hin⟩ := List.mem_flatMap.mp hstep
  obtain ⟨hbefore, hafter⟩ := find?_mergeFamily (hinside e he) hin hid
  -- the family of the slice is the only one with the value
  have honce : (steps (mergeFamilyAmid outside route groups) pass
      (Family.ofGroups groups)).Pairwise fun e e' =>
        (∃ step ∈ familySteps outside route groups e, step.Has groups id) →
          ¬ ∃ step ∈ familySteps outside route groups e', step.Has groups id := by
    refine hacross.imp ?_
    rintro e e' hapart ⟨first, hfirst, hhas⟩ ⟨second, hsecond, hhas'⟩
    exact hapart first hfirst second hsecond hhas hhas'
  obtain ⟨hfirst, hlast⟩ :=
    eq_of_steps (f := fun pass : MergePass => pass.values.find? fun v => v.id == id)
      (fun _ _ hnot => find?_mergeFamily_of_not_has fun step hstep hhas =>
        hnot ⟨step, hstep, hhas⟩) honce he ⟨step, hin, hid⟩
  exact ⟨hbefore.trans hfirst, hlast.trans hafter⟩

end

/-! ## The slices of a pass -/

section

variable {outside route} {groups : List Group} {pass : MergePass} {step : SliceStep}
  {families : List Family}

theorem shared_mergeFamilyAmid (pass : MergePass) (family : Family) :
    (mergeFamilyAmid outside route groups pass family).shared = pass.shared := by
  obtain ⟨size, slices, -, -, hmerge⟩ := exists_slices outside route groups (pass, family)
  rw [hmerge]
  exact foldl_eq_of_steps fun e _ => shared_mergeSlice _ _ _ _ _ _

/-- **What every slice keeps** holds after all families. -/
theorem foldl_of_sliceSteps {P : MergePass → Prop} (hpass : P pass)
    (h : ∀ step ∈ sliceStepsFrom outside route groups pass families, P step.before →
      P (step.after outside route groups)) :
    P (families.foldl (mergeFamilyAmid outside route groups) pass) := by
  refine foldl_of_steps hpass fun e he hbefore => ?_
  obtain ⟨size, slices, -, hsteps, hmerge⟩ := exists_slices outside route groups e
  rw [hmerge]
  refine foldl_of_steps hbefore fun inner hinner => ?_
  refine h ⟨inner.1, usable e.1.shared e.2, size, inner.2⟩ (List.mem_flatMap.mpr ⟨e, he, ?_⟩)
  rw [hsteps]
  exact List.mem_map_of_mem hinner

/-- A slice of a pass is one of a family, of its groups that have a tag. -/
theorem exists_family_of_sliceStep
    (hstep : step ∈ sliceStepsFrom outside route groups pass families) :
    ∃ family ∈ families, step.slice ∈ (usable pass.shared family).slices step.size := by
  obtain ⟨e, he, hin⟩ := List.mem_flatMap.mp hstep
  have hfamily : e.2 ∈ families := by
    rw [← map_snd_steps (mergeFamilyAmid outside route groups) pass families]
    exact List.mem_map_of_mem he
  have hshared : e.1.shared = pass.shared :=
    forall_steps (P := fun before => before.shared = pass.shared) rfl
      (fun before family hbefore => (shared_mergeFamilyAmid before family).trans hbefore) e he
  obtain ⟨size, slices, hslices, hsteps, -⟩ := exists_slices outside route groups e
  rw [hsteps] at hin
  obtain ⟨inner, hinner, rfl⟩ := List.mem_map.mp hin
  have hslice := List.mem_map_of_mem (f := Prod.snd) hinner
  rw [map_snd_steps] at hslice
  exact ⟨e.2, hfamily, hshared ▸ hslices.subset hslice⟩

/-- The elements of a slice are groups that have a tag. -/
theorem exists_group_of_sliceStep
    (hstep : step ∈ sliceStepsFrom outside route groups pass (Family.ofGroups groups))
    {element : Nat × Nat} (helement : element ∈ step.slice.elements) :
    ∃ group tag, groups[element.2]? = some group ∧ pass.shared[element.2]? = some (some tag) := by
  obtain ⟨family, hfamily, hslice⟩ := exists_family_of_sliceStep hstep
  have husable := ((usable pass.shared family).elements_slices_sublist step.size).subset
    (List.mem_flatMap.mpr ⟨step.slice, hslice, helement⟩)
  obtain ⟨hmem, htag⟩ := List.mem_filter.mp husable
  obtain ⟨group, hgroup, -⟩ := Family.exists_group hfamily hmem
  obtain ⟨tag, htag⟩ := Option.isSome_iff_exists.mp htag
  exact ⟨group, tag, hgroup, Option.join_eq_some_iff.mp htag⟩

/-- The slices of a pass have masters. -/
theorem exists_sliceMaster
    (hstep : step ∈ sliceStepsFrom outside route groups pass (Family.ofGroups groups)) :
    ∃ master, sliceMaster? groups step.slice = some master := by
  obtain ⟨family, -, hslice⟩ := exists_family_of_sliceStep hstep
  obtain ⟨first, hfirst⟩ := Option.isSome_iff_exists.mp
    (List.isSome_head?.mpr (Family.elements_ne_nil hslice))
  obtain ⟨group, -, hgroup, -⟩ := exists_group_of_sliceStep hstep (List.mem_of_head? hfirst)
  refine ⟨group.master, ?_⟩
  rw [sliceMaster?, hfirst, Option.bind_eq_bind, Option.bind_some, hgroup]
  rfl

/-! ## Slices that are not asked for -/

theorem mapM_eq_none_iff {α β : Type} {f : α → Option β} {xs : List α} :
    xs.mapM f = none ↔ ∃ x ∈ xs, f x = none := by
  induction xs with
  | nil =>
    constructor
    · intro h
      cases h
    · rintro ⟨x, hx, -⟩
      cases hx
  | cons x rest ih =>
    rw [List.mapM_cons, List.exists_mem_cons_iff, ← ih]
    cases hx : f x with
    | none => exact ⟨fun _ => Or.inl rfl, fun _ => rfl⟩
    | some y =>
      cases hrest : rest.mapM f with
      | none => exact ⟨fun _ => Or.inr rfl, fun _ => rfl⟩
      | some ys =>
        constructor
        · intro h
          cases h
        · rintro (h | h) <;> cases h

/-- **A slice is not asked for** exactly if the offset of one of its values would leave the
addresses. -/
theorem SliceStep.outcome?_eq_none_iff (hdisjoint : groups.Pairwise Group.Disjoint)
    (hstep : step ∈ sliceStepsFrom outside route groups pass (Family.ofGroups groups))
    (hids : (pass.values.map Registered.id).Nodup)
    (hmembers : ∀ number, ∀ id ∈ membersOf groups number, ∃ v ∈ pass.values, v.id = id) :
    step.outcome? outside route groups = none ↔ ∃ element ∈ step.slice.elements,
      ∃ v ∈ pass.values, v.id ∈ membersOf groups element.2 ∧ step.slice.rebase? element.1 step.size
        v.descriptor.offset v.descriptor.bitAddressed = none := by
  -- the values of the slice are still as they were before the first slice
  have hfind : ∀ element ∈ step.slice.elements, ∀ v ∈ pass.values,
      v.id ∈ membersOf groups element.2 →
        rebasedOffset? step.before.values step.slice step.size element.1 v.id =
          (step.slice.rebase? element.1 step.size v.descriptor.offset
            v.descriptor.bitAddressed).map fun offset => (v.id, offset) := by
    intro element helement v hv hid
    unfold rebasedOffset?
    rw [(find?_sliceStep hdisjoint hstep ⟨element, helement, hid⟩).1, find?_id_eq hids hv,
      Option.bind_eq_bind, Option.bind_some, Option.map_eq_bind]
    rfl
  obtain ⟨master, hmaster⟩ := exists_sliceMaster hstep
  have hasked : step.outcome? outside route groups = none ↔
      rebased? step.before.values groups step.slice step.size = none := by
    unfold outcome?
    rw [hmaster]
    cases rebased? step.before.values groups step.slice step.size with
    | none => exact iff_of_true rfl rfl
    | some offsets => exact iff_of_false nofun nofun
  rw [hasked, rebased?, mapM_eq_none_iff]
  constructor
  · rintro ⟨placed, hplaced, hnone⟩
    obtain ⟨element, helement, hin⟩ := List.mem_flatMap.mp hplaced
    obtain ⟨id, hid, rfl⟩ := List.mem_map.mp hin
    obtain ⟨v, hv, rfl⟩ := hmembers element.2 id hid
    rw [hfind element helement v hv hid, Option.map_eq_none_iff] at hnone
    exact ⟨element, helement, v, hv, hid, hnone⟩
  · rintro ⟨element, helement, v, hv, hid, hnone⟩
    refine ⟨(element.1, v.id), ?_, ?_⟩
    · exact List.mem_flatMap.mpr ⟨element, helement, List.mem_map_of_mem hid⟩
    · rw [hfind element helement v hv hid, hnone]
      rfl

end

/-! ## Values after the first level -/

/-- The groups of the plan with the tags that they got. -/
def Registry.groupEntries (r : Registry) (plc : Plc) (threshold : Nat) :
    List (Group × Option TagRef) :=
  (r.groupSteps outside route plc threshold).map fun e =>
    (e.2, (groupOutcome outside route e).toOption)

section

variable {outside route} {parsed : List Descriptor} {r : Registry} {plc : Plc} {threshold : Nat}
  {v : Registered}

theorem Registry.groups_groupSteps (r : Registry) (plc : Plc) (threshold : Nat) :
    (r.groupSteps outside route plc threshold).map Prod.snd = (r.plan threshold).groups :=
  map_snd_steps _ _ _

theorem Registry.groups_groupEntries (r : Registry) (plc : Plc) (threshold : Nat) :
    (r.groupEntries outside route plc threshold).map Prod.fst = (r.plan threshold).groups := by
  rw [← @groups_groupSteps outside route r plc threshold, groupEntries, List.map_map]
  rfl

namespace Registry.Sound

/-- The groups have got what came of their steps. -/
theorem grouped_entries (h : r.Sound route parsed) (outside : MergePass → Plc) (plc : Plc)
    (threshold : Nat) :
    Grouped (r.values.map (leftAlone (r.plan threshold).notMerged))
      (r.groupEntries outside route plc threshold) (r.groupAmid outside plc route threshold) := by
  obtain ⟨done, hdone, hgrouped⟩ := h.grouped outside plc threshold
  have hshared : (r.groupAmid outside plc route threshold).shared =
      (r.groupSteps outside route plc threshold).map fun e =>
        (groupOutcome outside route e).toOption := by
    rw [← List.flatMap_pure_eq_map]
    refine (foldl_append_of_steps (f := MergePass.shared) (fun pass group => ?_) _ _).trans
      (List.nil_append _)
    exact @shared_mergeGroup (pass.amid outside) group route _ _ rfl
  have hsame : done = r.groupEntries outside route plc threshold := by
    rw [groupEntries, ← List.zip_map', ← hshared, groups_groupSteps]
    exact List.zip_of_prod hdone hgrouped.shared.symm
  rw [← hsame]
  exact hgrouped

theorem values_groupAmid (h : r.Sound route parsed) (outside : MergePass → Plc) (plc : Plc)
    (threshold : Nat) : (r.groupAmid outside plc route threshold).values =
      r.values.map (placed (r.plan threshold) (r.groupEntries outside route plc threshold)) := by
  rw [(h.grouped_entries outside plc threshold).values, List.map_map]
  rfl

theorem ids_groupAmid (h : r.Sound route parsed) (outside : MergePass → Plc) (plc : Plc)
    (threshold : Nat) :
    ((r.groupAmid outside plc route threshold).values.map Registered.id).Nodup := by
  have hsame : ((r.groupAmid outside plc route threshold).values.map Registered.id) =
      r.values.map Registered.id := by
    rw [h.values_groupAmid, List.map_map]
    exact List.map_congr_left fun v _ => id_placed _ _ v
  rw [hsame]
  exact h.ids_nodup

/-- **A group settles its members** by what came of its step. -/
theorem settled_mem_groupAmid (h : r.Sound route parsed) {e : MergePass × Group}
    (he : e ∈ r.groupSteps outside route plc threshold) (hv : v ∈ r.values)
    (hid : v.id ∈ e.2.members) : e.2.settled (groupOutcome outside route e).toOption v ∈
      (r.groupAmid outside plc route threshold).values := by
  rw [h.values_groupAmid, ← placed_of_mem (fits_plan h.ids_nodup threshold)
    (r.groups_groupEntries plc threshold) (List.mem_map_of_mem he) hid]
  exact List.mem_map_of_mem hv

/-- The members of groups are found among the values of the first level. -/
theorem exists_member (h : r.Sound route parsed) (outside : MergePass → Plc) (plc : Plc)
    (threshold number : Nat) {id : ValueId}
    (hid : id ∈ membersOf (r.plan threshold).groups number) :
    ∃ v ∈ (r.groupAmid outside plc route threshold).values, v.id = id := by
  obtain ⟨v, hv, hvid⟩ := List.mem_map.mp (mem_ids_of_membersOf hid)
  rw [h.values_groupAmid]
  exact ⟨_, List.mem_map_of_mem hv, (id_placed _ _ v).trans hvid⟩

/-! ## Values after the pass -/

/-- What a value of the first level becomes is found by its identifier. -/
theorem find?_mergeAmid (h : r.Sound route parsed) (outside : MergePass → Plc) (plc : Plc)
    (threshold : Nat) (hv : v ∈ (r.groupAmid outside plc route threshold).values) :
    ∃ w, (r.mergeAmid outside plc route threshold).1.find? v.id = some w ∧ Relocated v w := by
  have hsound := h.mergeAmid outside plc threshold
  obtain ⟨done, -, -, hslicing⟩ := h.exists_slicing outside plc threshold
  obtain ⟨w, hw, hmoved⟩ := exists_of_mem_forall₂ hslicing.relocated.flip hv
  have hmoved : Relocated v w := hmoved
  exact ⟨w, hmoved.id_eq ▸ hsound.numbered.find?_eq hw, hmoved⟩

/-- A value that does not share a buffer is not moved. -/
theorem find?_mergeAmid_of_alone (h : r.Sound route parsed)
    (hv : v ∈ (r.groupAmid outside plc route threshold).values)
    (halone : v.state.sharesBuffer = false) :
    (r.mergeAmid outside plc route threshold).1.find? v.id = some v := by
  obtain ⟨w, hw, rfl | hgoes⟩ := h.find?_mergeAmid outside plc threshold hv
  · exact hw
  · cases halone.symm.trans hgoes.before

section

variable {step : SliceStep} (h : r.Sound route parsed)
  (hstep : step ∈ r.sliceSteps outside route plc threshold)
  (hv : v ∈ (r.groupAmid outside plc route threshold).values)
  (hhas : step.Has (r.plan threshold).groups v.id)

include h hstep hv hhas

/-- **A slice without a tag** leaves its values as they were. -/
theorem find?_mergeAmid_of_failed
    (hfailed : ∀ tag, step.outcome? outside route (r.plan threshold).groups ≠ some (.ok tag)) :
    (r.mergeAmid outside plc route threshold).1.find? v.id = some v := by
  obtain ⟨hbefore, hafter⟩ :=
    find?_sliceStep (fits_plan h.ids_nodup threshold).disjoint hstep hhas
  have hsame : (step.after outside route (r.plan threshold).groups).values =
      step.before.values := by
    rcases @SliceStep.after_cases outside route (r.plan threshold).groups step with
      ⟨_, tag, _, houtcome, -⟩ | ⟨_, -, hsame, -⟩ | ⟨-, hsame, -⟩
    · exact absurd houtcome (hfailed tag)
    · exact hsame
    · exact hsame
  rw [hsame, hbefore, find?_id_eq (h.ids_groupAmid outside plc threshold) hv] at hafter
  exact ((h.mergeAmid outside plc threshold).numbered.find?_eq_search v.id).trans hafter

/-- **A slice with a tag** moves its values there. -/
theorem find?_mergeAmid_of_obtained {tag : TagRef}
    (htag : step.outcome? outside route (r.plan threshold).groups = some (.ok tag)) :
    ∃ master offset, sliceMaster? (r.plan threshold).groups step.slice = some master ∧
      (r.mergeAmid outside plc route threshold).1.find? v.id =
        some (v.joinSlice master tag offset) := by
  obtain ⟨hbefore, hafter⟩ :=
    find?_sliceStep (fits_plan h.ids_nodup threshold).disjoint hstep hhas
  rcases @SliceStep.after_cases outside route (r.plan threshold).groups step with
    ⟨master, found, offsets, houtcome, hmaster, hoffsets, hmoved, -⟩ | ⟨_, houtcome, -⟩ |
      ⟨houtcome, -⟩
  · obtain rfl : found = tag := Except.ok.inj (Option.some.inj (houtcome.symm.trans htag))
    obtain ⟨element, helement, hid⟩ := hhas
    obtain ⟨offset, -, hjoined⟩ := moved_of_mem master found ((mem_rebased?_iff hoffsets).mpr
      ⟨element.2, List.mem_map_of_mem helement, hid⟩)
    rw [hmoved, find?_moveToSlice, hbefore, find?_id_eq (h.ids_groupAmid outside plc threshold) hv,
      Option.map_some, hjoined] at hafter
    exact ⟨master, offset, hmaster,
      ((h.mergeAmid outside plc threshold).numbered.find?_eq_search v.id).trans hafter⟩
  · cases houtcome.symm.trans htag
  · cases houtcome.symm.trans htag

end

end Registry.Sound

end

/-! ## What a pass spares -/

/-- **What a pass spares** when some of its tags cannot be created, for a registry. -/
structure Registry.Spares (r : Registry) (plc : Plc) (threshold : Nat) : Prop where
  /-- The first level takes each group of the plan once. -/
  groups : (r.groupSteps outside route plc threshold).map Prod.snd = (r.plan threshold).groups
  /-- The members of a group without a tag stay as they were, but for the state, and are read in the
  same way. -/
  failedGroup : ∀ e ∈ r.groupSteps outside route plc threshold, ∀ cause,
    groupOutcome outside route e = .error cause → ∀ v ∈ r.values, v.id ∈ e.2.members →
      (r.mergeAmid outside plc route threshold).1.find? v.id = some (v.withState .failed) ∧
        ∀ zone buffer, (v.withState .failed).decodeIn zone buffer = v.decodeIn zone buffer
  /-- The members of any other group are merged, and stay so or go on in a slice. -/
  mergedGroup : ∀ e ∈ r.groupSteps outside route plc threshold, ∀ tag,
    groupOutcome outside route e = .ok tag → ∀ v ∈ r.values, v.id ∈ e.2.members →
      v.joinGroup e.2.master tag ∈ (r.groupAmid outside plc route threshold).values ∧
        ∃ w, (r.mergeAmid outside plc route threshold).1.find? v.id = some w ∧
          Relocated (v.joinGroup e.2.master tag) w
  /-- The tag of a slice is asked for unless the offset of one of its values would leave the
  addresses. -/
  unaskedSlice : ∀ step ∈ r.sliceSteps outside route plc threshold,
    step.outcome? outside route (r.plan threshold).groups = none ↔
      ∃ element ∈ step.slice.elements, ∃ v ∈ (r.groupAmid outside plc route threshold).values,
        v.id ∈ membersOf (r.plan threshold).groups element.2 ∧
          step.slice.rebase? element.1 step.size v.descriptor.offset
            v.descriptor.bitAddressed = none
  /-- The values of a slice without a tag stay as the first level has made them. -/
  failedSlice : ∀ step ∈ r.sliceSteps outside route plc threshold,
    (∀ tag, step.outcome? outside route (r.plan threshold).groups ≠ some (.ok tag)) →
    ∀ v ∈ (r.groupAmid outside plc route threshold).values,
      step.Has (r.plan threshold).groups v.id →
        (r.mergeAmid outside plc route threshold).1.find? v.id = some v
  /-- The values of any other slice are moved to its tag. -/
  mergedSlice : ∀ step ∈ r.sliceSteps outside route plc threshold, ∀ tag,
    step.outcome? outside route (r.plan threshold).groups = some (.ok tag) →
    ∀ v ∈ (r.groupAmid outside plc route threshold).values,
      step.Has (r.plan threshold).groups v.id → ∃ master offset,
        sliceMaster? (r.plan threshold).groups step.slice = some master ∧
          (r.mergeAmid outside plc route threshold).1.find? v.id =
            some (v.joinSlice master tag offset)
  /-- Each tag that could not be created is reported once. -/
  failures : (r.slicedAmid outside route plc threshold).report.failures =
    (r.groupSteps outside route plc threshold).flatMap (groupFailures outside route) ++
      (r.sliceSteps outside route plc threshold).flatMap
        (SliceStep.failures outside route (r.plan threshold).groups)

section

variable {outside route} {parsed : List Descriptor} {passes : Nat} {r : Registry} {plc : Plc}

/-- **A merge that fails costs nothing**, whichever tags of a pass cannot be created. -/
theorem spares_of_reached (h : Registry.Reached route parsed passes r plc)
    (outside : MergePass → Plc) (threshold : Nat) : r.Spares outside route plc threshold := by
  have hsound := h.sound
  have hfits := fits_plan hsound.ids_nodup threshold
  constructor
  case groups => exact r.groups_groupSteps plc threshold
  case failedGroup =>
    intro e he cause hcause v hv hid
    have hmem := hsound.settled_mem_groupAmid he hv hid
    rw [hcause] at hmem
    refine ⟨hsound.find?_mergeAmid_of_alone hmem rfl, fun zone buffer => ?_⟩
    -- neither a value that waits nor one that failed shares a buffer
    have hgroup : e.2 ∈ (r.plan threshold).groups :=
      r.groups_groupSteps plc threshold ▸ List.mem_map_of_mem he
    unfold Registered.decodeIn
    rw [(hfits.members e.2 hgroup v hv hid).1]
    rfl
  case mergedGroup =>
    intro e he tag htag v hv hid
    have hmem := hsound.settled_mem_groupAmid he hv hid
    rw [htag] at hmem
    exact ⟨hmem, hsound.find?_mergeAmid outside plc threshold hmem⟩
  case unaskedSlice =>
    exact fun step hstep => SliceStep.outcome?_eq_none_iff hfits.disjoint hstep
      (hsound.ids_groupAmid outside plc threshold) fun number id hid =>
        hsound.exists_member outside plc threshold number hid
  case failedSlice =>
    exact fun step hstep hfailed v hv hhas =>
      hsound.find?_mergeAmid_of_failed hstep hv hhas hfailed
  case mergedSlice =>
    exact fun step hstep tag htag v hv hhas =>
      hsound.find?_mergeAmid_of_obtained hstep hv hhas htag
  case failures => exact failures_slicedAmid r plc threshold

end

/-! ## A pump that is refused -/

/-- A controller that has the values of the pump, and refuses the pump as a whole. -/
def refusesPump : Plc :=
  pump.2.refuse "Pump"

/-- Nothing but their states changes in the values of the pump, and one failure is reported. -/
theorem spares_of_reached_pump :
    ((pump.1.mergeAmid MergePass.plc refusesPump pumpRoute 2).1.values =
        List.zipWith Registered.withState pump.1.values [.failed, .failed, .doNotOptimise] ∧
      (pump.1.slicedAmid MergePass.plc pumpRoute refusesPump 2).report.failures.length = 1) ∧
    pump.1.Spares MergePass.plc pumpRoute refusesPump 2 :=
  ⟨by decide +kernel, spares_of_reached (.outside refusesPump reached_pump) MergePass.plc 2⟩

end PlcTags

import PlcTags.Proofs.Registry.Grouping

/-!
# Registries at any time

What holds of a registry after any sequence of registrations and merge passes, whatever happens to
the controller in the meantime, also while a pass runs: so any tag may fail to be created, whether
or not one with the same name could be created before.

* `Registry.Reached`: the registries that are reached, with the descriptors of their values and the
  number of passes.
* `Registry.Sound`: the invariant. Registering keeps it (`Registry.Sound.register`), and so does a
  merge pass (`Registry.Sound.mergeAmid`).
* `Registry.WellFormed`: what it says of the values.
-/

namespace PlcTags

open Registry MergePass

/-! ## Reached registries -/

/-- The first level of a merge pass, while others change the controller between its steps. -/
def Registry.groupAmid (outside : MergePass → Plc) (r : Registry) (plc : Plc) (route : String)
    (threshold : Nat) : MergePass :=
  (r.plan threshold).groups.foldl (fun pass group => mergeGroup route (pass.amid outside) group)
    (r.startMerge plc (r.plan threshold))

/-- A merge pass, while others change the controller between its steps. -/
def Registry.mergeAmid (outside : MergePass → Plc) (r : Registry) (plc : Plc) (route : String)
    (threshold : Nat) : Registry × Plc :=
  let plan := r.plan threshold
  let sliced := (Family.ofGroups plan.groups).foldl
    (mergeFamilyAmid outside route plan.groups) (r.groupAmid outside plc route threshold)
  ({ r with values := sliced.values, optimised := true },
    (outside sliced).keepOnly (handles sliced.values))

/-- A merge pass is one that nobody disturbs. -/
theorem Registry.mergeAmid_plc (r : Registry) (plc : Plc) (route : String) (threshold : Nat) :
    r.mergeAmid MergePass.plc plc route threshold =
      ((r.merge plc route threshold).1, (r.merge plc route threshold).2.1) := by
  have hgrouped : r.groupAmid MergePass.plc plc route threshold =
      (r.plan threshold).groups.foldl (mergeGroup route)
        (r.startMerge plc (r.plan threshold)) := rfl
  have hfamily : mergeFamilyAmid MergePass.plc route (r.plan threshold).groups =
      mergeFamily route (r.plan threshold).groups :=
    funext fun pass => funext fun family => mergeFamilyAmid_plc route _ pass family
  unfold mergeAmid Registry.merge
  simp only [hgrouped, hfamily]

/-- **The registries that are reached** from an empty one with any supply of identifiers, each with
the descriptors of its values and the number of its passes. A text that is refused changes nothing.
The pollers, the structures and the controller may change at any time, the controller also during a
pass. -/
inductive Registry.Reached (route : String) :
    List Descriptor → (passes : Nat) → Registry → Plc → Prop
  | start (ids : ValueId.Supply) (plc : Plc) : Reached route [] 0 { ids := ids } plc
  | scope {parsed : List Descriptor} {passes : Nat} {r : Registry} {plc : Plc}
      (pollers : List String) (structs : Layout.Table) (h : Reached route parsed passes r plc) :
      Reached route parsed passes { r with pollers := pollers, structs := structs } plc
  | outside {parsed : List Descriptor} {passes : Nat} {r : Registry} {plc : Plc} (other : Plc)
      (h : Reached route parsed passes r plc) : Reached route parsed passes r other
  | register {parsed : List Descriptor} {passes : Nat} {r next : Registry} {plc after : Plc}
      {text : String} {d : Descriptor} {v : Registered} (h : Reached route parsed passes r plc)
      (hparse : Descriptor.parse r.scope text = .ok d)
      (hadded : r.register plc route text = .ok (next, after, v)) :
      Reached route (parsed ++ [d]) passes next after
  | merge {parsed : List Descriptor} {passes : Nat} {r : Registry} {plc : Plc}
      (outside : MergePass → Plc) (threshold : Nat) (h : Reached route parsed passes r plc) :
      Reached route parsed (passes + 1) (r.mergeAmid outside plc route threshold).1
        (r.mergeAmid outside plc route threshold).2

/-! ## The invariant -/

/-- **A sound registry**: its values are numbered and sound, somebody reads for every value that
does not read itself, and a pass leaves no value waiting. -/
structure Registry.Sound (route : String) (parsed : List Descriptor) (r : Registry) : Prop where
  numbered : r.Numbered
  values : List.Forall₂ (Registered.Sound route) parsed r.values
  readers : ∀ v ∈ r.values, v.state = .optimised → ∃ m ∈ r.values, m.ReadsFor v
  requested : r.optimised = true → ∀ v ∈ r.values, v.state ≠ .notRequested

section

variable {route text : String} {parsed : List Descriptor} {r next : Registry} {plc after : Plc}
  {d : Descriptor} {v : Registered}

/-- A registration that succeeds appends the value of the descriptor that was read. -/
theorem register_eq_ok (h : r.register plc route text = .ok (next, after, v)) :
    ∃ d outcome, Descriptor.parse r.scope text = .ok d ∧
      obtainTag r.values plc (d.connection route) = (after, outcome) ∧
      v = r.newValue route d outcome ∧ next = r.append v := by
  unfold Registry.register at h
  obtain ⟨d, hparse, heq⟩ := map_eq_ok_iff.mp h
  cases hobtain : obtainTag r.values plc (d.connection route) with
  | mk created outcome =>
    rw [hobtain] at heq
    obtain ⟨hnext, hrest⟩ := Prod.mk.inj heq
    obtain ⟨rfl, rfl⟩ := Prod.mk.inj hrest
    exact ⟨d, outcome, hparse, hobtain, rfl, hnext.symm⟩

/-- The tag that is obtained for a creation text has it. -/
theorem connection_obtainTag {values : List Registered} {connection : String} {ref : TagRef}
    (h : obtainTag values plc connection = (after, .ok ref)) : ref.connection = connection := by
  obtain ⟨-, held, hheld, hconnection, -⟩ | ⟨-, hcreate⟩ := obtainTag_cases h
  · cases hheld
    exact hconnection
  · obtain ⟨-, -, rfl⟩ := Plc.create_eq_ok hcreate
    rfl

namespace Registry.Sound

theorem ids_nodup (h : r.Sound route parsed) : (r.values.map Registered.id).Nodup :=
  h.numbered.ids_nodup

theorem start (ids : ValueId.Supply) : ({ ids := ids } : Registry).Sound route [] :=
  ⟨.start ids, .nil, (fun _ hv => nomatch hv), (fun h => nomatch h)⟩

/-- **Registering** appends a sound value, which waits for no pass if there was one. -/
theorem register (h : r.Sound route parsed) (hparse : Descriptor.parse r.scope text = .ok d)
    (hadded : r.register plc route text = .ok (next, after, v)) :
    next.Sound route (parsed ++ [d]) := by
  obtain ⟨d', outcome, hparse', hobtain, rfl, rfl⟩ := register_eq_ok hadded
  cases hparse.symm.trans hparse'
  have hown : ∀ ref, outcome = .ok ref → ref.connection = d.connection route := by
    rintro ref rfl
    exact connection_obtainTag hobtain
  have hstate : (r.newValue route d outcome).state =
      if r.optimised then .doNotOptimise else .notRequested := rfl
  constructor
  case numbered => exact h.numbered.append rfl
  case values => exact List.rel_append h.values (.cons (Registered.sound_newValue r hown) .nil)
  case readers =>
    intro u hu hoptimised
    rcases List.mem_append.mp hu with hu | hu
    · obtain ⟨m, hm, hreads⟩ := h.readers u hu hoptimised
      exact ⟨m, List.mem_append_left _ hm, hreads⟩
    · rw [List.mem_singleton] at hu
      subst hu
      rw [hstate] at hoptimised
      split at hoptimised <;> cases hoptimised
  case requested =>
    intro hpassed u hu
    have hpassed : r.optimised = true := hpassed
    rcases List.mem_append.mp hu with hu | hu
    · exact h.requested hpassed u hu
    · rw [List.mem_singleton] at hu
      subst hu
      rw [hstate, if_pos hpassed]
      exact nofun

/-- The first level of a pass and what it leaves to the second. -/
theorem grouped (h : r.Sound route parsed) (outside : MergePass → Plc) (plc : Plc)
    (threshold : Nat) : ∃ done : List (Group × Option TagRef),
      done.map Prod.fst = (r.plan threshold).groups ∧
      Grouped (r.values.map (leftAlone (r.plan threshold).notMerged)) done
        (r.groupAmid outside plc route threshold) := by
  have hfits := fits_plan h.ids_nodup threshold
  have hstart : Grouped (r.values.map (leftAlone (r.plan threshold).notMerged)) []
      (r.startMerge plc (r.plan threshold)) := by
    refine ⟨?_, rfl⟩
    rw [show settle [] = id from funext fun v => rfl, List.map_id]
    rfl
  exact hstart.foldl outside route hfits.disjoint

/-- **What a whole pass makes of the values**: the first level places them, the second relocates
some of them. -/
theorem exists_slicing (h : r.Sound route parsed) (outside : MergePass → Plc) (plc : Plc)
    (threshold : Nat) : ∃ done : List (Group × Option TagRef),
      done.map Prod.fst = (r.plan threshold).groups ∧
      (r.groupAmid outside plc route threshold).values =
        r.values.map (placed (r.plan threshold) done) ∧
      Slicing route parsed (r.groupAmid outside plc route threshold).values
        (r.plan threshold).groups [] (r.mergeAmid outside plc route threshold).1.values := by
  have hfits := fits_plan h.ids_nodup threshold
  obtain ⟨done, hdone, hgrouped⟩ := h.grouped outside plc threshold
  have hvalues : (r.groupAmid outside plc route threshold).values =
      r.values.map (placed (r.plan threshold) done) := by
    rw [hgrouped.values, List.map_map]
    rfl
  have hids : ((r.groupAmid outside plc route threshold).values.map Registered.id).Nodup := by
    have hsame : (r.values.map (placed (r.plan threshold) done)).map Registered.id =
        r.values.map Registered.id := by simp
    rw [hvalues, hsame]
    exact h.ids_nodup
  have hslicing := slicing_placed hfits hdone h.values h.readers
  rw [← hvalues] at hslicing
  exact ⟨done, hdone, hvalues, slicing_families outside hgrouped.shared hslicing hids
    hfits.disjoint (nodup_usableNumbers _ _) fun family hfamily => hfamily⟩

/-- **A merge pass keeps a registry sound**, whichever tags can be created, and leaves no value
waiting. -/
theorem mergeAmid (h : r.Sound route parsed) (outside : MergePass → Plc) (plc : Plc)
    (threshold : Nat) : (r.mergeAmid outside plc route threshold).1.Sound route parsed := by
  obtain ⟨done, -, hvalues, hslicing⟩ := h.exists_slicing outside plc threshold
  have hids := hslicing.ids_eq
  rw [hvalues] at hids
  constructor
  case numbered => exact h.numbered.of_same rfl rfl (hids.trans (by simp))
  case values => exact hslicing.sound
  case requested => exact fun _ => hslicing.requested
  case readers =>
    intro v hv hstate
    obtain ⟨m, hm, hreads, -⟩ := hslicing.readers v hv hstate
    exact ⟨m, hm, hreads⟩

end Registry.Sound

/-- **Reached registries are sound.** -/
theorem Registry.Reached.sound {passes : Nat} (h : Registry.Reached route parsed passes r plc) :
    r.Sound route parsed := by
  induction h with
  | start ids plc => exact .start ids
  | scope pollers structs _ ih =>
    exact ⟨ih.numbered.of_same rfl rfl rfl, ih.values, ih.readers, ih.requested⟩
  | outside other _ ih => exact ih
  | register _ hparse hadded ih => exact ih.register hparse hadded
  | merge outside threshold _ ih => exact ih.mergeAmid outside _ threshold

/-- A registry that has gone through a pass says so. -/
theorem Registry.Reached.optimised {passes : Nat} (h : Registry.Reached route parsed passes r plc)
    (hpasses : 0 < passes) : r.optimised = true := by
  induction h with
  | start ids plc => cases hpasses
  | scope pollers structs _ ih => exact ih hpasses
  | outside other _ ih => exact ih hpasses
  | register _ _ hadded ih =>
    obtain ⟨_, _, -, -, -, rfl⟩ := register_eq_ok hadded
    exact ih hpasses
  | merge => rfl

/-! ## Well-formed registries -/

/-- **A well-formed registry**, for the descriptors that its values were registered with and the
number of its passes. -/
structure Registry.WellFormed (route : String) (parsed : List Descriptor) (passes : Nat)
    (r : Registry) : Prop where
  /-- Identifiers are distinct. -/
  ids : (r.values.map Registered.id).Nodup
  /-- The index has the position of each value under its identifier, and nothing else. -/
  index : ∀ (id : ValueId) (i : Nat), r.position? id = some i ↔
    ∃ v, r.values[i]? = some v ∧ v.id = id
  /-- Looking an identifier up finds its value. -/
  found : ∀ v ∈ r.values, r.find? v.id = some v
  /-- Changing the value of an identifier, as a pass does, is changing the one at its position. -/
  changed : ∀ (id : ValueId) (change : Registered → Registered),
    MergePass.update r.values [id] change =
      ((r.position? id).map fun i => r.values.modify i change).getD r.values
  /-- Every value has a tag or an error of its creation, not both. -/
  outcome : ∀ v ∈ r.values, (∃ ref, v.tag = some ref ∧ v.creationError = none) ∨
    (∃ cause, v.tag = none ∧ v.creationError = some cause)
  /-- An unmerged value is as it was registered: it starts reads, has its own offset and
  descriptor, and if it has a tag then its own one. -/
  unmerged : ∀ (i : Nat) (v : Registered), r.values[i]? = some v →
    v.state = .notRequested ∨ v.state = .doNotOptimise ∨ v.state = .failed →
      v.readFlag = true ∧ v.elementOffset = none ∧ parsed[i]? = some v.descriptor ∧
        v.connection = v.descriptor.connection route ∧
        ∀ ref, v.tag = some ref → ref.connection = v.connection
  /-- A master has a tag and starts reads. -/
  masters : ∀ v ∈ r.values, v.state = .master → v.tag.isSome = true ∧ v.readFlag = true
  /-- Any other merged value has a tag and starts no reads; a master of its poller has the same
  handle. -/
  optimised : ∀ v ∈ r.values, v.state = .optimised → v.tag.isSome = true ∧ v.readFlag = false ∧
    ∃ m ∈ r.values, m.state = .master ∧ m.poller = v.poller ∧ m.handle? = v.handle?
  /-- A pass treats all values, for ever. -/
  requested : 0 < passes → ∀ v ∈ r.values, v.state ≠ .notRequested
  /-- No value is left waiting. -/
  settled : ∀ v ∈ r.values, v.state ≠ .pending

theorem Registry.Sound.exists_sound (h : r.Sound route parsed) (hv : v ∈ r.values) :
    ∃ d, v.Sound route d := by
  obtain ⟨d, -, hd⟩ := exists_of_mem_forall₂ h.values hv
  exact ⟨d, hd⟩

theorem Registered.Sound.tag_or_error {d : Descriptor} (h : v.Sound route d) :
    (∃ ref, v.tag = some ref ∧ v.creationError = none) ∨
      (∃ cause, v.tag = none ∧ v.creationError = some cause) := by
  have houtcome := h.outcome
  cases htag : v.tag with
  | some ref =>
    rw [htag] at houtcome
    exact Or.inl ⟨ref, rfl, Option.isNone_iff_eq_none.mp houtcome.symm⟩
  | none =>
    rw [htag] at houtcome
    cases hcause : v.creationError with
    | some cause => exact Or.inr ⟨cause, rfl, rfl⟩
    | none =>
      rw [hcause] at houtcome
      cases houtcome

/-- **Registries are well formed at any time**: after every sequence of registrations and merge
passes, whichever tags could be created. -/
theorem wellFormed_of_reached {passes : Nat} (h : Registry.Reached route parsed passes r plc) :
    r.WellFormed route parsed passes := by
  have hsound := h.sound
  constructor
  case ids => exact hsound.ids_nodup
  case index => exact fun id i => hsound.numbered.position?_eq_some_iff
  case found => exact fun v hv => hsound.numbered.find?_eq hv
  case changed => exact hsound.numbered.update_eq
  case outcome =>
    intro v hv
    obtain ⟨d, hd⟩ := hsound.exists_sound hv
    exact hd.tag_or_error
  case unmerged =>
    intro i v hv hstate
    obtain ⟨hlt, rfl⟩ := List.getElem?_eq_some_iff.mp hv
    have hlength := hsound.values.length_eq
    have hd := hsound.values.get (hlength ▸ hlt) hlt
    have hunmerged : r.values[i].state.sharesBuffer = false := by
      rcases hstate with hstate | hstate | hstate <;> rw [hstate] <;> rfl
    have own := hd.unmerged hunmerged
    have hdescriptor : r.values[i].descriptor = parsed[i] := own.descriptor
    refine ⟨own.reads, own.alone, ?_, ?_, own.own⟩
    · rw [hdescriptor]
      exact List.getElem?_eq_getElem _
    · rw [hdescriptor]
      exact hd.connection
  case masters =>
    intro v hv hstate
    obtain ⟨d, hd⟩ := hsound.exists_sound hv
    obtain ⟨htag, hreads⟩ := hd.merged (by rw [hstate]; rfl)
    exact ⟨htag, hreads.trans (by rw [hstate]; rfl)⟩
  case optimised =>
    intro v hv hstate
    obtain ⟨d, hd⟩ := hsound.exists_sound hv
    obtain ⟨htag, hreads⟩ := hd.merged (by rw [hstate]; rfl)
    obtain ⟨m, hm, hreader⟩ := hsound.readers v hv hstate
    exact ⟨htag, hreads.trans (by rw [hstate]; rfl), m, hm, hreader.master, hreader.poller,
      hreader.handle⟩
  case requested => exact fun hpasses => hsound.requested (h.optimised hpasses)
  case settled =>
    intro v hv
    obtain ⟨d, hd⟩ := hsound.exists_sound hv
    exact hd.settled

end

/-! ## Two values of a pump and a level -/

/-- A value at an offset, without options, that no poller reads again. -/
def plainAt (tag : String) (type : DataType) (offset : Nat) : Descriptor where
  poller := none
  tag := tag
  startIndex := none
  type := type
  count := 1
  source := .literal offset
  offset := offset
  bitAddressed := false
  attributes := .defaults false
  extras := (Attributes.defaults false).render type

def pumpRoute : String := "protocol=ab-eip&gateway=10.0.0.1&path=1,0&plc=omron-njnx"

def pumpSpeed : Descriptor := plainAt "Pump.Speed" .int 0

def pumpLoad : Descriptor := plainAt "Pump.Load" .int 2

def sumpLevel : Descriptor := plainAt "Level" .dint 0

/-- A registry and its controller after one more registration, with a new tag. -/
def enrolled (before : Registry × Plc) (d : Descriptor) : Registry × Plc :=
  (before.1.append (before.1.newValue pumpRoute d
      (.ok ⟨before.2.created + 1, d.connection pumpRoute⟩)),
    before.2.withNew (d.connection pumpRoute))

theorem register_enrolled (before : Registry × Plc) {d : Descriptor} {text : String}
    (hparse : Descriptor.parse before.1.scope text = .ok d)
    (hnew : tagAmong? before.1.values (d.connection pumpRoute) = none)
    (hadmits : before.2.admits (tagNameOf (d.connection pumpRoute)) = true) :
    before.1.register before.2 pumpRoute text =
      .ok ((enrolled before d).1, (enrolled before d).2, before.1.newValue pumpRoute d
        (.ok ⟨before.2.created + 1, d.connection pumpRoute⟩)) := by
  have hobtain : obtainTag before.1.values before.2 (d.connection pumpRoute) =
      (before.2.withNew (d.connection pumpRoute),
        .ok ⟨before.2.created + 1, d.connection pumpRoute⟩) := by
    unfold obtainTag
    rw [hnew]
    exact (Plc.create_eq _ _).trans (if_pos hadmits)
  unfold Registry.register
  rw [hparse]
  simp only [Except.map, hobtain]
  rfl

theorem parse_pumpSpeed : Descriptor.parse ⟨[], .empty⟩ "Pump.Speed INT none 0 none" =
    .ok pumpSpeed := by
  with_unfolding_all rfl

theorem parse_pumpLoad : Descriptor.parse ⟨[], .empty⟩ "Pump.Load INT none 2 none" =
    .ok pumpLoad := by
  with_unfolding_all rfl

theorem parse_sumpLevel : Descriptor.parse ⟨[], .empty⟩ "Level DINT none 0 none" =
    .ok sumpLevel := by
  with_unfolding_all rfl

/-- A registry without values and its controller. -/
def bare : Registry × Plc := ({ ids := .counting }, {})

def pump : Registry × Plc := [pumpSpeed, pumpLoad, sumpLevel].foldl enrolled bare

theorem reached_pump :
    Registry.Reached pumpRoute [pumpSpeed, pumpLoad, sumpLevel] 0 pump.1 pump.2 := by
  have hspeed := register_enrolled bare parse_pumpSpeed (by decide +kernel) (by decide +kernel)
  have hload := register_enrolled ([pumpSpeed].foldl enrolled bare) parse_pumpLoad
    (by decide +kernel) (by decide +kernel)
  have hlevel := register_enrolled ([pumpSpeed, pumpLoad].foldl enrolled bare) parse_sumpLevel
    (by decide +kernel) (by decide +kernel)
  exact (((Registry.Reached.start .counting {}).register parse_pumpSpeed hspeed).register
    parse_pumpLoad hload).register parse_sumpLevel hlevel

/-- The values of the pump are merged, and the level is left alone for good. -/
theorem wellFormed_of_reached_pump :
    ((pump.1.mergeAmid MergePass.plc pump.2 pumpRoute 2).1.values.map Registered.state =
      [.master, .optimised, .doNotOptimise]) ∧
    (pump.1.mergeAmid MergePass.plc pump.2 pumpRoute 2).1.WellFormed pumpRoute
      [pumpSpeed, pumpLoad, sumpLevel] 1 :=
  ⟨by decide +kernel, wellFormed_of_reached (.merge MergePass.plc 2 reached_pump)⟩

end PlcTags

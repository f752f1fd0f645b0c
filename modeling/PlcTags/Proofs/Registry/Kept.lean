import PlcTags.Proofs.Registry.Reached
import PlcTags.Proofs.Transport.Held

/-!
# What registering and merging keep

Registering a value and merging create tags and give them to values, and at its end a pass destroys
those that nobody refers to. Every tag that a value refers to is held on the controller all the time
(`AllHeld`), and what the controller stores does not change.

A pass may give a value another tag and another place in it. What it keeps is the value's own tag and
the place there (`Registered.Survives`).

* `AllHeld.register`, `AllHeld.merge`: all tags of values are held.
* `Registry.Sound.survives_merge`: what becomes of the values.
-/

namespace PlcTags

open Registry MergePass

/-- **All tags that values refer to are held.** -/
def AllHeld (plc : Plc) (values : List Registered) : Prop :=
  ∀ v ∈ values, ∀ ref, v.tag = some ref → plc.Holds ref

section

variable {plc next : Plc} {values : List Registered} {connection route : String} {ref : TagRef}

theorem AllHeld.mono (h : AllHeld plc values) (hnext : next.Upholds plc) : AllHeld next values :=
  fun v hv ref href => hnext.holds (h v hv ref href)

/-- Values may be given tags that are held. -/
theorem AllHeld.map (h : AllHeld plc values) {change : Registered → Registered}
    (hchange : ∀ v ∈ values, ∀ ref, (change v).tag = some ref → v.tag = some ref ∨ plc.Holds ref) :
    AllHeld plc (values.map change) := by
  intro v' hv' ref href
  obtain ⟨v, hv, rfl⟩ := List.mem_map.mp hv'
  rcases hchange v hv ref href with hbefore | hheld
  · exact h v hv ref hbefore
  · exact hheld

theorem AllHeld.update (h : AllHeld plc values) {ids : List ValueId}
    {change : Registered → Registered}
    (hchange : ∀ v ref, (change v).tag = some ref → v.tag = some ref ∨ plc.Holds ref) :
    AllHeld plc (MergePass.update values ids change) :=
  h.map fun v _ ref href => by
    split at href
    · exact hchange v ref href
    · exact Or.inl href

/-! ## Obtaining tags -/

/-- **Obtaining a tag** keeps the tags that are held, and if it succeeds it gives one that is. -/
theorem AllHeld.obtainTag (h : AllHeld plc values) {outcome : Except TransportError TagRef}
    (hobtain : Registry.obtainTag values plc connection = (next, outcome)) :
    next.Grows plc ∧ ∀ ref, outcome = .ok ref → next.Holds ref := by
  obtain ⟨rfl, held, rfl, -, v, hv, htag⟩ | ⟨-, hcreate⟩ := obtainTag_cases hobtain
  · refine ⟨.refl _, fun ref href => ?_⟩
    cases href
    exact h v hv held htag
  · exact Plc.create_grows hcreate

theorem AllHeld.groupTag (h : AllHeld plc values) {group : Group}
    {outcome : Except TransportError TagRef}
    (hobtain : MergePass.groupTag values plc route group = (next, outcome)) :
    next.Grows plc ∧ ∀ ref, outcome = .ok ref → next.Holds ref := by
  unfold MergePass.groupTag at hobtain
  split at hobtain
  · next tag hmaster =>
    obtain ⟨rfl, rfl⟩ := Prod.mk.inj hobtain
    unfold masterTag? at hmaster
    split at hmaster
    · obtain ⟨v, hfind, htag⟩ := Option.bind_eq_some_iff.mp hmaster
      refine ⟨.refl _, fun ref href => ?_⟩
      cases href
      exact h v (List.mem_of_find?_eq_some hfind) tag htag
    · cases hmaster
  · exact h.obtainTag hobtain

/-- **Registering** keeps all tags held. -/
theorem AllHeld.register {r registry : Registry} {text : String} {v : Registered}
    (h : AllHeld plc r.values) (hadded : r.register plc route text = .ok (registry, next, v)) :
    next.Grows plc ∧ AllHeld next registry.values := by
  obtain ⟨d, outcome, -, hobtain, rfl, rfl⟩ := register_eq_ok hadded
  obtain ⟨hgrows, hheld⟩ := h.obtainTag hobtain
  refine ⟨hgrows, fun u hu ref href => ?_⟩
  rcases List.mem_append.mp hu with hu | hu
  · exact hgrows.upholds.holds (h u hu ref href)
  · rw [List.mem_singleton] at hu
    subst hu
    cases outcome with
    | error cause => cases href
    | ok made =>
      cases href
      exact hheld ref rfl

end

/-! ## Merging -/

/-- **The invariant of a pass** that starts on a controller: it has created tags, and all tags of
values are held. -/
structure MergePass.Holding (start : Plc) (pass : MergePass) : Prop where
  grows : pass.plc.Grows start
  held : AllHeld pass.plc pass.values

section

variable {start : Plc} {pass : MergePass} {groups : List Group}

/-- One group. -/
theorem MergePass.Holding.mergeGroup (h : Holding start pass) (route : String) (group : Group) :
    Holding start (MergePass.mergeGroup route pass group) := by
  have hwaiting : AllHeld pass.plc
      (MergePass.update pass.values group.members fun v => v.withState .pending) :=
    h.held.update fun v ref href => Or.inl href
  unfold MergePass.mergeGroup
  dsimp only
  split
  · next plc tag hobtain =>
    obtain ⟨hgrows, hheld⟩ := hwaiting.groupTag hobtain
    refine ⟨hgrows.trans h.grows, (hwaiting.mono hgrows.upholds).update fun v ref href => ?_⟩
    cases href
    exact Or.inr (hheld tag rfl)
  · next plc cause hobtain =>
    obtain ⟨hgrows, -⟩ := hwaiting.groupTag hobtain
    exact ⟨hgrows.trans h.grows,
      (hwaiting.mono hgrows.upholds).update fun v ref href => Or.inl href⟩

/-- One slice. -/
theorem MergePass.Holding.mergeSlice (h : Holding start pass) (route : String)
    (groups : List Group) (family : Family) (size : Nat) (slice : Slice) :
    Holding start (MergePass.mergeSlice route groups family size pass slice) := by
  unfold MergePass.mergeSlice
  split
  · next master offsets _ _ =>
    dsimp only
    split
    · next plc tag hcreate =>
      obtain ⟨hgrows, hheld⟩ := Plc.create_grows hcreate
      refine ⟨hgrows.trans h.grows, ?_⟩
      rw [moveToSlice_eq]
      refine (h.held.mono hgrows.upholds).map fun v _ ref href => ?_
      rcases moved_cases master tag offsets v with ⟨-, offset, -, heq⟩ | ⟨-, heq⟩
      · rw [heq] at href
        cases href
        exact Or.inr (hheld tag rfl)
      · exact Or.inl (heq ▸ href)
    · next plc cause hcreate =>
      obtain ⟨hgrows, -⟩ := Plc.create_grows hcreate
      exact ⟨hgrows.trans h.grows, h.held.mono hgrows.upholds⟩
  · exact h

/-- One family: its slices one after the other. -/
theorem MergePass.Holding.mergeFamily (h : Holding start pass) (route : String)
    (groups : List Group) (family : Family) :
    Holding start (MergePass.mergeFamily route groups pass family) := by
  unfold MergePass.mergeFamily
  dsimp only
  split
  · exact h
  · exact List.foldlRecOn _ _ h fun pass hpass slice _ => hpass.mergeSlice route groups _ _ slice

/-- **A merge pass** keeps all tags of values held, and what the controller stores and refuses. -/
theorem AllHeld.merge {plc : Plc} {r : Registry} (h : AllHeld plc r.values) (route : String)
    (threshold : Nat) : AllHeld (r.merge plc route threshold).2.1
        (r.merge plc route threshold).1.values ∧
      (r.merge plc route threshold).2.1.memory = plc.memory ∧
      (r.merge plc route threshold).2.1.refused = plc.refused := by
  have hstart : Holding plc (r.startMerge plc (r.plan threshold)) :=
    ⟨.refl plc, h.update fun v ref href => Or.inl href⟩
  have hgrouped : Holding plc ((r.plan threshold).groups.foldl (MergePass.mergeGroup route)
      (r.startMerge plc (r.plan threshold))) :=
    List.foldlRecOn _ _ hstart fun pass hpass group _ => hpass.mergeGroup route group
  have hsliced := List.foldlRecOn (Family.ofGroups (r.plan threshold).groups)
    (MergePass.mergeFamily route (r.plan threshold).groups) hgrouped
    fun pass hpass family _ => hpass.mergeFamily route _ family
  unfold Registry.merge
  dsimp only
  revert hsliced
  generalize (Family.ofGroups _).foldl _ _ = sliced
  intro hsliced
  refine ⟨fun v hv ref href => (hsliced.held v hv ref href).keepOnly ?_, ?_, ?_⟩
  · exact List.mem_filterMap.mpr ⟨v, hv, congrArg (Option.map TagRef.handle) href⟩
  · exact (Plc.memory_keepOnly _ _).trans hsliced.grows.memory
  · exact (Plc.refused_keepOnly _ _).trans hsliced.grows.refused

end

/-! ## What becomes of values -/

/-- **The same value after a pass**: it may be read elsewhere, but its own tag and the place there
are as before. A value that an earlier pass has left alone is left alone. -/
structure Registered.Survives (v w : Registered) : Prop where
  id : w.id = v.id
  connection : w.connection = v.connection
  descriptor : w.descriptor = { v.descriptor with offset := w.descriptor.offset }
  own : w.elementOffset.getD w.descriptor.offset = v.elementOffset.getD v.descriptor.offset
  alone : v.state.sharesBuffer = false → v.state ≠ .notRequested → w = v

theorem Registered.Survives.refl (v : Registered) : v.Survives v :=
  ⟨rfl, rfl, rfl, rfl, fun _ _ => rfl⟩

/-- A group changes neither a value's own tag nor its place. -/
theorem Registered.survives_settled {v : Registered} (group : Group) (outcome : Option TagRef)
    (hwaits : v.state = .notRequested) : v.Survives (group.settled outcome v) := by
  cases outcome <;> exact ⟨rfl, rfl, rfl, rfl, fun _ hstate => absurd hwaits hstate⟩

/-- The second level keeps what the first has kept. -/
theorem Registered.Survives.relocated {u v w : Registered} (h : u.Survives v)
    (hmoved : Relocated v w) : u.Survives w := by
  rcases hmoved with rfl | hgoes
  · exact h
  · refine ⟨hgoes.id.trans h.id, hgoes.connection.trans h.connection, ?_, hgoes.own.trans h.own,
      fun hshares hstate => ?_⟩
    · rw [hgoes.descriptor, h.descriptor]
    · -- only values that share a buffer are moved
      have hbefore := hgoes.before
      rw [h.alone hshares hstate, hshares] at hbefore
      cases hbefore

/-- **What a pass makes of the values**: each survives. -/
theorem Registry.Sound.survives_merge {route : String} {parsed : List Descriptor} {r : Registry}
    (h : r.Sound route parsed) (plc : Plc) (threshold : Nat) :
    List.Forall₂ Registered.Survives r.values (r.merge plc route threshold).1.values := by
  obtain ⟨done, hdone, hvalues, hslicing⟩ := h.exists_slicing MergePass.plc plc threshold
  have hfits := fits_plan h.ids_nodup threshold
  have hplaced : ∀ v ∈ r.values, v.Survives (placed (r.plan threshold) done v) := by
    intro v hv
    rcases placed_cases hfits hdone hv with
      ⟨group, outcome, -, -, hwaits, heq⟩ | ⟨hwaits, heq⟩ | ⟨-, -, heq⟩
    · rw [heq]
      exact Registered.survives_settled group outcome hwaits
    · rw [heq]
      exact ⟨rfl, rfl, rfl, rfl, fun _ hstate => absurd hwaits hstate⟩
    · rw [heq]
      exact .refl v
  have hrelocated := hslicing.relocated
  rw [mergeAmid_plc, hvalues, List.forall₂_map_left_iff] at hrelocated
  exact ((List.forall₂_and_left _ _).mpr ⟨hplaced, hrelocated⟩).imp
    fun v w hboth => hboth.1.relocated hboth.2

end PlcTags

import PlcTags.Proofs.Plan.Groups
import PlcTags.Proofs.Registry.Enrolled
import PlcTags.Registry.Merge

/-!
# What a merge pass makes of the values

The first level treats the groups of the plan one after the other. Groups have no value in common,
so what becomes of a value is told by its own group alone: `settle` says it at once, for all groups
that were treated.

* `Merging`: the invariant of the first level. The values are settled, their tags live, and the tag
  of a group has the name of its parent.
* `merging_foldl`: it holds after all groups.
* `Unmoved`: a second level that moves nothing changes nothing.
* `Intact.settled`: what a whole pass makes of a registry, when nothing is moved.
-/

namespace PlcTags

open Registry MergePass

/-! ## Settled values -/

/-- What becomes of a member of a group whose tag was obtained, or was not. -/
def Group.settled (group : Group) (outcome : Option TagRef) (v : Registered) : Registered :=
  match outcome with
  | some tag => v.joinGroup group.master tag
  | none => v.withState .failed

/-- **What becomes of a value** when groups have been treated, each with the tag it got. -/
def settle (done : List (Group × Option TagRef)) (v : Registered) : Registered :=
  match done.find? fun entry => decide (v.id ∈ entry.1.members) with
  | some entry => entry.1.settled entry.2 v
  | none => v

section

variable {done : List (Group × Option TagRef)} {group : Group} {outcome : Option TagRef}
  {v : Registered}

@[simp] theorem id_settled (group : Group) (outcome : Option TagRef) (v : Registered) :
    (group.settled outcome v).id = v.id := by
  cases outcome <;> rfl

@[simp] theorem descriptor_settled (group : Group) (outcome : Option TagRef) (v : Registered) :
    (group.settled outcome v).descriptor = v.descriptor := by
  cases outcome <;> rfl

@[simp] theorem id_settle (done : List (Group × Option TagRef)) (v : Registered) :
    (settle done v).id = v.id := by
  unfold settle
  split
  · exact id_settled _ _ v
  · rfl

@[simp] theorem descriptor_settle (done : List (Group × Option TagRef)) (v : Registered) :
    (settle done v).descriptor = v.descriptor := by
  unfold settle
  split
  · exact descriptor_settled _ _ v
  · rfl

theorem find?_eq_none_of_not_mem (h : ∀ entry ∈ done, v.id ∉ entry.1.members) :
    done.find? (fun entry => decide (v.id ∈ entry.1.members)) = none :=
  List.find?_eq_none.mpr fun entry hentry => by simpa using h entry hentry

theorem settle_of_not_mem (h : ∀ entry ∈ done, v.id ∉ entry.1.members) : settle done v = v := by
  rw [settle, find?_eq_none_of_not_mem h]

theorem settle_append_of_not_mem (h : v.id ∉ group.members) :
    settle (done ++ [(group, outcome)]) v = settle done v := by
  have hlast : ∀ entry ∈ [(group, outcome)], v.id ∉ entry.1.members := by
    intro entry hentry
    rw [List.mem_singleton.mp hentry]
    exact h
  rw [settle, settle, List.find?_append, find?_eq_none_of_not_mem hlast, Option.or_none]

theorem settle_append_of_mem (hnew : ∀ entry ∈ done, v.id ∉ entry.1.members)
    (h : v.id ∈ group.members) :
    settle (done ++ [(group, outcome)]) v = group.settled outcome v := by
  have hlast : ([(group, outcome)] : List (Group × Option TagRef)).find?
      (fun entry => decide (v.id ∈ entry.1.members)) = some (group, outcome) :=
    List.find?_cons_of_pos (by simpa using h)
  rw [settle, List.find?_append, find?_eq_none_of_not_mem hnew, hlast, Option.none_or]

/-- Of disjoint groups, it is the own group that settles a value. -/
theorem settle_of_mem (hdisjoint : (done.map Prod.fst).Pairwise Group.Disjoint)
    (hentry : (group, outcome) ∈ done) (h : v.id ∈ group.members) :
    settle done v = group.settled outcome v := by
  induction done with
  | nil => cases hentry
  | cons first rest ih =>
    rw [List.map_cons, List.pairwise_cons] at hdisjoint
    rcases List.mem_cons.mp hentry with rfl | hrest
    · rw [settle, List.find?_cons_of_pos (by simpa using h)]
    · have hnot : v.id ∉ first.1.members := fun hfirst =>
        hdisjoint.1 group (List.mem_map_of_mem hrest) v.id hfirst h
      have hsettle : settle (first :: rest) v = settle rest v := by
        rw [settle, List.find?_cons_of_neg (by simpa using hnot), settle]
      rw [hsettle, ih hdisjoint.2 hrest]

/-- A settled value is as it was, or one of a group settled it. -/
theorem settle_cases (done : List (Group × Option TagRef)) (v : Registered) :
    settle done v = v ∨ ∃ entry ∈ done, v.id ∈ entry.1.members ∧
      settle done v = entry.1.settled entry.2 v := by
  unfold settle
  cases hfind : done.find? fun entry => decide (v.id ∈ entry.1.members) with
  | none => exact Or.inl rfl
  | some entry =>
    exact Or.inr ⟨entry, List.mem_of_find?_eq_some hfind, by simpa using List.find?_some hfind, rfl⟩

end

/-! ## The first level -/

/-- The values that a pass starts from: told apart by their identifiers, each with its own tag if it
has one. -/
structure Ready (route : String) (base : List Registered) (plc : Plc) : Prop where
  ids : (base.map Registered.id).Nodup
  own : ∀ v ∈ base, ∀ ref, v.tag = some ref →
    tagNameOf ref.connection = tagName route v.descriptor.tag
  served : Served plc base
  fresh : plc.Fresh

/-- What a plan is made of. -/
def planned (base : List Registered) : List (ValueId × Descriptor) :=
  base.map fun v => (v.id, v.descriptor)

theorem ids_planned (base : List Registered) :
    (planned base).map Prod.fst = base.map Registered.id := by
  rw [planned, List.map_map]
  rfl

/-- The plan has a value under its own descriptor. -/
theorem descriptor_of_mem_planned {base : List Registered} {v : Registered} {d : Descriptor}
    (hids : (base.map Registered.id).Nodup) (hv : v ∈ base) (hd : (v.id, d) ∈ planned base) :
    d = v.descriptor :=
  Plan.eq_of_mem_nodup (ids_planned base ▸ hids) hd (List.mem_map.mpr ⟨v, hv, rfl⟩)

/-- The name of a tag is in use among values, or may be created. -/
def Known (base : List Registered) (plc : Plc) (name : String) : Prop :=
  (∃ v ∈ base, ∃ ref, v.tag = some ref ∧ tagNameOf ref.connection = name) ∨ plc.admits name = true

/-- **The invariant of the first level**, for the values and the controller at the start and the
groups that were treated. -/
structure Merging (route : String) (base : List Registered) (start : Plc)
    (done : List (Group × Option TagRef)) (pass : MergePass) : Prop where
  values : pass.values = base.map (settle done)
  fresh : pass.plc.Fresh
  continues : pass.plc.Continues start
  served : Served pass.plc pass.values
  known : ∀ v ∈ pass.values, ∀ ref, v.tag = some ref → Known base start (tagNameOf ref.connection)
  named : ∀ entry ∈ done, ∀ tag, entry.2 = some tag →
    tagNameOf tag.connection = tagName route entry.1.parent
  unsliced : pass.report.slices = 0

section

variable {route : String} {base : List Registered} {start : Plc} {pass : MergePass}
  {done : List (Group × Option TagRef)} {group : Group} {outcome : Option TagRef}

theorem update_update {values : List Registered} {ids : List ValueId}
    {first second : Registered → Registered} (hid : ∀ v, (first v).id = v.id) :
    update (update values ids first) ids second = update values ids fun v => second (first v) := by
  unfold update
  rw [List.map_map]
  refine List.map_congr_left fun v _ => ?_
  by_cases hv : v.id ∈ ids
  · simp [hv, hid]
  · simp [hv]

/-- Members of a group wait, and then are settled; that they waited leaves no trace. -/
theorem update_waiting (hnew : ∀ entry ∈ done, entry.1.Disjoint group)
    {change : Registered → Registered}
    (hchange : ∀ v, change (v.withState .pending) = group.settled outcome v) :
    update (update (base.map (settle done)) group.members fun v => v.withState .pending)
        group.members change = base.map (settle (done ++ [(group, outcome)])) := by
  rw [update_update fun v => show (v.withState .pending).id = v.id from rfl]
  unfold update
  rw [List.map_map]
  refine List.map_congr_left fun v _ => ?_
  by_cases hv : v.id ∈ group.members
  · have hfree : ∀ entry ∈ done, v.id ∉ entry.1.members :=
      fun entry hentry hin => hnew entry hentry v.id hin hv
    simp [settle_of_not_mem hfree, settle_append_of_mem hfree hv, hv, hchange]
  · simp [settle_append_of_not_mem hv, id_settle, hv]

theorem tag_settle_append {v : Registered} {ref : TagRef}
    (hnew : ∀ entry ∈ done, entry.1.Disjoint group)
    (h : (settle (done ++ [(group, outcome)]) v).tag = some ref) :
    (settle done v).tag = some ref ∨ outcome = some ref := by
  by_cases hv : v.id ∈ group.members
  · have hfree : ∀ entry ∈ done, v.id ∉ entry.1.members :=
      fun entry hentry hin => hnew entry hentry v.id hin hv
    rw [settle_append_of_mem hfree hv] at h
    cases outcome with
    | some tag => exact Or.inr h
    | none =>
      rw [settle_of_not_mem hfree]
      exact Or.inl h
  · rw [settle_append_of_not_mem hv] at h
    exact Or.inl h

theorem mem_update {values : List Registered} {ids : List ValueId}
    {change : Registered → Registered} {v : Registered} (h : v ∈ update values ids change) :
    ∃ u ∈ values, v = if u.id ∈ ids then change u else u := by
  obtain ⟨u, hu, rfl⟩ := List.mem_map.mp h
  exact ⟨u, hu, rfl⟩

/-- Waiting changes no tag. -/
theorem mem_waiting {values : List Registered} {ids : List ValueId} {v : Registered}
    (h : v ∈ update values ids fun v => v.withState .pending) :
    ∃ u ∈ values, u.id = v.id ∧ u.tag = v.tag := by
  obtain ⟨u, hu, rfl⟩ := mem_update h
  exact ⟨u, hu, by split <;> rfl, by split <;> rfl⟩

/-- A master that is the parent still has its own tag when its group is treated. -/
theorem tagNameOf_masterTag? {ref : TagRef} (hready : Ready route base start)
    (hholds : group.Holds (planned base)) (hnew : ∀ entry ∈ done, entry.1.Disjoint group)
    (h : masterTag? (update (base.map (settle done)) group.members fun v => v.withState .pending)
      group = some ref) : tagNameOf ref.connection = tagName route group.parent := by
  unfold masterTag? at h
  split at h
  · next hparent =>
    obtain ⟨waiting, hfind, htag⟩ := Option.bind_eq_some_iff.mp h
    have hid : waiting.id = group.master := by simpa using List.find?_some hfind
    obtain ⟨u, hu, huid, hutag⟩ := mem_waiting (List.mem_of_find?_eq_some hfind)
    obtain ⟨v, hv, rfl⟩ := List.mem_map.mp hu
    rw [id_settle, hid] at huid
    -- no group before has the master
    rw [settle_of_not_mem fun entry hentry hin =>
      hnew entry hentry v.id hin (huid ▸ hholds.master)] at hutag
    obtain ⟨d, hd, hdtag⟩ := hholds.parent hparent
    rw [← huid] at hd
    rw [hready.own v hv ref (hutag.trans htag), ← hdtag,
      descriptor_of_mem_planned hready.ids hv hd]
  · cases h

/-- **The tag of a group** has the name of its parent and lives. -/
theorem groupTag_spec {next : Plc} {result : Except TransportError TagRef}
    (hready : Ready route base start) (hmerging : Merging route base start done pass)
    (hholds : group.Holds (planned base)) (hnew : ∀ entry ∈ done, entry.1.Disjoint group)
    (h : groupTag (update pass.values group.members fun v => v.withState .pending) pass.plc route
      group = (next, result)) :
    next.Fresh ∧ next.Continues pass.plc ∧ ∀ ref, result = .ok ref →
      tagNameOf ref.connection = tagName route group.parent ∧ next.Backs ref ∧
        Known base start (tagNameOf ref.connection) := by
  have hwaiting : ∀ v ∈ update pass.values group.members (fun v => v.withState .pending),
      ∀ ref, v.tag = some ref → pass.plc.Backs ref ∧
        Known base start (tagNameOf ref.connection) := by
    intro v hv ref href
    obtain ⟨u, hu, -, hutag⟩ := mem_waiting hv
    exact ⟨hmerging.served u hu ref (hutag.trans href), hmerging.known u hu ref (hutag.trans href)⟩
  unfold groupTag at h
  cases hmaster : masterTag? (update pass.values group.members fun v => v.withState .pending)
    group with
  | some tag =>
    -- the master is the parent, its tag serves the group
    rw [hmaster] at h
    obtain ⟨rfl, rfl⟩ := Prod.mk.inj h
    refine ⟨hmerging.fresh, Plc.Continues.refl _, fun ref href => ?_⟩
    cases href
    have hname := hmerging.values ▸ hmaster
    have hheld : ∃ v ∈ update pass.values group.members (fun v => v.withState .pending),
        v.tag = some tag := by
      unfold masterTag? at hmaster
      split at hmaster
      · obtain ⟨v, hfind, htag⟩ := Option.bind_eq_some_iff.mp hmaster
        exact ⟨v, List.mem_of_find?_eq_some hfind, htag⟩
      · cases hmaster
    obtain ⟨v, hv, htag⟩ := hheld
    exact ⟨tagNameOf_masterTag? hready hholds hnew hname, hwaiting v hv tag htag⟩
  | none =>
    -- some value has the tag, or it is created: its creation text names the parent
    rw [hmaster] at h
    obtain ⟨hfresh, hcontinues, hspec⟩ := obtainTag_spec hmerging.fresh
      (fun v hv ref href => (hwaiting v hv ref href).1) h
    refine ⟨hfresh, hcontinues, fun ref href => ?_⟩
    obtain ⟨hconnection, hbacks, hsource⟩ := hspec ref href
    have hname : tagNameOf ref.connection = tagName route group.parent := by
      rw [hconnection]
      exact tagNameOf_connectionText _ _ _ _
    refine ⟨hname, hbacks, ?_⟩
    rcases hsource with ⟨v, hv, htag⟩ | hadmits
    · exact (hwaiting v hv ref htag).2
    · rw [← hconnection] at hadmits
      refine Or.inr ?_
      unfold Plc.admits at hadmits ⊢
      rwa [← hmerging.continues.refused]

/-- The invariant after one more group, whatever came of it. -/
theorem Merging.append {next : MergePass} (hmerging : Merging route base start done pass)
    (hnew : ∀ entry ∈ done, entry.1.Disjoint group)
    (hvalues : next.values = base.map (settle (done ++ [(group, outcome)])))
    (hfresh : next.plc.Fresh) (hcontinues : next.plc.Continues pass.plc)
    (htag : ∀ ref, outcome = some ref → tagNameOf ref.connection = tagName route group.parent ∧
      next.plc.Backs ref ∧ Known base start (tagNameOf ref.connection))
    (hunsliced : next.report.slices = 0) :
    Merging route base start (done ++ [(group, outcome)]) next := by
  have htags : ∀ v ∈ next.values, ∀ ref, v.tag = some ref →
      next.plc.Backs ref ∧ Known base start (tagNameOf ref.connection) := by
    intro v hv ref href
    rw [hvalues] at hv
    obtain ⟨u, hu, rfl⟩ := List.mem_map.mp hv
    -- a tag was there before this group, or it is the tag of this group
    rcases tag_settle_append hnew href with hbefore | houtcome
    · have hmem : settle done u ∈ pass.values := hmerging.values ▸ List.mem_map_of_mem hu
      exact ⟨hcontinues.tags.backs (hmerging.served _ hmem ref hbefore),
        hmerging.known _ hmem ref hbefore⟩
    · exact (htag ref houtcome).2
  have hnamed : ∀ entry ∈ done ++ [(group, outcome)], ∀ tag, entry.2 = some tag →
      tagNameOf tag.connection = tagName route entry.1.parent := by
    intro entry hentry tag hsome
    rcases List.mem_append.mp hentry with hentry | hentry
    · exact hmerging.named entry hentry tag hsome
    · rw [List.mem_singleton] at hentry
      subst hentry
      exact (htag tag hsome).1
  exact
    { values := hvalues
      fresh := hfresh
      continues := hcontinues.trans hmerging.continues
      served := fun v hv ref href => (htags v hv ref href).1
      known := fun v hv ref href => (htags v hv ref href).2
      named := hnamed
      unsliced := hunsliced }

/-- **What one group does**, whether its tag was obtained or not. -/
theorem mergeGroup_eq {next : Plc} {result : Except TransportError TagRef}
    (h : groupTag (update pass.values group.members fun v => v.withState .pending) pass.plc route
      group = (next, result)) :
    (mergeGroup route pass group).values =
        update (update pass.values group.members fun v => v.withState .pending) group.members
          (group.settled result.toOption) ∧
      (mergeGroup route pass group).plc = next ∧
      (mergeGroup route pass group).report.slices = pass.report.slices := by
  unfold mergeGroup
  simp only [h]
  cases result <;> exact ⟨rfl, rfl, rfl⟩

/-- **One group** keeps the invariant. -/
theorem merging_mergeGroup (hready : Ready route base start)
    (hmerging : Merging route base start done pass) (hholds : group.Holds (planned base))
    (hnew : ∀ entry ∈ done, entry.1.Disjoint group) :
    ∃ outcome, Merging route base start (done ++ [(group, outcome)])
      (mergeGroup route pass group) := by
  cases hgroup : groupTag (update pass.values group.members fun v => v.withState .pending) pass.plc
    route group with
  | mk next result =>
    obtain ⟨hfresh, hcontinues, hspec⟩ := groupTag_spec hready hmerging hholds hnew hgroup
    obtain ⟨hvalues, rfl, hslices⟩ := mergeGroup_eq hgroup
    have hsettled : ∀ v, group.settled result.toOption (v.withState .pending) =
        group.settled result.toOption v := by
      intro v
      cases result <;> rfl
    refine ⟨result.toOption, hmerging.append hnew ?_ hfresh hcontinues ?_
      (hslices.trans hmerging.unsliced)⟩
    · rw [hvalues, hmerging.values, update_waiting hnew hsettled]
    · intro ref href
      cases result with
      | error cause => cases href
      | ok tag =>
        cases href
        exact hspec ref rfl

/-- **All groups**: induction on those that are left. -/
theorem merging_foldl {groups : List Group} (hready : Ready route base start)
    (hmerging : Merging route base start done pass)
    (hholds : ∀ group ∈ groups, group.Holds (planned base))
    (hdisjoint : (done.map Prod.fst ++ groups).Pairwise Group.Disjoint) :
    ∃ all : List (Group × Option TagRef), all.map Prod.fst = done.map Prod.fst ++ groups ∧
      Merging route base start all (groups.foldl (mergeGroup route) pass) := by
  induction groups generalizing done pass with
  | nil => exact ⟨done, (List.append_nil _).symm, hmerging⟩
  | cons group rest ih =>
    have hnew : ∀ entry ∈ done, entry.1.Disjoint group := fun entry hentry =>
      (List.pairwise_append.mp hdisjoint).2.2 entry.1 (List.mem_map_of_mem hentry) group
        List.mem_cons_self
    obtain ⟨outcome, hnext⟩ := merging_mergeGroup hready hmerging
      (hholds group List.mem_cons_self) hnew
    have hlist : (done ++ [(group, outcome)]).map Prod.fst ++ rest =
        done.map Prod.fst ++ group :: rest := by
      rw [List.map_append, List.append_assoc]
      rfl
    obtain ⟨all, hall, hmerged⟩ := ih hnext (fun g hg => hholds g (List.mem_cons_of_mem _ hg))
      (hlist ▸ hdisjoint)
    exact ⟨all, hall.trans hlist, hmerged⟩

end

/-! ## The second level -/

/-- A pass goes on without slices: none is counted unless values are moved. -/
structure Unmoved (next pass : MergePass) : Prop where
  slices : pass.report.slices ≤ next.report.slices
  values : next.report.slices = pass.report.slices → next.values = pass.values
  plc : next.report.slices = pass.report.slices → next.plc = pass.plc

theorem Unmoved.refl (pass : MergePass) : Unmoved pass pass :=
  ⟨Nat.le_refl _, fun _ => rfl, fun _ => rfl⟩

theorem Unmoved.trans {last next first : MergePass} (h : Unmoved last next)
    (h' : Unmoved next first) : Unmoved last first := by
  have hlast := h.slices
  have hnext := h'.slices
  refine ⟨hnext.trans hlast, fun heq => ?_, fun heq => ?_⟩
  · rw [h.values (by omega), h'.values (by omega)]
  · rw [h.plc (by omega), h'.plc (by omega)]

theorem unmoved_foldl {α : Type} {step : MergePass → α → MergePass}
    (h : ∀ pass x, Unmoved (step pass x) pass) (xs : List α) (pass : MergePass) :
    Unmoved (xs.foldl step pass) pass := by
  induction xs generalizing pass with
  | nil => exact Unmoved.refl pass
  | cons x rest ih => exact (ih (step pass x)).trans (h pass x)

theorem unmoved_mergeSlice (route : String) (groups : List Group) (family : Family) (size : Nat)
    (pass : MergePass) (slice : Slice) :
    Unmoved (mergeSlice route groups family size pass slice) pass := by
  unfold mergeSlice
  split
  · dsimp only
    split
    · exact ⟨Nat.le_succ _, fun h => absurd h (Nat.succ_ne_self _),
        fun h => absurd h (Nat.succ_ne_self _)⟩
    · next hcreate => exact ⟨Nat.le_refl _, fun _ => rfl, fun _ => Plc.create_eq_error hcreate⟩
  · exact Unmoved.refl pass

theorem unmoved_mergeFamily (route : String) (groups : List Group) (pass : MergePass)
    (family : Family) : Unmoved (mergeFamily route groups pass family) pass := by
  unfold mergeFamily
  dsimp only
  split
  · exact Unmoved.refl pass
  · exact unmoved_foldl (unmoved_mergeSlice route groups _ _) _ pass

/-! ## A whole pass -/

/-- The value before the first group, when some values are left alone for good. -/
def leftAlone (notMerged : List ValueId) (v : Registered) : Registered :=
  if v.id ∈ notMerged then v.withState .doNotOptimise else v

section

variable (notMerged : List ValueId) (v : Registered)

@[simp] theorem id_leftAlone : (leftAlone notMerged v).id = v.id := by
  unfold leftAlone
  split <;> rfl

@[simp] theorem descriptor_leftAlone : (leftAlone notMerged v).descriptor = v.descriptor := by
  unfold leftAlone
  split <;> rfl

@[simp] theorem tag_leftAlone : (leftAlone notMerged v).tag = v.tag := by
  unfold leftAlone
  split <;> rfl

@[simp] theorem readFlag_leftAlone : (leftAlone notMerged v).readFlag = v.readFlag := by
  unfold leftAlone
  split <;> rfl

theorem planned_leftAlone (values : List Registered) :
    planned (values.map (leftAlone notMerged)) = planned values := by
  simp [planned]

end

/-- **The outcome of a pass that moves nothing to slices**, on the values of a registry: each is
settled by its group, if it has one. -/
structure Settled (route : String) (threshold : Nat) (r : Registry) (start : Plc)
    (done : List (Group × Option TagRef)) (values : List Registered) (plc : Plc) : Prop where
  groups : done.map Prod.fst = (r.plan threshold).groups
  holds : ∀ entry ∈ done, entry.1.Holds (planned r.values)
  disjoint : (done.map Prod.fst).Pairwise Group.Disjoint
  settled : values =
    r.values.map fun v => settle done (leftAlone (r.plan threshold).notMerged v)
  memory : plc.memory = start.memory
  served : Served plc values
  known : ∀ v ∈ values, ∀ ref, v.tag = some ref → Known r.values start (tagNameOf ref.connection)
  named : ∀ entry ∈ done, ∀ tag, entry.2 = some tag →
    tagNameOf tag.connection = tagName route entry.1.parent

namespace Intact

variable {route : String} {r : Registry} {plc : Plc}

/-- A registry that was never merged plans for all its values. -/
theorem plan_eq (h : Intact route r plc) (threshold : Nat) :
    r.plan threshold = Plan.ofValues (planned r.values) threshold := by
  have hall : r.values.filter (fun v => v.state == .notRequested) = r.values :=
    List.filter_eq_self.mpr fun v hv => by rw [(h.untouched v hv).state]; rfl
  unfold Registry.plan planned
  rw [hall]

theorem groups_hold (h : Intact route r plc) {threshold : Nat} {group : Group}
    (hgroup : group ∈ (r.plan threshold).groups) : group.Holds (planned r.values) := by
  rw [h.plan_eq] at hgroup
  exact Plan.groups_hold hgroup

theorem groups_disjoint (h : Intact route r plc) (threshold : Nat) :
    (r.plan threshold).groups.Pairwise Group.Disjoint := by
  rw [h.plan_eq]
  exact Plan.groups_disjoint (ids_planned r.values ▸ h.ids_nodup)

theorem own (h : Intact route r plc) {v : Registered} (hv : v ∈ r.values) {ref : TagRef}
    (href : v.tag = some ref) : tagNameOf ref.connection = tagName route v.descriptor.tag := by
  have hv := h.untouched v hv
  rw [hv.own ref href, hv.connection]
  exact tagNameOf_connectionText _ _ _ _

theorem ready (h : Intact route r plc) (notMerged : List ValueId) :
    Ready route (r.values.map (leftAlone notMerged)) plc where
  ids := by
    have hids : (r.values.map (leftAlone notMerged)).map Registered.id =
        r.values.map Registered.id := by
      simp
    rw [hids]
    exact h.ids_nodup
  own v hv ref href := by
    obtain ⟨u, hu, rfl⟩ := List.mem_map.mp hv
    rw [tag_leftAlone] at href
    rw [descriptor_leftAlone]
    exact h.own hu href
  served v hv ref href := by
    obtain ⟨u, hu, rfl⟩ := List.mem_map.mp hv
    rw [tag_leftAlone] at href
    exact h.served u hu ref href
  fresh := h.fresh

/-- The first level of a pass over a registry that was never merged. -/
theorem merging (h : Intact route r plc) (threshold : Nat) :
    ∃ done : List (Group × Option TagRef), done.map Prod.fst = (r.plan threshold).groups ∧
      Merging route (r.values.map (leftAlone (r.plan threshold).notMerged)) plc done
        ((r.plan threshold).groups.foldl (mergeGroup route)
          (r.startMerge plc (r.plan threshold))) := by
  have hready := h.ready (r.plan threshold).notMerged
  have hstart : Merging route (r.values.map (leftAlone (r.plan threshold).notMerged)) plc []
      (r.startMerge plc (r.plan threshold)) :=
    { values := by
        rw [show settle [] = id from funext fun v => rfl, List.map_id]
        rfl
      fresh := h.fresh
      continues := Plc.Continues.refl plc
      served := hready.served
      known := fun v hv ref href => Or.inl ⟨v, hv, ref, href, rfl⟩
      named := by simp
      unsliced := rfl }
  have hholds : ∀ group ∈ (r.plan threshold).groups,
      group.Holds (planned (r.values.map (leftAlone (r.plan threshold).notMerged))) := by
    intro group hgroup
    rw [planned_leftAlone]
    exact h.groups_hold hgroup
  exact merging_foldl hready hstart hholds (h.groups_disjoint threshold)

/-- **A pass over a registry that was never merged**, when it moves nothing to slices. -/
theorem settled (h : Intact route r plc) {threshold : Nat}
    (hslices : (r.merge plc route threshold).2.2.slices = 0) :
    ∃ done, Settled route threshold r plc done (r.merge plc route threshold).1.values
      (r.merge plc route threshold).2.1 := by
  obtain ⟨done, hdone, hmerging⟩ := h.merging threshold
  have hunmoved := unmoved_foldl (unmoved_mergeFamily route (r.plan threshold).groups)
    (Family.ofGroups (r.plan threshold).groups)
    ((r.plan threshold).groups.foldl (mergeGroup route) (r.startMerge plc (r.plan threshold)))
  -- nothing was moved, so the second level left everything as the first had made it
  have hstill := hslices.trans hmerging.unsliced.symm
  have hvalues := hunmoved.values hstill
  have hplc := hunmoved.plc hstill
  have hserved : Served (r.merge plc route threshold).2.1
      (r.merge plc route threshold).1.values := by
    intro v hv ref href
    have hkept : ref.handle ∈ handles (r.merge plc route threshold).1.values :=
      List.mem_filterMap.mpr ⟨v, hv, congrArg (Option.map TagRef.handle) href⟩
    obtain ⟨tag, htag, hname⟩ := hmerging.served v (hvalues ▸ hv) ref href
    refine ⟨tag, (Plc.tag?_keepOnly_of_mem hkept).trans ?_, hname⟩
    rw [hplc]
    exact htag
  have hknown : ∀ v ∈ (r.merge plc route threshold).1.values, ∀ ref, v.tag = some ref →
      Known r.values plc (tagNameOf ref.connection) := by
    intro v hv ref href
    rcases hmerging.known v (hvalues ▸ hv) ref href with ⟨u, hu, own, hown, hname⟩ | hadmits
    · obtain ⟨w, hw, rfl⟩ := List.mem_map.mp hu
      rw [tag_leftAlone] at hown
      left
      exact ⟨w, hw, own, hown, hname⟩
    · right
      exact hadmits
  have hmemory : (r.merge plc route threshold).2.1.memory = plc.memory := by
    show (Plc.keepOnly _ _).memory = _
    rw [Plc.memory_keepOnly, hplc]
    exact hmerging.continues.memory
  exact ⟨done,
    { groups := hdone
      holds := fun entry hentry => h.groups_hold (hdone ▸ List.mem_map_of_mem hentry)
      disjoint := hdone ▸ h.groups_disjoint threshold
      settled := (hvalues.trans hmerging.values).trans (by rw [List.map_map]; rfl)
      memory := hmemory
      served := hserved
      known := hknown
      named := hmerging.named }⟩

end Intact

end PlcTags

import Mathlib.Data.List.ReduceOption
import PlcTags.Proofs.Registry.Reached
import PlcTags.Proofs.Transport.Live

/-!
# Owners of tags

During a pass tags are owned by the values, by the values that pollers still see, by the list of
the tags that groups have got, and by the step that is under way. Here the pass is run with every
owner letting go where it does: a value that is given another tag lets go of the one that it had, a
step lets go of the tags that it held when it ends, and the whole pass of its list. A tag is destroyed
when nobody is left who owns it. A pass that destroys at its end what no value refers to comes to the
same.

* `MergePass.owners`: the handles that somebody owns.
* `MergePass.give`: one value is changed, and lets go of the tag that it had.
* `Registry.mergeCounted`: the pass that destroys tags when their last owners let go.
* `Registry.Sound.exists_sliced`: it comes to the same as `Registry.merge`.
-/

namespace PlcTags

open Registry MergePass

namespace MergePass

/-! ## The pass that counts owners -/

/-- The tag of the value of an identifier. -/
def tagOf? (values : List Registered) (id : ValueId) : Option TagRef :=
  (values.find? fun v => v.id == id).bind Registered.tag

/-- **The handles that somebody owns**: the values, those that pollers still see, the list of the
tags of the groups, and the step under way, which holds some tags. -/
def owners (published : List Registered) (held : List TagRef) (pass : MergePass) : List Nat :=
  handles pass.values ++
    (handles published ++ (pass.shared.reduceOption ++ held).map TagRef.handle)

/-- One value changes, and lets go of the tag that it had. -/
def give (published : List Registered) (held : List TagRef) (pass : MergePass)
    (move : ValueId × (Registered → Registered)) : MergePass :=
  let next := { pass with values := update pass.values [move.1] move.2 }
  { next with plc := next.plc.letGo (next.owners published held) (tagOf? pass.values move.1) }

/-- A step ends, and lets go of a tag that it held. -/
def release (published : List Registered) (pass : MergePass) (ref? : Option TagRef) : MergePass :=
  { pass with plc := pass.plc.letGo (pass.owners published []) ref? }

/-- The values while a group is treated. -/
def waiting (values : List Registered) (group : Group) : List Registered :=
  update values group.members fun v => v.withState .pending

/-- One group. Its step holds the tag that the group gets and a copy of the master. -/
def mergeGroupCounted (published : List Registered) (route : String) (pass : MergePass)
    (group : Group) : MergePass :=
  let master? := tagOf? (waiting pass.values group) group.master
  let after := mergeGroup route pass group
  match groupTag (waiting pass.values group) pass.plc route group with
  | (plc, .ok tag) =>
    let moves := group.members.map fun id => (id, fun v => Registered.joinGroup v group.master tag)
    let given := moves.foldl (give published (tag :: master?.toList))
      { pass with values := waiting pass.values group, plc := plc }
    release published { after with values := given.values, plc := given.plc } master?
  | (_, .error _) => release published after master?

/-- One slice. Its step holds the tag of the slice. -/
def mergeSliceCounted (published : List Registered) (route : String) (groups : List Group)
    (family : Family) (elementSize : Nat) (pass : MergePass) (slice : Slice) : MergePass :=
  let after := mergeSlice route groups family elementSize pass slice
  match sliceMaster? groups slice, rebased? pass.values groups slice elementSize with
  | some master, some offsets =>
    let name := s!"{family.array}[{slice.start}]"
    match pass.plc.create (sharedConnection pass.values route name slice.count master) with
    | (plc, .ok tag) =>
      let moves := offsets.map fun entry =>
        (entry.1, fun v => Registered.joinSlice v master tag entry.2)
      let given := moves.foldl (give published [tag]) { pass with plc := plc }
      release published { after with values := given.values, plc := given.plc } (some tag)
    | (_, .error _) => after
  | _, _ => after

/-- One family. -/
def mergeFamilyCounted (published : List Registered) (route : String) (groups : List Group)
    (pass : MergePass) (family : Family) : MergePass :=
  let usableFamily := usable pass.shared family
  match elementSize? pass usableFamily with
  | none => pass
  | some size =>
    (usableFamily.slices size).foldl (mergeSliceCounted published route groups usableFamily size)
      pass

end MergePass

/-- **A pass that destroys tags when their last owners let go.** Pollers see the values of before
until the outcome is published; then nobody owns those any more. -/
def Registry.mergeCounted (r : Registry) (plc : Plc) (published : List Registered) (route : String)
    (threshold : Nat) : Registry × Plc × MergeReport :=
  let plan := r.plan threshold
  let grouped := plan.groups.foldl (MergePass.mergeGroupCounted published route)
    (r.startMerge plc plan)
  let sliced := (Family.ofGroups plan.groups).foldl
    (MergePass.mergeFamilyCounted published route plan.groups) grouped
  let unlisted := Plc.letGoAll (handles sliced.values ++ handles published)
    sliced.shared.reduceOption sliced.plc
  let unpublished := Plc.letGoAll (handles sliced.values) (published.filterMap Registered.tag)
    unlisted
  ({ r with values := sliced.values, optimised := true }, unpublished, sliced.report)

namespace MergePass

/-! ## Values that change one by one -/

variable {published : List Registered} {held : List TagRef} {pass next : MergePass}
  {values : List Registered} {tag : TagRef} {handle : Nat} {id : ValueId}
  {change : Registered → Registered} {move : ValueId × (Registered → Registered)}
  {moves : List (ValueId × (Registered → Registered))}

/-- The pass with a controller on which the owned tags live, and no others. -/
def keeping (published : List Registered) (held : List TagRef) (pass : MergePass) : MergePass :=
  { pass with plc := pass.plc.keepOnly (pass.owners published held) }

@[simp] theorem values_keeping (published : List Registered) (held : List TagRef)
    (pass : MergePass) : (pass.keeping published held).values = pass.values := rfl

@[simp] theorem report_keeping (published : List Registered) (held : List TagRef)
    (pass : MergePass) : (pass.keeping published held).report = pass.report := rfl

@[simp] theorem shared_keeping (published : List Registered) (held : List TagRef)
    (pass : MergePass) : (pass.keeping published held).shared = pass.shared := rfl

/-- **What steps rely on**: identifiers tell the values apart, and the tags are accounted for. -/
structure Ordered (pass : MergePass) : Prop where
  ids : (pass.values.map Registered.id).Nodup
  balanced : pass.plc.Balanced

theorem mem_handles_of_tag {v : Registered} {ref : TagRef} (hv : v ∈ values)
    (href : v.tag = some ref) : ref.handle ∈ handles values :=
  List.mem_filterMap.mpr ⟨v, hv, congrArg (Option.map TagRef.handle) href⟩

theorem mem_handles_of_tagOf? {ref : TagRef} (h : tagOf? values id = some ref) :
    ref.handle ∈ handles values := by
  obtain ⟨v, hfind, href⟩ := Option.bind_eq_some_iff.mp h
  exact mem_handles_of_tag (List.mem_of_find?_eq_some hfind) href

theorem tagOf?_of_mem (hids : (values.map Registered.id).Nodup) {v : Registered}
    (hv : v ∈ values) : tagOf? values v.id = v.tag := by
  rw [tagOf?, find?_id_eq hids hv, Option.bind_some]

/-- **What one value lets go of** is what was owned before and may be owned no more. -/
theorem mem_handles_update_iff (hids : (values.map Registered.id).Nodup)
    (hchange : ∀ v, (change v).tag = some tag) :
    (handle ∈ handles values ∨ handle = tag.handle) ↔
      (handle ∈ handles (update values [id] change) ∨ handle = tag.handle) ∨
        (tagOf? values id).map TagRef.handle = some handle := by
  constructor
  · rintro (hin | heq)
    · obtain ⟨v, hv, hhandle⟩ := List.mem_filterMap.mp hin
      by_cases hid : v.id = id
      · right
        rw [← hid, tagOf?_of_mem hids hv]
        exact hhandle
      · have hsame : v ∈ update values [id] change :=
          List.mem_map.mpr ⟨v, hv, if_neg fun hmem => hid (List.mem_singleton.mp hmem)⟩
        exact Or.inl (Or.inl (List.mem_filterMap.mpr ⟨v, hsame, hhandle⟩))
    · exact Or.inl (Or.inr heq)
  · rintro ((hin | heq) | hold)
    · obtain ⟨u, hu, hhandle⟩ := List.mem_filterMap.mp hin
      obtain ⟨v, hv, rfl⟩ := List.mem_map.mp hu
      split at hhandle
      · right
        rw [Registered.handle?, hchange] at hhandle
        exact (Option.some.inj hhandle).symm
      · exact Or.inl (List.mem_filterMap.mpr ⟨v, hv, hhandle⟩)
    · exact Or.inr heq
    · obtain ⟨ref, href, rfl⟩ := Option.map_eq_some_iff.mp hold
      exact Or.inl (mem_handles_of_tagOf? href)

/-- **One value that lets go**: the tags that are owned afterwards live. -/
theorem give_keeping (h : pass.Ordered) (htag : tag ∈ held)
    (hchange : ∀ v, (move.2 v).tag = some tag) :
    give published held (pass.keeping published held) move =
      keeping published held { pass with values := update pass.values [move.1] move.2 } := by
  have hheld : ∀ handle, handle = tag.handle → handle ∈ held.map TagRef.handle :=
    fun handle heq => heq ▸ List.mem_map_of_mem htag
  have hplc := @Plc.Balanced.letGo_keepOnly pass.plc (pass.owners published held)
    (owners published held { pass with values := update pass.values [move.1] move.2 })
    (tagOf? pass.values move.1) h.balanced fun handle => by
      have hmem := @mem_handles_update_iff pass.values tag handle move.1 move.2 h.ids hchange
      have hin := hheld handle
      simp only [owners, List.mem_append, List.map_append]
      tauto
  exact congrArg (fun plc => MergePass.mk (update pass.values [move.1] move.2) plc pass.report
    pass.shared) hplc

theorem update_ids (values : List Registered) (ids : List ValueId)
    (hid : ∀ v, (change v).id = v.id) :
    (update values ids change).map Registered.id = values.map Registered.id := by
  unfold update
  rw [List.map_map]
  refine List.map_congr_left fun v _ => ?_
  show (if v.id ∈ ids then change v else v).id = v.id
  split
  · exact hid v
  · rfl

/-- The values after changes of single ones. -/
def updateAll (moves : List (ValueId × (Registered → Registered))) (values : List Registered) :
    List Registered :=
  moves.foldl (fun values move => update values [move.1] move.2) values

/-- **Several values that let go**, one after the other: induction on those that are left. -/
theorem foldl_give_keeping (h : pass.Ordered) (htag : tag ∈ held)
    (hmoves : ∀ move ∈ moves, ∀ v, (move.2 v).id = v.id ∧ (move.2 v).tag = some tag) :
    moves.foldl (give published held) (pass.keeping published held) =
      keeping published held { pass with values := updateAll moves pass.values } := by
  induction moves generalizing pass with
  | nil => rfl
  | cons move rest ih =>
    have hmove := hmoves move List.mem_cons_self
    have hnext : Ordered { pass with values := update pass.values [move.1] move.2 } :=
      ⟨by rw [update_ids _ _ fun v => (hmove v).1]; exact h.ids, h.balanced⟩
    rw [List.foldl_cons, give_keeping h htag fun v => (hmove v).2,
      ih hnext fun other hother => hmoves other (List.mem_cons_of_mem _ hother)]
    rfl

/-- **A step that ends** lets go of a tag that it held. -/
theorem release_keeping {after : Plc} (hafter : pass.plc = after) (h : after.Balanced)
    {kept : List Nat} {ref? : Option TagRef} (hkept : ∀ handle, handle ∈ kept ↔
      handle ∈ pass.owners published [] ∨ ref?.map TagRef.handle = some handle) :
    release published { pass with plc := after.keepOnly kept } ref? =
      pass.keeping published [] := by
  subst hafter
  exact congrArg (fun plc => MergePass.mk pass.values plc pass.report pass.shared)
    (h.letGo_keepOnly hkept)

/-- Members of a group that join it one by one. -/
theorem updateAll_members (values : List Registered) (ids : List ValueId)
    (hid : ∀ v, (change v).id = v.id) (hsame : ∀ v, change (change v) = change v) :
    updateAll (ids.map fun id => (id, change)) values = update values ids change := by
  induction ids generalizing values with
  | nil =>
    have hnone : ∀ v ∈ values, (if v.id ∈ ([] : List ValueId) then change v else v) = v :=
      fun v _ => if_neg List.not_mem_nil
    exact ((List.map_congr_left hnone).trans (List.map_id values)).symm
  | cons id rest ih =>
    show updateAll (rest.map fun id => (id, change)) (update values [id] change) = _
    rw [ih]
    unfold update
    rw [List.map_map]
    refine List.map_congr_left fun v _ => ?_
    by_cases hfirst : v.id = id <;> by_cases hrest : v.id ∈ rest <;>
      simp [hfirst, hrest, hid, hsame]

/-- Values that move to a slice one by one. -/
theorem updateAll_offsets (values : List Registered) (master : ValueId) (tag : TagRef)
    {offsets : List (ValueId × Nat)} (hnodup : (offsets.map Prod.fst).Nodup) :
    updateAll (offsets.map fun entry =>
      (entry.1, fun v => Registered.joinSlice v master tag entry.2)) values =
        moveToSlice values master tag offsets := by
  induction offsets generalizing values with
  | nil => exact (List.map_id values).symm
  | cons entry rest ih =>
    obtain ⟨hnot, hrest⟩ := List.nodup_cons.mp hnodup
    show updateAll (rest.map _) (update values [entry.1] _) = _
    rw [ih _ hrest, moveToSlice_eq, moveToSlice_eq, update, List.map_map]
    refine List.map_congr_left fun v _ => ?_
    show moved master tag rest (if v.id ∈ [entry.1] then v.joinSlice master tag entry.2 else v) =
      moved master tag (entry :: rest) v
    by_cases hid : v.id = entry.1
    · rw [if_pos (List.mem_singleton.mpr hid), moved_of_not_mem]
      · rw [moved, Keyed.find?, if_pos hid.symm]
      · show v.id ∉ _
        rwa [hid]
    · rw [if_neg fun hmem => hid (List.mem_singleton.mp hmem), moved, moved, Keyed.find?,
        if_neg (Ne.symm hid)]

/-! ## Groups -/

variable {plc : Plc} {route : String} {group : Group} {kept : List Nat}
  {outcome : Except TransportError TagRef} {after : Plc}

theorem keepOnly_append_obtained {tag : TagRef} (hkept : tag.handle ∈ kept) :
    plc.keepOnly kept = plc.keepOnly (kept ++ Plc.obtained (.ok tag)) :=
  Plc.keepOnly_congr fun handle => by
    rw [List.mem_append]
    refine ⟨Or.inl, fun h => h.elim id fun hmem => ?_⟩
    rwa [List.mem_singleton.mp hmem]

/-- **The tag of a group does not depend on the tags that live**, as long as those of the values
do. -/
theorem groupTag_keepOnly (h : plc.Balanced) (hkept : ∀ handle ∈ handles values, handle ∈ kept)
    (hobtain : groupTag values plc route group = (after, outcome)) :
    after.Balanced ∧ groupTag values (plc.keepOnly kept) route group =
      (after.keepOnly (kept ++ Plc.obtained outcome), outcome) := by
  unfold groupTag obtainTag at hobtain ⊢
  split at hobtain
  · next tag hmaster =>
    obtain ⟨rfl, rfl⟩ := Prod.mk.inj hobtain
    refine ⟨h, Prod.ext (keepOnly_append_obtained (hkept _ ?_)) rfl⟩
    unfold masterTag? at hmaster
    split at hmaster
    · exact mem_handles_of_tagOf? hmaster
    · cases hmaster
  · split at hobtain
    · next tag hamong =>
      obtain ⟨rfl, rfl⟩ := Prod.mk.inj hobtain
      obtain ⟨-, v, hv, href⟩ := tagAmong?_eq_some hamong
      exact ⟨h, Prod.ext (keepOnly_append_obtained (hkept _ (mem_handles_of_tag hv href))) rfl⟩
    · exact ⟨h.create hobtain, h.create_keepOnly hobtain kept⟩

theorem handles_update (values : List Registered) (ids : List ValueId)
    (htag : ∀ v, (change v).tag = v.tag) : handles (update values ids change) = handles values := by
  unfold handles update
  rw [List.filterMap_map]
  refine List.filterMap_congr fun v _ => ?_
  show (if v.id ∈ ids then change v else v).handle? = v.handle?
  split
  · exact congrArg (Option.map TagRef.handle) (htag v)
  · rfl

theorem mem_owners_iff : handle ∈ pass.owners published held ↔ handle ∈ handles pass.values ∨
    handle ∈ handles published ∨ handle ∈ pass.shared.reduceOption.map TagRef.handle ∨
      handle ∈ held.map TagRef.handle := by
  rw [owners, List.map_append, List.mem_append, List.mem_append, List.mem_append]

theorem mem_toList_map_iff {ref? : Option TagRef} :
    handle ∈ ref?.toList.map TagRef.handle ↔ ref?.map TagRef.handle = some handle := by
  cases ref? <;> simp [eq_comm]

@[simp] theorem handles_waiting (values : List Registered) (group : Group) :
    handles (waiting values group) = handles values :=
  handles_update values group.members fun _ => rfl

theorem ids_waiting (values : List Registered) (group : Group) :
    (waiting values group).map Registered.id = values.map Registered.id :=
  update_ids values group.members fun _ => rfl

section

variable (hgroup : groupTag (waiting pass.values group) pass.plc route group = (after, outcome))

include hgroup

theorem Ordered.mergeGroup (h : pass.Ordered) (hafter : after.Balanced) :
    (mergeGroup route pass group).Ordered := by
  obtain ⟨hvalues, hplc, -⟩ := mergeGroup_eq hgroup
  refine ⟨?_, hplc ▸ hafter⟩
  rw [hvalues, update_ids _ _ (id_settled group _)]
  exact (ids_waiting pass.values group).symm ▸ h.ids

/-- A group goes on as on a controller where only owned tags live. -/
theorem mergeGroup_keeping {kept : List Nat} {kept' : List Nat}
    (hkept : groupTag (waiting pass.values group) (pass.plc.keepOnly kept) route group =
      (after.keepOnly kept', outcome)) :
    mergeGroup route { pass with plc := pass.plc.keepOnly kept } group =
      { mergeGroup route pass group with plc := after.keepOnly kept' } := by
  unfold waiting at hgroup hkept
  unfold mergeGroup
  dsimp only
  rw [hgroup, hkept]
  cases outcome <;> rfl

end

/-- What is owned after a group without a tag is what was owned before. -/
theorem owners_mergeGroup_error {cause : TransportError}
    (hgroup : groupTag (waiting pass.values group) pass.plc route group = (after, .error cause)) :
    (mergeGroup route pass group).owners published [] = pass.owners published [] := by
  obtain ⟨hvalues, -, -⟩ := mergeGroup_eq hgroup
  have hsame : handles (mergeGroup route pass group).values = handles pass.values := by
    rw [hvalues, ← handles_waiting pass.values group]
    exact handles_update _ _ fun _ => rfl
  rw [owners, owners, hsame, shared_mergeGroup hgroup, List.reduceOption_append]
  simp [Except.toOption]

/-- After a group with a tag, the list owns that too. -/
theorem mem_owners_mergeGroup_ok
    (hgroup : groupTag (waiting pass.values group) pass.plc route group = (after, .ok tag)) :
    handle ∈ (mergeGroup route pass group).owners published [] ↔
      handle ∈ handles (mergeGroup route pass group).values ∨ handle ∈ handles published ∨
        handle ∈ pass.shared.reduceOption.map TagRef.handle ∨ handle = tag.handle := by
  rw [mem_owners_iff, shared_mergeGroup hgroup, List.reduceOption_append]
  simp [Except.toOption]

/-- The members of a group get its tag one by one, while the step holds it. -/
theorem foldl_give_members (h : pass.Ordered) (hbalanced : after.Balanced) {ref? : Option TagRef}
    (href : ∀ handle, ref?.map TagRef.handle = some handle → handle ∈ handles pass.values) :
    (group.members.map fun id => (id, fun v => Registered.joinGroup v group.master tag)).foldl
      (give published (tag :: ref?.toList))
      { pass with
        values := waiting pass.values group
        plc := after.keepOnly (pass.owners published [] ++ Plc.obtained (.ok tag)) } =
      keeping published (tag :: ref?.toList) { pass with
        values := update (waiting pass.values group) group.members
          fun v => v.joinGroup group.master tag
        plc := after } := by
  have hbase : ({ pass with
      values := waiting pass.values group
      plc := after.keepOnly (pass.owners published [] ++ Plc.obtained (.ok tag)) } : MergePass) =
      keeping published (tag :: ref?.toList)
        { pass with values := waiting pass.values group, plc := after } := by
    refine congrArg (fun plc => MergePass.mk _ plc _ _) (Plc.keepOnly_congr fun handle => ?_)
    have hin := href handle
    rw [List.mem_append, mem_owners_iff, mem_owners_iff, List.map_cons, List.mem_cons,
      mem_toList_map_iff, handles_waiting]
    simp only [Plc.obtained_ok, List.mem_singleton, List.map_nil, List.not_mem_nil]
    tauto
  have hordered : Ordered { pass with values := waiting pass.values group, plc := after } :=
    ⟨(ids_waiting pass.values group).symm ▸ h.ids, hbalanced⟩
  have hvalues : updateAll
      (group.members.map fun id => (id, fun v => Registered.joinGroup v group.master tag))
      (waiting pass.values group) =
        update (waiting pass.values group) group.members fun v => v.joinGroup group.master tag :=
    updateAll_members _ _ (fun _ => rfl) fun _ => rfl
  rw [hbase, foldl_give_keeping hordered List.mem_cons_self, hvalues]
  intro move hmove v
  obtain ⟨id, -, rfl⟩ := List.mem_map.mp hmove
  exact ⟨rfl, rfl⟩

/-- **One group.** -/
theorem mergeGroupCounted_keeping (h : pass.Ordered) (group : Group) :
    (mergeGroup route pass group).Ordered ∧
      mergeGroupCounted published route (pass.keeping published []) group =
        (mergeGroup route pass group).keeping published [] := by
  have hkept : ∀ handle ∈ handles (waiting pass.values group), handle ∈ pass.owners published [] :=
    fun handle hin => mem_owners_iff.mpr (Or.inl (handles_waiting _ _ ▸ hin))
  have hmaster : ∀ handle, (tagOf? (waiting pass.values group) group.master).map TagRef.handle =
      some handle → handle ∈ handles pass.values := by
    intro handle hmap
    obtain ⟨ref, href, rfl⟩ := Option.map_eq_some_iff.mp hmap
    exact handles_waiting pass.values group ▸ mem_handles_of_tagOf? href
  cases hgroup : groupTag (waiting pass.values group) pass.plc route group with
  | mk after outcome =>
    obtain ⟨hbalanced, hkeep⟩ := groupTag_keepOnly h.balanced hkept hgroup
    obtain ⟨hvalues, hplc, -⟩ := mergeGroup_eq hgroup
    have hordered := h.mergeGroup hgroup hbalanced
    refine ⟨hordered, ?_⟩
    unfold mergeGroupCounted keeping
    rw [mergeGroup_keeping hgroup hkeep]
    dsimp only
    rw [hkeep]
    cases outcome with
    | error cause =>
      -- the members keep their tags, so the copy of the master was not the last owner of its tag
      refine release_keeping hplc hbalanced fun handle => ?_
      rw [owners_mergeGroup_error hgroup, Plc.obtained_error, List.append_nil]
      exact ⟨Or.inl, fun hin => hin.elim id fun hmap =>
        mem_owners_iff.mpr (Or.inl (hmaster handle hmap))⟩
    | ok tag =>
      have hjoined : (mergeGroup route pass group).values =
          update (waiting pass.values group) group.members fun v => v.joinGroup group.master tag :=
        hvalues
      have hmem : ∀ handle, handle ∈ owners published
            (tag :: (tagOf? (waiting pass.values group) group.master).toList)
            { pass with values := (mergeGroup route pass group).values, plc := after } ↔
          handle ∈ (mergeGroup route pass group).owners published [] ∨
            (tagOf? (waiting pass.values group) group.master).map TagRef.handle = some handle := by
        intro handle
        rw [mem_owners_iff, mem_owners_mergeGroup_ok hgroup, List.map_cons, List.mem_cons,
          mem_toList_map_iff, or_assoc, or_assoc, or_assoc]
      dsimp only
      rw [foldl_give_members h hbalanced hmaster, ← hjoined]
      exact release_keeping hplc hbalanced hmem

/-! ## Slices -/

variable {groups : List Group} {family : Family} {slice : Slice} {size : Nat} {master : ValueId}
  {offsets : List (ValueId × Nat)}

/-- The values of a slice get its tag one by one, while the step holds it. -/
theorem foldl_give_offsets (h : pass.Ordered) (hbalanced : after.Balanced)
    (hnodup : (offsets.map Prod.fst).Nodup) :
    (offsets.map fun entry => (entry.1, fun v => Registered.joinSlice v master tag entry.2)).foldl
      (give published [tag])
      { pass with plc := after.keepOnly (pass.owners published [] ++ Plc.obtained (.ok tag)) } =
      keeping published [tag] { pass with
        values := moveToSlice pass.values master tag offsets
        plc := after } := by
  have hbase : ({ pass with
      plc := after.keepOnly (pass.owners published [] ++ Plc.obtained (.ok tag)) } : MergePass) =
      keeping published [tag] { pass with plc := after } := by
    refine congrArg (fun plc => MergePass.mk _ plc _ _) (Plc.keepOnly_congr fun handle => ?_)
    rw [List.mem_append, mem_owners_iff, mem_owners_iff, or_assoc, or_assoc, or_assoc]
    simp
  have hordered : Ordered { pass with plc := after } := ⟨h.ids, hbalanced⟩
  rw [hbase, foldl_give_keeping hordered List.mem_cons_self, updateAll_offsets _ _ _ hnodup]
  intro move hmove v
  obtain ⟨entry, -, rfl⟩ := List.mem_map.mp hmove
  exact ⟨rfl, rfl⟩

theorem ids_moveToSlice (values : List Registered) (master : ValueId) (tag : TagRef)
    (offsets : List (ValueId × Nat)) :
    (moveToSlice values master tag offsets).map Registered.id = values.map Registered.id := by
  rw [moveToSlice_eq, List.map_map]
  exact List.map_congr_left fun v _ => id_moved master tag offsets v

/-- **One slice.** -/
theorem mergeSliceCounted_keeping (h : pass.Ordered)
    (hnodup : ∀ offsets, rebased? pass.values groups slice size = some offsets →
      (offsets.map Prod.fst).Nodup) :
    (mergeSlice route groups family size pass slice).Ordered ∧
      mergeSliceCounted published route groups family size (pass.keeping published []) slice =
        (mergeSlice route groups family size pass slice).keeping published [] := by
  unfold mergeSliceCounted mergeSlice
  dsimp only [keeping]
  cases hmaster : sliceMaster? groups slice with
  | none => exact ⟨h, rfl⟩
  | some master =>
    cases hoffsets : rebased? pass.values groups slice size with
    | none => exact ⟨h, rfl⟩
    | some offsets =>
      dsimp only
      cases hcreate : pass.plc.create (sharedConnection pass.values route
        s!"{family.array}[{slice.start}]" slice.count master) with
      | mk after outcome =>
        have hbalanced := h.balanced.create hcreate
        rw [h.balanced.create_keepOnly hcreate]
        cases outcome with
        | error cause =>
          refine ⟨⟨h.ids, hbalanced⟩, congrArg (fun plc => MergePass.mk _ plc _ _) ?_⟩
          exact Plc.keepOnly_congr fun handle => by
            rw [Plc.obtained_error, List.append_nil, owners, owners]
        | ok tag =>
          dsimp only
          rw [foldl_give_offsets h hbalanced (hnodup offsets hoffsets)]
          refine ⟨⟨?_, hbalanced⟩, ?_⟩
          · rw [ids_moveToSlice]
            exact h.ids
          · refine @release_keeping _ (MergePass.mk _ after _ _) after rfl hbalanced _ _
              fun handle => ?_
            dsimp only [keeping]
            rw [mem_owners_iff, mem_owners_iff, or_assoc, or_assoc, or_assoc]
            simp [eq_comm]

theorem nodup_membersOf (hmembers : ∀ group ∈ groups, group.members.Nodup) (number : Nat) :
    (membersOf groups number).Nodup := by
  unfold membersOf
  cases hgroup : groups[number]? with
  | none => exact List.nodup_nil
  | some group => exact hmembers group (List.mem_of_getElem? hgroup)

/-- A slice moves no value twice. -/
theorem nodup_rebased? (hmembers : ∀ group ∈ groups, group.members.Nodup)
    (hdisjoint : groups.Pairwise Group.Disjoint) (hslice : (groupNumbers slice.elements).Nodup)
    (hoffsets : rebased? values groups slice size = some offsets) :
    (offsets.map Prod.fst).Nodup := by
  rw [ids_rebased? hoffsets, List.nodup_flatMap]
  exact ⟨fun number _ => nodup_membersOf hmembers number,
    hslice.imp fun hne _ hfirst hsecond => hne (number_unique hdisjoint hfirst hsecond)⟩

/-! ## The whole pass -/

/-- **Steps that let go**, one after the other: induction on those that are left. -/
theorem foldl_keeping {α : Type} {step counted : MergePass → α → MergePass} {xs : List α}
    (hstep : ∀ pass, Ordered pass → ∀ x ∈ xs, (step pass x).Ordered ∧
      counted (keeping published [] pass) x = keeping published [] (step pass x))
    (h : pass.Ordered) : (xs.foldl step pass).Ordered ∧
      xs.foldl counted (pass.keeping published []) =
        keeping published [] (xs.foldl step pass) := by
  induction xs generalizing pass with
  | nil => exact ⟨h, rfl⟩
  | cons x rest ih =>
    obtain ⟨hnext, hcounted⟩ := hstep pass h x List.mem_cons_self
    rw [List.foldl_cons, List.foldl_cons, hcounted]
    exact ih (fun pass hpass y hy => hstep pass hpass y (List.mem_cons_of_mem _ hy)) hnext

/-- The tags of groups are owned, so the size of elements is what it was. -/
theorem elementSize?_keeping (pass : MergePass) (family : Family) :
    elementSize? (pass.keeping published []) family = elementSize? pass family := by
  have hbuffer : ∀ (number : Nat) (ref : TagRef), pass.shared[number]?.join = some ref →
      (pass.plc.keepOnly (pass.owners published [])).bufferOf ref.handle =
        pass.plc.bufferOf ref.handle := by
    intro number ref href
    have hmem : some ref ∈ pass.shared := List.mem_of_getElem? (Option.join_eq_some_iff.mp href)
    have howned : ref.handle ∈ pass.owners published [] := by
      rw [mem_owners_iff]
      exact Or.inr (Or.inr (Or.inl
        (List.mem_map_of_mem (List.reduceOption_mem_iff.mpr hmem))))
    rw [Plc.bufferOf, Plc.bufferOf, Plc.tag?_keepOnly_of_mem howned]
  unfold elementSize? keeping
  cases family.elements.head? with
  | none => rfl
  | some first =>
    cases href : pass.shared[first.2]?.join with
    | none => simp [href]
    | some ref => simp [href, hbuffer first.2 ref href]

/-- One family. -/
theorem mergeFamilyCounted_keeping (h : pass.Ordered)
    (hmembers : ∀ group ∈ groups, group.members.Nodup)
    (hdisjoint : groups.Pairwise Group.Disjoint) (hfamily : family ∈ Family.ofGroups groups) :
    (mergeFamily route groups pass family).Ordered ∧
      mergeFamilyCounted published route groups (pass.keeping published []) family =
        (mergeFamily route groups pass family).keeping published [] := by
  have hnumbers : (usableNumbers pass.shared family).Nodup :=
    (List.nodup_flatMap.mp (nodup_usableNumbers groups pass.shared)).1 family hfamily
  unfold mergeFamilyCounted mergeFamily
  have hsize := @elementSize?_keeping published pass (usable pass.shared family)
  dsimp only
  rw [shared_keeping, hsize]
  cases elementSize? pass (usable pass.shared family) with
  | none => exact ⟨h, rfl⟩
  | some size =>
    have hslices := ((usable pass.shared family).numbers_slices_sublist size).nodup hnumbers
    exact foldl_keeping (fun pass hpass slice hslice => mergeSliceCounted_keeping hpass
      fun offsets hoffsets => nodup_rebased? hmembers hdisjoint
        ((List.nodup_flatMap.mp hslices).1 slice hslice) hoffsets) h

/-- **The end of the pass**: its list is let go, and the values that pollers have seen before. -/
theorem letGoAll_keeping (h : pass.plc.Balanced) :
    Plc.letGoAll (handles pass.values) (published.filterMap Registered.tag)
      (Plc.letGoAll (handles pass.values ++ handles published) pass.shared.reduceOption
        (pass.keeping published []).plc) = pass.plc.keepOnly (handles pass.values) := by
  have hlisted : (pass.keeping published []).plc = pass.plc.keepOnly
      ((handles pass.values ++ handles published) ++
        pass.shared.reduceOption.map TagRef.handle) := by
    rw [keeping, owners, List.append_nil, List.append_assoc]
  have hpublished : handles published =
      (published.filterMap Registered.tag).map TagRef.handle := by
    rw [List.map_filterMap]
    rfl
  rw [hlisted, h.letGoAll_keepOnly, hpublished, h.letGoAll_keepOnly]

end MergePass

/-- No value is twice in a group of the plan of a registry. -/
theorem Registry.nodup_members_plan {r : Registry} (hids : (r.values.map Registered.id).Nodup)
    (threshold : Nat) : ∀ group ∈ (r.plan threshold).groups, group.members.Nodup := by
  have hplanned : ((planned (waitingFor r.values)).map Prod.fst).Nodup := by
    rw [ids_planned]
    exact hids.sublist (List.filter_sublist.map Registered.id)
  exact fun group hgroup => Plan.nodup_members hplanned hgroup

section

variable {r : Registry} {plc : Plc} {published : List Registered}

theorem Registry.ordered_startMerge (hids : (r.values.map Registered.id).Nodup)
    (hplc : plc.Balanced) (plan : Plan) : (r.startMerge plc plan).Ordered := by
  have hsame : (update r.values plan.notMerged fun v => v.withState .doNotOptimise).map
      Registered.id = r.values.map Registered.id := update_ids _ _ fun _ => rfl
  exact ⟨hsame.symm ▸ hids, hplc⟩

/-- All tags are owned when a pass starts. -/
theorem Registry.keeping_startMerge
    (howned : ∀ handle ∈ plc.live, handle ∈ handles r.values ∨ handle ∈ handles published)
    (plan : Plan) :
    (r.startMerge plc plan).keeping published [] = r.startMerge plc plan := by
  have hsame : handles (update r.values plan.notMerged fun v => v.withState .doNotOptimise) =
      handles r.values := handles_update _ _ fun _ => rfl
  refine congrArg (fun plc => MergePass.mk _ plc _ _) (Plc.keepOnly_of_live_subset ?_)
  intro handle hlive
  rw [mem_owners_iff, ← or_assoc]
  exact Or.inl ((howned handle hlive).imp_left fun hin => hsame.symm ▸ hin)

/-- **A pass before its end**: it comes to the same tags and values whether owners let go or not,
and at the end those tags stay that values refer to. -/
theorem Registry.Sound.exists_sliced {route : String} {parsed : List Descriptor}
    (h : r.Sound route parsed) (hplc : plc.Balanced)
    (howned : ∀ handle ∈ plc.live, handle ∈ handles r.values ∨ handle ∈ handles published)
    (threshold : Nat) : ∃ sliced : MergePass, sliced.Ordered ∧
      r.merge plc route threshold = ({ r with values := sliced.values, optimised := true },
        sliced.plc.keepOnly (handles sliced.values), sliced.report) ∧
      r.mergeCounted plc published route threshold = r.merge plc route threshold := by
  have hstart := ordered_startMerge h.ids_nodup hplc (r.plan threshold)
  have hkeeping := keeping_startMerge howned (r.plan threshold)
  obtain ⟨hgrouped, hgroups⟩ := @foldl_keeping published _ _ _ _ _
    (fun pass hpass group (_ : group ∈ (r.plan threshold).groups) =>
      @mergeGroupCounted_keeping published pass route hpass group) hstart
  obtain ⟨hsliced, hfamilies⟩ := @foldl_keeping published _ _ _ _ _
    (fun pass hpass family hfamily => @mergeFamilyCounted_keeping published pass route _ family
      hpass (nodup_members_plan h.ids_nodup threshold)
      (fits_plan h.ids_nodup threshold).disjoint hfamily) hgrouped
  refine ⟨_, hsliced, rfl, ?_⟩
  unfold Registry.mergeCounted Registry.merge
  dsimp only
  rw [← hkeeping, hgroups, hfamilies, hkeeping, values_keeping, report_keeping, shared_keeping,
    letGoAll_keeping hsliced.balanced]

end

end PlcTags

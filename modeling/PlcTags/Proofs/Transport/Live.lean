import Mathlib.Data.List.Nodup
import PlcTags.Proofs.Transport.Held

/-!
# Live tags

Which tags live, and the account of those that were created and destroyed.

* `Plc.Balanced`: every tag that was created lives or was destroyed, and no two live tags have one
  handle. Creating and destroying tags keep it.
* `Plc.SameTags`: the same tags live. Reads, writes and changes of a buffer leave them.
* `Plc.letGo`: an owner lets go of a tag, which is destroyed if no other owner is left.
* `Plc.letGo_keepOnly`: tags that are destroyed when their last owners let go, one after the other,
  are those that are not kept in the end.
-/

namespace PlcTags.Plc

variable {plc next last : Plc} {handle : Nat} {kept owners : List Nat} {ref? : Option TagRef}
  {connection : String} {outcome : Except TransportError TagRef}

theorem mem_live_iff : handle ∈ plc.live ↔ (plc.tag? handle).isSome = true :=
  Keyed.isSome_find?_iff.symm

/-- **The account of the tags**: those that live have handles of their own, which were given, and
every tag that was created lives or was destroyed. -/
structure Balanced (plc : Plc) : Prop where
  nodup : plc.live.Nodup
  given : ∀ handle ∈ plc.live, handle ≤ plc.created
  balance : plc.created = plc.destroyed + plc.live.length

/-! ## Creating -/

theorem Balanced.not_mem_live (h : plc.Balanced) : plc.created + 1 ∉ plc.live :=
  fun hlive => absurd (h.given _ hlive) (Nat.not_succ_le_self _)

/-- A new tag comes last. -/
theorem Balanced.tags_withNew (h : plc.Balanced) (connection : String) :
    (plc.withNew connection).tags = plc.tags ++ [(plc.created + 1, plc.newTag connection)] :=
  Keyed.assign_of_not_mem h.not_mem_live _

theorem Balanced.live_withNew (h : plc.Balanced) (connection : String) :
    (plc.withNew connection).live = plc.live ++ [plc.created + 1] := by
  rw [live, h.tags_withNew, List.map_append]
  rfl

theorem Balanced.withNew (h : plc.Balanced) (connection : String) :
    (plc.withNew connection).Balanced where
  nodup := by
    rw [h.live_withNew, ← List.concat_eq_append]
    exact h.nodup.concat h.not_mem_live
  given handle hlive := by
    rw [h.live_withNew] at hlive
    show handle ≤ plc.created + 1
    rcases List.mem_append.mp hlive with hlive | hlive
    · exact (h.given handle hlive).trans (Nat.le_succ _)
    · exact (List.mem_singleton.mp hlive).le
  balance := by
    have hbalance := h.balance
    rw [h.live_withNew, List.length_append, List.length_singleton]
    show plc.created + 1 = plc.destroyed + (plc.live.length + 1)
    omega

theorem Balanced.create (h : plc.Balanced) (hcreate : plc.create connection = (next, outcome)) :
    next.Balanced := by
  cases outcome with
  | error cause => rwa [create_eq_error hcreate]
  | ok ref =>
    obtain ⟨-, rfl, -⟩ := create_eq_ok hcreate
    exact h.withNew connection

/-! ## Destroying -/

/-- The controller with some of its tags; all others that were created are destroyed. -/
def withTags (plc : Plc) (tags : List (Nat × PlcTag)) : Plc :=
  { plc with tags := tags, destroyed := plc.created - tags.length }

theorem withTags_withTags (plc : Plc) (tags others : List (Nat × PlcTag)) :
    (plc.withTags tags).withTags others = plc.withTags others := rfl

theorem Balanced.withTags_tags (h : plc.Balanced) : plc.withTags plc.tags = plc := by
  have hbalance := h.balance
  have hlength : plc.live.length = plc.tags.length := List.length_map _
  have hdestroyed : plc.created - plc.tags.length = plc.destroyed := by omega
  rw [withTags, hdestroyed]

theorem Balanced.withTags (h : plc.Balanced) (p : Nat × PlcTag → Bool) :
    (plc.withTags (plc.tags.filter p)).Balanced where
  nodup := h.nodup.sublist (List.filter_sublist.map _)
  given handle hlive := h.given handle ((List.filter_sublist.map _).subset hlive)
  balance := by
    have hbalance := h.balance
    have hle := List.length_filter_le p plc.tags
    have hlength : plc.live.length = plc.tags.length := List.length_map _
    show plc.created = plc.created - (plc.tags.filter p).length +
      ((plc.tags.filter p).map Prod.fst).length
    rw [List.length_map]
    omega

/-- Handles tell the live tags apart, so destroying one of them leaves one less. -/
theorem Balanced.length_filter_ne (h : plc.Balanced) (hlive : handle ∈ plc.live) :
    (plc.tags.filter fun entry => decide (entry.1 ≠ handle)).length + 1 = plc.live.length := by
  have herase : plc.live.erase handle =
      (plc.tags.filter fun entry => decide (entry.1 ≠ handle)).map Prod.fst := by
    rw [h.nodup.erase_eq_filter, live, List.filter_map]
    congr 1
    refine List.filter_congr fun entry _ => ?_
    rw [Bool.eq_iff_iff]
    simp
  have hpositive := List.length_pos_of_mem hlive
  have hlength := congrArg List.length herase
  rw [List.length_erase_of_mem hlive, List.length_map] at hlength
  omega

/-- **Destroying a tag** leaves the others. -/
theorem Balanced.destroy_eq (h : plc.Balanced) (handle : Nat) : plc.destroy handle =
    plc.withTags (plc.tags.filter fun entry => decide (entry.1 ≠ handle)) := by
  unfold destroy
  cases htag : plc.tag? handle with
  | none =>
    have hall : plc.tags.filter (fun entry => decide (entry.1 ≠ handle)) = plc.tags := by
      refine List.filter_eq_self.mpr fun entry hentry => decide_eq_true fun heq => ?_
      have hlive : handle ∈ plc.live := heq ▸ List.mem_map_of_mem hentry
      rw [mem_live_iff, htag] at hlive
      cases hlive
    rw [hall, h.withTags_tags]
  | some tag =>
    have hbalance := h.balance
    have hlength := h.length_filter_ne (mem_live_iff.mpr (by rw [htag]; rfl))
    dsimp only
    rw [Keyed.remove_eq_filter, Plc.withTags]
    congr 1
    omega

theorem Balanced.destroy (h : plc.Balanced) (handle : Nat) : (plc.destroy handle).Balanced := by
  rw [h.destroy_eq]
  exact h.withTags _

theorem Balanced.live_destroy (h : plc.Balanced) (handle : Nat) :
    (plc.destroy handle).live = plc.live.filter fun other => decide (other ≠ handle) := by
  rw [h.destroy_eq, live, live, List.filter_map]
  rfl

/-- Several tags are destroyed: induction on those that are left. -/
theorem Balanced.foldl_destroy (h : plc.Balanced) (gone : List Nat) : gone.foldl Plc.destroy plc =
    plc.withTags (plc.tags.filter fun entry => decide (entry.1 ∉ gone)) := by
  induction gone generalizing plc with
  | nil =>
    have hall : plc.tags.filter (fun entry => decide (entry.1 ∉ [])) = plc.tags :=
      List.filter_eq_self.mpr fun entry _ => decide_eq_true List.not_mem_nil
    rw [hall, h.withTags_tags]
    rfl
  | cons first rest ih =>
    rw [List.foldl_cons, ih (h.destroy first), h.destroy_eq, withTags_withTags]
    congr 1
    refine List.filter_filter.trans (List.filter_congr fun entry _ => ?_)
    rw [← Bool.decide_and, decide_eq_decide, List.mem_cons, not_or, and_comm]

/-- **What is kept** of the tags. -/
theorem Balanced.keepOnly_eq (h : plc.Balanced) (kept : List Nat) : plc.keepOnly kept =
    plc.withTags (plc.tags.filter fun entry => decide (entry.1 ∈ kept)) := by
  rw [Plc.keepOnly, h.foldl_destroy]
  congr 1
  refine List.filter_congr fun entry hentry => decide_eq_decide.mpr ?_
  have hlive : entry.1 ∈ plc.live := List.mem_map_of_mem hentry
  simp [hlive]

theorem Balanced.keepOnly (h : plc.Balanced) (kept : List Nat) : (plc.keepOnly kept).Balanced := by
  rw [h.keepOnly_eq]
  exact h.withTags _

theorem mem_live_keepOnly :
    handle ∈ (plc.keepOnly kept).live ↔ handle ∈ plc.live ∧ handle ∈ kept := by
  rw [mem_live_iff, mem_live_iff, tag?_keepOnly]
  split <;> simp [*]

/-- What is kept depends on which handles are, not on their order. -/
theorem keepOnly_congr (h : ∀ handle, handle ∈ kept ↔ handle ∈ owners) :
    plc.keepOnly kept = plc.keepOnly owners := by
  have hsame : ∀ handle, kept.contains handle = owners.contains handle := by
    intro handle
    rw [List.contains_eq_mem, List.contains_eq_mem, decide_eq_decide]
    exact h handle
  unfold Plc.keepOnly
  simp only [hsame]

theorem keepOnly_of_live_subset (h : ∀ handle ∈ plc.live, handle ∈ kept) :
    plc.keepOnly kept = plc := by
  have hnone : plc.live.filter (fun handle => !kept.contains handle) = [] :=
    List.filter_eq_nil_iff.mpr fun handle hlive => by simp [h handle hlive]
  rw [Plc.keepOnly, hnone]
  rfl

/-! ## Owners that let go -/

/-- The controller after an owner has let go of a tag, which is destroyed if no owner is left. -/
def letGo (plc : Plc) (owners : List Nat) : Option TagRef → Plc
  | none => plc
  | some ref => if ref.handle ∈ owners then plc else plc.destroy ref.handle

/-- The controller after an owner has let go of several tags, one after the other. Those that come
later are still owned. -/
def letGoAll (owners : List Nat) : List TagRef → Plc → Plc
  | [], plc => plc
  | ref :: rest, plc =>
    letGoAll owners rest (plc.letGo (owners ++ rest.map TagRef.handle) (some ref))

/-- **The tags that are owned stay** when an owner lets go: if those are kept that have an owner,
then afterwards those are kept that still have one. -/
theorem Balanced.letGo_keepOnly (h : plc.Balanced)
    (hkept : ∀ handle, handle ∈ kept ↔ handle ∈ owners ∨ ref?.map TagRef.handle = some handle) :
    (plc.keepOnly kept).letGo owners ref? = plc.keepOnly owners := by
  cases ref? with
  | none => exact keepOnly_congr fun handle => (hkept handle).trans (by simp)
  | some ref =>
    show (if ref.handle ∈ owners then _ else _) = _
    split
    · next howned =>
      refine keepOnly_congr fun handle => (hkept handle).trans ⟨?_, Or.inl⟩
      rintro (hin | heq)
      · exact hin
      · exact Option.some.inj heq ▸ howned
    · next hlast =>
      rw [(h.keepOnly kept).destroy_eq, h.keepOnly_eq, h.keepOnly_eq, withTags_withTags]
      congr 1
      refine List.filter_filter.trans (List.filter_congr fun entry _ => ?_)
      rw [← Bool.decide_and, decide_eq_decide, hkept]
      constructor
      · rintro ⟨hne, hin | heq⟩
        · exact hin
        · exact absurd (Option.some.inj heq).symm hne
      · exact fun hin => ⟨fun heq => hlast (heq ▸ hin), Or.inl hin⟩

theorem Balanced.letGoAll_keepOnly (h : plc.Balanced) (owners : List Nat) (refs : List TagRef) :
    letGoAll owners refs (plc.keepOnly (owners ++ refs.map TagRef.handle)) =
      plc.keepOnly owners := by
  induction refs with
  | nil =>
    rw [List.map_nil, List.append_nil]
    rfl
  | cons ref rest ih =>
    have hfirst : (plc.keepOnly (owners ++ (ref :: rest).map TagRef.handle)).letGo
        (owners ++ rest.map TagRef.handle) (some ref) =
          plc.keepOnly (owners ++ rest.map TagRef.handle) :=
      h.letGo_keepOnly fun handle => by
        simp only [List.map_cons, List.mem_append, List.mem_cons, Option.map_some,
          Option.some.injEq]
        tauto
    rw [letGoAll, hfirst, ih]

theorem withNew_withTags {tags : List (Nat × PlcTag)}
    (h : plc.created + 1 ∉ tags.map Prod.fst) (connection : String) :
    (plc.withTags tags).withNew connection =
      (plc.withNew connection).withTags (tags ++ [(plc.created + 1, plc.newTag connection)]) := by
  have hdestroyed : plc.created - tags.length =
      plc.created + 1 - (tags ++ [(plc.created + 1, plc.newTag connection)]).length := by
    rw [List.length_append, List.length_singleton]
    omega
  rw [← Keyed.assign_of_not_mem h] at hdestroyed ⊢
  unfold withTags withNew
  rw [← hdestroyed]
  rfl

/-- The handle of a tag that was obtained, if one was. -/
def obtained (outcome : Except TransportError TagRef) : List Nat :=
  (outcome.toOption.map TagRef.handle).toList

@[simp] theorem obtained_ok (ref : TagRef) : obtained (.ok ref) = [ref.handle] := rfl

@[simp] theorem obtained_error (cause : TransportError) : obtained (.error cause) = [] := rfl

/-- **A creation does not depend on the tags that live**: it gives the same tag when some are not
kept, and that tag is kept too. -/
theorem Balanced.create_keepOnly (h : plc.Balanced)
    (hcreate : plc.create connection = (next, outcome)) (kept : List Nat) :
    (plc.keepOnly kept).create connection =
      (next.keepOnly (kept ++ obtained outcome), outcome) := by
  have hadmits := admits_congr (refused_keepOnly plc kept) (tagNameOf connection)
  rw [create_eq] at hcreate
  rw [create_eq, hadmits, created_keepOnly]
  split at hcreate
  · next hadmitted =>
    obtain ⟨rfl, rfl⟩ := Prod.mk.inj hcreate
    have hnew := h.not_mem_live
    have hlater : plc.created + 1 ∉
        (plc.tags.filter fun entry => decide (entry.1 ∈ kept)).map Prod.fst :=
      fun hmem => hnew ((List.filter_sublist.map _).subset hmem)
    rw [if_pos hadmitted, h.keepOnly_eq, withNew_withTags hlater,
      (h.withNew connection).keepOnly_eq, h.tags_withNew, List.filter_append]
    refine Prod.ext (congrArg (Plc.withTags _) (congrArg₂ _ ?_ ?_)) rfl
    · refine List.filter_congr fun entry hentry => decide_eq_decide.mpr ?_
      have hlive : entry.1 ∈ plc.live := List.mem_map_of_mem hentry
      have hne : entry.1 ≠ plc.created + 1 := fun heq => hnew (heq ▸ hlive)
      simp [hne]
    · rw [List.filter_cons_of_pos (by simp), List.filter_nil]
  · next hrefused =>
    obtain ⟨rfl, rfl⟩ := Prod.mk.inj hcreate
    rw [if_neg hrefused]
    exact Prod.ext (keepOnly_congr fun handle => by simp) rfl

/-! ## Operations on tags that live -/

/-- **The same tags live**, and none was created or destroyed. -/
structure SameTags (next plc : Plc) : Prop where
  live : next.live = plc.live
  created : next.created = plc.created
  destroyed : next.destroyed = plc.destroyed

namespace SameTags

theorem refl (plc : Plc) : plc.SameTags plc := ⟨rfl, rfl, rfl⟩

theorem trans (h : last.SameTags next) (h' : next.SameTags plc) : last.SameTags plc :=
  ⟨h.live.trans h'.live, h.created.trans h'.created, h.destroyed.trans h'.destroyed⟩

theorem balanced (h : next.SameTags plc) (hplc : plc.Balanced) : next.Balanced where
  nodup := h.live ▸ hplc.nodup
  given handle hlive := by
    rw [h.created]
    exact hplc.given handle (h.live ▸ hlive)
  balance := by
    rw [h.created, h.destroyed, h.live]
    exact hplc.balance

end SameTags

theorem sameTags_setTag {tag : PlcTag} (h : plc.tag? handle = some tag) (other : PlcTag) :
    (plc.setTag handle other).SameTags plc where
  live := Keyed.keys_assign_of_mem (mem_live_iff.mpr (by rw [h]; rfl)) other
  created := rfl
  destroyed := rfl

theorem sameTags_startRead (plc : Plc) (handle : Nat) :
    (plc.startRead handle).1.SameTags plc := by
  unfold startRead
  split
  · exact .refl plc
  · next tag htag =>
    exact ⟨(sameTags_setTag htag (plc.afterRead tag)).live, rfl, rfl⟩

theorem sameTags_setBuffer (plc : Plc) (handle : Nat) (buffer : Buffer) :
    (plc.setBuffer handle buffer).SameTags plc := by
  unfold setBuffer
  split
  · exact .refl plc
  · next tag htag => exact sameTags_setTag htag _

theorem sameTags_startWrite (plc : Plc) (handle : Nat) :
    (plc.startWrite handle).1.SameTags plc := by
  unfold startWrite
  split
  · exact .refl plc
  · next tag htag =>
    split_ifs
    · exact sameTags_setTag htag _
    · exact ⟨(sameTags_setTag htag { tag with status := .ok }).live, rfl, rfl⟩

/-- A tag that is created and destroyed again leaves the others. -/
theorem Balanced.live_destroy_withNew (h : plc.Balanced)
    (hnext : next.SameTags (plc.withNew connection)) :
    (next.destroy (plc.created + 1)).live = plc.live := by
  have hall : plc.live.filter (fun handle => decide (handle ≠ plc.created + 1)) = plc.live :=
    List.filter_eq_self.mpr fun handle hlive => decide_eq_true fun heq =>
      h.not_mem_live (heq ▸ hlive)
  rw [(hnext.balanced (h.withNew connection)).live_destroy, hnext.live, h.live_withNew,
    List.filter_append, hall]
  simp

end PlcTags.Plc

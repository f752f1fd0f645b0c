import Mathlib.Data.List.Nodup
import PlcTags.Registry.Merge

/-!
# Identifiers and positions

Values get the identifiers that are drawn, one after the other, and the index gets the position of
each. A merge pass changes values and keeps both.

* `Registry.Numbered`: the identifiers and the index are as registering leaves them.
* `Registry.Numbered.position?_eq_some_iff`, `Registry.Numbered.find?_eq_some_iff`: what is found
  under an identifier.
* `Registry.Numbered.update_eq`: changing the value of an identifier is changing the one at its
  position.
-/

namespace PlcTags

/-- Identifiers that are distinct find their values. -/
theorem find?_id_eq {values : List Registered} {v : Registered}
    (hids : (values.map Registered.id).Nodup) (hv : v ∈ values) :
    values.find? (fun u => u.id == v.id) = some v := by
  have hsome : (values.find? fun u => u.id == v.id).isSome = true :=
    List.find?_isSome.mpr ⟨v, hv, beq_self_eq_true v.id⟩
  obtain ⟨u, hu⟩ := Option.isSome_iff_exists.mp hsome
  have hid : u.id = v.id := by simpa using List.find?_some hu
  rw [hu, List.inj_on_of_nodup_map hids (List.mem_of_find?_eq_some hu) hv hid]

namespace Registry

/-- **A numbered registry**: its values have the identifiers that were drawn, in their order, and
its index has the position of each. -/
structure Numbered (r : Registry) : Prop where
  ids : r.values.map Registered.id = (List.range r.values.length).map r.ids.draw
  index : r.index = (List.range r.values.length).map fun i => (r.ids.draw i, i)

namespace Numbered

variable {r next : Registry} {v : Registered} {id : ValueId} {i : Nat}

theorem start (ids : ValueId.Supply) : Numbered { ids := ids } :=
  ⟨rfl, rfl⟩

/-- Values may change as long as they keep their identifiers. -/
theorem of_same (h : r.Numbered) (hids : next.ids = r.ids) (hindex : next.index = r.index)
    (hvalues : next.values.map Registered.id = r.values.map Registered.id) : next.Numbered := by
  have hlength : next.values.length = r.values.length := by
    simpa using congrArg List.length hvalues
  refine ⟨?_, ?_⟩
  · rw [hvalues, hids, hlength, h.ids]
  · rw [hindex, hids, hlength, h.index]

theorem ids_nodup (h : r.Numbered) : (r.values.map Registered.id).Nodup := by
  rw [h.ids]
  exact List.Nodup.map (fun _ _ heq => r.ids.fresh heq) List.nodup_range

theorem keys_eq (h : r.Numbered) :
    r.index.map Prod.fst = (List.range r.values.length).map r.ids.draw := by
  rw [h.index, List.map_map]
  rfl

/-- A value at the end, under the next identifier. -/
theorem append (h : r.Numbered) (hid : v.id = r.ids.draw r.values.length) :
    (r.append v).Numbered := by
  have hnew : v.id ∉ r.index.map Prod.fst := by
    rw [h.keys_eq, hid]
    intro hmem
    obtain ⟨i, hi, heq⟩ := List.mem_map.mp hmem
    exact Nat.ne_of_lt (List.mem_range.mp hi) (r.ids.fresh heq)
  refine ⟨?_, ?_⟩
  · show (r.values ++ [v]).map Registered.id = (List.range (r.values ++ [v]).length).map r.ids.draw
    rw [List.map_append, h.ids, List.length_append, List.length_singleton, List.range_succ,
      List.map_append, List.map_singleton, List.map_singleton, hid]
  · show Keyed.assign v.id r.values.length r.index =
      (List.range (r.values ++ [v]).length).map fun i => (r.ids.draw i, i)
    rw [Keyed.assign_of_not_mem hnew, List.length_append, List.length_singleton, List.range_succ,
      List.map_append, h.index, List.map_singleton, hid]

theorem id_eq (h : r.Numbered) (hv : r.values[i]? = some v) : v.id = r.ids.draw i := by
  obtain ⟨hlt, rfl⟩ := List.getElem?_eq_some_iff.mp hv
  have hids := congrArg (·[i]?) h.ids
  simpa [hlt] using hids

/-- **The index has the position of each value under its identifier**, and nothing else. -/
theorem position?_eq_some_iff (h : r.Numbered) :
    r.position? id = some i ↔ ∃ v, r.values[i]? = some v ∧ v.id = id := by
  have hkeys : (r.index.map Prod.fst).Nodup := by
    rw [h.keys_eq, ← h.ids]
    exact h.ids_nodup
  constructor
  · intro hfound
    have hmem := Keyed.mem_of_find? hfound
    rw [h.index] at hmem
    obtain ⟨j, hj, heq⟩ := List.mem_map.mp hmem
    obtain ⟨rfl, rfl⟩ := Prod.mk.inj heq
    have hv := List.getElem?_eq_getElem (List.mem_range.mp hj)
    exact ⟨_, hv, h.id_eq hv⟩
  · rintro ⟨v, hv, rfl⟩
    refine Keyed.find?_of_mem hkeys ?_
    rw [h.index, h.id_eq hv]
    exact List.mem_map.mpr ⟨i, List.mem_range.mpr (List.getElem?_eq_some_iff.mp hv).1, rfl⟩

/-- **Looking an identifier up finds its value.** -/
theorem find?_eq_some_iff (h : r.Numbered) : r.find? id = some v ↔ v ∈ r.values ∧ v.id = id := by
  unfold find?
  rw [Option.bind_eq_some_iff]
  constructor
  · rintro ⟨i, hposition, hv⟩
    obtain ⟨u, hu, hid⟩ := h.position?_eq_some_iff.mp hposition
    cases hu.symm.trans hv
    exact ⟨List.mem_of_getElem? hv, hid⟩
  · rintro ⟨hv, hid⟩
    obtain ⟨i, hi⟩ := List.mem_iff_getElem?.mp hv
    exact ⟨i, h.position?_eq_some_iff.mpr ⟨v, hi, hid⟩, hi⟩

theorem find?_eq (h : r.Numbered) (hv : v ∈ r.values) : r.find? v.id = some v :=
  h.find?_eq_some_iff.mpr ⟨hv, rfl⟩

/-- What the index finds is what a search finds. -/
theorem find?_eq_search (h : r.Numbered) (id : ValueId) :
    r.find? id = r.values.find? fun v => v.id == id := by
  refine Option.ext fun v => ?_
  rw [h.find?_eq_some_iff]
  constructor
  · rintro ⟨hv, rfl⟩
    exact find?_id_eq h.ids_nodup hv
  · intro hfound
    exact ⟨List.mem_of_find?_eq_some hfound, by simpa using List.find?_some hfound⟩

/-- **Changing the value of an identifier** is changing the one at its position. -/
theorem update_eq (h : r.Numbered) (id : ValueId) (change : Registered → Registered) :
    MergePass.update r.values [id] change =
      ((r.position? id).map fun i => r.values.modify i change).getD r.values := by
  unfold MergePass.update
  cases hposition : r.position? id with
  | none =>
    have hother : ∀ v ∈ r.values, v.id ∉ [id] := by
      intro v hv hmem
      obtain ⟨i, hi⟩ := List.mem_iff_getElem?.mp hv
      cases hposition.symm.trans
        (h.position?_eq_some_iff.mpr ⟨v, hi, List.mem_singleton.mp hmem⟩)
    rw [List.map_congr_left fun v hv => if_neg (hother v hv), List.map_id']
    rfl
  | some i =>
    obtain ⟨u, hu, rfl⟩ := h.position?_eq_some_iff.mp hposition
    refine List.ext_getElem? fun j => ?_
    rw [Option.map_some, Option.getD_some, List.getElem?_modify, List.getElem?_map]
    cases hv : r.values[j]? with
    | none => rfl
    | some v =>
      -- the value at another position has another identifier
      have hiff : v.id ∈ [u.id] ↔ i = j := by
        rw [List.mem_singleton, h.id_eq hv, h.id_eq hu]
        exact ⟨fun heq => (r.ids.fresh heq).symm, fun heq => heq ▸ rfl⟩
      simp only [Option.map_some, hiff]
      rfl

end Numbered

end Registry

end PlcTags

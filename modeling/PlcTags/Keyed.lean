/-!
# Keyed entries

A finite map as the list of its entries, one entry a key.

* `find?_assign`, `find?_remove`: what is found after an assignment and after a removal.
* `assign_of_not_mem`, `keys_assign_of_mem`, `remove_eq_filter`: the entries themselves.
* `nodup_keys_assign`, `nodup_keys_remove`: one entry a key, before and after.
-/

namespace PlcTags.Keyed

variable {κ α : Type} [DecidableEq κ]

/-- The value of a key. -/
def find? (key : κ) : List (κ × α) → Option α
  | [] => none
  | entry :: rest => if entry.1 = key then some entry.2 else find? key rest

/-- The entries with a value for a key, in place of its old one if there is one. -/
def assign (key : κ) (value : α) : List (κ × α) → List (κ × α)
  | [] => [(key, value)]
  | entry :: rest =>
    if entry.1 = key then (key, value) :: rest else entry :: assign key value rest

/-- The entries without a key. -/
def remove (key : κ) : List (κ × α) → List (κ × α)
  | [] => []
  | entry :: rest => if entry.1 = key then remove key rest else entry :: remove key rest

theorem mem_of_find? {key : κ} {value : α} {entries : List (κ × α)}
    (h : find? key entries = some value) : (key, value) ∈ entries := by
  induction entries with
  | nil => cases h
  | cons entry rest ih =>
    unfold find? at h
    split at h
    · next heq =>
      cases h
      exact heq ▸ List.mem_cons_self
    · exact List.mem_cons_of_mem _ (ih h)

theorem find?_assign (key other : κ) (value : α) (entries : List (κ × α)) :
    find? other (assign key value entries) =
      if other = key then some value else find? other entries := by
  induction entries with
  | nil => simp [assign, find?, eq_comm]
  | cons entry rest ih =>
    unfold assign
    by_cases he : entry.1 = key
    · by_cases ho : other = key
      · simp [find?, he, ho]
      · have hne : ¬ key = other := fun h => ho h.symm
        simp [find?, he, ho, hne]
    · by_cases ho : other = key
      · subst ho
        simp [find?, he, ih]
      · simp [find?, he, ih, ho]

theorem find?_remove (key other : κ) (entries : List (κ × α)) :
    find? other (remove key entries) = if other = key then none else find? other entries := by
  induction entries with
  | nil => simp [remove, find?]
  | cons entry rest ih =>
    unfold remove
    by_cases he : entry.1 = key
    · rw [if_pos he, ih]
      by_cases ho : other = key
      · rw [if_pos ho, if_pos ho]
      · have hne : ¬ entry.1 = other := fun h => ho (h.symm.trans he)
        rw [if_neg ho, if_neg ho, find?, if_neg hne]
    · rw [if_neg he, find?, find?, ih]
      by_cases ho : other = key
      · have hne : ¬ entry.1 = other := fun h => he (h.trans ho)
        rw [if_neg hne, if_pos ho, if_pos ho]
      · rw [if_neg ho, if_neg ho]

/-! ## Entries -/

theorem isSome_find?_iff {key : κ} {entries : List (κ × α)} :
    (find? key entries).isSome = true ↔ key ∈ entries.map Prod.fst := by
  induction entries with
  | nil => simp [find?]
  | cons entry rest ih =>
    rw [find?, List.map_cons, List.mem_cons]
    split
    · next heq => simp [heq]
    · next hne =>
      rw [ih]
      exact ⟨Or.inr, fun h => h.resolve_left (Ne.symm hne)⟩

/-- A new key comes last. -/
theorem assign_of_not_mem {key : κ} {entries : List (κ × α)} (h : key ∉ entries.map Prod.fst)
    (value : α) : assign key value entries = entries ++ [(key, value)] := by
  induction entries with
  | nil => rfl
  | cons entry rest ih =>
    rw [List.map_cons, List.mem_cons, not_or] at h
    rw [assign, if_neg (Ne.symm h.1), ih h.2, List.cons_append]

/-- A key that is there stays where it is. -/
theorem keys_assign_of_mem {key : κ} {entries : List (κ × α)} (h : key ∈ entries.map Prod.fst)
    (value : α) : (assign key value entries).map Prod.fst = entries.map Prod.fst := by
  induction entries with
  | nil => cases h
  | cons entry rest ih =>
    unfold assign
    by_cases heq : entry.1 = key
    · rw [if_pos heq, List.map_cons, List.map_cons, heq]
    · rw [List.map_cons, List.mem_cons] at h
      rw [if_neg heq, List.map_cons, List.map_cons, ih (h.resolve_left (Ne.symm heq))]

theorem remove_eq_filter (key : κ) (entries : List (κ × α)) :
    remove key entries = entries.filter fun entry => decide (entry.1 ≠ key) := by
  induction entries with
  | nil => rfl
  | cons entry rest ih =>
    unfold remove
    by_cases heq : entry.1 = key
    · rw [if_pos heq, List.filter_cons_of_neg (by simp [heq]), ih]
    · rw [if_neg heq, List.filter_cons_of_pos (by simp [heq]), ih]

/-! ## One entry a key -/

theorem find?_of_mem {key : κ} {value : α} {entries : List (κ × α)}
    (hkeys : (entries.map Prod.fst).Nodup) (h : (key, value) ∈ entries) :
    find? key entries = some value := by
  induction entries with
  | nil => cases h
  | cons entry rest ih =>
    rw [List.map_cons, List.nodup_cons] at hkeys
    rcases List.mem_cons.mp h with rfl | hrest
    · rw [find?, if_pos rfl]
    · have hne : entry.1 ≠ key := fun heq => hkeys.1 (heq ▸ List.mem_map_of_mem hrest)
      rw [find?, if_neg hne, ih hkeys.2 hrest]

theorem nodup_keys_assign {entries : List (κ × α)} (h : (entries.map Prod.fst).Nodup) (key : κ)
    (value : α) : ((assign key value entries).map Prod.fst).Nodup := by
  by_cases hmem : key ∈ entries.map Prod.fst
  · rwa [keys_assign_of_mem hmem]
  · rw [assign_of_not_mem hmem, List.map_append, List.nodup_append]
    refine ⟨h, List.nodup_cons.mpr ⟨List.not_mem_nil, List.nodup_nil⟩, ?_⟩
    rintro other hother _ hlast rfl
    have heq : other = key := List.mem_singleton.mp hlast
    exact hmem (heq ▸ hother)

theorem nodup_keys_remove {entries : List (κ × α)} (h : (entries.map Prod.fst).Nodup) (key : κ) :
    ((remove key entries).map Prod.fst).Nodup := by
  rw [remove_eq_filter]
  exact h.sublist (List.filter_sublist.map _)

end PlcTags.Keyed

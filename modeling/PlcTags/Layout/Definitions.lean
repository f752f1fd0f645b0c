import PlcTags.Text.Blank

/-!
# Structure definitions

A table of structures: names with the member texts of each, in the order in which the names first
came. A later definition of a name replaces the members and keeps the place.

* `Definitions.members?_eq_none_iff`: what a lookup finds at all; `Definitions.members?_insert`: what
  it finds after an insertion.
* `Definitions.ofText`: the table of a definitions file, one structure a line, fields between commas.
-/

namespace PlcTags.Layout

/-- One structure: its name and its member texts. -/
structure Definition where
  name : String
  members : List String
  deriving DecidableEq, Repr

/-- Structures with distinct names. -/
structure Definitions where
  rows : List Definition
  distinct : (rows.map Definition.name).Nodup

namespace Definitions

/-- No structures. -/
def empty : Definitions :=
  ⟨[], List.nodup_nil⟩

/-- The names in their order. -/
def names (defs : Definitions) : List String :=
  defs.rows.map Definition.name

/-- Is the name defined? -/
def contains (defs : Definitions) (name : String) : Bool :=
  defs.names.contains name

/-- The member texts of a name. -/
def members? (defs : Definitions) (name : String) : Option (List String) :=
  (defs.rows.find? fun row => row.name == name).map Definition.members

/-- The rows with new members for a name. -/
def replaceRow (name : String) (members : List String) (rows : List Definition) :
    List Definition :=
  rows.map fun row => if row.name = name then ⟨name, members⟩ else row

theorem map_name_replaceRow (name : String) (members : List String) (rows : List Definition) :
    (replaceRow name members rows).map Definition.name = rows.map Definition.name := by
  unfold replaceRow
  rw [List.map_map]
  refine List.map_congr_left fun row _ => ?_
  simp only [Function.comp_apply]
  split
  · next h => exact h.symm
  · rfl

theorem nodup_append_of_not_mem {name : String} {rows : List Definition}
    (h : name ∉ rows.map Definition.name) (hd : (rows.map Definition.name).Nodup)
    (members : List String) :
    ((rows ++ [(⟨name, members⟩ : Definition)]).map Definition.name).Nodup := by
  rw [List.map_append, List.nodup_append]
  refine ⟨hd, by simp, ?_⟩
  intro a ha b hb hab
  simp only [List.map_cons, List.map_nil, List.mem_singleton] at hb
  exact h (hb ▸ hab ▸ ha)

/-- The table with a definition added, or with the members of its name replaced. -/
def insert (defs : Definitions) (name : String) (members : List String) : Definitions :=
  if h : name ∈ defs.rows.map Definition.name then
    ⟨replaceRow name members defs.rows, by rw [map_name_replaceRow]; exact defs.distinct⟩
  else
    ⟨defs.rows ++ [⟨name, members⟩], nodup_append_of_not_mem h defs.distinct members⟩

/-- The table of rows inserted one after the other. -/
def ofRows (rows : List Definition) : Definitions :=
  rows.foldl (fun defs row => defs.insert row.name row.members) empty

/-- A field of a definitions file: no blanks around it, no quotes around it, no blanks inside
those. -/
def cleanField (field : List Char) : List Char :=
  Text.trim (Text.dropEnds (· == '"') (Text.trim field))

/-- The definition on a line. Empty lines, comments and lines without a name give none; empty
fields after the name are left out. -/
def ofLine? (line : List Char) : Option Definition :=
  let content := Text.trim line
  if content.isEmpty || content.head? == some '#' then none
  else
    match (content.splitOn ',').map cleanField with
    | [] => none
    | name :: fields =>
      if name.isEmpty then none
      else some
        { name := String.ofList name
          members := (fields.filter fun field => !field.isEmpty).map String.ofList }

/-- The table of a definitions file. -/
def ofText (text : String) : Definitions :=
  ofRows ((text.toList.splitOn '\n').filterMap ofLine?)

theorem find?_replaceRow (name other : String) (members : List String) (rows : List Definition) :
    ((replaceRow name members rows).find? fun row => row.name == other) =
      (rows.find? fun row => row.name == other).map fun row =>
        if row.name = name then ⟨name, members⟩ else row := by
  induction rows with
  | nil => rfl
  | cons row rest ih =>
    have hname : (if row.name = name then (⟨name, members⟩ : Definition) else row).name = row.name := by
      split
      · next h => exact h.symm
      · rfl
    simp only [replaceRow, List.map_cons, List.find?_cons] at ih ⊢
    rw [hname]
    by_cases h : row.name == other
    · simp [h]
    · simp only [h]
      exact ih

/-- A name has members exactly if it is defined. -/
theorem members?_eq_none_iff {defs : Definitions} {name : String} :
    defs.members? name = none ↔ name ∉ defs.names := by
  unfold members? names
  rw [Option.map_eq_none_iff, List.find?_eq_none, List.mem_map, not_exists]
  refine forall_congr' fun row => ?_
  rw [not_and, beq_iff_eq]

/-- A lookup after an insertion finds the new members under the new name, and what was there under
every other name. -/
theorem members?_insert (defs : Definitions) (name other : String) (members : List String) :
    (defs.insert name members).members? other =
      if other = name then some members else defs.members? other := by
  unfold insert members?
  by_cases hin : name ∈ defs.rows.map Definition.name
  · simp only [hin, ↓reduceDIte]
    rw [find?_replaceRow, Option.map_map]
    by_cases ho : other = name
    · subst ho
      obtain ⟨row, hrow, hname⟩ := List.mem_map.1 hin
      have : (defs.rows.find? fun row => row.name == other).isSome := by
        rw [List.find?_isSome]
        exact ⟨row, hrow, by simp [hname]⟩
      obtain ⟨found, hfound⟩ := Option.isSome_iff_exists.1 this
      have hkey : found.name = other := by simpa using List.find?_some hfound
      simp [hfound, hkey]
    · rw [if_neg ho]
      cases hfound : defs.rows.find? fun row => row.name == other with
      | none => rfl
      | some found =>
        have hkey : found.name = other := by simpa using List.find?_some hfound
        simp [hkey, ho]
  · simp only [hin, ↓reduceDIte]
    by_cases ho : other = name
    · subst ho
      have : (defs.rows.find? fun row => row.name == other) = none := by
        rw [List.find?_eq_none]
        intro row hrow hname
        exact hin (List.mem_map.2 ⟨row, hrow, by simpa using hname⟩)
      simp [List.find?_append, this]
    · have hne : (name == other) = false := beq_false_of_ne fun h => ho h.symm
      simp [List.find?_append, hne, ho]

end Definitions

end PlcTags.Layout

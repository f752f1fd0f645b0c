import PlcTags.Layout.Lookup
import PlcTags.Layout.Tree

/-!
# The structure table

Every defined structure, laid out or with the reason why it cannot be. A structure that fails leaves
the others usable.

* `Table.find?_compile`: what a compiled table holds under a name.
-/

namespace PlcTags.Layout

/-- A structure that was laid out: its tokens and the offsets of its leaves. -/
structure Compiled where
  tokens : List Token
  offsets : List LeafOffset
  deriving DecidableEq, Repr

namespace Compiled

/-- The numbers of the leaves that lie at bits. -/
def bitLeaves (compiled : Compiled) : List Nat :=
  (compiled.offsets.zipIdx.filter fun leaf => leaf.1.isBit).map Prod.snd

end Compiled

/-- The layout of one structure. -/
def Definitions.compile (defs : Definitions) (name : String) : Except DefinitionError Compiled := do
  let tokens ← defs.layout name
  let table ← offsets name tokens
  pure ⟨tokens, table⟩

/-- The outcome for every structure, in the order of the definitions. -/
structure Table where
  entries : List (String × Except DefinitionError Compiled)

namespace Table

/-- No structures. -/
def empty : Table :=
  ⟨[]⟩

/-- The table of all definitions. -/
def compile (defs : Definitions) : Table :=
  ⟨defs.names.map fun name => (name, defs.compile name)⟩

/-- The outcome for a name. -/
def find? (table : Table) (name : String) : Option (Except DefinitionError Compiled) :=
  table.entries.lookup name

theorem lookup_map_pair {α : Type} (f : String → α) (names : List String) (name : String) :
    (names.map fun other => (other, f other)).lookup name =
      if name ∈ names then some (f name) else none := by
  induction names with
  | nil => rfl
  | cons other rest ih =>
    rw [List.map_cons, List.lookup_cons, ih]
    by_cases h : name = other
    · subst h
      simp
    · rw [beq_false_of_ne h]
      simp [h]

/-- A compiled table holds the outcome of every defined structure. -/
theorem find?_compile (defs : Definitions) (name : String) :
    (compile defs).find? name = (defs.members? name).map fun _ => defs.compile name := by
  show (defs.names.map fun other => (other, defs.compile other)).lookup name = _
  rw [lookup_map_pair]
  cases h : defs.members? name with
  | none => rw [if_neg (Definitions.members?_eq_none_iff.mp h), Option.map_none]
  | some members => rw [if_pos (Definitions.mem_names_of_members? h), Option.map_some]

/-- The structures that failed, in the order of the definitions. -/
def failures (table : Table) : List (String × DefinitionError) :=
  table.entries.filterMap fun entry => match entry.2 with
    | .error cause => some (entry.1, cause)
    | .ok _ => none

/-- The offset that a path names in a structure. -/
def resolve (table : Table) (name : String) (path : List Nat) : Except LookupError LeafOffset :=
  match table.find? name with
  | none => .error (.unknownStructure name)
  | some (.error cause) => .error (.invalidStructure name cause)
  | some (.ok compiled) => Layout.resolve name compiled.tokens compiled.offsets path

end Table

end PlcTags.Layout

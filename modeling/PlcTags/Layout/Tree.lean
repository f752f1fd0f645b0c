import PlcTags.Layout.Definitions
import PlcTags.Layout.Member
import PlcTags.Layout.Token

/-!
# Member trees

A structure with every reference followed: a tree whose leaves are primitives. Arrays keep one copy
of their element.

* `expandFrom` follows the references of a structure while a chain of structures is open. A structure
  that is already open contains itself, so every step opens another defined structure, and there are
  only finitely many.
* `Node.tokens` writes a tree as a flat list with marks; an array repeats its element.
-/

namespace PlcTags.Layout

/-- A member with its references followed. -/
inductive Node
  | primitive (kind : Primitive)
  | array (count : Nat) (element : Node)
  | struct (name : String) (members : List Node)
  deriving Repr

namespace Node

mutual

/-- The tokens of a tree. -/
def tokens : Node → List Token
  | .primitive kind => [.primitive kind]
  | .array count element =>
    .enter .array :: ((List.replicate count (tokens element)).flatten ++ [.leave .array])
  | .struct name members =>
    .enter (.struct name) :: (tokensOf members ++ [.leave (.struct name)])

/-- The tokens of trees, one after the other. -/
def tokensOf : List Node → List Token
  | [] => []
  | node :: rest => tokens node ++ tokensOf rest

end

end Node

/-- The tree of an element, given how structures are expanded. -/
def Element.node (structs : String → Except DefinitionError (List Node)) :
    Element → Except DefinitionError Node
  | .primitive kind => .ok (.primitive kind)
  | .struct name => (structs name).map (.struct name)

/-- The tree of a member, given how structures are expanded. -/
def Member.node (structs : String → Except DefinitionError (List Node)) (member : Member) :
    Except DefinitionError Node :=
  match member with
  | .single element => element.node structs
  | .array _ _ element => (element.node structs).map (.array member.count)

namespace Definitions

/-- How many defined structures are not open. -/
def unopened (defs : Definitions) (chain : List String) : Nat :=
  defs.names.countP fun name => decide (name ∉ chain)

theorem mem_rows_of_members? {defs : Definitions} {name : String} {members : List String}
    (h : defs.members? name = some members) : ⟨name, members⟩ ∈ defs.rows := by
  obtain ⟨row, hrow, rfl⟩ := Option.map_eq_some_iff.1 h
  have hkey : row.name = name := by simpa using List.find?_some hrow
  subst hkey
  exact List.mem_of_find?_eq_some hrow

theorem mem_names_of_members? {defs : Definitions} {name : String} {members : List String}
    (h : defs.members? name = some members) : name ∈ defs.names :=
  List.mem_map.2 ⟨_, mem_rows_of_members? h, rfl⟩

theorem countP_lt_countP {α : Type} {p q : α → Bool} {xs : List α} {x : α} (hx : x ∈ xs)
    (hle : ∀ y, p y → q y) (hp : p x = false) (hq : q x = true) : xs.countP p < xs.countP q := by
  induction xs with
  | nil => simp at hx
  | cons y rest ih =>
    have hrest : rest.countP p ≤ rest.countP q := List.countP_mono_left fun z _ => hle z
    rcases List.mem_cons.1 hx with rfl | hx
    · rw [List.countP_cons, List.countP_cons, hp, hq]
      simp; omega
    · have := ih hx
      rw [List.countP_cons, List.countP_cons]
      by_cases hy : p y
      · rw [if_pos hy, if_pos (hle y hy)]; omega
      · rw [if_neg hy]; omega

/-- Opening a defined structure leaves fewer unopened. -/
theorem unopened_append_lt {defs : Definitions} {chain : List String} {name : String}
    (hmem : name ∈ defs.names) (hnew : name ∉ chain) :
    defs.unopened (chain ++ [name]) < defs.unopened chain := by
  refine countP_lt_countP hmem (fun y hy => ?_) (by simp) (by simpa using hnew)
  simp only [List.mem_append, List.mem_singleton, not_or, decide_eq_true_eq] at hy ⊢
  exact hy.1

/-- The members of a structure as trees, while the structures of `chain` are open. -/
def expandFrom (defs : Definitions) (chain : List String) (name : String) :
    Except DefinitionError (List Node) :=
  if _ : name ∈ chain then .error (.cyclic name (chain ++ [name]))
  else
    match _ : defs.members? name with
    | none => .error (.unknownStructure name)
    | some members => members.mapM fun text => do
      let member ← Member.parse name text
      member.node fun child => expandFrom defs (chain ++ [name]) child
termination_by defs.unopened chain
decreasing_by
  exact unopened_append_lt (mem_names_of_members? (by assumption)) (by assumption)

/-- The members of a structure as trees. -/
def expand (defs : Definitions) (name : String) : Except DefinitionError (List Node) :=
  defs.expandFrom [] name

/-- The tokens of a structure. -/
def layout (defs : Definitions) (name : String) : Except DefinitionError (List Token) :=
  (defs.expand name).map Node.tokensOf

end Definitions

end PlcTags.Layout

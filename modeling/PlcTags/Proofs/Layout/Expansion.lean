import Mathlib.Tactic.SplitIfs
import PlcTags.Layout.Table
import PlcTags.Proofs.Layout.Spelling
import PlcTags.Proofs.Outcome

/-!
# Expanded structures

What a successful expansion looks like: one tree a member, in order, each from the member's text
(`expandFrom_eq_ok_iff`). Primitives occupy at least one byte (`proper_of_expand`). The bounds of an
array that is read are in order and fit 64 bits (`Member.bounds_of_parse`), and only those over all
indices of a word declare more elements than it counts (`Member.declared_le_of_parse`).

* `Node.children`: what an index steps into, the elements of an array or the members of a structure.
* `Node.induct`: induction over trees, the members of a structure all at once;
  `Node.inductChildren` treats arrays and structures alike.
* `Node.tokens_of_region`: a tree that is no primitive is its children between two marks.
-/

namespace PlcTags.Layout

namespace Node

/-- The parts of a tree that an index chooses from. -/
def children : Node → List Node
  | .primitive _ => []
  | .array count element => List.replicate count element
  | .struct _ members => members

/-- The boundary around the children of a tree; a primitive has none. -/
def boundary? : Node → Option Boundary
  | .primitive _ => none
  | .array _ _ => some .array
  | .struct name _ => some (.struct name)

theorem exists_of_boundary?_eq_none {node : Node} (h : node.boundary? = none) :
    ∃ kind, node = .primitive kind := by
  rcases node with kind | ⟨count, element⟩ | ⟨name, members⟩
  · exact ⟨kind, rfl⟩
  · cases h
  · cases h

@[elab_as_elim]
theorem induct {motive : Node → Prop} (primitive : ∀ kind, motive (.primitive kind))
    (array : ∀ count element, motive element → motive (.array count element))
    (struct : ∀ name members, (∀ member ∈ members, motive member) → motive (.struct name members)) :
    ∀ node, motive node
  | .primitive kind => primitive kind
  | .array count element => array count element (induct primitive array struct element)
  | .struct name members =>
    struct name members fun member _ => induct primitive array struct member

/-- Induction over trees through the children, whatever their boundary. -/
@[elab_as_elim]
theorem inductChildren {motive : Node → Prop} (primitive : ∀ kind, motive (.primitive kind))
    (region : ∀ (node : Node) (boundary : Boundary), node.boundary? = some boundary →
      (∀ child ∈ node.children, motive child) → motive node) (node : Node) : motive node := by
  induction node using Node.induct with
  | primitive kind => exact primitive kind
  | array count element ih =>
    exact region _ _ rfl fun child hc => List.eq_of_mem_replicate hc ▸ ih
  | struct name members ih => exact region _ _ rfl ih

theorem tokensOf_append (front back : List Node) :
    tokensOf (front ++ back) = tokensOf front ++ tokensOf back := by
  induction front with
  | nil => rfl
  | cons node rest ih => simp [tokensOf, ih]

theorem tokensOf_replicate (count : Nat) (element : Node) :
    tokensOf (List.replicate count element) = (List.replicate count element.tokens).flatten := by
  induction count with
  | zero => rfl
  | succ count ih => simp [List.replicate_succ, tokensOf, ih]

theorem tokens_array (count : Nat) (element : Node) :
    (array count element).tokens =
      .enter .array :: (tokensOf (List.replicate count element) ++ [.leave .array]) := by
  rw [tokens, tokensOf_replicate]

theorem tokens_of_region {node : Node} {boundary : Boundary} (h : node.boundary? = some boundary) :
    node.tokens = .enter boundary :: (tokensOf node.children ++ [.leave boundary]) := by
  rcases node with kind | ⟨count, element⟩ | ⟨name, members⟩
  · cases h
  · cases h
    exact tokens_array count element
  · cases h
    rfl

/-- No primitive is without bytes. -/
inductive Proper : Node → Prop
  | primitive {kind : Primitive} (hwidth : 0 < kind.width) : Proper (.primitive kind)
  | array {count : Nat} {element : Node} (helement : Proper element) : Proper (.array count element)
  | struct {name : String} {members : List Node} (hmembers : ∀ member ∈ members, Proper member) :
    Proper (.struct name members)

theorem Proper.children {node : Node} (h : node.Proper) :
    ∀ child ∈ node.children, child.Proper := by
  cases h with
  | primitive => simp [Node.children]
  | array helement => exact fun child hc => List.eq_of_mem_replicate hc ▸ helement
  | struct hmembers => exact hmembers

end Node

/-! ## Inversion of the expansion -/

namespace Definitions

variable {defs : Definitions} {chain : List String} {name : String} {nodes : List Node}

/-- The tree that a member text gives while the structures of `chain` are open. -/
def NodeOf (defs : Definitions) (chain : List String) (owner text : String) (node : Node) : Prop :=
  ∃ member, Member.parse owner text = .ok member ∧ member.node (defs.expandFrom chain) = .ok node

/-- **Inversion**: the structure is not open, it is defined, and its trees are those of its member
texts, in order. -/
theorem expandFrom_eq_ok_iff : defs.expandFrom chain name = .ok nodes ↔
    name ∉ chain ∧ ∃ texts, defs.members? name = some texts ∧
      List.Forall₂ (defs.NodeOf (chain ++ [name]) name) texts nodes := by
  have hstep : ∀ text node, (do
      let member ← Member.parse name text
      member.node fun child => defs.expandFrom (chain ++ [name]) child) = .ok node ↔
        defs.NodeOf (chain ++ [name]) name text node := by
    intro text node
    exact bind_eq_ok_iff
  rw [expandFrom]
  by_cases hc : name ∈ chain
  · simp [hc]
  · rcases hm : defs.members? name with _ | texts
    · simp [hc]
    · simp only [hc, ↓reduceDIte, not_false_eq_true, true_and, Option.some.injEq, exists_eq_left']
      rw [mapM_eq_ok_iff]
      constructor
      · intro h
        exact h.imp fun text node => (hstep text node).mp
      · intro h
        exact h.imp fun text node => (hstep text node).mpr

end Definitions

/-! ## Expanded trees are proper -/

theorem Primitive.width_pos_of_ofKeyword? {keyword : String} {kind : Primitive}
    (h : Primitive.ofKeyword? keyword = some kind) : 0 < kind.width := by
  unfold ofKeyword? at h
  split at h <;> first | cases h; decide | cases h

/-- A primitive element occupies at least one byte: a string has a capacity. -/
theorem Element.width_pos_of_parse {owner : String} {text : List Char} {kind : Primitive}
    (h : Element.parse owner text = .ok (.primitive kind)) : 0 < kind.width := by
  unfold Element.parse at h
  split at h
  · next hk => cases h; exact Primitive.width_pos_of_ofKeyword? hk
  · split at h
    · split at h
      · next hc => cases h; exact (stringCapacity?_eq_some_iff.mp hc).1.1
      · cases h
    · cases h

/-- What a member holds, or the elements of its array. -/
def Member.element : Member → Element
  | .single element => element
  | .array _ _ element => element

/-- **Inversion** of a member text: one element, or the parts of an array. -/
theorem Member.parse_cases {owner text : String} {member : Member}
    (h : Member.parse owner text = .ok member) :
    (∃ chars element, Element.parse owner chars = .ok element ∧ member = .single element) ∨
      ∃ rest low high chars element, arrayParts rest = .ok (low, high, chars) ∧
        Element.parse owner chars = .ok element ∧ member = .array low high element := by
  unfold Member.parse Member.parseTrimmed at h
  split_ifs at h
  split at h
  · obtain ⟨element, helement, rfl⟩ := map_eq_ok_iff.mp h
    exact Or.inl ⟨_, element, helement, rfl⟩
  · split at h
    · cases h
    · next hparts =>
      obtain ⟨element, helement, rfl⟩ := map_eq_ok_iff.mp h
      exact Or.inr ⟨_, _, _, _, element, hparts, helement, rfl⟩

theorem Member.element_of_parse {owner text : String} {member : Member}
    (h : Member.parse owner text = .ok member) :
    ∃ chars, Element.parse owner chars = .ok member.element := by
  obtain ⟨chars, element, helement, rfl⟩ | ⟨_, _, _, chars, element, -, helement, rfl⟩ :=
    Member.parse_cases h
  · exact ⟨chars, helement⟩
  · exact ⟨chars, helement⟩

/-- The bounds of an array are in order, and both fit 64 bits. -/
theorem Member.bounds_of_parse {owner text : String} {low high : Nat} {element : Element}
    (h : Member.parse owner text = .ok (.array low high element)) :
    low ≤ high ∧ high < Text.wordLimit :=
  (Member.parse_eq_ok_iff.mp h).1.1

/-- **Only an array over all indices of a word declares more than a word counts.** -/
theorem Member.declared_le_of_parse {owner text : String} {member : Member}
    (h : Member.parse owner text = .ok member) : member.declared ≤ Text.wordLimit ∧
      (member.declared = Text.wordLimit ↔
        ∃ element, member = .array 0 (Text.wordLimit - 1) element) := by
  have hlimit : 1 < Text.wordLimit := by decide
  cases member with
  | single element =>
    refine ⟨hlimit.le, fun hcount => absurd hcount hlimit.ne, ?_⟩
    rintro ⟨_, heq⟩
    cases heq
  | array low high element =>
    obtain ⟨hle, hlt⟩ := Member.bounds_of_parse h
    refine ⟨show high - low + 1 ≤ Text.wordLimit by omega, fun hcount => ?_, ?_⟩
    · have hcount : high - low + 1 = Text.wordLimit := hcount
      obtain rfl : low = 0 := by omega
      obtain rfl : high = Text.wordLimit - 1 := by omega
      exact ⟨element, rfl⟩
    · rintro ⟨_, heq⟩
      cases heq
      exact Nat.sub_add_cancel hlimit.le

theorem Member.count_eq_zero {member : Member} (h : member.declared = Text.wordLimit) :
    member.count = 0 := by
  rw [Member.count, h, Nat.mod_self]

/-- The count is exact as long as it fits. -/
theorem Member.count_eq_declared_iff (member : Member) :
    member.count = member.declared ↔ member.declared < Text.wordLimit := by
  constructor
  · intro hcount
    exact hcount ▸ Nat.mod_lt _ (by decide)
  · exact Nat.mod_eq_of_lt

namespace Definitions

theorem proper_of_element {owner : String} {chars : List Char} {element : Element} {node : Node}
    {structs : String → Except DefinitionError (List Node)}
    (hparse : Element.parse owner chars = .ok element) (h : element.node structs = .ok node)
    (hstructs : ∀ child members, structs child = .ok members → ∀ member ∈ members, member.Proper) :
    node.Proper := by
  cases element with
  | primitive kind =>
    cases h
    exact .primitive (Element.width_pos_of_parse hparse)
  | struct child =>
    obtain ⟨members, hmembers, rfl⟩ := map_eq_ok_iff.mp h
    exact .struct (hstructs child members hmembers)

/-- **Expanded trees are proper.** Induction on the chain: the structures that an expansion opens
are fewer each time. -/
theorem proper_of_expandFrom {defs : Definitions} {chain : List String} {name : String}
    {nodes : List Node} (h : defs.expandFrom chain name = .ok nodes) :
    ∀ node ∈ nodes, node.Proper := by
  obtain ⟨hnew, texts, htexts, hnodes⟩ := expandFrom_eq_ok_iff.mp h
  have hless := unopened_append_lt (mem_names_of_members? htexts) hnew
  have hchild : ∀ child members, defs.expandFrom (chain ++ [name]) child = .ok members →
      ∀ member ∈ members, member.Proper := fun child members hm => proper_of_expandFrom hm
  intro node hnode
  obtain ⟨text, -, member, hparse, hmember⟩ := exists_of_mem_forall₂ hnodes hnode
  obtain ⟨chars, helement⟩ := Member.element_of_parse hparse
  cases member with
  | single element => exact proper_of_element helement hmember hchild
  | array low high element =>
    obtain ⟨inner, hinner, rfl⟩ := map_eq_ok_iff.mp hmember
    exact .array (proper_of_element helement hinner hchild)
termination_by defs.unopened chain

theorem proper_of_expand {defs : Definitions} {name : String} {nodes : List Node}
    (h : defs.expand name = .ok nodes) : ∀ node ∈ nodes, node.Proper :=
  proper_of_expandFrom h

end Definitions

end PlcTags.Layout

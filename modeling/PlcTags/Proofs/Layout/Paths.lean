import Mathlib.Data.List.Infix
import PlcTags.Proofs.Layout.Expansion
import PlcTags.Proofs.Layout.Order

/-!
# Index paths in a tree

What an index path means in a member tree: each index, counted from one, chooses a child.

* `Node.reach?`: the part of the tree that a path reaches; `Node.Misses` tells why a path reaches
  none (`misses_iff`).
* `Node.leafPaths`: the paths of the leaves in order. No leaf lies below another
  (`leafPaths_pairwise`), and they are the paths that reach a primitive (`mem_leafPaths_iff`).
-/

namespace PlcTags.Layout.Node

/-- **The part of a tree that a path reaches.** -/
def reach? : (path : List Nat) → Node → Option Node
  | [], node => some node
  | 0 :: _, _ => none
  | (index + 1) :: deeper, node => node.children[index]?.bind (reach? deeper)

/-- **A path reaches nothing**: an index is zero or exceeds the number of children, or the path goes
on below a primitive. -/
inductive Misses : Node → List Nat → Prop
  | zero {node : Node} {deeper : List Nat} : Misses node (0 :: deeper)
  | beyond {node : Node} {index : Nat} {deeper : List Nat} (h : node.children.length < index) :
      Misses node (index :: deeper)
  | belowPrimitive {kind : Primitive} {index : Nat} {deeper : List Nat} :
      Misses (.primitive kind) (index :: deeper)
  | inside {node child : Node} {index : Nat} {deeper : List Nat}
      (hchild : node.children[index]? = some child) (h : Misses child deeper) :
      Misses node ((index + 1) :: deeper)

theorem reach?_eq_none_of_misses {node : Node} {path : List Nat} (h : node.Misses path) :
    node.reach? path = none := by
  induction h with
  | zero => rfl
  | @beyond node index deeper h =>
    rcases index with _ | index
    · rfl
    · rw [reach?, List.getElem?_eq_none (by omega), Option.bind_none]
  | @belowPrimitive kind index deeper => rcases index with _ | index <;> rfl
  | inside hchild _ ih => rw [reach?, hchild, Option.bind_some, ih]

theorem misses_iff {node : Node} {path : List Nat} :
    node.Misses path ↔ node.reach? path = none := by
  refine ⟨reach?_eq_none_of_misses, fun h => ?_⟩
  induction path generalizing node with
  | nil => cases h
  | cons index deeper ih =>
    rcases index with _ | index
    · exact .zero
    · rw [reach?] at h
      rcases hchild : node.children[index]? with _ | child
      · have hlength := List.getElem?_eq_none_iff.mp hchild
        exact .beyond (by omega)
      · rw [hchild] at h
        exact .inside hchild (ih h)

/-! ## The paths of the leaves -/

mutual

/-- **The paths of the leaves** of a tree, in order. -/
def leafPaths : Node → List (List Nat)
  | .primitive _ => [[]]
  | .array count element =>
    (List.range count).flatMap fun index => (leafPaths element).map ((index + 1) :: ·)
  | .struct _ members => leafPathsFrom 1 members

/-- The paths of the leaves of siblings, the first of which has the given index. -/
def leafPathsFrom (index : Nat) : List Node → List (List Nat)
  | [] => []
  | node :: rest => (leafPaths node).map (index :: ·) ++ leafPathsFrom (index + 1) rest

end

theorem leafPathsFrom_append (index : Nat) (front back : List Node) :
    leafPathsFrom index (front ++ back) =
      leafPathsFrom index front ++ leafPathsFrom (index + front.length) back := by
  induction front generalizing index with
  | nil => rfl
  | cons node rest ih =>
    rw [List.cons_append, leafPathsFrom, leafPathsFrom, ih, List.append_assoc, List.length_cons,
      show index + 1 + rest.length = index + (rest.length + 1) by omega]

theorem leafPathsFrom_replicate (count : Nat) (element : Node) :
    leafPathsFrom 1 (List.replicate count element) = (array count element).leafPaths := by
  rw [leafPaths]
  induction count with
  | zero => rfl
  | succ count ih =>
    rw [List.replicate_succ', leafPathsFrom_append, ih, List.range_succ, List.flatMap_append,
      List.length_replicate, List.flatMap_singleton, leafPathsFrom, leafPathsFrom, List.append_nil,
      Nat.add_comm 1 count]

theorem leafPaths_of_region {node : Node} {boundary : Boundary}
    (h : node.boundary? = some boundary) : node.leafPaths = leafPathsFrom 1 node.children := by
  rcases node with kind | ⟨count, element⟩ | ⟨name, members⟩
  · cases h
  · exact (leafPathsFrom_replicate count element).symm
  · rw [leafPaths, children]

theorem mem_leafPathsFrom_iff {first : Nat} {path : List Nat} {nodes : List Node} :
    path ∈ leafPathsFrom first nodes ↔ ∃ index node deeper, nodes[index]? = some node ∧
      deeper ∈ node.leafPaths ∧ path = (first + index) :: deeper := by
  induction nodes generalizing first with
  | nil => simp [leafPathsFrom]
  | cons node rest ih =>
    rw [leafPathsFrom, List.mem_append, List.mem_map, ih]
    constructor
    · rintro (⟨deeper, hdeeper, rfl⟩ | ⟨index, child, deeper, hchild, hdeeper, rfl⟩)
      · exact ⟨0, node, deeper, rfl, hdeeper, rfl⟩
      · exact ⟨index + 1, child, deeper, hchild, hdeeper,
          by rw [Nat.add_assoc, Nat.add_comm 1 index]⟩
    · rintro ⟨index, child, deeper, hchild, hdeeper, rfl⟩
      rcases index with _ | index
      · cases hchild
        left
        exact ⟨deeper, hdeeper, rfl⟩
      · right
        exact ⟨index, child, deeper, hchild, hdeeper,
          by rw [Nat.add_assoc, Nat.add_comm 1 index]⟩

/-- **Leaf paths are the paths that reach a primitive.** -/
theorem mem_leafPaths_iff {node : Node} : ∀ {path : List Nat},
    path ∈ node.leafPaths ↔ ∃ kind, node.reach? path = some (.primitive kind) := by
  induction node using Node.inductChildren with
  | primitive kind =>
    intro path
    rw [leafPaths, List.mem_singleton]
    constructor
    · rintro rfl
      exact ⟨kind, rfl⟩
    · rintro ⟨other, h⟩
      rcases path with _ | ⟨index, deeper⟩
      · rfl
      · rw [reach?_eq_none_of_misses .belowPrimitive] at h
        cases h
  | region node boundary hboundary ih =>
    intro path
    rw [leafPaths_of_region hboundary, mem_leafPathsFrom_iff]
    constructor
    · rintro ⟨index, child, deeper, hchild, hdeeper, rfl⟩
      obtain ⟨kind, hkind⟩ := (ih child (List.mem_of_getElem? hchild)).mp hdeeper
      exact ⟨kind, by rw [Nat.add_comm, reach?, hchild, Option.bind_some, hkind]⟩
    · rintro ⟨kind, h⟩
      match path with
      | [] =>
        cases h
        cases hboundary
      | 0 :: deeper => cases h
      | (index + 1) :: deeper =>
        obtain ⟨child, hchild, hkind⟩ := Option.bind_eq_some_iff.mp h
        exact ⟨index, child, deeper, hchild,
          (ih child (List.mem_of_getElem? hchild)).mpr ⟨kind, hkind⟩, by rw [Nat.add_comm]⟩

/-- Neither path goes on from the other. -/
def Apart (p q : List Nat) : Prop := ¬ p <+: q ∧ ¬ q <+: p

theorem apart_cons {index : Nat} {p q : List Nat} (h : Apart p q) :
    Apart (index :: p) (index :: q) := by
  constructor
  · intro hpq
    exact h.1 (List.cons_prefix_cons.mp hpq).2
  · intro hqp
    exact h.2 (List.cons_prefix_cons.mp hqp).2

theorem apart_of_ne {i j : Nat} {p q : List Nat} (h : i ≠ j) : Apart (i :: p) (j :: q) := by
  constructor
  · intro hpq
    exact h (List.cons_prefix_cons.mp hpq).1
  · intro hqp
    exact h (List.cons_prefix_cons.mp hqp).1.symm

theorem leafPathsFrom_pairwise {nodes : List Node}
    (h : ∀ node ∈ nodes, node.leafPaths.Pairwise Apart) (first : Nat) :
    (leafPathsFrom first nodes).Pairwise Apart := by
  induction nodes generalizing first with
  | nil => exact .nil
  | cons node rest ih =>
    rw [leafPathsFrom, List.pairwise_append, List.pairwise_map]
    refine ⟨(h node List.mem_cons_self).imp apart_cons,
      ih (fun node hn => h node (List.mem_cons_of_mem _ hn)) _, ?_⟩
    intro p hp q hq
    obtain ⟨deeper, -, rfl⟩ := List.mem_map.mp hp
    obtain ⟨index, _, _, -, -, rfl⟩ := mem_leafPathsFrom_iff.mp hq
    exact apart_of_ne (by omega)

/-- **No leaf lies below another.** -/
theorem leafPaths_pairwise (node : Node) : node.leafPaths.Pairwise Apart := by
  induction node using Node.inductChildren with
  | primitive kind => exact .cons (fun _ h => nomatch h) .nil
  | region node boundary hboundary ih =>
    rw [leafPaths_of_region hboundary]
    exact leafPathsFrom_pairwise ih 1

/-! ## Counting leaves -/

theorem length_leafPathsFrom {nodes : List Node}
    (h : ∀ node ∈ nodes, node.leafPaths.length = primitiveCount node.tokens) (first : Nat) :
    (leafPathsFrom first nodes).length = primitiveCount (tokensOf nodes) := by
  induction nodes generalizing first with
  | nil => rfl
  | cons node rest ih =>
    rw [leafPathsFrom, List.length_append, List.length_map, h node List.mem_cons_self,
      ih (fun node hn => h node (List.mem_cons_of_mem _ hn)), tokensOf, primitiveCount,
      primitiveCount, primitiveCount, List.countP_append]

/-- A tree has as many leaf paths as primitives. -/
theorem length_leafPaths (node : Node) : node.leafPaths.length = primitiveCount node.tokens := by
  induction node using Node.inductChildren with
  | primitive kind => rw [leafPaths, tokens]; rfl
  | region node boundary hboundary ih =>
    rw [leafPaths_of_region hboundary, length_leafPathsFrom ih, tokens_of_region hboundary,
      primitiveCount, primitiveCount, List.countP_cons, List.countP_append]
    rfl

/-- The primitives of a tree are those of its children. -/
theorem kinds_of_region {node : Node} {boundary : Boundary} (h : node.boundary? = some boundary) :
    kinds node.tokens = kinds (tokensOf node.children) := by
  rw [tokens_of_region h, kinds, kinds_append, kinds, kinds, List.append_nil]

/-! ## The leaves below a path -/

theorem reach?_append (front back : List Nat) (node : Node) :
    node.reach? (front ++ back) = (node.reach? front).bind (reach? back) := by
  induction front generalizing node with
  | nil => rfl
  | cons index deeper ih =>
    rcases index with _ | index
    · rfl
    · rw [List.cons_append, reach?, reach?, Option.bind_assoc]
      congr 1
      funext child
      exact ih child

/-- A leaf path goes on from the tree that a beginning of it reaches. -/
theorem exists_of_prefix {tree : Node} {path leaf : List Nat} (hleaf : leaf ∈ tree.leafPaths)
    (hbegins : path <+: leaf) :
    ∃ node more, tree.reach? path = some node ∧ more ∈ node.leafPaths ∧ leaf = path ++ more := by
  obtain ⟨more, rfl⟩ := hbegins
  obtain ⟨kind, hkind⟩ := mem_leafPaths_iff.mp hleaf
  obtain ⟨node, hnode, hmore⟩ := Option.bind_eq_some_iff.mp ((reach?_append path more tree) ▸ hkind)
  exact ⟨node, more, hnode, mem_leafPaths_iff.mpr ⟨kind, hmore⟩, rfl⟩

theorem leafPathsFrom_split {level : List Node} {child : Node} {index : Nat}
    (h : level[index]? = some child) (first : Nat) : ∃ before after, leafPathsFrom first level =
      before ++ (child.leafPaths.map ((first + index) :: ·) ++ after) := by
  obtain ⟨hlt, rfl⟩ := List.getElem?_eq_some_iff.mp h
  refine ⟨leafPathsFrom first (level.take index),
    leafPathsFrom (first + index + 1) (level.drop (index + 1)), ?_⟩
  conv_lhs => rw [← List.take_append_drop index level, List.drop_eq_getElem_cons hlt]
  rw [leafPathsFrom_append, List.length_take_of_le hlt.le, leafPathsFrom]

/-- **The leaves of the tree that a path reaches** stand together, in their own order. -/
theorem leafPaths_split {tree node : Node} {path : List Nat} (h : tree.reach? path = some node) :
    ∃ before after, tree.leafPaths = before ++ (node.leafPaths.map (path ++ ·) ++ after) := by
  induction path generalizing tree with
  | nil =>
    cases h
    exact ⟨[], [], by simp⟩
  | cons index deeper ih =>
    rcases index with _ | index
    · cases h
    · obtain ⟨child, hchild, hnode⟩ := Option.bind_eq_some_iff.mp h
      obtain ⟨low, high, hsplit⟩ := ih hnode
      rcases hboundary : tree.boundary? with _ | boundary
      · obtain ⟨kind, rfl⟩ := exists_of_boundary?_eq_none hboundary
        cases hchild
      · obtain ⟨before, after, heq⟩ := leafPathsFrom_split hchild 1
        refine ⟨before ++ low.map ((index + 1) :: ·), high.map ((index + 1) :: ·) ++ after, ?_⟩
        rw [leafPaths_of_region hboundary, heq, hsplit, Nat.add_comm 1 index]
        simp [List.map_append, List.map_map, Function.comp_def]

end PlcTags.Layout.Node

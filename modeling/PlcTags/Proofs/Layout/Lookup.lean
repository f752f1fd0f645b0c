import PlcTags.Proofs.Layout.Compile
import PlcTags.Proofs.Layout.Paths

/-!
# Lookups follow the tree

The lookup walks over flat tokens, yet it finds what an index path means in the member tree: the
first leaf at or below the place that the path reaches (`leaf?_tokensOf`). For a compiled structure
every path resolves to the table entry of that leaf or is rejected because it reaches no leaf
(`FollowsTree`).

* `closing?_tokens`: looking for the end of a region passes over whole trees.
* `nth?_tokensOf`: the member that an index finds is the child with that index.
* `findIdx?_of_reach?`: the first leaf that goes on from a path.
-/

namespace PlcTags.Layout

open Node

/-! ## One level -/

theorem closing?_tokensOf {nodes : List Node}
    (h : ∀ node ∈ nodes, ∀ depth rest, closing? depth (node.tokens ++ rest) =
      (closing? depth rest).map (· + node.tokens.length)) (depth : Nat) (rest : List Token) :
    closing? depth (tokensOf nodes ++ rest) =
      (closing? depth rest).map (· + (tokensOf nodes).length) := by
  induction nodes with
  | nil => rw [tokensOf, List.nil_append]; simp
  | cons node more ih =>
    rw [tokensOf, List.append_assoc, h node List.mem_cons_self,
      ih (fun node hn => h node (List.mem_cons_of_mem _ hn)), Option.map_map]
    congr 1
    funext length
    show length + _ + _ = length + _
    rw [List.length_append]
    omega

/-- **Whole trees are passed over**: every region in them is closed again. -/
theorem closing?_tokens (node : Node) : ∀ depth rest, closing? depth (node.tokens ++ rest) =
    (closing? depth rest).map (· + node.tokens.length) := by
  induction node using Node.inductChildren with
  | primitive kind =>
    intro depth rest
    rw [tokens, List.singleton_append, closing?]
    rfl
  | region node boundary hboundary ih =>
    intro depth rest
    rw [tokens_of_region hboundary, List.cons_append, List.append_assoc, List.singleton_append,
      closing?, closing?_tokensOf ih, closing?, Option.map_map, Option.map_map]
    congr 1
    funext length
    show length + 1 + _ + 1 = length + _
    rw [List.length_cons, List.length_append, List.length_singleton]
    omega

theorem memberLength?_tokens (node : Node) (rest : List Token) :
    memberLength? (node.tokens ++ rest) = some node.tokens.length := by
  rcases hboundary : node.boundary? with _ | boundary
  · obtain ⟨kind, rfl⟩ := exists_of_boundary?_eq_none hboundary
    rw [tokens]
    rfl
  · rw [tokens_of_region hboundary, List.cons_append, List.append_assoc, List.singleton_append,
      memberLength?, closing?_tokensOf (fun node _ => closing?_tokens node), closing?,
      Option.map_some, Option.map_some, List.length_cons, List.length_append,
      List.length_singleton]
    congr 1
    omega

theorem tokens_length_pos (node : Node) : 0 < node.tokens.length := by
  rcases node with kind | ⟨count, element⟩ | ⟨name, members⟩ <;> simp [tokens]

/-- **The member that an index finds** on a level is the child with that index. -/
theorem nth?_tokensOf (level : List Node) (rest : List Token) (index : Nat) :
    nth? (tokensOf level ++ rest) (tokensOf level).length index =
      level[index]?.map fun node => ((tokensOf (level.take index)).length, node.tokens.length) := by
  induction level generalizing index with
  | nil => cases index <;> rfl
  | cons node more ih =>
    have hpos := tokens_length_pos node
    have hroom : (tokensOf (node :: more)).length ≠ 0 := by
      rw [tokensOf, List.length_append]
      omega
    rcases index with _ | index
    · rw [nth?, if_neg hroom, tokensOf, List.append_assoc, memberLength?_tokens]
      rfl
    · rw [nth?, if_neg hroom, tokensOf, List.append_assoc, memberLength?_tokens, Option.bind_some,
        List.drop_left, List.length_append, Nat.add_sub_cancel_left, ih, Option.map_map,
        List.getElem?_cons_succ]
      congr 1
      funext child
      show (_ + _, _) = _
      rw [List.take_succ_cons, tokensOf, List.length_append]

/-! ## Finding a leaf -/

theorem findIdx?_map_cons (index : Nat) (deeper : List Nat) (paths : List (List Nat)) :
    (paths.map (index :: ·)).findIdx? (index :: deeper).isPrefixOf =
      paths.findIdx? deeper.isPrefixOf := by
  rw [List.findIdx?_map]
  congr 1
  funext path
  show (index :: deeper).isPrefixOf (index :: path) = _
  rw [List.isPrefixOf_cons_cons, beq_self_eq_true, Bool.true_and]

theorem findIdx?_leafPathsFrom_of_lt {first index : Nat} (h : index < first) (deeper : List Nat)
    (level : List Node) :
    (leafPathsFrom first level).findIdx? (index :: deeper).isPrefixOf = none := by
  rw [List.findIdx?_eq_none_iff]
  intro path hpath
  obtain ⟨i, _, _, -, -, rfl⟩ := mem_leafPathsFrom_iff.mp hpath
  have hne : index ≠ first + i := by omega
  rw [List.isPrefixOf_cons_cons, beq_false_of_ne hne, Bool.false_and]

theorem findIdx?_map_cons_of_ne {first index : Nat} (h : index ≠ first) (deeper : List Nat)
    (paths : List (List Nat)) :
    (paths.map (first :: ·)).findIdx? (index :: deeper).isPrefixOf = none := by
  rw [List.findIdx?_eq_none_iff]
  intro path hpath
  obtain ⟨_, -, rfl⟩ := List.mem_map.mp hpath
  rw [List.isPrefixOf_cons_cons, beq_false_of_ne h, Bool.false_and]

/-- Among the leaves of siblings, those of the one that an index chooses. -/
theorem findIdx?_leafPathsFrom (level : List Node) (first index : Nat) (deeper : List Nat) :
    (leafPathsFrom first level).findIdx? ((first + index) :: deeper).isPrefixOf =
      level[index]?.bind fun node => (node.leafPaths.findIdx? deeper.isPrefixOf).map
        (primitiveCount (tokensOf (level.take index)) + ·) := by
  induction level generalizing first index with
  | nil => rfl
  | cons node more ih =>
    rw [leafPathsFrom, List.findIdx?_append]
    rcases index with _ | index
    · rw [Nat.add_zero, findIdx?_map_cons, findIdx?_leafPathsFrom_of_lt (Nat.lt_succ_self first),
        Option.map_none, Option.or_none, List.getElem?_cons_zero, Option.bind_some, List.take_zero]
      rcases node.leafPaths.findIdx? deeper.isPrefixOf with _ | leaf
      · rfl
      · exact congrArg some (Nat.zero_add leaf).symm
    · rw [findIdx?_map_cons_of_ne (by omega), Option.none_or, List.length_map, length_leafPaths,
        show first + (index + 1) = first + 1 + index by omega, ih, Option.map_bind,
        List.getElem?_cons_succ]
      congr 1
      funext child
      show Option.map _ (Option.map _ _) = _
      rw [Option.map_map]
      congr 1
      funext leaf
      show primitiveCount _ + leaf + primitiveCount _ = primitiveCount _ + leaf
      rw [List.take_succ_cons, tokensOf, primitiveCount, primitiveCount, primitiveCount,
        List.countP_append]
      omega

theorem tokensOf_split {level : List Node} {node : Node} {index : Nat}
    (h : level[index]? = some node) : tokensOf level =
      tokensOf (level.take index) ++ (node.tokens ++ tokensOf (level.drop (index + 1))) := by
  obtain ⟨hlt, rfl⟩ := List.getElem?_eq_some_iff.mp h
  conv_lhs => rw [← List.take_append_drop index level, List.drop_eq_getElem_cons hlt]
  rw [tokensOf_append, tokensOf]

theorem any_isPrimitive (tokens : List Token) :
    tokens.any Token.isPrimitive = true ↔ 0 < primitiveCount tokens := by
  rw [List.any_eq_true, primitiveCount, List.countP_pos_iff]

/-- A path that ends at a tree means its first leaf. -/
theorem findIdx?_leafPaths_nil (node : Node) : node.leafPaths.findIdx? ([] : List Nat).isPrefixOf =
    if node.tokens.any Token.isPrimitive then some 0 else none := by
  have hlength := length_leafPaths node
  split_ifs with hany
  · rw [any_isPrimitive] at hany
    rcases hpaths : node.leafPaths with _ | ⟨path, paths⟩
    · rw [hpaths, List.length_nil] at hlength
      omega
    · rfl
  · rw [any_isPrimitive] at hany
    rw [List.eq_nil_of_length_eq_zero (hlength.trans (Nat.eq_zero_of_not_pos hany))]
    rfl

/-- **The lookup finds the first leaf at or below the place that a path reaches.** Induction on the
path; a level is followed by the rest of the regions that are still open. -/
theorem leaf?_tokensOf {path : List Nat} (hpath : path ≠ []) (level : List Node)
    (rest : List Token) : leaf? path (tokensOf level ++ rest) (tokensOf level).length =
      (leafPathsFrom 1 level).findIdx? path.isPrefixOf := by
  induction path generalizing level rest with
  | nil => exact absurd rfl hpath
  | cons index deeper ih =>
    rcases index with _ | index
    · exact (findIdx?_leafPathsFrom_of_lt Nat.one_pos deeper level).symm
    · rw [leaf?, nth?_tokensOf, Nat.add_comm index 1, findIdx?_leafPathsFrom]
      rcases hnode : level[index]? with _ | node
      · rfl
      · rw [Option.map_some, Option.bind_some, Option.bind_some, tokensOf_split hnode,
          List.append_assoc, List.append_assoc, List.take_left, List.drop_left, List.take_left]
        rcases hboundary : node.boundary? with _ | boundary
        · obtain ⟨kind, rfl⟩ := exists_of_boundary?_eq_none hboundary
          rw [tokens, leafPaths]
          rcases deeper with _ | ⟨next, deeper⟩ <;> rfl
        · rcases deeper with _ | ⟨next, deeper⟩
          · -- the path ends here
            rw [findIdx?_leafPaths_nil, tokens_of_region hboundary, List.cons_append]
            show (if _ then some _ else none) = Option.map _ (if _ then some 0 else none)
            split_ifs <;> rfl
          · -- it goes on inside, before the end of the region
            have hlevel := ih (List.cons_ne_nil next deeper) node.children
              (.leave boundary :: (tokensOf (level.drop (index + 1)) ++ rest))
            rw [leafPaths_of_region hboundary, ← hlevel, tokens_of_region hboundary,
              List.cons_append, List.append_assoc, List.singleton_append, List.length_cons,
              List.length_append, List.length_singleton]
            rfl

/-! ## What a path finds -/

variable {tree node : Node} {path first : List Nat}

theorem findIdx?_isPrefixOf_eq_none_iff {paths : List (List Nat)} :
    paths.findIdx? path.isPrefixOf = none ↔ ∀ leaf ∈ paths, ¬ path <+: leaf := by
  rw [List.findIdx?_eq_none_iff]
  exact forall₂_congr fun leaf _ => by rw [← List.isPrefixOf_iff_prefix, Bool.not_eq_true]

/-- **The first leaf of the tree that a path reaches** is the first whose path goes on from it. -/
theorem findIdx?_of_reach? (h : tree.reach? path = some node)
    (hfirst : node.leafPaths.head? = some first) : ∃ leaf,
      tree.leafPaths.findIdx? path.isPrefixOf = some leaf ∧
      tree.leafPaths[leaf]? = some (path ++ first) := by
  obtain ⟨before, after, hsplit⟩ := leafPaths_split h
  obtain ⟨more, hmore⟩ := List.head?_eq_some_iff.mp hfirst
  have hpairwise := leafPaths_pairwise tree
  -- a leaf below the path stands with the others, not before them
  have hbefore : before.findIdx? path.isPrefixOf = none := by
    rw [findIdx?_isPrefixOf_eq_none_iff]
    intro leaf hleaf hbegins
    obtain ⟨reached, deeper, hreached, hdeeper, rfl⟩ := exists_of_prefix
      (hsplit ▸ List.mem_append_left _ hleaf) hbegins
    cases h.symm.trans hreached
    rw [hsplit, List.pairwise_append] at hpairwise
    exact (hpairwise.2.2 _ hleaf _ (List.mem_append_left _
      (List.mem_map_of_mem hdeeper))).1 List.prefix_rfl
  refine ⟨before.length, ?_, ?_⟩
  · rw [hsplit, List.findIdx?_append, hbefore, Option.none_or, hmore, List.map_cons,
      List.cons_append, List.findIdx?_cons,
      if_pos (List.isPrefixOf_iff_prefix.mpr (List.prefix_append path first))]
    exact congrArg some (Nat.zero_add _)
  · rw [hsplit, List.getElem?_append_right le_rfl, Nat.sub_self, hmore]
    rfl

/-- A path finds nothing when it misses the tree, or reaches a part without leaves. -/
theorem findIdx?_eq_none_iff : tree.leafPaths.findIdx? path.isPrefixOf = none ↔
    tree.Misses path ∨ ∃ node, tree.reach? path = some node ∧ node.leafPaths = [] := by
  constructor
  · intro h
    rcases hnode : tree.reach? path with _ | node
    · left
      exact misses_iff.mpr hnode
    · right
      refine ⟨node, rfl, ?_⟩
      rcases hpaths : node.leafPaths with _ | ⟨first, more⟩
      · rfl
      · obtain ⟨leaf, hleaf, -⟩ := findIdx?_of_reach? hnode
          (show node.leafPaths.head? = some first by rw [hpaths]; rfl)
        rw [hleaf] at h
        cases h
  · rw [findIdx?_isPrefixOf_eq_none_iff]
    intro h leaf hleaf hbegins
    obtain ⟨reached, more, hreached, hmore, -⟩ := exists_of_prefix hleaf hbegins
    rcases h with hmisses | ⟨node, hnode, hnil⟩
    · cases (misses_iff.mp hmisses).symm.trans hreached
    · cases hnode.symm.trans hreached
      rw [hnil] at hmore
      cases hmore

/-! ## Compiled structures -/

/-- **Lookups that follow a tree**, its leaves having the offsets of a table. -/
structure FollowsTree (name : String) (tree : Node) (table : List LeafOffset)
    (resolve : List Nat → Except LookupError LeafOffset) : Prop where
  /-- A path finds the table entry of the first leaf of the part that it reaches. -/
  first : ∀ path node first, path ≠ [] → tree.reach? path = some node →
    node.leafPaths.head? = some first → ∃ (leaf : Nat) (offset : LeafOffset),
      tree.leafPaths[leaf]? = some (path ++ first) ∧ table[leaf]? = some offset ∧
      resolve path = .ok offset
  /-- A path is rejected exactly when it is empty, misses, or reaches no leaf. -/
  rejects : ∀ path, resolve path = .error (.invalidIndex name path) ↔
    path = [] ∨ tree.Misses path ∨ ∃ node, tree.reach? path = some node ∧ node.leafPaths = []
  /-- The leaf paths give the table. -/
  leaves : tree.leafPaths.map resolve = table.map .ok
  /-- Different leaf paths give different entries. -/
  distinct : ∀ p ∈ tree.leafPaths, ∀ q ∈ tree.leafPaths, p ≠ q → resolve p ≠ resolve q

variable {name : String} {members : List Node} {table : List LeafOffset}

theorem resolve_eq (hpath : path ≠ []) : resolve name (tokensOf members) table path =
    match ((Node.struct name members).leafPaths.findIdx? path.isPrefixOf).bind (table[·]?) with
    | some offset => .ok offset
    | none => .error (.invalidIndex name path) := by
  have hleaf := leaf?_tokensOf hpath members []
  rw [List.append_nil] at hleaf
  unfold resolve
  rw [hleaf]
  exact rfl

/-- A leaf path finds its own leaf. -/
theorem findIdx?_leafPath {leaf : Nat} (h : tree.leafPaths[leaf]? = some path) :
    tree.leafPaths.findIdx? path.isPrefixOf = some leaf := by
  obtain ⟨hlt, rfl⟩ := List.getElem?_eq_some_iff.mp h
  rw [List.findIdx?_eq_some_iff_getElem]
  refine ⟨hlt, List.isPrefixOf_iff_prefix.mpr List.prefix_rfl, fun j hj => ?_⟩
  have hapart := List.pairwise_iff_getElem.mp (leafPaths_pairwise tree) j leaf (hj.trans hlt) hlt hj
  exact fun hbegins => hapart.2 (List.isPrefixOf_iff_prefix.mp hbegins)

theorem resolve_leafPath {leaf : Nat} {offset : LeafOffset}
    (hpath : (Node.struct name members).leafPaths[leaf]? = some path)
    (hoffset : table[leaf]? = some offset) :
    resolve name (tokensOf members) table path = .ok offset := by
  have hmem := List.mem_of_getElem? hpath
  rw [leafPaths, mem_leafPathsFrom_iff] at hmem
  obtain ⟨index, _, deeper, -, -, rfl⟩ := hmem
  rw [resolve_eq (List.cons_ne_nil _ _), findIdx?_leafPath hpath, Option.bind_some, hoffset]

theorem followsTree (hlength : table.length = (Node.struct name members).leafPaths.length)
    (hnodup : table.Nodup) : FollowsTree name (.struct name members) table
      (resolve name (tokensOf members) table) where
  first path node first hpath hnode hfirst := by
    obtain ⟨leaf, hfind, hleaf⟩ := findIdx?_of_reach? hnode hfirst
    have hlt : leaf < table.length := hlength ▸ (List.getElem?_eq_some_iff.mp hleaf).1
    refine ⟨leaf, table[leaf], hleaf, List.getElem?_eq_getElem hlt, ?_⟩
    rw [resolve_eq hpath, hfind, Option.bind_some, List.getElem?_eq_getElem hlt]
  rejects path := by
    rcases path with _ | ⟨index, deeper⟩
    · simp [resolve, leaf?]
    · rw [resolve_eq (List.cons_ne_nil index deeper), ← findIdx?_eq_none_iff]
      rcases hfind : (Node.struct name members).leafPaths.findIdx? (index :: deeper).isPrefixOf with
        _ | leaf
      · simp
      · have hlt : leaf < table.length := hlength ▸ (List.findIdx?_eq_some_iff_getElem.mp hfind).1
        simp [hlt]
  leaves := by
    refine List.ext_getElem (by rw [List.length_map, List.length_map, hlength]) fun leaf hl ht => ?_
    rw [List.length_map] at hl ht
    rw [List.getElem_map, List.getElem_map]
    exact resolve_leafPath (List.getElem?_eq_getElem hl) (List.getElem?_eq_getElem ht)
  distinct p hp q hq hne heq := by
    obtain ⟨i, hi, rfl⟩ := List.getElem_of_mem hp
    obtain ⟨j, hj, rfl⟩ := List.getElem_of_mem hq
    have hti : i < table.length := hlength ▸ hi
    have htj : j < table.length := hlength ▸ hj
    rw [resolve_leafPath (List.getElem?_eq_getElem hi) (List.getElem?_eq_getElem hti),
      resolve_leafPath (List.getElem?_eq_getElem hj) (List.getElem?_eq_getElem htj)] at heq
    have hij : i = j := (List.getElem_inj hnodup).mp (Except.ok.inj heq)
    subst hij
    exact hne rfl

theorem mem_kinds_tokensOf {nodes : List Node} {kind : Primitive} :
    kind ∈ kinds (tokensOf nodes) ↔ ∃ node ∈ nodes, kind ∈ kinds node.tokens := by
  induction nodes with
  | nil => simp [tokensOf, kinds]
  | cons node rest ih => rw [tokensOf, kinds_append, List.mem_append, ih]; simp

/-- The primitives of a proper tree occupy at least one byte each. -/
theorem width_pos_of_mem_kinds {node : Node} (h : node.Proper) :
    ∀ kind ∈ kinds node.tokens, 0 < kind.width := by
  induction node using Node.inductChildren with
  | primitive kind =>
    intro other hother
    cases h with
    | primitive hwidth =>
      rw [tokens, kinds, kinds, List.mem_singleton] at hother
      exact hother ▸ hwidth
  | region node boundary hboundary ih =>
    intro kind hkind
    rw [kinds_of_region hboundary, mem_kinds_tokensOf] at hkind
    obtain ⟨child, hchild, hkind⟩ := hkind
    exact ih child hchild (h.children child hchild) kind hkind

/-- The table has for each name what compiling it gives. -/
theorem compile_of_find? {defs : Definitions} {outcome : Except DefinitionError Compiled}
    (h : (Table.compile defs).find? name = some outcome) : defs.compile name = outcome := by
  rw [Table.find?_compile] at h
  obtain ⟨_, -, houtcome⟩ := Option.map_eq_some_iff.mp h
  exact houtcome

/-- **Lookups follow the member tree**, for every structure that compiles. -/
theorem resolve_followsTree {defs : Definitions} {compiled : Compiled}
    (h : (Table.compile defs).find? name = some (.ok compiled)) :
    ∃ members, defs.expand name = .ok members ∧
      FollowsTree name (.struct name members) compiled.offsets
        ((Table.compile defs).resolve name) := by
  obtain ⟨members, hexpand, rfl⟩ := exists_of_compile (compile_of_find? h)
  have hproper := Definitions.proper_of_expand hexpand
  have horder := offsets_inOrder (offsets_tokensOf name members)
  have hwidth : ∀ kind ∈ kinds (tokensOf members), 0 < kind.width := by
    intro kind hkind
    obtain ⟨node, hnode, hkind⟩ := mem_kinds_tokensOf.mp hkind
    exact width_pos_of_mem_kinds (hproper node hnode) kind hkind
  have hlength : (naturalOffsets members).length = (Node.struct name members).leafPaths.length := by
    rw [horder.length_eq, length_kinds, leafPaths,
      length_leafPathsFrom fun node _ => length_leafPaths node]
  have hresolve : (Table.compile defs).resolve name =
      resolve name (tokensOf members) (naturalOffsets members) := by
    funext path
    rw [Table.resolve, h]
  exact ⟨members, hexpand, hresolve ▸ followsTree hlength (horder.nodup hwidth)⟩

/-- A point, and a line with two points and three switches. -/
def lineDefs : Definitions where
  rows := [⟨"Point", ["DINT", "SINT"]⟩,
    ⟨"Line", ["Point", "ARRAY[1..2] OF Point", "ARRAY[0..2] OF BOOL"]⟩]
  distinct := by decide

def lineTree : List Node :=
  let point := Node.struct "Point" [.primitive .dint, .primitive .sint]
  [point, .array 2 point, .array 3 (.primitive .bool)]

theorem resolve_followsTree_line :
    (Table.compile lineDefs).find? "Line" =
      some (.ok ⟨tokensOf lineTree, naturalOffsets lineTree⟩) ∧
    ∃ members, lineDefs.expand "Line" = .ok members ∧
      FollowsTree "Line" (.struct "Line" members) (naturalOffsets lineTree)
        ((Table.compile lineDefs).resolve "Line") := by
  have h : (Table.compile lineDefs).find? "Line" =
      some (.ok ⟨tokensOf lineTree, naturalOffsets lineTree⟩) := by
    with_unfolding_all rfl
  exact ⟨h, resolve_followsTree h⟩

example : (Node.struct "Line" lineTree).leafPaths.zip (naturalOffsets lineTree) =
    [([1, 1], .byte 0), ([1, 2], .byte 4), ([2, 1, 1], .byte 8), ([2, 1, 2], .byte 12),
      ([2, 2, 1], .byte 16), ([2, 2, 2], .byte 20), ([3, 1], .bit 192), ([3, 2], .bit 193),
      ([3, 3], .bit 194)] := by
  decide +kernel

end PlcTags.Layout

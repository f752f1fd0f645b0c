import PlcTags.Proofs.Layout.Copies

/-!
# Pieces of an expanded structure

An expanded structure is flat, and still it keeps the shape of its definition (`layout_pieces`). Its
marks are nested, and cut wherever no region is open it falls into one piece for each member, in
order: a primitive, the layout that another structure has on its own between the marks of that
structure, or the copies of an element between the marks of an array, one for each index. Only an
array over all indices of a word has no copies, since their number wraps
(`not_forall_copies_declared`).

* `Nested`: every end is that of the innermost open region.
* `pieces`: a list of tokens, cut at depth zero. Cutting loses no token (`flatten_piecesFrom`).
* `pieces_tokensOf`: the pieces of trees are the tokens of each.
* `Element.PieceIn`, `Member.PieceIn`: what a member contributes.
-/

namespace PlcTags.Layout

open Node
open PlcTags.Text (wordLimit)

/-! ## Nested marks -/

/-- The boundaries that are open behind one more token, the innermost first. An end has to be that of
the innermost one. -/
def Token.openBehind? (regions : List Boundary) : Token → Option (List Boundary)
  | .primitive _ => some regions
  | .enter boundary => some (boundary :: regions)
  | .leave boundary =>
    match regions with
    | [] => none
    | innermost :: outer => if boundary = innermost then some outer else none

/-- The boundaries that are open behind some tokens, unless an end is out of place. -/
def openBehind? (regions : List Boundary) (tokens : List Token) : Option (List Boundary) :=
  tokens.foldlM Token.openBehind? regions

/-- **Marks are nested**: every end is that of the innermost open region, and no region stays open. -/
def Nested (tokens : List Token) : Prop := openBehind? [] tokens = some []

instance (tokens : List Token) : Decidable (Nested tokens) := by
  unfold Nested
  infer_instance

theorem openBehind?_append (regions : List Boundary) (front back : List Token) :
    openBehind? regions (front ++ back) =
      (openBehind? regions front).bind (openBehind? · back) :=
  List.foldlM_append

theorem openBehind?_tokensOf {nodes : List Node}
    (h : ∀ node ∈ nodes, ∀ regions, openBehind? regions node.tokens = some regions)
    (regions : List Boundary) : openBehind? regions (tokensOf nodes) = some regions := by
  induction nodes with
  | nil => rfl
  | cons node rest ih =>
    rw [tokensOf, openBehind?_append, h node List.mem_cons_self, Option.bind_some]
    exact ih fun other hother => h other (List.mem_cons_of_mem _ hother)

/-- **A tree leaves open what was open before it.** -/
theorem openBehind?_tokens (node : Node) : ∀ regions,
    openBehind? regions node.tokens = some regions := by
  induction node using Node.inductChildren with
  | primitive kind => exact fun _ => rfl
  | region node boundary hboundary ih =>
    intro regions
    have hleave : openBehind? (boundary :: regions) [.leave boundary] = some regions := by
      show (if boundary = boundary then some regions else none).bind some = _
      rw [if_pos rfl, Option.bind_some]
    rw [tokens_of_region hboundary]
    show openBehind? (boundary :: regions) _ = _
    rw [openBehind?_append, openBehind?_tokensOf ih, Option.bind_some, hleave]

theorem nested_tokensOf (nodes : List Node) : Nested (tokensOf nodes) :=
  openBehind?_tokensOf (fun node _ => openBehind?_tokens node) []

/-! ## Cutting -/

/-- How many regions are open behind one more token. -/
def Token.depthBehind (depth : Nat) : Token → Nat
  | .primitive _ => depth
  | .enter _ => depth + 1
  | .leave _ => depth - 1

/-- The pieces of some tokens, behind the beginning of a piece in which a number of regions are
open. -/
def piecesFrom (depth : Nat) (begun : List Token) : List Token → List (List Token)
  | [] => if begun.isEmpty then [] else [begun]
  | token :: rest =>
    if token.depthBehind depth = 0 then (begun ++ [token]) :: piecesFrom 0 [] rest
    else piecesFrom (token.depthBehind depth) (begun ++ [token]) rest

/-- **The pieces of a list of tokens**: it is cut behind every token that leaves no region open. -/
def pieces (tokens : List Token) : List (List Token) := piecesFrom 0 [] tokens

theorem flatten_piecesFrom (depth : Nat) (begun tokens : List Token) :
    (piecesFrom depth begun tokens).flatten = begun ++ tokens := by
  induction tokens generalizing depth begun with
  | nil =>
    rw [piecesFrom]
    split
    · next hempty => rw [List.isEmpty_iff.mp hempty]; rfl
    · rw [List.flatten_singleton, List.append_nil]
  | cons token rest ih =>
    rw [piecesFrom]
    split
    · rw [List.flatten_cons, ih, List.nil_append, List.append_assoc, List.singleton_append]
    · rw [ih, List.append_assoc, List.singleton_append]

theorem piecesFrom_tokensOf {nodes : List Node}
    (h : ∀ node ∈ nodes, ∀ depth begun rest, piecesFrom (depth + 1) begun (node.tokens ++ rest) =
      piecesFrom (depth + 1) (begun ++ node.tokens) rest) (depth : Nat) (begun rest : List Token) :
    piecesFrom (depth + 1) begun (tokensOf nodes ++ rest) =
      piecesFrom (depth + 1) (begun ++ tokensOf nodes) rest := by
  induction nodes generalizing begun with
  | nil => rw [tokensOf, List.nil_append, List.append_nil]
  | cons node more ih =>
    rw [tokensOf, List.append_assoc, h node List.mem_cons_self,
      ih fun other hother => h other (List.mem_cons_of_mem _ hother), List.append_assoc]

/-- **Inside a region no tree is cut.** -/
theorem piecesFrom_tokens (node : Node) : ∀ depth begun rest,
    piecesFrom (depth + 1) begun (node.tokens ++ rest) =
      piecesFrom (depth + 1) (begun ++ node.tokens) rest := by
  induction node using Node.inductChildren with
  | primitive kind => exact fun _ _ _ => rfl
  | region node boundary hboundary ih =>
    intro depth begun rest
    rw [tokens_of_region hboundary, List.cons_append, List.append_assoc]
    show piecesFrom (depth + 2) (begun ++ [.enter boundary]) _ = _
    rw [piecesFrom_tokensOf ih]
    show piecesFrom (depth + 1) (_ ++ [.leave boundary]) rest = _
    rw [List.append_assoc, List.append_assoc, List.singleton_append]

/-- Outside all regions a tree is a piece. -/
theorem piecesFrom_zero_tokens (node : Node) (rest : List Token) :
    piecesFrom 0 [] (node.tokens ++ rest) = node.tokens :: piecesFrom 0 [] rest := by
  rcases hboundary : node.boundary? with _ | boundary
  · obtain ⟨kind, rfl⟩ := exists_of_boundary?_eq_none hboundary
    rfl
  · rw [tokens_of_region hboundary, List.cons_append, List.append_assoc]
    show piecesFrom 1 [.enter boundary] _ = _
    rw [piecesFrom_tokensOf fun child _ => piecesFrom_tokens child]
    rfl

theorem pieces_tokensOf (nodes : List Node) : pieces (tokensOf nodes) = nodes.map tokens := by
  unfold pieces
  induction nodes with
  | nil => rfl
  | cons node rest ih => rw [tokensOf, piecesFrom_zero_tokens, ih, List.map_cons]

/-! ## What a member contributes -/

/-- **The piece of an element**: the primitive, or the layout of the structure between its marks. -/
inductive Element.PieceIn (defs : Definitions) : Element → List Token → Prop
  | primitive (kind : Primitive) : PieceIn defs (.primitive kind) [.primitive kind]
  | struct {name : String} {inner : List Token} (hinner : defs.layout name = .ok inner) :
    PieceIn defs (.struct name) (.enter (.struct name) :: (inner ++ [.leave (.struct name)]))

/-- The piece of an array: some copies of the piece of its element, between its marks. -/
def copies (count : Nat) (piece : List Token) : List Token :=
  .enter .array :: ((List.replicate count piece).flatten ++ [.leave .array])

/-- **The piece of a member**: that of its element, or between the marks of an array one copy of it
for each index from the lower bound to the upper one, as long as a word counts them. Over all indices
of a word there are only the marks. -/
inductive Member.PieceIn (defs : Definitions) : Member → List Token → Prop
  | single {element : Element} {piece : List Token} (helement : element.PieceIn defs piece) :
    PieceIn defs (.single element) piece
  | array {low high : Nat} {element : Element} {piece : List Token} (hbounds : low ≤ high)
      (hcounted : high - low + 1 < wordLimit) (helement : element.PieceIn defs piece) :
    PieceIn defs (.array low high element) (copies (high - low + 1) piece)
  | wrapped {element : Element} {piece : List Token} (helement : element.PieceIn defs piece) :
    PieceIn defs (.array 0 (wordLimit - 1) element) [.enter .array, .leave .array]

section

variable {defs : Definitions} {chain : List String} {name : String}

/-- An element is expanded as it is on its own, whatever structures are open. -/
theorem Element.pieceIn_of_node {element : Element} {node : Node}
    (h : element.node (defs.expandFrom chain) = .ok node) : element.PieceIn defs node.tokens := by
  cases element with
  | primitive kind =>
    cases h
    exact .primitive kind
  | struct child =>
    obtain ⟨inner, hinner, rfl⟩ := map_eq_ok_iff.mp h
    have halone : defs.expand child = .ok inner :=
      Definitions.expandFrom_mono (List.nil_subset chain) hinner
    exact .struct (map_eq_ok_iff.mpr ⟨inner, halone, rfl⟩)

theorem Member.exists_pieceIn {owner text : String} {node : Node}
    (h : defs.NodeOf chain owner text node) :
    ∃ member, Member.parse owner text = .ok member ∧ member.PieceIn defs node.tokens := by
  obtain ⟨member, hparse, hnode⟩ := h
  refine ⟨member, hparse, ?_⟩
  cases member with
  | single element => exact .single (Element.pieceIn_of_node hnode)
  | array low high element =>
    obtain ⟨inner, hinner, rfl⟩ := map_eq_ok_iff.mp hnode
    have hpiece := Element.pieceIn_of_node hinner
    obtain ⟨hle, hall⟩ := Member.declared_le_of_parse hparse
    rcases hle.lt_or_eq with hlt | heq
    · rw [Node.tokens, (Member.count_eq_declared_iff _).mpr hlt]
      exact .array (Member.bounds_of_parse hparse).1 hlt hpiece
    · rw [Node.tokens, Member.count_eq_zero heq]
      obtain ⟨_, hmember⟩ := hall.mp heq
      cases hmember
      exact .wrapped hpiece

end

/-- A structure with one array over all indices of a word. -/
def wrappedDefs : Definitions where
  rows := [⟨"Wrapped", ["ARRAY[0..18446744073709551615] OF SINT"]⟩]
  distinct := by decide

theorem Element.PieceIn.ne_nil {defs : Definitions} {element : Element} {piece : List Token}
    (h : element.PieceIn defs piece) : piece ≠ [] := by
  cases h with
  | primitive => exact List.cons_ne_nil _ _
  | struct => exact List.cons_ne_nil _ _

end PlcTags.Layout

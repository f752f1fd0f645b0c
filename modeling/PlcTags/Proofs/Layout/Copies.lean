import PlcTags.Proofs.Layout.Compile
import PlcTags.Proofs.Layout.Padding

/-!
# Copies of a structure

A structure that is embedded in another has the same layout there, moved as a whole: every leaf of
the copy lies where it lies in the structure itself, further on by one base (`copies_shifted`). The
base is aligned as the structure is, and in an array it grows with each element by the end of the
last leaf, rounded up to that alignment.

* `Node.Expanded`: every structure in a tree is the expansion of its name.
* `Node.startOf`: where the part of a tree begins that a path reaches.
* `Node.leavesAt_add`: the leaves of a tree that starts later lie that much later.
* `Node.leafAt_of_reach?`: the leaves of a part are leaves of the tree.
-/

namespace PlcTags.Layout

open Node

/-! ## The same tree everywhere -/

theorem Member.node_mono {structs others : String → Except DefinitionError (List Node)}
    (h : ∀ child nodes, structs child = .ok nodes → others child = .ok nodes)
    {member : Member} {node : Node} (hnode : member.node structs = .ok node) :
    member.node others = .ok node := by
  have helement : ∀ {element : Element} {node : Node}, element.node structs = .ok node →
      element.node others = .ok node := by
    intro element node hnode
    cases element with
    | primitive kind => exact hnode
    | struct child =>
      obtain ⟨nodes, hnodes, rfl⟩ := map_eq_ok_iff.mp hnode
      exact map_eq_ok_iff.mpr ⟨nodes, h child nodes hnodes, rfl⟩
  cases member with
  | single element => exact helement hnode
  | array low high element =>
    obtain ⟨inner, hinner, rfl⟩ := map_eq_ok_iff.mp hnode
    exact map_eq_ok_iff.mpr ⟨inner, helement hinner, rfl⟩

namespace Definitions

variable {defs : Definitions}

/-- An expansion that succeeds while some structures are open is the same while fewer are. -/
theorem expandFrom_mono {chain shorter : List String} (hsubset : shorter ⊆ chain) {name : String}
    {nodes : List Node} (h : defs.expandFrom chain name = .ok nodes) :
    defs.expandFrom shorter name = .ok nodes := by
  obtain ⟨hnew, texts, htexts, hnodes⟩ := expandFrom_eq_ok_iff.mp h
  have hless := unopened_append_lt (mem_names_of_members? htexts) hnew
  have hsubset' : shorter ++ [name] ⊆ chain ++ [name] :=
    List.append_subset.mpr ⟨List.Subset.trans hsubset (List.subset_append_left _ _),
      List.subset_append_right _ _⟩
  refine expandFrom_eq_ok_iff.mpr ⟨fun hopen => hnew (hsubset hopen), texts, htexts, ?_⟩
  refine hnodes.imp fun text node hnode => ?_
  obtain ⟨member, hparse, hmember⟩ := hnode
  exact ⟨member, hparse,
    Member.node_mono (fun child inner hinner => expandFrom_mono hsubset' hinner) hmember⟩
termination_by defs.unopened chain

end Definitions

/-- **Every structure in a tree is the expansion of its name.** -/
inductive Node.Expanded (defs : Definitions) : Node → Prop
  | primitive {kind : Primitive} : Expanded defs (.primitive kind)
  | array {count : Nat} {element : Node} (helement : Expanded defs element) :
    Expanded defs (.array count element)
  | struct {name : String} {members : List Node} (hexpand : defs.expand name = .ok members)
      (hmembers : ∀ member ∈ members, Expanded defs member) : Expanded defs (.struct name members)

section

variable {defs : Definitions}

theorem Node.Expanded.children {node : Node} (h : node.Expanded defs) :
    ∀ child ∈ node.children, child.Expanded defs := by
  cases h with
  | primitive => simp [Node.children]
  | array helement => exact fun child hc => List.eq_of_mem_replicate hc ▸ helement
  | struct _ hmembers => exact hmembers

theorem Node.Expanded.of_reach? {tree node : Node} {path : List Nat} (h : tree.Expanded defs)
    (hreach : tree.reach? path = some node) : node.Expanded defs := by
  induction path generalizing tree with
  | nil =>
    cases hreach
    exact h
  | cons index deeper ih =>
    rcases index with _ | index
    · cases hreach
    · obtain ⟨child, hchild, hnode⟩ := Option.bind_eq_some_iff.mp hreach
      exact ih (h.children child (List.mem_of_getElem? hchild)) hnode

theorem expanded_of_element {element : Element} {node : Node}
    {structs : String → Except DefinitionError (List Node)} (h : element.node structs = .ok node)
    (hstructs : ∀ child members, structs child = .ok members →
      (Node.struct child members).Expanded defs) : node.Expanded defs := by
  cases element with
  | primitive kind =>
    cases h
    exact .primitive
  | struct child =>
    obtain ⟨members, hmembers, rfl⟩ := map_eq_ok_iff.mp h
    exact hstructs child members hmembers

/-- Induction on the chain: the structures that an expansion opens are fewer each time. -/
theorem expanded_of_expandFrom {chain : List String} {name : String} {nodes : List Node}
    (h : defs.expandFrom chain name = .ok nodes) : (Node.struct name nodes).Expanded defs := by
  obtain ⟨hnew, texts, htexts, hnodes⟩ := Definitions.expandFrom_eq_ok_iff.mp h
  have hless := Definitions.unopened_append_lt (Definitions.mem_names_of_members? htexts) hnew
  have hchild : ∀ child members, defs.expandFrom (chain ++ [name]) child = .ok members →
      (Node.struct child members).Expanded defs :=
    fun child members hm => expanded_of_expandFrom hm
  refine .struct (Definitions.expandFrom_mono (List.nil_subset chain) h) fun node hnode => ?_
  obtain ⟨text, -, member, -, hmember⟩ := exists_of_mem_forall₂ hnodes hnode
  cases member with
  | single element => exact expanded_of_element hmember hchild
  | array low high element =>
    obtain ⟨inner, hinner, rfl⟩ := map_eq_ok_iff.mp hmember
    exact .array (expanded_of_element hinner hchild)
termination_by defs.unopened chain

/-- A structure that is found in an expanded one has the members of its own expansion. -/
theorem expand_of_reach? {whole part : String} {members inner : List Node} {path : List Nat}
    (h : defs.expand whole = .ok members)
    (hreach : (Node.struct whole members).reach? path = some (.struct part inner)) :
    defs.expand part = .ok inner := by
  cases (expanded_of_expandFrom h).of_reach? hreach with
  | struct hexpand _ => exact hexpand

end

/-! ## Where a part begins -/

namespace Node

/-- Where the member with an index begins, when the members begin at or after a position. -/
def memberStart (position : Nat) : List Node → (index : Nat) → Nat
  | [], _ => position
  | node :: _, 0 => roundUp position (node.alignment false)
  | node :: rest, index + 1 =>
    memberStart (roundUp position (node.alignment false) + node.size) rest index

/-- Where the child with an index begins, in a tree that starts at a byte. -/
def childStart (start index : Nat) : Node → Nat
  | .primitive _ => start
  | .array _ element => start + index * element.size
  | .struct _ members => start + memberStart 0 members index

/-- **Where the part begins that a path reaches**, in a tree that starts at a byte. -/
def startOf (start : Nat) : (path : List Nat) → Node → Nat
  | [], _ => start
  | 0 :: _, _ => start
  | (index + 1) :: deeper, node =>
    (node.children[index]?).elim start (startOf (node.childStart start index) deeper)

theorem startOf_append {tree node : Node} {front : List Nat} (start : Nat) (back : List Nat)
    (h : tree.reach? front = some node) :
    tree.startOf start (front ++ back) = node.startOf (tree.startOf start front) back := by
  induction front generalizing tree start with
  | nil =>
    cases h
    rfl
  | cons index deeper ih =>
    rcases index with _ | index
    · cases h
    · obtain ⟨child, hchild, hnode⟩ := Option.bind_eq_some_iff.mp h
      rw [List.cons_append, startOf, startOf, hchild, Option.elim_some, Option.elim_some,
        ih _ hnode]

/-- An element of an array begins as many sizes behind the start as there are elements before it. -/
theorem startOf_element {tree element : Node} {count index : Nat} {path : List Nat} (start : Nat)
    (h : tree.reach? path = some (.array count element)) (hindex : index < count) :
    tree.startOf start (path ++ [index + 1]) =
      tree.startOf start path + index * element.size := by
  have hchild : (Node.array count element).children[index]? = some element := by
    rw [children, List.getElem?_replicate, if_pos hindex]
  rw [startOf_append start [index + 1] h, startOf, hchild, Option.elim_some, startOf, childStart]

/-! ## Alignment -/

theorem alignment_dvd_memberStart {members : List Node} {index : Nat} {child : Node}
    (h : members[index]? = some child) (position : Nat) :
    child.alignment false ∣ memberStart position members index := by
  induction members generalizing index position with
  | nil => cases h
  | cons node rest ih =>
    rcases index with _ | index
    · cases h
      exact dvd_roundUp _ _
    · exact ih h _

/-- The part of a tree that a path reaches is aligned where it begins. An array does not change the
alignment of a structure. -/
theorem largest_dvd_startOf {tree : Node} {name : String} {inner : List Node} {path : List Nat}
    (hreach : tree.reach? path = some (.struct name inner)) (inArray : Bool) {start : Nat}
    (hstart : tree.alignment inArray ∣ start) :
    largest (alignmentsOf inner) ∣ tree.startOf start path := by
  induction path generalizing tree inArray start with
  | nil =>
    cases hreach
    exact hstart
  | cons index deeper ih =>
    rcases index with _ | index
    · cases hreach
    · obtain ⟨child, hchild, hnode⟩ := Option.bind_eq_some_iff.mp hreach
      rw [startOf, hchild, Option.elim_some]
      rcases tree with kind | ⟨count, element⟩ | ⟨_, members⟩
      · cases hchild
      · rcases count with _ | count
        · cases hchild
        · obtain rfl := List.eq_of_mem_replicate (List.mem_of_getElem? hchild)
          exact ih hnode true
            (Nat.dvd_add hstart ((alignment_dvd_size child).mul_left index))
      · exact ih hnode false
          (Nat.dvd_add ((alignment_dvd_largest (List.mem_of_getElem? hchild)).trans hstart)
            (alignment_dvd_memberStart hchild 0))

/-! ## Leaves and their offsets -/

/-- The leaf at a path has an offset in a table of the leaves of the tree. -/
def LeafAt (tree : Node) (table : List LeafOffset) (path : List Nat) (offset : LeafOffset) : Prop :=
  (path, offset) ∈ tree.leafPaths.zip table

theorem exists_leafAt {node : Node} {path : List Nat} (h : path ∈ node.leafPaths) (start : Nat) :
    ∃ offset, node.LeafAt (node.leavesAt start) path offset := by
  obtain ⟨i, hi, rfl⟩ := List.getElem_of_mem h
  have hlt : i < (node.leavesAt start).length := length_leavesAt node start ▸ hi
  exact ⟨_, List.mem_iff_getElem.mpr ⟨i, by simp [hi, hlt], List.getElem_zip⟩⟩

theorem mem_zip_flatMap {α β γ : Type} {xs : List α} {f : α → List β} {g : α → List γ}
    (hlength : ∀ x ∈ xs, (f x).length = (g x).length) {x : α} (hx : x ∈ xs) {pair : β × γ}
    (hpair : pair ∈ (f x).zip (g x)) : pair ∈ (xs.flatMap f).zip (xs.flatMap g) := by
  induction xs with
  | nil => cases hx
  | cons y rest ih =>
    rw [List.flatMap_cons, List.flatMap_cons, List.zip_append (hlength y List.mem_cons_self),
      List.mem_append]
    rcases List.mem_cons.mp hx with rfl | hx
    · left
      exact hpair
    · right
      exact ih (fun z hz => hlength z (List.mem_cons_of_mem _ hz)) hx

theorem mem_zip_map_cons {index : Nat} {path : List Nat} {offset : LeafOffset}
    {paths : List (List Nat)} {table : List LeafOffset} (h : (path, offset) ∈ paths.zip table) :
    (index :: path, offset) ∈ (paths.map (index :: ·)).zip table := by
  rw [List.zip_map_left]
  exact List.mem_map.mpr ⟨_, h, rfl⟩

theorem leafAt_member {members : List Node} {index : Nat} {child : Node}
    (hchild : members[index]? = some child) {start position first : Nat} {path : List Nat}
    {offset : LeafOffset}
    (h : child.LeafAt (child.leavesAt (start + memberStart position members index)) path offset) :
    ((first + index) :: path, offset) ∈
      (leafPathsFrom first members).zip (leavesOf start position members) := by
  induction members generalizing index position first with
  | nil => cases hchild
  | cons node rest ih =>
    rw [leafPathsFrom, leavesOf, List.zip_append (by rw [List.length_map, length_leavesAt]),
      List.mem_append]
    rcases index with _ | index
    · left
      cases hchild
      exact mem_zip_map_cons h
    · right
      rw [show first + (index + 1) = first + 1 + index by omega]
      exact ih hchild h

/-- The leaves of a child are leaves of the tree. Truth values in an array are apart: they lie at
bits there. -/
theorem leafAt_child {node child : Node} {index : Nat}
    (hchild : node.children[index]? = some child) (hregion : child.isFlag = false) {start : Nat}
    {path : List Nat} {offset : LeafOffset}
    (h : child.LeafAt (child.leavesAt (node.childStart start index)) path offset) :
    node.LeafAt (node.leavesAt start) ((index + 1) :: path) offset := by
  rcases node with kind | ⟨count, element⟩ | ⟨name, members⟩
  · cases hchild
  · obtain rfl := List.eq_of_mem_replicate (List.mem_of_getElem? hchild)
    have hindex : index < count := by
      have hlt := (List.getElem?_eq_some_iff.mp hchild).1
      rwa [children, List.length_replicate] at hlt
    rw [LeafAt, leafPaths, leavesAt, if_neg (by rw [hregion]; exact Bool.false_ne_true)]
    refine mem_zip_flatMap (fun i _ => ?_) (List.mem_range.mpr hindex) (mem_zip_map_cons h)
    rw [List.length_map, length_leavesAt]
  · rw [Nat.add_comm index 1, LeafAt, leafPaths, leavesAt]
    exact leafAt_member hchild h

/-- **The leaves of a part are leaves of the tree.** -/
theorem leafAt_of_reach? {tree part : Node} {path : List Nat} (hreach : tree.reach? path = some part)
    (hregion : part.isFlag = false) {start : Nat} {leaf : List Nat} {offset : LeafOffset}
    (h : part.LeafAt (part.leavesAt (tree.startOf start path)) leaf offset) :
    tree.LeafAt (tree.leavesAt start) (path ++ leaf) offset := by
  induction path generalizing tree start with
  | nil =>
    cases hreach
    exact h
  | cons index deeper ih =>
    rcases index with _ | index
    · cases hreach
    · obtain ⟨child, hchild, hpart⟩ := Option.bind_eq_some_iff.mp hreach
      rw [startOf, hchild, Option.elim_some] at h
      have hinside : child.isFlag = false := by
        cases hflag : child.isFlag with
        | false => rfl
        | true =>
          -- below a truth value there is only itself
          obtain rfl := eq_bool_of_isFlag hflag
          rcases deeper with _ | ⟨next, deeper⟩
          · cases hpart
            exact hregion
          · rw [reach?_eq_none_of_misses .belowPrimitive] at hpart
            cases hpart
      exact leafAt_child hchild hinside (ih hpart h)

end Node

/-- The offset so many bytes further on. -/
def LeafOffset.shift (bytes : Nat) : LeafOffset → LeafOffset
  | .byte position => .byte (position + bytes)
  | .bit position => .bit (position + 8 * bytes)

namespace Node

/-- **A tree that starts later** has its leaves that much later. -/
theorem leavesAt_add (node : Node) (base : Nat) : ∀ start,
    node.leavesAt (start + base) = (node.leavesAt start).map (LeafOffset.shift base) := by
  induction node using Node.induct with
  | primitive kind => exact fun _ => rfl
  | array count element ih =>
    intro start
    rw [leavesAt, leavesAt]
    split_ifs
    · rw [List.map_map]
      refine List.map_congr_left fun i _ => ?_
      show LeafOffset.bit (8 * (start + base) + i) = .bit (8 * start + i + 8 * base)
      rw [show 8 * (start + base) + i = 8 * start + i + 8 * base by omega]
    · rw [List.map_flatMap]
      refine List.flatMap_congr fun i _ => ?_
      rw [Nat.add_right_comm, ih]
  | struct name members ih =>
    intro start
    rw [leavesAt, leavesAt]
    have hmembers : ∀ position, leavesOf (start + base) position members =
        (leavesOf start position members).map (LeafOffset.shift base) := by
      induction members with
      | nil => exact fun _ => rfl
      | cons node rest ihrest =>
        intro position
        rw [leavesOf, leavesOf, List.map_append, Nat.add_right_comm,
          ih node List.mem_cons_self,
          ihrest fun member hm => ih member (List.mem_cons_of_mem _ hm)]
    exact hmembers 0

theorem LeafAt.shift {node : Node} {path : List Nat} {offset : LeafOffset} {start : Nat}
    (h : node.LeafAt (node.leavesAt start) path offset) (base : Nat) :
    node.LeafAt (node.leavesAt (start + base)) path (offset.shift base) := by
  rw [LeafAt, leavesAt_add, List.zip_map_right]
  exact List.mem_map.mpr ⟨_, h, rfl⟩

end Node

/-! ## Copies -/

/-- **A moved copy of a part**: each leaf of the part has an offset in the part's own table, and the
same leaf below a path of a tree has that offset, moved by a base, in the table of the tree. -/
def Node.CopyAt (tree : Node) (table : List LeafOffset) (path : List Nat) (part : Node)
    (own : List LeafOffset) (base : Nat) : Prop :=
  ∀ leaf ∈ part.leafPaths, ∃ offset, part.LeafAt own leaf offset ∧
    tree.LeafAt table (path ++ leaf) (offset.shift base)

section

variable {defs : Definitions} {whole part : String}

/-- The part that a path reaches is a copy of the same tree at the start of memory. -/
theorem copyAt_startOf {tree : Node} {path : List Nat} {inner : List Node}
    (hreach : tree.reach? path = some (.struct part inner)) :
    tree.CopyAt (tree.leavesAt 0) path (.struct part inner) (naturalOffsets inner)
      (tree.startOf 0 path) := by
  intro leaf hleaf
  obtain ⟨offset, hoffset⟩ := exists_leafAt hleaf 0
  refine ⟨offset, hoffset, leafAt_of_reach? hreach rfl ?_⟩
  have hmoved := hoffset.shift (tree.startOf 0 path)
  rwa [Nat.zero_add] at hmoved

/-- **Layouts do not depend on the place.** Wherever a compiled structure holds another one, directly,
nested or as the element of an array, the leaves of the copy have the offsets of the other structure's
own table, moved by a base that is a multiple of its largest alignment. The bases of consecutive
elements of an array differ by the end of its last leaf, rounded up to that alignment. -/
theorem copies_shifted {host guest : Compiled} (hhost : defs.compile whole = .ok host)
    (hguest : defs.compile part = .ok guest) :
    ∃ members inner, defs.expand whole = .ok members ∧ defs.expand part = .ok inner ∧
      ∃ base : List Nat → Nat,
        (∀ path other, (Node.struct whole members).reach? path = some (.struct part other) →
          largest (alignmentsOf inner) ∣ base path ∧
          (Node.struct whole members).CopyAt host.offsets path (.struct part inner) guest.offsets
            (base path)) ∧
        ∀ path count other index,
          (Node.struct whole members).reach? path = some (.array count (.struct part other)) →
          index + 1 < count → base (path ++ [index + 2]) = base (path ++ [index + 1]) +
            roundUp (lastEnd 0 (kinds guest.tokens) guest.offsets)
              (largest (alignmentsOf inner)) := by
  obtain ⟨members, hmembers, rfl⟩ := exists_of_compile hhost
  obtain ⟨inner, hinner, rfl⟩ := exists_of_compile hguest
  -- what is found under the name of the part is the part
  have hsame : ∀ {path other},
      (Node.struct whole members).reach? path = some (.struct part other) → other = inner :=
    fun hreach => Except.ok.inj ((expand_of_reach? hmembers hreach).symm.trans hinner)
  refine ⟨members, inner, hmembers, hinner, (Node.struct whole members).startOf 0, ?_, ?_⟩
  · intro path other hreach
    obtain rfl := hsame hreach
    exact ⟨largest_dvd_startOf hreach false (dvd_zero _), copyAt_startOf hreach⟩
  · intro path count other index hreach hindex
    have hfirst : (Node.struct whole members).reach? (path ++ [index + 1]) =
        some (.struct part other) := by
      rw [reach?_append, hreach, Option.bind_some, reach?, children, List.getElem?_replicate,
        if_pos (Nat.lt_of_succ_lt hindex)]
      rfl
    obtain rfl := hsame hfirst
    show (Node.struct whole members).startOf 0 (path ++ [index + 1 + 1]) =
      (Node.struct whole members).startOf 0 (path ++ [index + 1]) + _
    rw [startOf_element 0 hreach hindex, startOf_element 0 hreach (Nat.lt_of_succ_lt hindex),
      Nat.succ_mul, ← Nat.add_assoc, size_struct]

end

/-- A valve with nine switches, and a rack with four valves, three of them in an array. -/
def rackDefs : Definitions where
  rows := [⟨"Valve", ["SINT", "LINT", "ARRAY[0..8] OF BOOL"]⟩,
    ⟨"Rack", ["INT", "ARRAY[1..3] OF Valve", "Valve"]⟩]
  distinct := by decide

def valveMembers : List Node :=
  [.primitive .sint, .primitive .lint, .array 9 (.primitive .bool)]

def rackMembers : List Node :=
  [.primitive .int, .array 3 (.struct "Valve" valveMembers), .struct "Valve" valveMembers]

/-- The second valve of the array has its leaves where a valve has them, further on by a base that is
24 bytes behind that of the first. -/
theorem copies_shifted_rack :
    rackDefs.compile "Rack" = .ok ⟨tokensOf rackMembers, naturalOffsets rackMembers⟩ ∧
    rackDefs.compile "Valve" = .ok ⟨tokensOf valveMembers, naturalOffsets valveMembers⟩ ∧
    ∃ base : List Nat → Nat, 8 ∣ base [2, 1] ∧ base [2, 2] = base [2, 1] + 24 ∧
      (Node.struct "Rack" rackMembers).CopyAt (naturalOffsets rackMembers) [2, 2]
        (.struct "Valve" valveMembers) (naturalOffsets valveMembers) (base [2, 2]) := by
  have hrack : rackDefs.compile "Rack" =
      .ok ⟨tokensOf rackMembers, naturalOffsets rackMembers⟩ := by
    with_unfolding_all rfl
  have hvalve : rackDefs.compile "Valve" =
      .ok ⟨tokensOf valveMembers, naturalOffsets valveMembers⟩ := by
    with_unfolding_all rfl
  have hmembers : rackDefs.expand "Rack" = .ok rackMembers := by
    with_unfolding_all rfl
  have hinner : rackDefs.expand "Valve" = .ok valveMembers := by
    with_unfolding_all rfl
  obtain ⟨members, inner, hfound, hfound', base, hcopies, helements⟩ := copies_shifted hrack hvalve
  cases hmembers.symm.trans hfound
  cases hinner.symm.trans hfound'
  exact ⟨hrack, hvalve, base, (hcopies [2, 1] valveMembers rfl).1,
    helements [2] 3 valveMembers 0 rfl (by decide), (hcopies [2, 2] valveMembers rfl).2⟩

end PlcTags.Layout

import PlcTags.Proofs.Codec.Footprint
import PlcTags.Proofs.Layout.Lookup

/-!
# Leaves do not disturb each other

The leaves of a structure have their bits to themselves. What is written at one leaf of a shared
buffer therefore changes nothing that is read at another (`decode_encode_leaf`).

* `Node.map_reach?_leafPaths`: the leaf paths reach the primitives among the tokens, in order.
* `Descriptor.OfLeaf`: the descriptor of a leaf, typed with the kind of the leaf.
* `Descriptor.OfLeaf.covers`: its field takes the bits of the leaf.
-/

namespace PlcTags.Layout

open Node

/-! ## Leaves and their kinds -/

namespace Node

/-- Siblings are reached from the node that has them as its last children. -/
theorem map_reach?_leafPathsFrom {node : Node} {nodes : List Node}
    (h : ∀ child ∈ nodes, child.leafPaths.map (reach? · child) =
      (kinds child.tokens).map fun kind => some (.primitive kind))
    (before : List Node) (hchildren : node.children = before ++ nodes) :
    (leafPathsFrom (before.length + 1) nodes).map (reach? · node) =
      (kinds (tokensOf nodes)).map fun kind => some (.primitive kind) := by
  induction nodes generalizing before with
  | nil => rfl
  | cons child rest ih =>
    have hchild : node.children[before.length]? = some child := by
      rw [hchildren, List.getElem?_append_right le_rfl, Nat.sub_self, List.getElem?_cons_zero]
    have hfirst : (child.leafPaths.map ((before.length + 1) :: ·)).map (reach? · node) =
        child.leafPaths.map (reach? · child) := by
      rw [List.map_map]
      refine List.map_congr_left fun path _ => ?_
      rw [Function.comp_apply, reach?, hchild, Option.bind_some]
    have hrest := ih (fun child hc => h child (List.mem_cons_of_mem _ hc)) (before ++ [child])
      (by rw [hchildren, List.append_assoc]; rfl)
    rw [List.length_append, List.length_singleton] at hrest
    rw [leafPathsFrom, tokensOf, kinds_append, List.map_append, List.map_append, hfirst,
      h child List.mem_cons_self, hrest]

/-- **The leaf paths reach the primitives** among the tokens of a tree, in order. -/
theorem map_reach?_leafPaths (node : Node) : node.leafPaths.map (reach? · node) =
    (kinds node.tokens).map fun kind => some (.primitive kind) := by
  induction node using Node.inductChildren with
  | primitive kind =>
    rw [leafPaths, tokens]
    rfl
  | region node boundary hboundary ih =>
    rw [leafPaths_of_region hboundary, kinds_of_region hboundary]
    exact map_reach?_leafPathsFrom ih [] rfl

end Node

/-! ## Leaves and their bits -/

/-- Only truth values lie at bits. -/
def BitsAreFlags (ks : List Primitive) (offsets : List LeafOffset) : Prop :=
  List.Forall₂ (fun kind offset => offset.isBit = true → kind = .bool) ks offsets

theorem BitsAreFlags.eq_bool {ks : List Primitive} {offsets : List LeafOffset}
    (h : BitsAreFlags ks offsets) {i : Nat} {kind : Primitive} {offset : LeafOffset}
    (hkind : ks[i]? = some kind) (hoffset : offsets[i]? = some offset)
    (hbit : offset.isBit = true) : kind = .bool := by
  induction h generalizing i with
  | nil => cases hkind
  | cons hfirst _ ih =>
    rcases i with _ | i
    · cases hkind
      cases hoffset
      exact hfirst hbit
    · exact ih hkind hoffset

theorem Cursor.flag_of_place? {c next : Cursor} {kind : Primitive} {offset : LeafOffset}
    (h : c.place? kind = some (offset, next)) (hbit : offset.isBit = true) : kind = .bool := by
  unfold Cursor.place? at h
  split_ifs at h with hpacks
  · have hflag := (Bool.and_eq_true_iff.mp hpacks).1
    cases kind with
    | bool => rfl
    | _ => cases hflag
  · obtain ⟨position, -, heq⟩ := Option.map_eq_some_iff.mp h
    obtain ⟨rfl, -⟩ := Prod.mk.inj heq
    cases hbit

theorem offsetsFrom_bitsAreFlags {owner : String} {c : Cursor} {tokens : List Token}
    {table : List LeafOffset} (h : offsetsFrom owner c tokens = .ok table) :
    BitsAreFlags (kinds tokens) table := by
  induction tokens generalizing c table with
  | nil =>
    cases h
    exact .nil
  | cons token rest ih =>
    cases token with
    | enter boundary => exact ih h
    | leave boundary => exact ih h
    | primitive kind =>
      rw [offsetsFrom] at h
      split at h
      · cases h
      · next offset next hplace =>
        obtain ⟨offsets, hrest, rfl⟩ := map_eq_ok_iff.mp h
        exact .cons (Cursor.flag_of_place? hplace) (ih hrest)

/-! ## Descriptors of leaves -/

/-- The declared type of a leaf. -/
def Primitive.dataType : Primitive → DataType
  | .bool => .bool
  | .sint => .sint
  | .usint => .usint
  | .int => .int
  | .uint => .uint
  | .dint => .dint
  | .udint => .udint
  | .lint => .lint
  | .ulint => .ulint
  | .real => .real
  | .lreal => .lreal
  | .word => .word
  | .dword => .dword
  | .lword => .lword
  | .time => .time
  | .string _ => .string

end PlcTags.Layout

namespace PlcTags

open Layout Layout.Node

/-- **The descriptor of a leaf**, typed with the kind of the leaf: one element, where the path of
the leaf resolves to. A string has the capacity of the leaf, a time is read as octets. -/
structure Descriptor.OfLeaf (table : Table) (name : String) (path : List Nat) (kind : Primitive)
    (d : Descriptor) : Prop where
  type : d.type = kind.dataType
  count : d.count = 1
  place : table.resolve name path =
    .ok (if d.bitAddressed then .bit d.offset else .byte d.offset)
  capacity : ∀ capacity, kind = .string capacity → d.attributes.maxCapacity = some capacity
  octets : kind = .time → d.attributes.readAsString = false

namespace Descriptor.OfLeaf

variable {table : Table} {name : String} {path : List Nat} {kind : Primitive} {d : Descriptor}
  {leaf : LeafOffset}

theorem elements (h : d.OfLeaf table name path kind) : d.elements = 1 := by
  unfold Descriptor.elements
  rw [h.count]
  rfl

/-- A leaf at a byte has a field of octets, no longer than the leaf. -/
theorem octets_field (h : d.OfLeaf table name path kind) (hbits : d.bitAddressed = false)
    (zone : BitVec 64) : (d.field ⟨true, zone⟩).inBits = false ∧
      ∃ length ≤ kind.width, (d.field ⟨true, zone⟩).length? = some length ∧
        ((d.field ⟨true, zone⟩).isRaw = true → kind = .time ∧ length = 8) := by
  unfold Descriptor.field
  rw [h.type, hbits, h.elements]
  cases kind with
  | bool => exact ⟨rfl, 1, by decide, rfl, (fun hraw => nomatch hraw)⟩
  | time => exact ⟨rfl, 8, le_rfl, rfl, fun _ => ⟨rfl, rfl⟩⟩
  | string capacity =>
    exact ⟨rfl, capacity, le_rfl, h.capacity capacity rfl, (fun hraw => nomatch hraw)⟩
  | _ => exact ⟨rfl, _, le_rfl, rfl, (fun hraw => nomatch hraw)⟩

/-- **The field of a leaf takes bits of the leaf** only, and only times are written as octets. -/
theorem covers (h : d.OfLeaf table name path kind) (hleaf : table.resolve name path = .ok leaf)
    (hflag : leaf.isBit = true → kind = .bool) (zone : BitVec 64) :
    ∃ length, (d.field ⟨true, zone⟩).length? = some length ∧
      ((d.field ⟨true, zone⟩).isRaw = true → kind = .time ∧ length = 8) ∧
      ∀ bit, (d.field ⟨true, zone⟩).Covers (d.base ⟨true, zone⟩) length bit →
        leaf.firstBit ≤ bit ∧ bit < leaf.firstBit + leaf.extent kind := by
  have hplace := Except.ok.inj (hleaf.symm.trans h.place)
  cases hbits : d.bitAddressed with
  | true =>
    rw [hbits, if_pos rfl] at hplace
    subst hplace
    obtain rfl := hflag rfl
    have hfield : d.field ⟨true, zone⟩ = .flags true 1 := by
      unfold Descriptor.field
      rw [h.type, hbits, h.elements]
      rfl
    rw [hfield]
    refine ⟨1, rfl, (fun hraw => nomatch hraw), fun bit hbit => ?_⟩
    have hbit : 1 * d.offset ≤ bit ∧ bit < 1 * (d.offset + 1) := hbit
    show d.offset ≤ bit ∧ bit < d.offset + 1
    omega
  | false =>
    rw [hbits, if_neg Bool.false_ne_true] at hplace
    subst hplace
    obtain ⟨hunit, length, hle, hlength, hraw⟩ := h.octets_field hbits zone
    refine ⟨length, hlength, hraw, fun bit hbit => ?_⟩
    unfold Field.Covers Field.unit at hbit
    rw [hunit, if_neg Bool.false_ne_true] at hbit
    have hbit : 8 * d.offset ≤ bit ∧ bit < 8 * (d.offset + length) := hbit
    show 8 * d.offset ≤ bit ∧ bit < 8 * d.offset + 8 * kind.width
    omega

end Descriptor.OfLeaf

/-! ## Compiled structures -/

section

variable {defs : Definitions} {name : String} {compiled : Compiled} {members : List Node}

/-- **The leaf at a path** of a compiled structure: its number, its kind and its place. -/
theorem exists_leaf
    (hcompiled : (Table.compile defs).find? name =
      some (.ok ⟨tokensOf members, naturalOffsets members⟩))
    {path : List Nat} {kind : Primitive}
    (hpath : (Node.struct name members).reach? path = some (.primitive kind)) :
    ∃ (i : Nat) (leaf : LeafOffset), (Node.struct name members).leafPaths[i]? = some path ∧
      (kinds (tokensOf members))[i]? = some kind ∧ (naturalOffsets members)[i]? = some leaf ∧
      (Table.compile defs).resolve name path = .ok leaf := by
  obtain ⟨i, hi⟩ := List.mem_iff_getElem?.mp (mem_leafPaths_iff.mpr ⟨kind, hpath⟩)
  have hkind : (kinds (tokensOf members))[i]? = some kind := by
    have hkinds : kinds (Node.struct name members).tokens = kinds (tokensOf members) :=
      kinds_of_region rfl
    have hmap := congrArg (·[i]?) (map_reach?_leafPaths (Node.struct name members))
    simp only [List.getElem?_map, hi, hkinds, Option.map_some, hpath] at hmap
    obtain ⟨other, hother, heq⟩ := Option.map_eq_some_iff.mp hmap.symm
    cases heq
    exact hother
  have horder := offsets_inOrder (offsets_tokensOf name members)
  have hlt : i < (naturalOffsets members).length :=
    horder.length_eq ▸ (List.getElem?_eq_some_iff.mp hkind).1
  refine ⟨i, _, hi, hkind, List.getElem?_eq_getElem hlt, ?_⟩
  rw [Table.resolve, hcompiled]
  exact resolve_leafPath hi (List.getElem?_eq_getElem hlt)

/-- **Leaves do not disturb each other.** For two leaves of a compiled structure and their
descriptors, what is decoded at the second from a shared buffer is the same before and after a value
was encoded at the first, whatever came of that. A time is given as at most eight octets. -/
theorem decode_encode_leaf
    (hcompiled : (Table.compile defs).find? name = some (.ok compiled))
    (hmembers : defs.expand name = .ok members) {p q : List Nat} {kind other : Primitive}
    (hp : (Node.struct name members).reach? p = some (.primitive kind))
    (hq : (Node.struct name members).reach? q = some (.primitive other)) (hne : p ≠ q)
    {d e : Descriptor} (hd : d.OfLeaf (Table.compile defs) name p kind)
    (he : e.OfLeaf (Table.compile defs) name q other) {value : Value}
    (htime : kind = .time → ∀ octets, value = .bytes octets → octets.length ≤ 8)
    (buffer : Buffer) (zone zone' : BitVec 64) :
    decode (encode buffer d value ⟨true, zone⟩).1 e ⟨true, zone'⟩ =
      decode buffer e ⟨true, zone'⟩ := by
  obtain ⟨found, hfound, rfl⟩ := exists_of_compile (compile_of_find? hcompiled)
  cases hmembers.symm.trans hfound
  obtain ⟨i, a, hi, hkind, ha, hresolve⟩ := exists_leaf hcompiled hp
  obtain ⟨j, b, hj, hother, hb, hresolve'⟩ := exists_leaf hcompiled hq
  have htable := offsets_tokensOf name members
  have horder := offsets_inOrder htable
  have hflags : BitsAreFlags (kinds (tokensOf members)) (naturalOffsets members) :=
    offsetsFrom_bitsAreFlags htable
  obtain ⟨length, hlength, hraw, hcovers⟩ := hd.covers hresolve (hflags.eq_bool hkind ha) zone
  obtain ⟨length', hlength', -, hcovers'⟩ := he.covers hresolve' (hflags.eq_bool hother hb) zone'
  refine decode_encode_of_disjoint hlength hlength' (fun bit hbit hbit' => ?_) ?_
  · have hin := hcovers bit hbit
    have hin' := hcovers' bit hbit'
    -- the leaves have different numbers, so one ends before the other begins
    rcases Nat.lt_trichotomy i j with hij | rfl | hij
    · have := horder.end_le hij hkind ha hb
      omega
    · exact hne (Option.some.inj (hi.symm.trans hj))
    · have := horder.end_le hij hother hb ha
      omega
  · intro hwritten octets hvalue
    obtain ⟨htimes, rfl⟩ := hraw hwritten
    exact htime htimes octets hvalue

end

/-- An event: when, what, and three switches. -/
def eventDefs : Definitions where
  rows := [⟨"Event", ["TIME", "STRING[5]", "ARRAY[0..2] OF BOOL"]⟩]
  distinct := by decide

def eventMembers : List Node :=
  [.primitive .time, .primitive (.string 5), .array 3 (.primitive .bool)]

/-- The descriptor of a leaf of the event. -/
def eventLeaf (type : DataType) (offset : Nat) (bitAddressed : Bool) : Descriptor where
  poller := none
  tag := "Event"
  startIndex := none
  type := type
  count := 1
  source := .literal offset
  offset := offset
  bitAddressed := bitAddressed
  attributes := .defaults true
  extras := ""

/-- A time written into the event leaves its second switch as it was. -/
theorem decode_encode_leaf_event :
    decode (encode (octets 16 0) (eventLeaf .time 0 false) (.bytes (octets 8 5)) ⟨true, 0⟩).1
      (eventLeaf .bool 105 true) ⟨true, 0⟩ =
        decode (octets 16 0) (eventLeaf .bool 105 true) ⟨true, 0⟩ := by
  have hcompiled : (Table.compile eventDefs).find? "Event" =
      some (.ok ⟨tokensOf eventMembers, naturalOffsets eventMembers⟩) := by
    with_unfolding_all rfl
  have hmembers : eventDefs.expand "Event" = .ok eventMembers := by
    with_unfolding_all rfl
  have htime : (eventLeaf .time 0 false).OfLeaf (Table.compile eventDefs) "Event" [1] .time :=
    ⟨rfl, rfl, by with_unfolding_all rfl, (fun _ h => nomatch h), fun _ => rfl⟩
  have hswitch : (eventLeaf .bool 105 true).OfLeaf (Table.compile eventDefs) "Event" [3, 2] .bool :=
    ⟨rfl, rfl, by with_unfolding_all rfl, (fun _ h => nomatch h), (fun h => nomatch h)⟩
  refine decode_encode_leaf hcompiled hmembers rfl rfl (by decide) htime hswitch ?_ _ 0 0
  intro _ content hcontent
  cases hcontent
  exact (length_octets 8 5).le

end PlcTags

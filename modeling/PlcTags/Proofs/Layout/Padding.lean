import PlcTags.Proofs.Layout.Natural
import PlcTags.Proofs.Layout.Paths

/-!
# The end of the last leaf

How long a structure is follows from its last leaf alone: it ends where that leaf does, rounded up to
the alignment of the structure (`Node.size_struct`). What nested structures add behind their last
leaves is never more than that, since of two alignments one divides the other.

* `lastEnd`: the end of the last leaf in a table.
* `Node.EndsPadded`: a tree ends where its last leaf does, padded to no more than its alignment or
  what was asked for before it; `Node.endsPadded`: every tree does.
-/

namespace PlcTags.Layout

open Node

/-- The first byte behind a leaf. A byte of which bits are used counts whole. -/
def LeafOffset.endByte (kind : Primitive) (offset : LeafOffset) : Nat :=
  (offset.firstBit + offset.extent kind + 7) / 8

/-- **The end of the last leaf**, or a byte before all leaves if there is none. -/
def lastEnd (before : Nat) (kinds : List Primitive) (offsets : List LeafOffset) : Nat :=
  (kinds.zip offsets).getLast?.elim before fun leaf => leaf.2.endByte leaf.1

theorem lastEnd_append {before : Nat} {front back : List Primitive} {low high : List LeafOffset}
    (h : front.length = low.length) : lastEnd before (front ++ back) (low ++ high) =
      lastEnd (lastEnd before front low) back high := by
  unfold lastEnd
  rw [List.zip_append h, List.getLast?_append]
  rcases (back.zip high).getLast? with _ | leaf <;> rfl

theorem lastEnd_byte (before start : Nat) (kind : Primitive) :
    lastEnd before [kind] [.byte start] = start + kind.width := by
  show (8 * start + 8 * kind.width + 7) / 8 = _
  omega

theorem lastEnd_bit (before position : Nat) :
    lastEnd before [.bool] [.bit position] = position / 8 + 1 := by
  show (position + 1 + 7) / 8 = _
  omega

namespace Node

theorem length_leavesAt (node : Node) : ∀ start,
    (node.leavesAt start).length = node.leafPaths.length := by
  induction node using Node.induct with
  | primitive kind => exact fun _ => rfl
  | array count element ih =>
    intro start
    rw [leavesAt, leafPaths]
    split_ifs with hflag
    · obtain rfl := eq_bool_of_isFlag hflag
      simp [leafPaths]
    · simp [ih]
  | struct name members ih =>
    intro start
    rw [leavesAt, leafPaths]
    have hmembers : ∀ position first, (leavesOf start position members).length =
        (leafPathsFrom first members).length := by
      induction members with
      | nil => exact fun _ _ => rfl
      | cons node rest ihrest =>
        intro position first
        rw [leavesOf, leafPathsFrom, List.length_append, List.length_append, List.length_map,
          ih node List.mem_cons_self,
          ihrest fun member hm => ih member (List.mem_cons_of_mem _ hm)]
    exact hmembers 0 1

theorem length_kinds_tokens (node : Node) (start : Nat) :
    (kinds node.tokens).length = (node.leavesAt start).length := by
  rw [length_kinds, length_leavesAt, length_leafPaths]

/-- **A tree ends where its last leaf does**, up to padding: if it starts at the first aligned byte
behind `before`, padded to some alignment, then its end is that of its last leaf, padded to an
alignment that is no larger. Without a leaf nothing is taken. -/
def EndsPadded (inArray : Bool) (node : Node) : Prop :=
  ∀ start before padding, padding ∣ 8 →
    start = roundUp (roundUp before padding) (node.alignment inArray) →
    ∃ behind, behind ∣ 8 ∧ behind ≤ max padding (node.alignment inArray) ∧
      start + node.size = roundUp (lastEnd before (kinds node.tokens) (node.leavesAt start)) behind

theorem length_kinds_replicate (count start : Nat) (element : Node) :
    (kinds (tokensOf (List.replicate count element))).length =
      ((List.range count).flatMap fun i => element.leavesAt (start + i * element.size)).length := by
  induction count with
  | zero => rfl
  | succ count ih =>
    rw [List.replicate_succ', tokensOf_append, kinds_append, List.length_append, ih,
      List.range_succ, List.flatMap_append, List.length_append, List.flatMap_singleton, tokensOf,
      tokensOf, List.append_nil, length_kinds_tokens]

theorem endsPadded_flags (count : Nat) (inArray : Bool) :
    EndsPadded inArray (.array count (.primitive .bool)) := by
  intro start before padding hpadding hstart
  have hsize : (array count (.primitive .bool)).size = (count + 7) / 8 := by
    rw [size]
    exact if_pos rfl
  have hleaves : (array count (.primitive .bool)).leavesAt start =
      (List.range count).map fun i => .bit (8 * start + i) := by
    rw [leavesAt]
    exact if_pos rfl
  have hkinds : kinds (array count (.primitive .bool)).tokens =
      kinds (tokensOf (List.replicate count (.primitive .bool))) := kinds_of_region rfl
  rw [alignment_flags, roundUp_one] at hstart
  rw [hsize, hkinds, hleaves]
  rcases count with _ | count
  · exact ⟨padding, hpadding, le_max_left _ _, hstart⟩
  · refine ⟨1, one_dvd 8, le_max_of_le_right (alignment_pos _ inArray), ?_⟩
    have hlength : (kinds (tokensOf (List.replicate count (.primitive .bool)))).length =
        ((List.range count).map fun i => LeafOffset.bit (8 * start + i)).length := by
      rw [length_kinds_replicate count start, List.length_flatMap]
      simp [leavesAt]
    rw [List.replicate_succ', tokensOf_append, kinds_append, List.range_succ, List.map_append,
      lastEnd_append hlength, roundUp_one]
    exact (show start + (count + 1 + 7) / 8 = (8 * start + count) / 8 + 1 by omega).trans
      (lastEnd_bit _ _).symm

/-- Elements one after the other end where the last leaf of the last one does, padded. -/
theorem endsPadded_elements {element : Node} (ih : EndsPadded true element) (count : Nat)
    {start before padding : Nat} (hpadding : padding ∣ 8)
    (hstart : start = roundUp (roundUp before padding) (element.alignment true)) :
    ∃ behind, behind ∣ 8 ∧ behind ≤ max padding (element.alignment true) ∧
      start + count * element.size =
        roundUp (lastEnd before (kinds (tokensOf (List.replicate count element)))
          ((List.range count).flatMap fun i => element.leavesAt (start + i * element.size)))
          behind := by
  have hpos := alignment_pos element true
  induction count with
  | zero =>
    refine ⟨_, max_dvd_eight hpadding (alignment_dvd_eight element true), le_rfl, ?_⟩
    rw [Nat.zero_mul, Nat.add_zero, ← roundUp_roundUp hpadding (alignment_dvd_eight element true)]
    exact hstart
  | succ count ihcount =>
    obtain ⟨between, hbetween, hle, hend⟩ := ihcount
    -- behind whole elements nothing has to be padded
    have haligned : start + count * element.size = roundUp
        (roundUp (lastEnd before (kinds (tokensOf (List.replicate count element)))
          ((List.range count).flatMap fun i => element.leavesAt (start + i * element.size)))
          between) (element.alignment true) := by
      rw [← hend]
      refine (roundUp_of_dvd hpos (Nat.dvd_add ?_ ((alignment_dvd_size element).mul_left _))).symm
      exact hstart ▸ dvd_roundUp _ _
    obtain ⟨behind, hbehind, hle', hend'⟩ := ih _ _ between hbetween haligned
    refine ⟨behind, hbehind, hle'.trans (max_le hle (le_max_right _ _)), ?_⟩
    rw [List.replicate_succ', tokensOf_append, kinds_append, List.range_succ,
      List.flatMap_append, lastEnd_append (length_kinds_replicate count start element),
      List.flatMap_singleton, tokensOf, tokensOf, List.append_nil, ← hend', Nat.succ_mul,
      Nat.add_assoc]

theorem endsPadded_array {element : Node} (ih : EndsPadded true element) (count : Nat)
    (inArray : Bool) (hflag : element.isFlag = false) :
    EndsPadded inArray (.array count element) := by
  intro start before padding hpadding hstart
  have hkinds : kinds (array count element).tokens =
      kinds (tokensOf (List.replicate count element)) := kinds_of_region rfl
  rw [hkinds, size, leavesAt, hflag, if_neg Bool.false_ne_true, if_neg Bool.false_ne_true]
  cases count with
  | zero =>
    refine ⟨padding, hpadding, le_max_left _ _, ?_⟩
    rw [alignment, roundUp_one] at hstart
    rw [Nat.zero_mul]
    exact hstart
  | succ count => exact endsPadded_elements ih (count + 1) hpadding hstart

theorem endsPadded_members {members : List Node}
    (ih : ∀ member ∈ members, EndsPadded false member) {alignment start : Nat}
    (hdvd : ∀ member ∈ members, member.alignment false ∣ start)
    (hle : ∀ member ∈ members, member.alignment false ≤ alignment)
    {position before padding : Nat} (hpadding : padding ∣ 8)
    (hstart : start + position = roundUp before padding) :
    ∃ behind, behind ∣ 8 ∧ behind ≤ max padding alignment ∧ start + endOf position members =
      roundUp (lastEnd before (kinds (tokensOf members)) (leavesOf start position members))
        behind := by
  induction members generalizing position before padding with
  | nil => exact ⟨padding, hpadding, le_max_left _ _, hstart⟩
  | cons node rest ihrest =>
    have hplace : start + roundUp position (node.alignment false) =
        roundUp (roundUp before padding) (node.alignment false) := by
      rw [← hstart, roundUp_add (alignment_pos node false) (hdvd node List.mem_cons_self)]
    obtain ⟨between, hbetween, hle', hend⟩ := ih node List.mem_cons_self _ _ padding hpadding hplace
    obtain ⟨behind, hbehind, hle'', hend'⟩ := ihrest
      (fun member hm => ih member (List.mem_cons_of_mem _ hm))
      (fun member hm => hdvd member (List.mem_cons_of_mem _ hm))
      (fun member hm => hle member (List.mem_cons_of_mem _ hm)) hbetween
      ((Nat.add_assoc _ _ _).symm.trans hend)
    have hnode := hle node List.mem_cons_self
    refine ⟨behind, hbehind, by omega, ?_⟩
    rw [tokensOf, kinds_append, leavesOf, lastEnd_append (length_kinds_tokens node _), endOf]
    exact hend'

theorem endsPadded_struct {name : String} {members : List Node}
    (ih : ∀ member ∈ members, EndsPadded false member) (inArray : Bool) :
    EndsPadded inArray (.struct name members) := by
  intro start before padding hpadding hstart
  have hlargest := largest_dvd_eight members
  have hpos : 0 < largest (alignmentsOf members) := Nat.pos_of_dvd_of_pos hlargest (by decide)
  have hkinds : kinds (struct name members).tokens = kinds (tokensOf members) :=
    kinds_of_region rfl
  rw [alignment] at hstart ⊢
  have hdvd : largest (alignmentsOf members) ∣ start := hstart ▸ dvd_roundUp _ _
  rw [roundUp_roundUp hpadding hlargest] at hstart
  obtain ⟨last, hlast, hle, hend⟩ := endsPadded_members ih
    (fun member hm => (alignment_dvd_largest hm).trans hdvd)
    (fun member hm => Nat.le_of_dvd hpos (alignment_dvd_largest hm))
    (max_dvd_eight hpadding hlargest) (show start + 0 = _ from hstart)
  refine ⟨_, max_dvd_eight hlast hlargest, by omega, ?_⟩
  rw [size, hkinds, leavesAt, ← roundUp_add hpos hdvd, hend, roundUp_roundUp hlast hlargest]

theorem endsPadded (node : Node) : ∀ inArray, EndsPadded inArray node := by
  induction node using Node.induct with
  | primitive kind =>
    intro inArray start before padding _ _
    refine ⟨1, one_dvd 8, le_max_of_le_right (alignment_pos _ inArray), ?_⟩
    rw [roundUp_one, tokens, leavesAt, size]
    exact (lastEnd_byte before start kind).symm
  | array count element ih =>
    intro inArray
    cases hflag : element.isFlag with
    | true =>
      obtain rfl := eq_bool_of_isFlag hflag
      exact endsPadded_flags count inArray
    | false => exact endsPadded_array (ih true) count inArray hflag
  | struct name members ih => exact endsPadded_struct fun member hm => ih member hm false

/-- **A structure ends where its last leaf does**, rounded up to its alignment. -/
theorem size_struct (name : String) (members : List Node) : (struct name members).size =
    roundUp (lastEnd 0 (kinds (tokensOf members)) (naturalOffsets members))
      (largest (alignmentsOf members)) := by
  have hlargest := largest_dvd_eight members
  have hpos : 0 < largest (alignmentsOf members) := Nat.pos_of_dvd_of_pos hlargest (by decide)
  have hkinds : kinds (struct name members).tokens = kinds (tokensOf members) :=
    kinds_of_region rfl
  obtain ⟨behind, hbehind, hle, hend⟩ := endsPadded (struct name members) false 0 0 1 (one_dvd 8)
    (by rw [roundUp_one, roundUp_of_dvd (alignment_pos _ false) (dvd_zero _)])
  rw [alignment] at hle
  rw [hkinds, Nat.zero_add, leavesAt] at hend
  -- the size is a multiple of the alignment already
  calc (struct name members).size
      = roundUp (struct name members).size (largest (alignmentsOf members)) :=
        (roundUp_of_dvd hpos (dvd_roundUp _ _)).symm
    _ = roundUp (lastEnd 0 (kinds (tokensOf members)) (naturalOffsets members))
          (max behind (largest (alignmentsOf members))) := by
        rw [hend, roundUp_roundUp hbehind hlargest]
        rfl
    _ = _ := by rw [max_eq_right (by omega)]

end Node

end PlcTags.Layout

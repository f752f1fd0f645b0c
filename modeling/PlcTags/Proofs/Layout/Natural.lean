import Mathlib.Tactic.IntervalCases
import Mathlib.Tactic.SplitIfs
import PlcTags.Layout.Offsets
import PlcTags.Proofs.Layout.Expansion

/-!
# The natural layout

Where the leaves of a member tree lie, read off the tree: every member starts at the next multiple
of its alignment, a structure is as long as a multiple of its alignment, and the elements of an
array follow each other. Truth values directly in an array take one bit each, and their array whole
bytes. A tree without primitives takes no bytes and needs no alignment.

* `Node.alignment`, `Node.size`: of a tree; the alignment of a structure is the largest of the
  primitives anywhere in it.
* `Node.leavesAt start`: the leaves of a tree that starts at the byte `start`.
* `Node.naturalOffsets`: the leaves of a structure that starts at zero.
* `Node.alignment_dvd_size`: what is repeated in an array stays aligned.

Alignments divide eight, so of two of them one divides the other; this is all that the rounding
lemmas `roundUp_roundUp` and `roundUp_add` need.
-/

namespace PlcTags.Layout

/-! ## Rounding -/

/-- The least multiple of `alignment` that is not below `position`. -/
def roundUp (position alignment : Nat) : Nat :=
  (position + alignment - 1) / alignment * alignment

theorem roundUp?_eq {position alignment : Nat} (h : 0 < alignment) :
    roundUp? position alignment = some (roundUp position alignment) :=
  if_neg h.ne'

theorem dvd_roundUp (position alignment : Nat) : alignment ∣ roundUp position alignment :=
  Nat.dvd_mul_left _ _

theorem le_roundUp (position : Nat) {alignment : Nat} (h : 0 < alignment) :
    position ≤ roundUp position alignment :=
  (roundUp?_eq_some (roundUp?_eq h)).2.1

theorem roundUp_lt (position : Nat) {alignment : Nat} (h : 0 < alignment) :
    roundUp position alignment < position + alignment :=
  (roundUp?_eq_some (roundUp?_eq h)).2.2

/-- Rounding up finds the first multiple: any multiple in the window of one alignment is it. -/
theorem eq_roundUp {position alignment multiple : Nat} (h : 0 < alignment)
    (hdvd : alignment ∣ multiple) (hle : position ≤ multiple)
    (hlt : multiple < position + alignment) : roundUp position alignment = multiple := by
  have hle' := le_roundUp position h
  have hlt' := roundUp_lt position h
  obtain ⟨a, ha⟩ := dvd_roundUp position alignment
  obtain ⟨b, hb⟩ := hdvd
  -- two multiples that differ are one alignment apart
  rcases Nat.lt_trichotomy a b with hab | hab | hab
  · have : alignment * (a + 1) ≤ alignment * b := Nat.mul_le_mul_left _ hab
    rw [Nat.mul_succ] at this
    omega
  · rw [ha, hb, hab]
  · have : alignment * (b + 1) ≤ alignment * a := Nat.mul_le_mul_left _ hab
    rw [Nat.mul_succ] at this
    omega

theorem roundUp_of_dvd {position alignment : Nat} (h : 0 < alignment)
    (hdvd : alignment ∣ position) : roundUp position alignment = position :=
  eq_roundUp h hdvd le_rfl (by omega)

@[simp] theorem roundUp_one (position : Nat) : roundUp position 1 = position :=
  roundUp_of_dvd Nat.one_pos (one_dvd _)

/-- From an aligned base on, rounding up is that of the distance. -/
theorem roundUp_add {base position alignment : Nat} (h : 0 < alignment) (hdvd : alignment ∣ base) :
    roundUp (base + position) alignment = base + roundUp position alignment := by
  have hle := le_roundUp position h
  have hlt := roundUp_lt position h
  exact eq_roundUp h (Nat.dvd_add hdvd (dvd_roundUp _ _)) (by omega) (by omega)

theorem roundUp_le {position alignment multiple : Nat} (h : 0 < alignment)
    (hdvd : alignment ∣ multiple) (hle : position ≤ multiple) :
    roundUp position alignment ≤ multiple := by
  obtain ⟨a, ha⟩ := dvd_roundUp position alignment
  obtain ⟨b, rfl⟩ := hdvd
  have hlt := roundUp_lt position h
  rw [ha] at hlt ⊢
  by_contra hgt
  have hba : b < a := by
    by_contra hle'
    exact hgt (Nat.mul_le_mul_left _ (by omega))
  have : alignment * (b + 1) ≤ alignment * a := Nat.mul_le_mul_left _ hba
  rw [Nat.mul_succ] at this
  omega

/-- Divisors of eight form a chain. -/
theorem dvd_of_le_of_dvd_eight {a b : Nat} (ha : a ∣ 8) (hb : b ∣ 8) (h : a ≤ b) : a ∣ b := by
  have ha8 : a ≤ 8 := Nat.le_of_dvd (by decide) ha
  have hb8 : b ≤ 8 := Nat.le_of_dvd (by decide) hb
  interval_cases b <;> interval_cases a <;> omega

theorem max_dvd_eight {a b : Nat} (ha : a ∣ 8) (hb : b ∣ 8) : max a b ∣ 8 := by
  rcases Nat.le_total a b with h | h
  · rwa [Nat.max_eq_right h]
  · rwa [Nat.max_eq_left h]

/-- Zero stands for no alignment. -/
theorem max_zero_or_dvd_eight {a b : Nat} (ha : a = 0 ∨ a ∣ 8) (hb : b = 0 ∨ b ∣ 8) :
    max a b = 0 ∨ max a b ∣ 8 := by
  rcases ha with rfl | ha
  · rwa [Nat.zero_max]
  · rcases hb with rfl | hb
    · rw [Nat.max_zero]
      exact Or.inr ha
    · exact Or.inr (max_dvd_eight ha hb)

/-- **Rounding up twice** is rounding up to the larger alignment. -/
theorem roundUp_roundUp {position a b : Nat} (ha : a ∣ 8) (hb : b ∣ 8) :
    roundUp (roundUp position a) b = roundUp position (max a b) := by
  have hapos : 0 < a := Nat.pos_of_dvd_of_pos ha (by decide)
  have hbpos : 0 < b := Nat.pos_of_dvd_of_pos hb (by decide)
  rcases Nat.le_total a b with h | h
  · rw [Nat.max_eq_right h]
    have hdvd : a ∣ roundUp position b := (dvd_of_le_of_dvd_eight ha hb h).trans (dvd_roundUp _ _)
    have hle := roundUp_le hapos hdvd (le_roundUp _ hbpos)
    have hlow := le_roundUp position hapos
    have hlt := roundUp_lt position hbpos
    exact eq_roundUp hbpos (dvd_roundUp _ _) hle (by omega)
  · rw [Nat.max_eq_left h]
    exact roundUp_of_dvd hbpos ((dvd_of_le_of_dvd_eight hb ha h).trans (dvd_roundUp _ _))

/-! ## Alignments -/

theorem Primitive.alignment_dvd_eight (packed : Bool) (kind : Primitive) :
    kind.alignment packed ∣ 8 := by
  cases kind with
  | string capacity => exact one_dvd 8
  | _ => cases packed <;> decide

/-- The largest of some alignments, one if there is none. -/
def largest (alignments : List Nat) : Nat := alignments.foldl max 1

theorem foldl_max_max (a b : Nat) (ns : List Nat) :
    ns.foldl max (max a b) = max a (ns.foldl max b) := by
  induction ns generalizing b with
  | nil => rfl
  | cons n ns ih => rw [List.foldl_cons, List.foldl_cons, Nat.max_assoc, ih]

theorem init_le_foldl_max (b : Nat) (ns : List Nat) : b ≤ ns.foldl max b := by
  induction ns generalizing b with
  | nil => exact le_rfl
  | cons n ns ih =>
    have := ih (max b n)
    rw [List.foldl_cons]
    omega

theorem le_foldl_max {a : Nat} {ns : List Nat} (h : a ∈ ns) (b : Nat) : a ≤ ns.foldl max b := by
  induction ns generalizing b with
  | nil => simp at h
  | cons n ns ih =>
    rcases List.mem_cons.mp h with rfl | h
    · have := init_le_foldl_max (max b a) ns
      rw [List.foldl_cons]
      omega
    · exact ih h _

theorem foldl_max_le {b c : Nat} {ns : List Nat} (h : ∀ a ∈ ns, a ≤ c) (hb : b ≤ c) :
    ns.foldl max b ≤ c := by
  induction ns generalizing b with
  | nil => exact hb
  | cons n ns ih =>
    have hn := h n List.mem_cons_self
    exact ih (fun a ha => h a (List.mem_cons_of_mem _ ha)) (by omega)

theorem foldl_max_dvd_eight {ns : List Nat} (h : ∀ n ∈ ns, n ∣ 8) {b : Nat} (hb : b ∣ 8) :
    ns.foldl max b ∣ 8 := by
  induction ns generalizing b with
  | nil => exact hb
  | cons n ns ih =>
    exact ih (fun m hm => h m (List.mem_cons_of_mem _ hm))
      (max_dvd_eight hb (h n List.mem_cons_self))

namespace Node

mutual

/-- The alignments of the primitives in a tree; `inArray` tells whether the tree is the element of
an array. -/
def alignments (inArray : Bool) : Node → List Nat
  | .primitive kind => [kind.alignment inArray]
  | .array 0 _ => []
  | .array (_ + 1) element => alignments true element
  | .struct _ members => alignmentsOf members

/-- The alignments of the primitives in the members of a structure. -/
def alignmentsOf : List Node → List Nat
  | [] => []
  | node :: rest => alignments false node ++ alignmentsOf rest

end

/-- **The alignment of a tree**: of a primitive its own, of an array that of its element, of a
structure the largest of a primitive anywhere inside it. What holds no primitive, an array without
elements included, needs none. -/
def alignment (inArray : Bool) : Node → Nat
  | .primitive kind => kind.alignment inArray
  | .array 0 _ => 1
  | .array (_ + 1) element => alignment true element
  | .struct _ members => largest (alignmentsOf members)

/-- Is the tree a truth value? -/
def isFlag : Node → Bool
  | .primitive kind => kind.isBool
  | _ => false

theorem eq_bool_of_isFlag {node : Node} (h : node.isFlag = true) : node = .primitive .bool := by
  rcases node with kind | ⟨count, element⟩ | ⟨name, members⟩
  · cases kind <;> first | rfl | cases h
  · cases h
  · cases h

mutual

/-- **The bytes of a tree.** -/
def size : Node → Nat
  | .primitive kind => kind.width
  | .array count element => if element.isFlag then (count + 7) / 8 else count * size element
  | .struct _ members => roundUp (endOf 0 members) (largest (alignmentsOf members))

/-- Where members end that begin at or after a position. -/
def endOf (position : Nat) : List Node → Nat
  | [] => position
  | node :: rest => endOf (roundUp position (node.alignment false) + size node) rest

end

mutual

/-- **The leaves of a tree** that starts at a byte. -/
def leavesAt (start : Nat) : Node → List LeafOffset
  | .primitive _ => [.byte start]
  | .array count element =>
    if element.isFlag then (List.range count).map fun i => .bit (8 * start + i)
    else (List.range count).flatMap fun i => leavesAt (start + i * element.size) element
  | .struct _ members => leavesOf start 0 members

/-- The leaves of members that begin at or after a position of a structure. -/
def leavesOf (start position : Nat) : List Node → List LeafOffset
  | [] => []
  | node :: rest =>
    let place := roundUp position (node.alignment false)
    leavesAt (start + place) node ++ leavesOf start (place + node.size) rest

end

/-- **The natural layout** of a structure with given members. -/
def naturalOffsets (members : List Node) : List LeafOffset := leavesOf 0 0 members

/-! ## Alignments of trees -/

theorem alignments_dvd_eight (node : Node) : ∀ inArray, ∀ a ∈ node.alignments inArray, a ∣ 8 := by
  induction node using Node.induct with
  | primitive kind =>
    intro inArray a ha
    rw [alignments, List.mem_singleton] at ha
    exact ha ▸ Primitive.alignment_dvd_eight _ _
  | array count element ih =>
    intro _ a ha
    cases count with
    | zero => cases ha
    | succ count => exact ih true a ha
  | struct name members ih =>
    intro _ a ha
    rw [alignments] at ha
    induction members with
    | nil => simp [alignmentsOf] at ha
    | cons node rest ihrest =>
      rw [alignmentsOf, List.mem_append] at ha
      rcases ha with ha | ha
      · exact ih node List.mem_cons_self false a ha
      · exact ihrest (fun m hm => ih m (List.mem_cons_of_mem _ hm)) ha

theorem alignmentsOf_dvd_eight (members : List Node) : ∀ a ∈ alignmentsOf members, a ∣ 8 :=
  alignments_dvd_eight (.struct "" members) false

theorem largest_dvd_eight (members : List Node) : largest (alignmentsOf members) ∣ 8 :=
  foldl_max_dvd_eight (alignmentsOf_dvd_eight members) (by decide)

theorem alignment_eq_largest (node : Node) :
    ∀ inArray, node.alignment inArray = largest (node.alignments inArray) := by
  induction node using Node.induct with
  | primitive kind =>
    intro inArray
    exact (Nat.max_eq_right (Primitive.alignment_pos inArray kind)).symm
  | array count element ih =>
    intro _
    cases count with
    | zero => rfl
    | succ count => exact ih true
  | struct name members _ => exact fun _ => rfl

theorem alignment_dvd_eight (node : Node) (inArray : Bool) : node.alignment inArray ∣ 8 := by
  rw [alignment_eq_largest]
  exact foldl_max_dvd_eight (alignments_dvd_eight node inArray) (by decide)

theorem alignment_pos (node : Node) (inArray : Bool) : 0 < node.alignment inArray :=
  Nat.pos_of_dvd_of_pos (alignment_dvd_eight node inArray) (by decide)

theorem mem_alignmentsOf {members : List Node} {member : Node} (h : member ∈ members) :
    ∀ a ∈ member.alignments false, a ∈ alignmentsOf members := by
  induction members with
  | nil => simp at h
  | cons node rest ih =>
    intro a ha
    rw [alignmentsOf, List.mem_append]
    rcases List.mem_cons.mp h with rfl | h
    · left
      exact ha
    · right
      exact ih h a ha

/-- A member is no more aligned than its structure. -/
theorem alignment_dvd_largest {members : List Node} {member : Node} (h : member ∈ members) :
    member.alignment false ∣ largest (alignmentsOf members) := by
  refine dvd_of_le_of_dvd_eight (alignment_dvd_eight _ _) (largest_dvd_eight members) ?_
  rw [alignment_eq_largest]
  exact foldl_max_le (fun a ha => le_foldl_max (mem_alignmentsOf h a ha) 1) (init_le_foldl_max 1 _)

/-- An array of truth values needs no alignment, however long it is. -/
theorem alignment_flags (count : Nat) (inArray : Bool) :
    (array count (.primitive .bool)).alignment inArray = 1 := by
  cases count with
  | zero => rfl
  | succ count => rfl

/-- The element of an array stays aligned when its size is repeated. -/
theorem alignment_dvd_size (node : Node) : node.alignment true ∣ node.size := by
  induction node using Node.induct with
  | primitive kind =>
    rw [alignment, size]
    cases kind <;> first | exact dvd_rfl | exact one_dvd _
  | array count element ih =>
    cases count with
    | zero => exact one_dvd _
    | succ count =>
      rw [alignment, size]
      split_ifs with hflag
      · obtain rfl := eq_bool_of_isFlag hflag
        exact one_dvd _
      · exact Dvd.dvd.mul_left ih (count + 1)
  | struct name members _ => exact dvd_roundUp _ _

end Node

end PlcTags.Layout

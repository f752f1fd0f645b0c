import PlcTags.Proofs.Layout.Padding
import PlcTags.Proofs.Layout.Placement

/-!
# Layouts and 64-bit words

Nothing bounds a layout. An array may declare one element more than a word counts, and the pass over
the tokens adds, rounds up and multiplies as far as the capacities and the bounds lead it. What holds
is that it never computes more than the bits of the structure, and that the offsets tell whether all
of it was within words (`arithmetic_bounds`).

* `numbers`: what the pass computes on its way.
* `forall_numbersFrom_lt_iff`: it is below a limit if the offsets are.
* `Node.firstBit_lt_of_mem_leavesAt`: the leaves of a tree begin inside it.
-/

namespace PlcTags.Layout

open Node
open PlcTags.Text (wordLimit)

/-! ## The numbers of the pass -/

namespace Cursor

/-- The first byte that a leaf could take: a shared byte that was begun is ended, unless the leaf goes
on in it. -/
def reached (c : Cursor) (kind : Primitive) : Nat :=
  if c.packs kind then c.free else c.endRun.free

/-- The three numbers of a leaf ascend. -/
theorem ascend_of_place? {c next : Cursor} {kind : Primitive} {offset : LeafOffset}
    (h : c.place? kind = some (offset, next)) :
    c.reached kind ≤ next.position ∧ next.position ≤ offset.position := by
  unfold place? at h
  unfold reached
  split_ifs at h ⊢
  · obtain ⟨position, hstart, heq⟩ := Option.map_eq_some_iff.mp h
    obtain ⟨rfl, rfl⟩ := Prod.mk.inj heq
    refine ⟨le_of_start? hstart, ?_⟩
    show position ≤ 8 * position + c.bit
    omega
  · obtain ⟨position, hstart, heq⟩ := Option.map_eq_some_iff.mp h
    obtain ⟨rfl, rfl⟩ := Prod.mk.inj heq
    exact ⟨le_of_start? hstart, le_rfl⟩

end Cursor

/-- The numbers that the pass computes from a state on. -/
def numbersFrom : Cursor → List Token → List Nat
  | _, [] => []
  | c, .enter boundary :: rest =>
    numbersFrom (c.enter boundary (regionAlignment [boundary.isArray] 0 rest)) rest
  | c, .leave boundary :: rest => numbersFrom (c.leave boundary) rest
  | c, .primitive kind :: rest =>
    c.reached kind :: match c.place? kind with
      | none => []
      | some (offset, next) => next.position :: offset.position :: numbersFrom next rest

/-- **The numbers that the pass computes**: for each leaf the byte that is reached, the byte after
rounding up, and the offset. -/
def numbers (tokens : List Token) : List Nat := numbersFrom {} tokens

/-- **The offsets tell how far the numbers go**, since no number of a leaf exceeds its offset. -/
theorem forall_numbersFrom_lt_iff {owner : String} {c : Cursor} {tokens : List Token}
    {table : List LeafOffset} (h : offsetsFrom owner c tokens = .ok table) (limit : Nat) :
    (∀ n ∈ numbersFrom c tokens, n < limit) ↔ ∀ offset ∈ table, offset.position < limit := by
  induction tokens generalizing c table with
  | nil =>
    cases h
    simp [numbersFrom]
  | cons token rest ih =>
    cases token with
    | enter boundary => exact ih h
    | leave boundary => exact ih h
    | primitive kind =>
      obtain ⟨offset, next, hplace, -, -⟩ := c.exists_place? kind
      rw [offsetsFrom, hplace] at h
      rw [numbersFrom, hplace]
      obtain ⟨offsets, hrest, rfl⟩ := map_eq_ok_iff.mp h
      obtain ⟨hreached, hrounded⟩ := Cursor.ascend_of_place? hplace
      simp only [List.forall_mem_cons, ih hrest]
      constructor
      · rintro ⟨-, -, hoffset, hothers⟩
        exact ⟨hoffset, hothers⟩
      · rintro ⟨hoffset, hothers⟩
        exact ⟨by omega, by omega, hoffset, hothers⟩

/-! ## Leaves inside their tree -/

namespace Node

theorem le_endOf (position : Nat) (members : List Node) : position ≤ endOf position members := by
  induction members generalizing position with
  | nil => exact le_rfl
  | cons node rest ih =>
    have hplace := le_roundUp position (alignment_pos node false)
    have hrest := ih (roundUp position (node.alignment false) + node.size)
    rw [endOf]
    omega

/-- Leaves of members begin before the end of the last member. -/
theorem firstBit_lt_of_mem_leavesOf {members : List Node} {start : Nat}
    (ih : ∀ member ∈ members, ∀ start, ∀ offset ∈ member.leavesAt start,
      offset.firstBit < 8 * (start + member.size)) (position : Nat) :
    ∀ offset ∈ leavesOf start position members,
      offset.firstBit < 8 * (start + endOf position members) := by
  induction members generalizing position with
  | nil => simp [leavesOf]
  | cons node rest ihrest =>
    intro offset hoffset
    rw [leavesOf, List.mem_append] at hoffset
    rw [endOf]
    rcases hoffset with hoffset | hoffset
    · have hlt := ih node List.mem_cons_self _ offset hoffset
      have hle := le_endOf (roundUp position (node.alignment false) + node.size) rest
      omega
    · exact ihrest (fun member hm => ih member (List.mem_cons_of_mem _ hm)) _ offset hoffset

/-- **The leaves of a tree begin inside it.** -/
theorem firstBit_lt_of_mem_leavesAt {node : Node} (h : node.Proper) : ∀ start,
    ∀ offset ∈ node.leavesAt start, offset.firstBit < 8 * (start + node.size) := by
  induction h with
  | @primitive kind hwidth =>
    intro start offset hoffset
    rw [leavesAt, List.mem_singleton] at hoffset
    subst hoffset
    show 8 * start < 8 * (start + kind.width)
    omega
  | @array count element _ ih =>
    intro start offset hoffset
    rw [leavesAt] at hoffset
    rw [size]
    split_ifs at hoffset ⊢
    -- flags share bytes, and the last of these may be used in part
    · obtain ⟨i, hi, rfl⟩ := List.mem_map.mp hoffset
      have hi := List.mem_range.mp hi
      show 8 * start + i < 8 * (start + (count + 7) / 8)
      omega
    · obtain ⟨i, hi, hoffset⟩ := List.mem_flatMap.mp hoffset
      have hlt := ih _ offset hoffset
      have hend : (i + 1) * element.size ≤ count * element.size :=
        Nat.mul_le_mul_right _ (List.mem_range.mp hi)
      rw [Nat.succ_mul] at hend
      omega
  | @struct name members _ ih =>
    intro start offset hoffset
    have hpos : 0 < largest (alignmentsOf members) :=
      Nat.pos_of_dvd_of_pos (largest_dvd_eight members) (by decide)
    have hsize : endOf 0 members ≤ (struct name members).size := le_roundUp _ hpos
    have hlt := firstBit_lt_of_mem_leavesOf ih 0 offset hoffset
    omega

end Node

/-! ## Bounds -/

/-- **How far the arithmetic of a layout goes.** A member declares no more elements than a word has
values, and as many only as an array over all of them; a word counts any other number. Every structure
that expands is compiled, all numbers on the way are below the bits of the structure, and they fit
words exactly if the offsets do. -/
theorem arithmetic_bounds (defs : Definitions) :
    (∀ owner text member, Member.parse owner text = .ok member →
      member.declared ≤ wordLimit ∧
      (member.declared = wordLimit ↔ ∃ element, member = .array 0 (wordLimit - 1) element) ∧
      (member.count = member.declared ↔ member.declared < wordLimit)) ∧
    ∀ name members, defs.expand name = .ok members → ∃ compiled,
      defs.compile name = .ok compiled ∧
      (∀ n ∈ numbers compiled.tokens, n < 8 * (Node.struct name members).size) ∧
      ((∀ n ∈ numbers compiled.tokens, n < wordLimit) ↔
        ∀ offset ∈ compiled.offsets, offset.position < wordLimit) := by
  refine ⟨fun owner text member hparse => ?_, fun name members hexpand => ?_⟩
  · obtain ⟨hle, hall⟩ := Member.declared_le_of_parse hparse
    exact ⟨hle, hall, member.count_eq_declared_iff⟩
  have hproper := Definitions.proper_of_expand hexpand
  have htable : offsetsFrom name {} (tokensOf members) = .ok (naturalOffsets members) :=
    offsets_tokensOf name members
  refine ⟨⟨tokensOf members, naturalOffsets members⟩, ?_, ?_, forall_numbersFrom_lt_iff htable _⟩
  · rw [compile_eq_natural, hexpand]
    rfl
  · refine (forall_numbersFrom_lt_iff htable _).mpr fun offset hoffset => ?_
    have hposition : offset.position ≤ offset.firstBit := by
      cases offset with
      | byte position => exact Nat.le_mul_of_pos_left position (by decide)
      | bit position => exact le_rfl
    have hstruct : (Node.struct name members).Proper := .struct hproper
    have hinside := Node.firstBit_lt_of_mem_leavesAt hstruct 0 offset hoffset
    rw [Nat.zero_add] at hinside
    exact hposition.trans_lt hinside

/-- A tank with a label, ten flags and a level. -/
def tankDefs : Definitions where
  rows := [⟨"Tank", ["STRING[80]", "ARRAY[0..9] OF BOOL", "LREAL"]⟩]
  distinct := by decide

def tankMembers : List Node :=
  [.primitive (.string 80), .array 10 (.primitive .bool), .primitive .lreal]

/-- The numbers of the tank stay below its 768 bits, far inside words. -/
theorem arithmetic_bounds_tank :
    Member.parse "Tank" "ARRAY[0..9] OF BOOL" = .ok (.array 0 9 (.primitive .bool)) ∧
    (Member.array 0 9 (.primitive .bool)).declared ≤ wordLimit ∧
    tankDefs.expand "Tank" = .ok tankMembers ∧
    ∃ compiled, tankDefs.compile "Tank" = .ok compiled ∧
      (∀ n ∈ numbers compiled.tokens, n < 768) ∧ ∀ offset ∈ compiled.offsets,
        offset.position < wordLimit := by
  have hparse : Member.parse "Tank" "ARRAY[0..9] OF BOOL" =
      .ok (.array 0 9 (.primitive .bool)) := by decide +kernel
  have hexpand : tankDefs.expand "Tank" = .ok tankMembers := by with_unfolding_all rfl
  obtain ⟨hcounts, hlayouts⟩ := arithmetic_bounds tankDefs
  obtain ⟨compiled, hcompile, hnumbers, hwords⟩ := hlayouts "Tank" tankMembers hexpand
  have hsize : 8 * (Node.struct "Tank" tankMembers).size = 768 := by decide +kernel
  rw [hsize] at hnumbers
  exact ⟨hparse, (hcounts _ _ _ hparse).1, hexpand, compiled, hcompile, hnumbers,
    hwords.mp fun n hn => (hnumbers n hn).trans (by decide)⟩

/-- A text of the largest capacity before two numbers. -/
def longDefs : Definitions where
  rows := [⟨"Long", ["STRING[18446744073709551615]", "SINT", "SINT"]⟩]
  distinct := by decide

def longMembers : List Node :=
  [.primitive (.string 18446744073709551615), .primitive .sint, .primitive .sint]

/-- An array over all values of a word is read, with one element more than the largest of them, and
the second number behind the long text lies at the first byte that no word counts. -/
theorem not_arithmetic_lt_wordLimit :
    (¬ ∀ owner text member, Member.parse owner text = .ok member → member.declared < wordLimit) ∧
    ¬ ∀ (defs : Definitions) name members, defs.expand name = .ok members →
      ∀ n ∈ numbers (tokensOf members), n < wordLimit := by
  constructor
  · intro hall
    have hparse : Member.parse "S" "ARRAY[0..18446744073709551615] OF Ghost" =
        .ok (.array 0 18446744073709551615 (.struct "Ghost")) := by decide +kernel
    exact absurd (hall _ _ _ hparse) (by decide)
  · intro hall
    have hexpand : longDefs.expand "Long" = .ok longMembers := by with_unfolding_all rfl
    have hmem : 18446744073709551616 ∈ numbers (tokensOf longMembers) := by decide +kernel
    exact absurd (hall _ _ _ hexpand _ hmem) (by decide)

end PlcTags.Layout

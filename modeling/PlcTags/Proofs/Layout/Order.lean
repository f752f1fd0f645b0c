import Mathlib.Order.Nat
import Mathlib.Tactic.SplitIfs
import PlcTags.Layout.Offsets
import PlcTags.Proofs.Outcome

/-!
# Leaves lie in order

Whatever the tokens are, balanced or not, no leaf begins before the one in front of it has ended
(`offsetsFrom_inOrder`). Positions are compared as numbers of bits. A leaf that occupies anything
therefore has an offset of its own (`InOrder.nodup`).

* `Cursor.used`: the bits that are taken.
* `InOrder`: each leaf begins at or after the end of the one before it, and so at or after the end
  of every earlier one (`InOrder.end_le`).
-/

namespace PlcTags.Layout

/-! ## Extents -/

/-- The first bit of a leaf. -/
def LeafOffset.firstBit : LeafOffset → Nat
  | .byte position => 8 * position
  | .bit position => position

/-- How many bits a leaf of a kind takes: one when it lies at a bit, otherwise its bytes. -/
def LeafOffset.extent (kind : Primitive) : LeafOffset → Nat
  | .byte _ => 8 * kind.width
  | .bit _ => 1

/-- The primitives among the tokens. -/
def kinds : List Token → List Primitive
  | [] => []
  | .primitive kind :: rest => kind :: kinds rest
  | .enter _ :: rest => kinds rest
  | .leave _ :: rest => kinds rest

theorem length_kinds (tokens : List Token) : (kinds tokens).length = primitiveCount tokens := by
  unfold primitiveCount
  induction tokens with
  | nil => rfl
  | cons token rest ih =>
    rw [List.countP_cons, ← ih]
    cases token <;> rfl

theorem kinds_append (front back : List Token) :
    kinds (front ++ back) = kinds front ++ kinds back := by
  induction front with
  | nil => rfl
  | cons token rest ih => cases token <;> simp [kinds, ih]

/-- **The leaves are in order** behind the first `used` bits. -/
inductive InOrder : (used : Nat) → List Primitive → List LeafOffset → Prop
  | nil {used : Nat} : InOrder used [] []
  | cons {used : Nat} {kind : Primitive} {kinds : List Primitive} {offset : LeafOffset}
      {offsets : List LeafOffset} (hfirst : used ≤ offset.firstBit)
      (hrest : InOrder (offset.firstBit + offset.extent kind) kinds offsets) :
      InOrder used (kind :: kinds) (offset :: offsets)

namespace InOrder

variable {used less : Nat} {ks : List Primitive} {offsets : List LeafOffset}

theorem length_eq (h : InOrder used ks offsets) : offsets.length = ks.length := by
  induction h with
  | nil => rfl
  | cons _ _ ih => rw [List.length_cons, List.length_cons, ih]

theorem mono (h : InOrder used ks offsets) (hle : less ≤ used) : InOrder less ks offsets := by
  cases h with
  | nil => exact .nil
  | cons hfirst hrest => exact .cons (hle.trans hfirst) hrest

theorem le_firstBit (h : InOrder used ks offsets) : ∀ offset ∈ offsets, used ≤ offset.firstBit := by
  induction h with
  | nil => simp
  | cons hfirst _ ih =>
    intro offset hoffset
    rcases List.mem_cons.mp hoffset with rfl | hoffset
    · exact hfirst
    · exact hfirst.trans ((Nat.le_add_right _ _).trans (ih offset hoffset))

/-- **A leaf ends before any later one begins.** -/
theorem end_le (h : InOrder used ks offsets) {i j : Nat} {kind : Primitive} {a b : LeafOffset}
    (hij : i < j) (hkind : ks[i]? = some kind) (ha : offsets[i]? = some a)
    (hb : offsets[j]? = some b) : a.firstBit + a.extent kind ≤ b.firstBit := by
  induction h generalizing i j with
  | nil => cases ha
  | cons _ hrest ih =>
    rcases j with _ | j
    · cases hij
    · rcases i with _ | i
      · cases hkind
        cases ha
        exact hrest.le_firstBit b (List.mem_of_getElem? hb)
      · exact ih (Nat.lt_of_succ_lt_succ hij) hkind ha hb

/-- Leaves that occupy something begin one after the other. -/
theorem pairwise (h : InOrder used ks offsets) (hks : ∀ kind ∈ ks, 0 < kind.width) :
    offsets.Pairwise fun a b => a.firstBit < b.firstBit := by
  induction h with
  | nil => exact .nil
  | @cons used kind ks offset offsets _ hrest ih =>
    have hwidth : 0 < kind.width := hks kind List.mem_cons_self
    have hextent : 0 < offset.extent kind := by
      cases offset with
      | byte _ => exact Nat.mul_pos (by decide) hwidth
      | bit _ => exact Nat.one_pos
    refine .cons (fun next hnext => ?_) (ih fun k hk => hks k (List.mem_cons_of_mem _ hk))
    have := hrest.le_firstBit next hnext
    omega

theorem nodup (h : InOrder used ks offsets) (hks : ∀ kind ∈ ks, 0 < kind.width) : offsets.Nodup :=
  (h.pairwise hks).imp fun hlt heq => absurd (heq ▸ hlt) (Nat.lt_irrefl _)

end InOrder

/-! ## The invariant of the cursor -/

namespace Cursor

/-- The bits that are taken: the bytes passed and the bits used of a shared byte. -/
def used (c : Cursor) : Nat := 8 * (c.position + c.pending) + c.bit

/-- **The shared byte is not full**, and while it is open no other bytes are to be passed. -/
structure Clean (c : Cursor) : Prop where
  bit_lt : c.bit < 8
  pending : 0 < c.bit → c.pending = 0

variable {c next : Cursor}

theorem clean_start : ({} : Cursor).Clean := ⟨by decide, fun _ => rfl⟩

theorem Clean.endRun (h : c.Clean) :
    c.endRun.Clean ∧ c.endRun.bit = 0 ∧ c.used ≤ c.endRun.used := by
  have hbit := h.bit_lt
  have hpending := h.pending
  unfold Cursor.endRun Cursor.used
  split_ifs with hopen
  · refine ⟨⟨Nat.zero_lt_succ _, fun hlt => absurd rfl hlt.ne⟩, rfl, ?_⟩
    show 8 * (c.position + c.pending) + c.bit ≤ 8 * (c.position + 1) + 0
    rw [hpending hopen]
    omega
  · exact ⟨h, Nat.eq_zero_of_not_pos hopen, le_rfl⟩

theorem Clean.require (h : c.Clean) (boundary : Boundary) (alignment : Nat) :
    (c.require boundary alignment).Clean ∧ (c.require boundary alignment).used = c.used := by
  unfold Cursor.require
  split_ifs
  · exact ⟨h, rfl⟩
  · exact ⟨⟨h.bit_lt, h.pending⟩, rfl⟩

/-- A boundary ends a shared byte and takes nothing else. -/
theorem Clean.enter (h : c.Clean) (boundary : Boundary) (alignment : Nat) :
    (c.enter boundary alignment).Clean ∧ c.used ≤ (c.enter boundary alignment).used := by
  obtain ⟨hended, -, hle⟩ := h.endRun
  obtain ⟨hclean, hused⟩ := hended.require boundary alignment
  exact ⟨⟨hclean.bit_lt, hclean.pending⟩, hle.trans hused.ge⟩

theorem Clean.leave (h : c.Clean) (boundary : Boundary) :
    (c.leave boundary).Clean ∧ c.used ≤ (c.leave boundary).used := by
  obtain ⟨hended, -, hle⟩ := h.endRun
  unfold Cursor.leave
  have hrequired := hended.require boundary
  exact ⟨⟨(hrequired _).1.bit_lt, (hrequired _).1.pending⟩, hle.trans (hrequired _).2.ge⟩

theorem le_of_start? {alignment position : Nat} (h : c.start? alignment = some position) :
    c.position + c.pending ≤ position := by
  unfold Cursor.start? at h
  by_cases hzero : c.position + c.pending = 0
  · exact hzero ▸ Nat.zero_le position
  · exact (roundUp?_eq_some ((if_neg hzero).symm.trans h)).2.1

/-- **One leaf**: it begins behind what was taken, and then is taken itself. -/
theorem Clean.place? (h : c.Clean) {kind : Primitive} {offset : LeafOffset}
    (hplace : c.place? kind = some (offset, next)) :
    next.Clean ∧ c.used ≤ offset.firstBit ∧ next.used = offset.firstBit + offset.extent kind := by
  unfold Cursor.place? at hplace
  split_ifs at hplace
  · -- the shared byte goes on, or a new one starts
    obtain ⟨position, hstart, heq⟩ := Option.map_eq_some_iff.mp hplace
    obtain ⟨rfl, rfl⟩ := Prod.mk.inj heq
    have hle := le_of_start? hstart
    have hbit := h.bit_lt
    refine ⟨⟨?_, ?_⟩, ?_, ?_⟩
    · show (if c.bit = 7 then 0 else c.bit + 1) < 8
      split_ifs <;> omega
    · show 0 < (if c.bit = 7 then 0 else c.bit + 1) → (if c.bit = 7 then 1 else 0) = 0
      split_ifs <;> omega
    · show 8 * (c.position + c.pending) + c.bit ≤ 8 * position + c.bit
      omega
    · show 8 * (position + if c.bit = 7 then 1 else 0) + (if c.bit = 7 then 0 else c.bit + 1) =
        8 * position + c.bit + 1
      split_ifs <;> omega
  · -- a byte of its own, behind the shared one
    obtain ⟨position, hstart, heq⟩ := Option.map_eq_some_iff.mp hplace
    obtain ⟨rfl, rfl⟩ := Prod.mk.inj heq
    obtain ⟨hended, hbit, hused⟩ := h.endRun
    have hle := le_of_start? hstart
    refine ⟨⟨hended.bit_lt, fun hopen => absurd hbit (Nat.ne_of_gt hopen)⟩, hused.trans ?_, ?_⟩
    · show 8 * (c.endRun.position + c.endRun.pending) + c.endRun.bit ≤ 8 * position
      omega
    · show 8 * (position + kind.width) + c.endRun.bit = 8 * position + 8 * kind.width
      omega

end Cursor

/-! ## All leaves -/

variable {owner : String} {c : Cursor} {tokens : List Token} {table : List LeafOffset}

/-- Induction on the tokens: every token keeps the cursor clean and takes nothing back. -/
theorem offsetsFrom_inOrder (h : c.Clean) (htable : offsetsFrom owner c tokens = .ok table) :
    InOrder c.used (kinds tokens) table := by
  induction tokens generalizing c table with
  | nil =>
    cases htable
    exact .nil
  | cons token rest ih =>
    cases token with
    | enter boundary =>
      obtain ⟨hclean, hle⟩ := h.enter boundary (regionAlignment [boundary.isArray] 0 rest)
      exact (ih hclean htable).mono hle
    | leave boundary =>
      obtain ⟨hclean, hle⟩ := h.leave boundary
      exact (ih hclean htable).mono hle
    | primitive kind =>
      rw [offsetsFrom] at htable
      split at htable
      · cases htable
      · next offset next hplace =>
        obtain ⟨offsets, hrest, rfl⟩ := map_eq_ok_iff.mp htable
        obtain ⟨hclean, hfirst, hused⟩ := h.place? hplace
        exact .cons hfirst (hused ▸ ih hclean hrest)

theorem offsets_inOrder (htable : offsets owner tokens = .ok table) :
    InOrder 0 (kinds tokens) table :=
  offsetsFrom_inOrder Cursor.clean_start htable

end PlcTags.Layout

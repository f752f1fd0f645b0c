import Mathlib.Data.List.Forall2

/-!
# Outcomes

Computations that can fail, taken apart: a composed computation succeeds exactly when its parts do
(`map_eq_ok_iff`, `bind_eq_ok_iff`, `elim_eq_ok_iff`), and a traversal when every step does
(`mapM_eq_ok_iff`).
-/

namespace PlcTags

variable {α β ε : Type}

theorem map_eq_ok_iff {f : α → β} {x : Except ε α} {b : β} :
    x.map f = .ok b ↔ ∃ a, x = .ok a ∧ f a = b := by
  rcases x with cause | a
  · constructor
    · intro h
      cases h
    · rintro ⟨_, h, -⟩
      cases h
  · constructor
    · intro h
      exact ⟨a, rfl, Except.ok.inj h⟩
    · rintro ⟨_, h, rfl⟩
      cases h
      rfl

theorem bind_eq_ok_iff {f : α → Except ε β} {x : Except ε α} {b : β} :
    x >>= f = .ok b ↔ ∃ a, x = .ok a ∧ f a = .ok b := by
  rcases x with cause | a
  · constructor
    · intro h
      cases h
    · rintro ⟨_, h, -⟩
      cases h
  · constructor
    · intro h
      exact ⟨a, rfl, h⟩
    · rintro ⟨_, h, hb⟩
      cases h
      exact hb

theorem map_eq_error_iff {f : α → β} {x : Except ε α} {cause : ε} :
    x.map f = .error cause ↔ x = .error cause := by
  rcases x with found | a
  · constructor
    · intro h
      exact congrArg _ (Except.error.inj h)
    · intro h
      exact congrArg _ (Except.error.inj h)
  · constructor
    · intro h
      cases h
    · intro h
      cases h

theorem bind_eq_error_iff {f : α → Except ε β} {x : Except ε α} {cause : ε} :
    x >>= f = .error cause ↔ x = .error cause ∨ ∃ a, x = .ok a ∧ f a = .error cause := by
  rcases x with found | a
  · constructor
    · intro h
      exact Or.inl (congrArg _ (Except.error.inj h))
    · rintro (h | ⟨_, h, -⟩)
      · exact congrArg _ (Except.error.inj h)
      · cases h
  · constructor
    · intro h
      exact Or.inr ⟨a, rfl, h⟩
    · rintro (h | ⟨_, h, hf⟩)
      · cases h
      · cases h
        exact hf

theorem elim_eq_ok_iff {cause : ε} {f : α → Except ε β} {x : Option α} {b : β} :
    x.elim (.error cause) f = .ok b ↔ ∃ a, x = some a ∧ f a = .ok b := by
  rcases x with _ | a
  · constructor
    · intro h
      cases h
    · rintro ⟨_, h, -⟩
      cases h
  · constructor
    · intro h
      exact ⟨a, rfl, h⟩
    · rintro ⟨_, h, hb⟩
      cases h
      exact hb

/-- What is not there is an error. -/
theorem elim_ok_eq_ok_iff {cause : ε} {x : Option α} {a : α} :
    x.elim (.error cause) .ok = Except.ok a ↔ x = some a := by
  rw [elim_eq_ok_iff]
  constructor
  · rintro ⟨_, hx, heq⟩
    exact Except.ok.inj heq ▸ hx
  · exact fun hx => ⟨a, hx, rfl⟩

theorem mapM_eq_ok_iff {f : α → Except ε β} {xs : List α} {ys : List β} :
    xs.mapM f = .ok ys ↔ List.Forall₂ (fun x y => f x = .ok y) xs ys := by
  induction xs generalizing ys with
  | nil =>
    rw [List.mapM_nil, List.forall₂_nil_left_iff]
    constructor
    · intro h
      exact (Except.ok.inj h).symm
    · rintro rfl
      rfl
  | cons x xs ih =>
    rw [List.mapM_cons, List.forall₂_cons_left_iff, bind_eq_ok_iff]
    constructor
    · rintro ⟨y, hy, h⟩
      obtain ⟨rest, hrest, h⟩ := bind_eq_ok_iff.mp h
      exact ⟨y, rest, hy, ih.mp hrest, (Except.ok.inj h).symm⟩
    · rintro ⟨y, rest, hy, hrest, rfl⟩
      exact ⟨y, hy, bind_eq_ok_iff.mpr ⟨rest, ih.mpr hrest, rfl⟩⟩

/-- A traversal that fails does so at one of its steps. -/
theorem mapM_eq_error {f : α → Except ε β} {xs : List α} {cause : ε}
    (h : xs.mapM f = .error cause) : ∃ x ∈ xs, f x = .error cause := by
  induction xs with
  | nil => cases h
  | cons x xs ih =>
    rw [List.mapM_cons] at h
    rcases bind_eq_error_iff.mp h with hx | ⟨y, -, h⟩
    · exact ⟨x, List.mem_cons_self, hx⟩
    · rcases bind_eq_error_iff.mp h with hrest | ⟨_, -, h⟩
      · obtain ⟨x', hx', hfail⟩ := ih hrest
        exact ⟨x', List.mem_cons_of_mem _ hx', hfail⟩
      · cases h

/-- Two lists stay related when the second is changed element by element. -/
theorem forall₂_map_of_mem {R S : α → β → Prop} {f : β → β} {xs : List α} {ys : List β}
    (h : List.Forall₂ R xs ys) (hf : ∀ x, ∀ y ∈ ys, R x y → S x (f y)) :
    List.Forall₂ S xs (ys.map f) := by
  induction h with
  | nil => exact .nil
  | cons hxy _ ih =>
    exact .cons (hf _ _ List.mem_cons_self hxy)
      (ih fun x y hy => hf x y (List.mem_cons_of_mem _ hy))

/-- What every element of a list is related to makes a list. -/
theorem exists_forall₂_of_mem {R : α → β → Prop} {xs : List α} (h : ∀ x ∈ xs, ∃ y, R x y) :
    ∃ ys, List.Forall₂ R xs ys := by
  induction xs with
  | nil => exact ⟨[], .nil⟩
  | cons x xs ih =>
    obtain ⟨y, hy⟩ := h x List.mem_cons_self
    obtain ⟨ys, hys⟩ := ih fun x' hx' => h x' (List.mem_cons_of_mem _ hx')
    exact ⟨y :: ys, .cons hy hys⟩

/-- A traversal gives back the list that its own elements are related to, if every step does. -/
theorem mapM_eq_some_of_forall₂ {R : α → β → Prop} {f : β → Option α} {xs : List α} {ys : List β}
    (h : List.Forall₂ R xs ys) (hf : ∀ x ∈ xs, ∀ y, R x y → f y = some x) :
    ys.mapM f = some xs := by
  induction h with
  | nil => rfl
  | @cons x y xs ys hxy _ ih =>
    have hfirst := hf x List.mem_cons_self y hxy
    have hrest := ih fun x' hx' => hf x' (List.mem_cons_of_mem _ hx')
    simp [hfirst, hrest]

/-- Every result of a traversal comes from one of its steps. -/
theorem exists_of_mem_forall₂ {R : α → β → Prop} {xs : List α} {ys : List β}
    (h : List.Forall₂ R xs ys) {y : β} (hy : y ∈ ys) : ∃ x ∈ xs, R x y := by
  induction h with
  | nil => cases hy
  | cons hxy _ ih =>
    rcases List.mem_cons.mp hy with rfl | hy
    · exact ⟨_, List.mem_cons_self, hxy⟩
    · obtain ⟨x, hx, hxy⟩ := ih hy
      exact ⟨x, List.mem_cons_of_mem _ hx, hxy⟩

end PlcTags

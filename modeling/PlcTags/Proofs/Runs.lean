/-!
# Runs, step by step

A run over a list, as the steps it is made of, each with what was reached before it.

* `steps`: the steps of a run.
* `foldl_of_steps`, `forall_steps`: what every step keeps.
* `foldl_eq_of_steps`, `eq_of_steps`, `foldl_append_of_steps`: what no step changes, what only one
  step changes, and what every step appends to.
* `steps_append`: one run after another.
-/

namespace PlcTags

variable {σ α β : Type} {step : σ → α → σ} {s : σ} {xs : List α}

/-- **The steps of a run** over a list, each with what was reached before it. -/
def steps (step : σ → α → σ) (s : σ) : List α → List (σ × α)
  | [] => []
  | x :: rest => (s, x) :: steps step (step s x) rest

theorem map_snd_steps (step : σ → α → σ) (s : σ) (xs : List α) :
    (steps step s xs).map Prod.snd = xs := by
  induction xs generalizing s with
  | nil => rfl
  | cons x rest ih => rw [steps, List.map_cons, ih]

/-- What no step changes. -/
theorem foldl_eq_of_steps {f : σ → β} (h : ∀ e ∈ steps step s xs, f (step e.1 e.2) = f e.1) :
    f (xs.foldl step s) = f s := by
  induction xs generalizing s with
  | nil => rfl
  | cons x rest ih =>
    rw [List.foldl_cons, ih fun e he => h e (List.mem_cons_of_mem _ he)]
    exact h (s, x) List.mem_cons_self

/-- **What only one step changes** is up to that step. -/
theorem eq_of_steps {f : σ → β} {touches : σ × α → Prop}
    (hkept : ∀ e ∈ steps step s xs, ¬ touches e → f (step e.1 e.2) = f e.1)
    (honce : (steps step s xs).Pairwise fun e e' => touches e → ¬ touches e') {e : σ × α}
    (he : e ∈ steps step s xs) (htouches : touches e) :
    f e.1 = f s ∧ f (xs.foldl step s) = f (step e.1 e.2) := by
  induction xs generalizing s with
  | nil => cases he
  | cons x rest ih =>
    obtain ⟨hfirst, hrest⟩ := List.pairwise_cons.mp honce
    rcases List.mem_cons.mp he with rfl | he
    · have hlater : f (rest.foldl step (step s x)) = f (step s x) :=
        foldl_eq_of_steps fun e' he' =>
          hkept e' (List.mem_cons_of_mem _ he') (hfirst e' he' htouches)
      exact ⟨rfl, hlater⟩
    · have hhead : ¬ touches (s, x) := fun hx => hfirst e he hx htouches
      obtain ⟨hbefore, hafter⟩ := ih (fun e' he' => hkept e' (List.mem_cons_of_mem _ he')) hrest he
      exact ⟨hbefore.trans (hkept _ List.mem_cons_self hhead), hafter⟩

/-- **What every step keeps** holds in the end. -/
theorem foldl_of_steps {P : σ → Prop} (hs : P s)
    (h : ∀ e ∈ steps step s xs, P e.1 → P (step e.1 e.2)) : P (xs.foldl step s) := by
  induction xs generalizing s with
  | nil => exact hs
  | cons x rest ih =>
    exact ih (h (s, x) List.mem_cons_self hs) fun e he => h e (List.mem_cons_of_mem _ he)

/-- What every step keeps holds before each of them. -/
theorem forall_steps {P : σ → Prop} (hs : P s) (h : ∀ s x, P s → P (step s x)) :
    ∀ e ∈ steps step s xs, P e.1 := by
  induction xs generalizing s with
  | nil => exact fun e he => nomatch he
  | cons x rest ih =>
    intro e he
    rcases List.mem_cons.mp he with rfl | he
    · exact hs
    · exact ih (h s x hs) e he

/-- **What every step appends to.** -/
theorem foldl_append_of_steps {f : σ → List β} {g : σ × α → List β}
    (h : ∀ s x, f (step s x) = f s ++ g (s, x)) (s : σ) (xs : List α) :
    f (xs.foldl step s) = f s ++ (steps step s xs).flatMap g := by
  induction xs generalizing s with
  | nil => exact (List.append_nil _).symm
  | cons x rest ih => rw [List.foldl_cons, ih, h, steps, List.flatMap_cons, List.append_assoc]

/-- The steps of one run after another. -/
theorem steps_append (step : σ → α → σ) (s : σ) (xs ys : List α) :
    steps step s (xs ++ ys) = steps step s xs ++ steps step (xs.foldl step s) ys := by
  induction xs generalizing s with
  | nil => rfl
  | cons x rest ih => rw [List.cons_append, steps, ih, steps, List.cons_append, List.foldl_cons]

end PlcTags

import PlcTags.Proofs.Layout.Nesting

/-!
# Tables that agree below a structure

What becomes of a structure depends on the structures that are reached from it and on nothing else
in the table (`outcome_eq_of_agreeBelow`): not on the order of the definitions, and not on a broken
one that it does not refer to.

* `Definitions.AgreeBelow`: the same members for every structure that is reached.
* `Definitions.expandFrom_eq_of_agreeBelow`: the same trees, or the same error.
* `Definitions.agreeBelow_insert`: a definition that is not reached may come or change.
-/

namespace PlcTags.Layout

namespace Definitions

/-- **Two tables agree below a structure**: every structure that is reached from it has the same
members in both, or is defined in neither. -/
def AgreeBelow (defs others : Definitions) (name : String) : Prop :=
  ∀ reached, defs.Reaches name reached → others.members? reached = defs.members? reached

variable {defs others : Definitions} {name child : String}

theorem AgreeBelow.of_refersTo (h : defs.AgreeBelow others name)
    (hchild : defs.RefersTo name child) : defs.AgreeBelow others child :=
  fun reached hreaches => h reached (.head hchild hreaches)

theorem agreeBelow_insert (h : ¬ defs.Reaches name child) (members : List String) :
    defs.AgreeBelow (defs.insert child members) name := by
  intro reached hreaches
  rw [members?_insert, if_neg]
  rintro rfl
  exact h hreaches

/-- **Tables that agree below a structure expand it alike**, whatever is open: to the same trees, or
with the same error. Induction on the structures that are not open yet. -/
theorem expandFrom_eq_of_agreeBelow {chain : List String} {name : String}
    (h : defs.AgreeBelow others name) :
    others.expandFrom chain name = defs.expandFrom chain name := by
  by_cases hopen : name ∈ chain
  · rw [expandFrom_of_mem hopen, expandFrom_of_mem hopen]
  · have hsame := h name .refl
    cases htexts : defs.members? name with
    | none => rw [expandFrom_of_none hopen htexts, expandFrom_of_none hopen (hsame.trans htexts)]
    | some texts =>
      have hless := unopened_append_lt (mem_names_of_members? htexts) hopen
      rw [expandFrom_of_some hopen htexts, expandFrom_of_some hopen (hsame.trans htexts)]
      exact treesOf_congr htexts fun child hchild =>
        expandFrom_eq_of_agreeBelow (h.of_refersTo hchild)
termination_by defs.unopened chain

theorem compile_eq_of_agreeBelow (h : defs.AgreeBelow others name) :
    others.compile name = defs.compile name := by
  have hexpand : others.expand name = defs.expand name := expandFrom_eq_of_agreeBelow h
  unfold compile layout
  rw [hexpand]

end Definitions

/-- A loop behind an array, in a table with a sound structure in front of it. -/
def loopDefs : Definitions where
  rows := [⟨"Point", ["DINT"]⟩, ⟨"Outer", ["INT", "Inner", "Ghost"]⟩,
    ⟨"Inner", ["ARRAY[0..1] OF Outer"]⟩]
  distinct := by decide

/-- The same loop in another order, with a broken structure in place of the sound one. -/
def brokenLoopDefs : Definitions where
  rows := [⟨"Inner", ["ARRAY[0..1] OF Outer"]⟩, ⟨"Outer", ["INT", "Inner", "Ghost"]⟩,
    ⟨"Point", ["STRING"]⟩]
  distinct := by decide

theorem loopDefs_agreeBelow : loopDefs.AgreeBelow brokenLoopDefs "Outer" := by
  -- no member refers to the one structure that differs
  have hmembers : ∀ row ∈ loopDefs.rows, ∀ text ∈ row.members,
      ∀ member ∈ (Member.parse row.name text).toOption, member.element ≠ .struct "Point" := by
    decide +kernel
  intro reached hreaches
  have hreached : "Point" ≠ reached := by
    rcases hreaches with _ | ⟨-, texts, text, member, htexts, htext, hparse, helement⟩
    · decide
    · rintro rfl
      exact hmembers _ (Definitions.mem_rows_of_members? htexts) text htext member
        (by rw [hparse]; rfl) helement
  unfold Definitions.members? loopDefs brokenLoopDefs
  by_cases houter : "Outer" = reached
  · subst houter
    rfl
  by_cases hinner : "Inner" = reached
  · subst hinner
    rfl
  simp [houter, hinner, hreached]

end PlcTags.Layout

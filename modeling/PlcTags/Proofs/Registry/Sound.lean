import Mathlib.Data.List.Forall2
import PlcTags.Registry.Merge

/-!
# Sound values

What holds of a registered value at any time, whatever merging has made of it: `Registered.Sound`,
for the descriptor that its text was read as. Every change that merging makes keeps it.

* `Registered.AsRegistered`: what an unmerged value is.
* `sound_newValue`: a new value is sound.
* `Registered.Sound.withState`, `joinGroup`, `joinSlice`: the changes.
-/

namespace PlcTags

open Registry

namespace Registered

/-- **A value as it was registered**: it starts reads itself, of its own tag if it has one. -/
structure AsRegistered (d : Descriptor) (v : Registered) : Prop where
  reads : v.readFlag = true
  alone : v.elementOffset = none
  descriptor : v.descriptor = d
  own : ∀ ref, v.tag = some ref → ref.connection = v.connection

/-- **A sound value**, for the descriptor that it was registered with. -/
structure Sound (route : String) (d : Descriptor) (v : Registered) : Prop where
  connection : v.connection = d.connection route
  /-- There is a tag, or a reason why there is none. -/
  outcome : v.tag.isSome = v.creationError.isNone
  /-- Nothing has changed an unmerged value. -/
  unmerged : v.state.sharesBuffer = false → v.AsRegistered d
  /-- A merged value has a tag, and the masters start the reads. -/
  merged : v.state.sharesBuffer = true → v.tag.isSome = true ∧ v.readFlag = (v.state == .master)
  /-- Merging does not leave values waiting. -/
  settled : v.state ≠ .pending

/-- **One value reads for another**: it is a master of the same poller, with the same tag. -/
structure ReadsFor (m v : Registered) : Prop where
  master : m.state = .master
  poller : m.poller = v.poller
  handle : m.handle? = v.handle?

variable {route : String} {d : Descriptor} {v : Registered}

namespace Sound

/-- A change of the state alone, as long as the value is not merged. -/
theorem withState (h : v.Sound route d) (hunmerged : v.state.sharesBuffer = false)
    {state : MergeState} (hstate : state.sharesBuffer = false) (hsettled : state ≠ .pending) :
    (v.withState state).Sound route d where
  connection := h.connection
  outcome := h.outcome
  unmerged _ :=
    have own := h.unmerged hunmerged
    ⟨own.reads, own.alone, own.descriptor, own.own⟩
  merged hmerged := nomatch hmerged.symm.trans hstate
  settled := hsettled

theorem sharesBuffer_joined (v : Registered) (master : ValueId) (tag : TagRef) :
    (v.joined master tag).state.sharesBuffer = true := by
  show (if _ then MergeState.master else MergeState.optimised).sharesBuffer = true
  split <;> rfl

/-- The state of a value with a shared tag tells whether it is the master. -/
theorem merged_joined (v : Registered) (master : ValueId) (tag : TagRef) :
    (v.joined master tag).tag.isSome = true ∧
      (v.joined master tag).readFlag = ((v.joined master tag).state == .master) := by
  refine ⟨rfl, ?_⟩
  show decide (v.id = master) =
    ((if v.id = master then MergeState.master else .optimised) == .master)
  by_cases hmaster : v.id = master
  · rw [if_pos hmaster, decide_eq_true hmaster]
    rfl
  · rw [if_neg hmaster, decide_eq_false hmaster]
    rfl

theorem requested_joined (v : Registered) (master : ValueId) (tag : TagRef) :
    (v.joined master tag).state ≠ .notRequested := by
  show (if _ then MergeState.master else MergeState.optimised) ≠ .notRequested
  split <;> exact nofun

theorem settled_joined (v : Registered) (master : ValueId) (tag : TagRef) :
    (v.joined master tag).state ≠ .pending := by
  show (if _ then MergeState.master else MergeState.optimised) ≠ .pending
  split <;> exact nofun

/-- Joining a group clears the error of the creation of the own tag. -/
theorem joinGroup (h : v.Sound route d) (master : ValueId) (tag : TagRef) :
    (v.joinGroup master tag).Sound route d where
  connection := h.connection
  outcome := rfl
  unmerged hunmerged := nomatch hunmerged.symm.trans (sharesBuffer_joined v master tag)
  merged _ := merged_joined v master tag
  settled := settled_joined v master tag

/-- Joining a slice takes a tag from a value that has one. -/
theorem joinSlice (h : v.Sound route d) (htag : v.tag.isSome = true) (master : ValueId)
    (tag : TagRef) (offset : Nat) : (v.joinSlice master tag offset).Sound route d where
  connection := h.connection
  outcome := htag.symm.trans h.outcome
  unmerged hunmerged := nomatch hunmerged.symm.trans (sharesBuffer_joined v master tag)
  merged _ := merged_joined v master tag
  settled := settled_joined v master tag

end Sound

/-- **A new value is sound**, whether its tag could be created or not. -/
theorem sound_newValue (r : Registry) {outcome : Except TransportError TagRef}
    (hown : ∀ ref, outcome = .ok ref → ref.connection = d.connection route) :
    (r.newValue route d outcome).Sound route d where
  connection := rfl
  outcome := by cases outcome <;> rfl
  unmerged _ := by
    refine ⟨rfl, rfl, rfl, fun ref href => ?_⟩
    cases outcome with
    | error cause => cases href
    | ok made => exact hown ref (congrArg Except.ok (Option.some.inj href))
  merged hmerged := by
    have hstate : (if r.optimised then MergeState.doNotOptimise else .notRequested).sharesBuffer =
        true := hmerged
    split at hstate <;> cases hstate
  settled := by
    show (if r.optimised then MergeState.doNotOptimise else .notRequested) ≠ .pending
    split <;> exact nofun

end Registered

end PlcTags

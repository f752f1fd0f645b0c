import PlcTags.Bridge.Basic

/-!
# Registrations that run at the same time

A registration takes three steps: it adds its value to the registry, takes a snapshot of the
registry, and publishes that. The registry is locked during each of the first two steps, but not
between them, and no longer when the snapshot is published. So other registrations may take steps in
between.

* `Bridge.Call`: how far a registration has come; `Bridge.Call.advance` is its next step.
* `Bridge.Concurrent`: a bridge with the registrations that were asked of it.
  `Bridge.Concurrent.run` lets them take steps in a given order.
-/

namespace PlcTags.Bridge

/-- How far a registration has come: it waits with its text, has added its value, holds a snapshot
that is not published yet, or has returned. -/
inductive Call
  | waiting (text : String)
  | added (v : Registered)
  | holding (v : Registered) (snapshot : Snapshot)
  | returned (outcome : Except DescriptorError Registered)

namespace Call

/-- The next step of a registration. Before a merge pass there is nothing to publish. -/
def advance (b : Bridge) : Call → Bridge × Call
  | .waiting text =>
    match b.registry.register b.plc b.config.route text with
    | .error cause => (b, .returned (.error cause))
    | .ok (registry, plc, v) =>
      ({ b with registry := registry, plc := plc }.keep (firstSample v),
        if registry.optimised then .added v else .returned (.ok v))
  | .added v => (b, .holding v b.registry.snapshot)
  | .holding v snapshot => ({ b with published := some snapshot }, .returned (.ok v))
  | .returned outcome => (b, .returned outcome)

/-- Has the registration returned? -/
def isReturned : Call → Bool
  | .returned _ => true
  | _ => false

end Call

/-- A bridge and the registrations that were asked of it. -/
structure Concurrent where
  bridge : Bridge
  calls : List Call

namespace Concurrent

/-- A bridge on which texts are about to be registered. -/
def ofTexts (b : Bridge) (texts : List String) : Concurrent :=
  ⟨b, texts.map .waiting⟩

/-- One registration takes its next step. -/
def step (s : Concurrent) (i : Nat) : Concurrent :=
  match s.calls[i]? with
  | none => s
  | some call =>
    let (bridge, next) := call.advance s.bridge
    ⟨bridge, s.calls.set i next⟩

/-- Registrations take steps in the order of a schedule. -/
def run (s : Concurrent) (schedule : List Nat) : Concurrent :=
  schedule.foldl step s

/-- Have all registrations returned? -/
def finished (s : Concurrent) : Bool :=
  s.calls.all Call.isReturned

end Concurrent

end PlcTags.Bridge

import PlcTags.Bridge.Concurrent
import PlcTags.Proofs.Bridge.Sessions

/-!
# What registrations at the same time publish

Each registration publishes a snapshot that was taken after its value was added. Yet pollers need
not see all values once every registration has returned: a snapshot is published when the registry
is unlocked again, so it may replace a newer one. There is no other way to lose a value: if what is
published never shrinks, nothing is missing in the end. And no value is made up, and none that was
published before the registrations gets lost.

* `Concurrent.Moves`: what a step can be.
* `Concurrent.run_alone`: a registration that nothing interrupts is the one of `Bridge.register`.
* `Concurrent.Coherent`: what every step keeps. `Concurrent.InHand`: what a step keeps that does not
  shrink what is published.
* `registrations_published`: what any schedule publishes.
* `not_forall_registered_published`: a schedule that loses a value.
-/

namespace PlcTags

open Bridge

/-- The values of a snapshot are between those of an earlier registry and of a later one. -/
structure Snapshot.Between (before after : List Registered) (snapshot : Snapshot) : Prop where
  kept : before <+: snapshot.values
  known : snapshot.values <+: after

/-- What a registration has in hand belongs to the registry. -/
def Bridge.Call.Sound (before after : List Registered) : Call → Prop
  | .waiting _ => True
  | .added v => v ∈ after
  | .holding v snapshot => v ∈ after ∧ snapshot.Between before after
  | .returned outcome => ∀ v, outcome = .ok v → v ∈ after

/-- Will the registration publish this snapshot, or one that it takes only then? -/
def Bridge.Call.Brings (snapshot : Snapshot) : Call → Prop
  | .waiting _ | .returned _ => False
  | .added _ => True
  | .holding _ held => held = snapshot

section

variable {before after later : List Registered}

theorem Snapshot.Between.grow {snapshot : Snapshot} (h : snapshot.Between before after)
    (hlater : after <+: later) : snapshot.Between before later :=
  ⟨h.kept, h.known.trans hlater⟩

theorem Bridge.Call.Sound.grow {call : Call} (h : call.Sound before after)
    (hlater : after <+: later) : call.Sound before later := by
  cases call with
  | waiting text => trivial
  | added v => exact hlater.subset h
  | holding v snapshot => exact ⟨hlater.subset h.1, h.2.grow hlater⟩
  | returned outcome => exact fun v hv => hlater.subset (h v hv)

end

namespace Bridge.Concurrent

/-! ## Steps -/

/-- **What a step can be** once values are published. -/
inductive Moves (i : Nat) (s : Concurrent) : Concurrent → Prop
  | idle : Moves i s s
  | refused {text : String} (cause : DescriptorError) (hcall : s.calls[i]? = some (.waiting text)) :
      Moves i s ⟨s.bridge, s.calls.set i (.returned (.error cause))⟩
  | added {text : String} {registry : Registry} {plc : Plc} {v : Registered}
      (hcall : s.calls[i]? = some (.waiting text))
      (hadded : s.bridge.registry.register s.bridge.plc s.bridge.config.route text =
        .ok (registry, plc, v)) :
      Moves i s ⟨{ s.bridge with registry := registry, plc := plc }.keep (firstSample v),
        s.calls.set i (.added v)⟩
  | taken {v : Registered} (hcall : s.calls[i]? = some (.added v)) :
      Moves i s ⟨s.bridge, s.calls.set i (.holding v s.bridge.registry.snapshot)⟩
  | sent {v : Registered} {snapshot : Snapshot}
      (hcall : s.calls[i]? = some (.holding v snapshot)) :
      Moves i s ⟨{ s.bridge with published := some snapshot },
        s.calls.set i (.returned (.ok v))⟩

variable {s next : Concurrent} {i : Nat} {call : Call}

theorem step_eq (hcall : s.calls[i]? = some call) :
    s.step i = ⟨(call.advance s.bridge).1, s.calls.set i (call.advance s.bridge).2⟩ := by
  unfold step
  rw [hcall]

theorem step_idle (hcall : s.calls[i]? = none) : s.step i = s := by
  unfold step
  rw [hcall]

theorem lt_of_call (hcall : s.calls[i]? = some call) : i < s.calls.length :=
  (List.getElem?_eq_some_iff.mp hcall).1

/-- To put a registration where it stands changes nothing. -/
theorem set_call (hcall : s.calls[i]? = some call) : s.calls.set i call = s.calls := by
  obtain ⟨hlt, rfl⟩ := List.getElem?_eq_some_iff.mp hcall
  exact List.set_getElem_self hlt

theorem moves_step (hoptimised : s.bridge.registry.optimised = true) (i : Nat) :
    Moves i s (s.step i) := by
  cases hcall : s.calls[i]? with
  | none =>
    rw [step_idle hcall]
    exact .idle
  | some call =>
    rw [step_eq hcall]
    cases call with
    | waiting text =>
      cases hadded : s.bridge.registry.register s.bridge.plc s.bridge.config.route text with
      | error cause =>
        simp only [Call.advance, hadded]
        exact .refused cause hcall
      | ok added =>
        obtain ⟨registry, plc, v⟩ := added
        obtain ⟨_, _, -, -, -, hregistry⟩ := register_eq_ok hadded
        have hstill : registry.optimised = true := by rw [hregistry]; exact hoptimised
        simp only [Call.advance, hadded, hstill, if_true]
        exact .added hcall hadded
    | added v => exact .taken hcall
    | holding v snapshot => exact .sent hcall
    | returned outcome =>
      simp only [Call.advance, set_call hcall]
      exact .idle

/-- **A registration that nothing interrupts** is one of a session. -/
theorem run_alone {text : String} (hcall : s.calls[i]? = some (.waiting text)) :
    s.run [i, i, i] = ⟨s.bridge.serve (.register text),
      s.calls.set i (.returned ((s.bridge.register text).map Prod.snd))⟩ := by
  have hstep : ∀ (bridge : Bridge) (call : Call), step ⟨bridge, s.calls.set i call⟩ i =
      ⟨(call.advance bridge).1, s.calls.set i (call.advance bridge).2⟩ := fun bridge call => by
    rw [step_eq (List.getElem?_set_self (lt_of_call hcall)), List.set_set]
  show step (step (step s i) i) i = _
  rw [step_eq hcall, hstep, hstep]
  unfold Bridge.serve Bridge.register
  cases hadded : s.bridge.registry.register s.bridge.plc s.bridge.config.route text with
  | error cause =>
    simp only [Call.advance, hadded]
    rfl
  | ok added =>
    obtain ⟨registry, plc, v⟩ := added
    simp only [Call.advance, hadded]
    cases hoptimised : registry.optimised with
    | true =>
      simp only [hoptimised, if_true, Except.map]
      rfl
    | false =>
      simp only [hoptimised, if_false, Except.map, Bool.false_eq_true]
      rfl

/-! ## What every step keeps -/

variable {before : List Registered}

/-- **What every step keeps**: all snapshots, the published one and those that registrations hold,
begin with the values from before, and are beginnings of the registry. -/
structure Coherent (before : List Registered) (s : Concurrent) : Prop where
  optimised : s.bridge.registry.optimised = true
  published : ∃ snapshot, s.bridge.published = some snapshot ∧
    snapshot.Between before s.bridge.registry.values
  calls : ∀ call ∈ s.calls, call.Sound before s.bridge.registry.values

theorem sound_set {after : List Registered} (hcalls : ∀ other ∈ s.calls, other.Sound before after)
    (hcall : call.Sound before after) :
    ∀ other ∈ s.calls.set i call, other.Sound before after := fun other hmem =>
  (List.mem_or_eq_of_mem_set hmem).elim (hcalls other) fun heq => heq ▸ hcall

theorem Moves.coherent (h : Moves i s next) (hs : s.Coherent before) : next.Coherent before := by
  obtain ⟨snapshot, hpublished, hbetween⟩ := hs.published
  cases h with
  | idle => exact hs
  | refused cause hcall =>
    refine ⟨hs.optimised, hs.published, sound_set hs.calls fun v hok => ?_⟩
    cases hok
  | @added text registry plc v hcall hadded =>
    obtain ⟨_, _, -, -, -, rfl⟩ := register_eq_ok hadded
    have hgrown : s.bridge.registry.values <+: s.bridge.registry.values ++ [v] :=
      List.prefix_append _ _
    have hadds : (Call.added v).Sound before (s.bridge.registry.values ++ [v]) :=
      List.mem_concat_self
    exact ⟨hs.optimised, ⟨snapshot, hpublished, hbetween.grow hgrown⟩,
      sound_set (fun other hmem => (hs.calls other hmem).grow hgrown) hadds⟩
  | taken hcall =>
    have hv := hs.calls _ (List.mem_of_getElem? hcall)
    have hbefore := hbetween.kept.trans hbetween.known
    exact ⟨hs.optimised, hs.published, sound_set hs.calls ⟨hv, hbefore, List.prefix_rfl⟩⟩
  | sent hcall =>
    obtain ⟨hv, hheld⟩ := hs.calls _ (List.mem_of_getElem? hcall)
    refine ⟨hs.optimised, ⟨_, rfl, hheld⟩, sound_set hs.calls fun v hok => ?_⟩
    cases hok
    exact hv

theorem Coherent.run (h : s.Coherent before) (schedule : List Nat) :
    (s.run schedule).Coherent before := by
  induction schedule generalizing s with
  | nil => exact h
  | cons i rest ih => exact ih ((moves_step h.optimised i).coherent h)

/-! ## What is kept if nothing published shrinks -/

/-- How many values pollers see. -/
def shown (s : Concurrent) : Nat :=
  s.bridge.published.elim 0 fun snapshot => snapshot.values.length

/-- No step of the schedule replaces what is published by a snapshot of fewer values. -/
def Grows (s : Concurrent) : List Nat → Prop
  | [] => True
  | i :: rest => s.shown ≤ (s.step i).shown ∧ (s.step i).Grows rest

instance decidableGrows : (s : Concurrent) → (schedule : List Nat) → Decidable (s.Grows schedule)
  | _, [] => inferInstanceAs (Decidable True)
  | s, i :: rest =>
    have := decidableGrows (s.step i) rest
    inferInstanceAs (Decidable (_ ∧ _))

/-- **All values are published**, or will be by a registration that has not returned. -/
def InHand (s : Concurrent) : Prop :=
  s.bridge.published = some s.bridge.registry.snapshot ∨
    ∃ call ∈ s.calls, call.Brings s.bridge.registry.snapshot

/-- A step of another registration does not take away what one brings. -/
theorem brings_set {snapshot : Snapshot} (hcall : s.calls[i]? = some call)
    (hnot : ¬ call.Brings snapshot) (next : Call) (h : ∃ other ∈ s.calls, other.Brings snapshot) :
    ∃ other ∈ s.calls.set i next, other.Brings snapshot := by
  obtain ⟨other, hmem, hbrings⟩ := h
  obtain ⟨j, hother⟩ := List.mem_iff_getElem?.mp hmem
  have hne : i ≠ j := by
    rintro rfl
    rw [Option.some.inj (hcall.symm.trans hother)] at hnot
    exact hnot hbrings
  exact ⟨other, List.mem_of_getElem? ((List.getElem?_set_ne hne).trans hother), hbrings⟩

/-- A step keeps all values in hand unless it publishes fewer values than pollers saw. -/
theorem Moves.inHand (h : Moves i s next) (hs : s.Coherent before)
    (hshown : s.shown ≤ next.shown) (hhand : s.InHand) : next.InHand := by
  cases h with
  | idle => exact hhand
  | refused cause hcall => exact hhand.imp_right (brings_set hcall id _)
  | added hcall => exact Or.inr ⟨_, List.mem_set (lt_of_call hcall) _, trivial⟩
  | taken hcall => exact Or.inr ⟨_, List.mem_set (lt_of_call hcall) _, rfl⟩
  | @sent v snapshot hcall =>
    by_cases hlast : snapshot = s.bridge.registry.snapshot
    · exact Or.inl (congrArg some hlast)
    · refine Or.inr (brings_set hcall hlast _ (hhand.resolve_left fun hpublished => ?_))
      -- everything was published, so a snapshot that is not older has everything
      have hknown := (hs.calls _ (List.mem_of_getElem? hcall)).2.known
      have hlength : s.bridge.registry.values.length ≤ snapshot.values.length := by
        unfold shown at hshown
        rw [hpublished] at hshown
        exact hshown
      exact hlast (congrArg Snapshot.mk (hknown.eq_of_length_le hlength))

theorem InHand.run (h : s.InHand) (hs : s.Coherent before) {schedule : List Nat}
    (hgrows : s.Grows schedule) : (s.run schedule).InHand := by
  induction schedule generalizing s with
  | nil => exact h
  | cons i rest ih =>
    have hmoves := moves_step hs.optimised i
    exact ih (hmoves.inHand hs hgrows.1 h) (hmoves.coherent hs) hgrows.2

/-- Registrations that have returned bring nothing. -/
theorem InHand.published (h : s.InHand) (hfinished : s.finished = true) :
    s.bridge.published = some s.bridge.registry.snapshot := by
  refine h.resolve_right ?_
  rintro ⟨call, hmem, hbrings⟩
  have hreturned := List.all_eq_true.mp hfinished call hmem
  cases call with
  | returned outcome => exact hbrings
  | waiting | added | holding => cases hreturned

end Bridge.Concurrent

/-! ## Schedules -/

open Concurrent

/-- **What registrations at the same time publish.** Pollers see the values from before and then
some of the new ones, in registration order, and whatever has been registered is in the registry.
All of it is published when every registration has returned, unless a snapshot replaced a newer
one. It is also published after a registration that nothing interrupts. -/
structure PublishesRegistered (start : Concurrent) (schedule : List Nat) (s : Concurrent) :
    Prop where
  published : ∃ snapshot, s.bridge.published = some snapshot ∧
    snapshot.Between start.bridge.registry.values s.bridge.registry.values
  registered : ∀ v, .returned (.ok v) ∈ s.calls → v ∈ s.bridge.registry.values
  complete : start.Grows schedule → s.finished = true →
    s.bridge.published = some s.bridge.registry.snapshot
  restored : ∀ i text next v, s.calls[i]? = some (.waiting text) →
    s.bridge.register text = .ok (next, v) →
      (s.run [i, i, i]).bridge.published = some (s.run [i, i, i]).bridge.registry.snapshot

/-- **Registrations at the same time**, on a bridge that has gone through a merge pass, in any
schedule. -/
theorem registrations_published {b : Bridge} (h : Bridge.Reached true b) (texts : List String)
    (schedule : List Nat) : PublishesRegistered (ofTexts b texts) schedule
      ((ofTexts b texts).run schedule) := by
  obtain ⟨hpublished, hoptimised⟩ := h.sound.published rfl
  have hstart : (ofTexts b texts).Coherent b.registry.values := by
    refine ⟨hoptimised, ⟨_, hpublished, List.prefix_rfl, List.prefix_rfl⟩, fun call hmem => ?_⟩
    obtain ⟨text, -, rfl⟩ := List.mem_map.mp hmem
    trivial
  have hrun := hstart.run schedule
  have hhand : (ofTexts b texts).Grows schedule → ((ofTexts b texts).run schedule).InHand :=
    (InHand.run (Or.inl hpublished) hstart ·)
  generalize (ofTexts b texts).run schedule = s at hrun hhand ⊢
  constructor
  case published => exact hrun.published
  case registered => exact fun v hmem => hrun.calls _ hmem v rfl
  case complete => exact fun hgrows => (hhand hgrows).published
  case restored =>
    intro i text next v hcall hadded
    obtain ⟨registry, plc, hregister, rfl⟩ := added_eq_ok hadded
    obtain ⟨_, _, -, -, -, hregistry⟩ := register_eq_ok hregister
    have hstill : registry.optimised = true := by rw [hregistry]; exact hrun.optimised
    rw [run_alone hcall]
    unfold Bridge.serve
    simp only [hadded, Except.map, Bridge.orStay, withAdded, hstill, if_true]
    rfl

def alarmTexts : List String :=
  ["Alarm BOOL none none none", "Horn BOOL none none none"]

/-- Both values of an alarm are published though the snapshot of the first one lacks the second. -/
theorem registrations_published_alarm :
    ((ofTexts pumpBridge alarmTexts).Grows [0, 0, 1, 0, 1, 1] ∧
      ((ofTexts pumpBridge alarmTexts).run [0, 0, 1, 0, 1, 1]).finished = true) ∧
    PublishesRegistered (ofTexts pumpBridge alarmTexts) [0, 0, 1, 0, 1, 1]
      ((ofTexts pumpBridge alarmTexts).run [0, 0, 1, 0, 1, 1]) :=
  ⟨by decide +kernel, registrations_published reached_pumpBridge alarmTexts _⟩

/-- A bridge on which nothing was registered before the merge pass. -/
def emptyBridge : Bridge :=
  idleBridge.merge.1

theorem reached_emptyBridge : Bridge.Reached true emptyBridge := by
  have hidle : Bridge.ofConfig .counting pumpConfig {} = .ok idleBridge := rfl
  exact (Bridge.Reached.ofConfig hidle).merge

/-- The first registration takes its snapshot before the second one has added its value, and
publishes it last. -/
def overtaken : Concurrent :=
  (ofTexts emptyBridge alarmTexts).run [0, 0, 1, 1, 1, 0]

/-- **A snapshot that replaces a newer one loses a value** though all registrations have
returned. -/
theorem not_forall_registered_published :
    ¬ ∀ (b : Bridge) (texts : List String) (schedule : List Nat), Bridge.Reached true b →
      ((ofTexts b texts).run schedule).finished = true →
        ∃ snapshot, ((ofTexts b texts).run schedule).bridge.published = some snapshot ∧
          ∀ v ∈ ((ofTexts b texts).run schedule).bridge.registry.values, v ∈ snapshot.values := by
  intro hall
  have hlost : overtaken.finished = true ∧ ¬ ∀ v ∈ overtaken.bridge.registry.values,
      v ∈ overtaken.bridge.published.elim [] Snapshot.values := by
    decide +kernel
  unfold overtaken at hlost
  obtain ⟨snapshot, hpublished, hmem⟩ := hall _ _ _ reached_emptyBridge hlost.1
  rw [hpublished] at hlost
  exact hlost.2 hmem

end PlcTags

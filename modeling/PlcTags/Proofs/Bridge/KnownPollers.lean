import PlcTags.Proofs.Bridge.Roster
import PlcTags.Proofs.Bridge.Sessions
import PlcTags.Proofs.Text.Blank

/-!
# Pollers in a session

A session begins with the pollers of its configuration, and each call that creates a poller adds it
to the registry and to the bridge, or to neither. So the registry lets in descriptors exactly of
groups that the bridge polls.

* `Bridge.createPoller_of_new`, `Bridge.createPoller_eq_error`: the calls that are accepted and
  those that are refused.
* `Bridge.ConsistentPollers`: what the two records promise each other.
* `session_consistentPollers`: so it is after any session.
-/

namespace PlcTags

open Text (Blank)

namespace Bridge

variable {b next : Bridge} {merged : Bool} {poller : PollerConfig}

/-- **A usable poller with a new name is created**, in the registry and in the bridge. -/
theorem createPoller_of_new (husable : poller.validate = .ok ())
    (hnew : poller.name ∉ b.registry.pollers) : b.createPoller poller = .ok
      { b with
        registry := { b.registry with pollers := b.registry.pollers ++ [poller.name] }
        pollers := b.pollers ++ [poller] } := by
  have hadded : b.registry.addPoller poller.name =
      ({ b.registry with pollers := b.registry.pollers ++ [poller.name] }, true) := by
    rw [Registry.addPoller, if_neg (by simpa using hnew)]
  unfold createPoller
  rw [husable]
  dsimp only
  rw [hadded]

/-- **Why a poller is refused**: it cannot be used, or its name is taken. Then the registry would
not have changed either. -/
theorem createPoller_eq_error {cause : BridgeError} (h : b.createPoller poller = .error cause) :
    (∃ reason, poller.validate = .error reason ∧ cause = .config reason) ∨
      (poller.name ∈ b.registry.pollers ∧ cause = .config (.duplicatePoller poller.name) ∧
        b.registry.addPoller poller.name = (b.registry, false)) := by
  cases husable : poller.validate with
  | error reason =>
    unfold createPoller at h
    rw [husable] at h
    cases h
    exact .inl ⟨reason, rfl, rfl⟩
  | ok =>
    by_cases hnew : poller.name ∈ b.registry.pollers
    · have hkept : b.registry.addPoller poller.name = (b.registry, false) := by
        rw [Registry.addPoller, if_pos (by simpa using hnew)]
      unfold createPoller at h
      rw [husable] at h
      dsimp only at h
      rw [hkept] at h
      cases h
      exact .inr ⟨hnew, rfl, hkept⟩
    · rw [createPoller_of_new husable hnew] at h
      cases h

/-- **The registry and the bridge agree on the pollers.** -/
structure ConsistentPollers (b : Bridge) : Prop where
  /-- Both hold the same names. -/
  names : b.registry.pollers = b.pollers.map PollerConfig.name
  /-- No name is there twice. -/
  distinct : (b.pollers.map PollerConfig.name).Nodup
  /-- No name is blank or reserved, and each poller has a period. -/
  usable : ∀ poller ∈ b.pollers,
    ¬ Blank poller.name.toList ∧ poller.name ≠ initPoller ∧ 0 < poller.rateMs
  /-- A poller that is created is added to both. -/
  created : ∀ poller next, b.createPoller poller = .ok next →
    next.registry.pollers = b.registry.pollers ++ [poller.name] ∧
      next.pollers = b.pollers ++ [poller]
  /-- A poller is refused if it cannot be used or its name is taken, and only then. -/
  refused : ∀ poller, (∃ cause, b.createPoller poller = .error cause) ↔
    poller.validate ≠ .ok () ∨ poller.name ∈ b.registry.pollers
  /-- A call that is refused changes nothing. -/
  unchanged : ∀ poller cause, b.createPoller poller = .error cause →
    b.serve (.createPoller poller) = b ∧
      (poller.validate = .ok () → b.registry.addPoller poller.name = (b.registry, false))
  /-- A descriptor that is accepted names a group of the bridge. -/
  accepted : ∀ text next v, b.register text = .ok (next, v) → v.poller ∈ b.groups
  /-- So does the descriptor of every value. -/
  registered : ∀ v ∈ b.registry.values, v.poller ∈ b.groups
  /-- A group of the bridge is polled, unless no pass has run yet. -/
  polled : ∀ group ∈ b.groups, ∀ cause, b.poll group = .error cause →
    cause = .notInitialised ∧ b.published = none

theorem poll_of_mem_groups {group : String} {cause : BridgeError} (hgroup : group ∈ b.groups)
    (h : b.poll group = .error cause) : cause = .notInitialised ∧ b.published = none := by
  obtain ⟨spread, hspread⟩ := exists_spreads_of_mem hgroup
  unfold poll at h
  rw [hspread] at h
  cases hpublished : b.published with
  | none =>
    rw [hpublished] at h
    cases h
    exact ⟨rfl, rfl⟩
  | some snapshot =>
    rw [hpublished] at h
    cases h

theorem Rostered.usable_name (h : b.Rostered) (hpoller : poller ∈ b.pollers) :
    ¬ Blank poller.name.toList ∧ poller.name ≠ initPoller ∧ 0 < poller.rateMs := by
  obtain ⟨hblank, hreserved, hrate⟩ := PollerConfig.validate_eq_ok_iff.mp (h.usable poller hpoller)
  refine ⟨?_, hreserved, Nat.pos_of_ne_zero hrate⟩
  rwa [← Text.trim_eq_nil_iff, ← ne_eq, ← List.isEmpty_eq_false_iff]

/-- The poller of a value that is registered is one of those that the bridge has, or none. -/
theorem Reached.mem_groups_of_register (h : Reached merged b) {text : String} {v : Registered}
    (hadded : b.register text = .ok (next, v)) : v.poller ∈ b.groups := by
  have hnext := (h.register hadded).staffed
  obtain ⟨registry, plc, hregister, rfl⟩ := added_eq_ok hadded
  obtain ⟨_, _, -, -, -, hregistry⟩ := register_eq_ok hregister
  have hv : v ∈ (b.withAdded registry plc v).registry.values := by
    rw [registry_withAdded, hregistry]
    exact List.mem_append_right _ List.mem_cons_self
  have hgroups := hnext.mem_groups hv
  rwa [groups, pollers_withAdded] at hgroups

/-- **The registry and the bridge agree at any time.** -/
theorem Reached.consistentPollers (h : Reached merged b) : b.ConsistentPollers := by
  have hroster := h.rostered
  constructor
  case names => exact hroster.names
  case distinct => exact hroster.nodup
  case usable => exact fun poller => hroster.usable_name
  case created =>
    intro poller next hcreated
    rw [createPoller_eq_ok hcreated]
    exact ⟨rfl, rfl⟩
  case refused =>
    intro poller
    constructor
    · rintro ⟨cause, hcause⟩
      rcases createPoller_eq_error hcause with ⟨reason, hreason, -⟩ | ⟨htaken, -, -⟩
      · exact .inl (by rw [hreason]; exact nofun)
      · exact .inr htaken
    · intro hbad
      cases hcreated : b.createPoller poller with
      | error cause => exact ⟨cause, rfl⟩
      | ok next =>
        obtain ⟨husable, hnew⟩ := usable_of_createPoller hcreated
        exact (hbad.elim (fun hbad => hbad husable) hnew).elim
  case unchanged =>
    intro poller cause hcause
    refine ⟨?_, fun husable => ?_⟩
    · show b.orStay (b.createPoller poller) = b
      rw [hcause]
      rfl
    · rcases createPoller_eq_error hcause with ⟨reason, hreason, -⟩ | ⟨-, -, hkept⟩
      · rw [husable] at hreason
        cases hreason
      · exact hkept
  case accepted => exact fun text next v => h.mem_groups_of_register
  case registered => exact fun v => h.staffed.mem_groups
  case polled => exact fun group hgroup cause => poll_of_mem_groups hgroup

end Bridge

/-- **After every session the registry and the bridge agree on the pollers**, from any configuration
that can be used, whichever pollers are created and whatever else is asked. -/
theorem session_consistentPollers (ids : ValueId.Supply) {config : Config}
    (hvalid : config.validate = .ok ()) (plc : Plc) :
    ∃ b, Bridge.ofConfig ids config plc = .ok b ∧ b.pollers = config.pollers ∧
      ∀ requests : List Bridge.Request, (requests.foldl Bridge.serve b).ConsistentPollers := by
  have hstart : Bridge.ofConfig ids config plc = .ok
      { config := config
        plc := plc
        registry :=
          config.pollers.foldl (fun r poller => (r.addPoller poller.name).1) { ids := ids }
        pollers := config.pollers } := by
    rw [Bridge.ofConfig, hvalid]
    rfl
  refine ⟨_, hstart, rfl, fun requests => ?_⟩
  obtain ⟨merged, hreached⟩ := Bridge.Reached.exists_session (.ofConfig hstart) requests
  exact hreached.consistentPollers

/-- One poller from the start. -/
def drainConfig : Config :=
  { pumpConfig with pollers := [⟨"fast", 100, false⟩] }

/-- One poller is created. One has a name that is taken, one a name that is reserved, one has a
blank name, and one has no period. -/
def drainSession : List Bridge.Request :=
  [.createPoller ⟨"slow", 1000, true⟩, .createPoller ⟨"fast", 50, false⟩,
    .createPoller ⟨initPoller, 50, false⟩, .createPoller ⟨" ", 50, false⟩,
    .createPoller ⟨"never", 0, false⟩]

theorem session_consistentPollers_drain : ∃ b, Bridge.ofConfig .counting drainConfig {} = .ok b ∧
    (drainSession.foldl Bridge.serve b).registry.pollers = ["fast", "slow"] ∧
      (drainSession.foldl Bridge.serve b).ConsistentPollers := by
  obtain ⟨b, hstart, -, hsession⟩ := @session_consistentPollers .counting drainConfig rfl {}
  refine ⟨b, hstart, ?_, hsession drainSession⟩
  cases hstart
  decide +kernel

end PlcTags

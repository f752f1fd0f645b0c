import PlcTags.Bridge.Basic
import PlcTags.Proofs.Bridge.Polls

/-!
# The operations of a bridge, taken apart

What an operation that succeeds has done, for those that can fail, and what polls leave on the
controller.

* `Bridge.createPoller_eq_ok`, `Bridge.added_eq_ok`, `Bridge.poll_eq_ok`: operations that succeeded.
* `Bridge.plc_pollPublished`, `Bridge.config_pollPublished`, …: the parts of a bridge after a poll,
  and `Bridge.part_write` after a write.
* `Bridge.merge_eq`, `Bridge.start_keeps`: merge passes, and pollers that start.
-/

namespace PlcTags.Bridge

open Poll

variable {b next : Bridge}

/-- A poller that was created is known to the registry and to the bridge. -/
theorem createPoller_eq_ok {poller : PollerConfig} (h : b.createPoller poller = .ok next) :
    next = { b with
      registry := { b.registry with pollers := b.registry.pollers ++ [poller.name] }
      pollers := b.pollers ++ [poller] } := by
  unfold createPoller Registry.addPoller at h
  split at h
  · cases h
  · split at h
    · cases h
    · next hadded =>
      split at hadded
      · cases hadded
      · cases hadded
        cases h
        rfl

/-- The bridge with a registry, a controller and the first sample of a value, published if values
were merged. -/
def withAdded (b : Bridge) (registry : Registry) (plc : Plc) (v : Registered) : Bridge :=
  let next := { b with registry := registry, plc := plc }.keep (firstSample v)
  if registry.optimised then next.publish else next

/-- A value that was registered is added to the registry. -/
theorem added_eq_ok {text : String} {v : Registered} (h : b.register text = .ok (next, v)) :
    ∃ registry plc, b.registry.register b.plc b.config.route text = .ok (registry, plc, v) ∧
      next = b.withAdded registry plc v := by
  obtain ⟨⟨registry, plc, value⟩, hregister, heq⟩ := map_eq_ok_iff.mp h
  obtain ⟨rfl, rfl⟩ := Prod.mk.inj heq
  exact ⟨registry, plc, hregister, rfl⟩

section

variable (b : Bridge) (registry : Registry) (plc : Plc) (v : Registered)

@[simp] theorem registry_withAdded : (b.withAdded registry plc v).registry = registry := by
  unfold withAdded
  split <;> rfl

@[simp] theorem plc_withAdded : (b.withAdded registry plc v).plc = plc := by
  unfold withAdded
  split <;> rfl

@[simp] theorem pollers_withAdded : (b.withAdded registry plc v).pollers = b.pollers := by
  unfold withAdded
  split <;> rfl

@[simp] theorem config_withAdded : (b.withAdded registry plc v).config = b.config := by
  unfold withAdded
  split <;> rfl

@[simp] theorem stopped_withAdded : (b.withAdded registry plc v).stopped = b.stopped := by
  unfold withAdded
  split <;> rfl

end

/-- A poll that succeeds is one of the published values. -/
theorem poll_eq_ok {group : String} {samples : List Sample}
    (h : b.poll group = .ok (next, samples)) : ∃ snapshot spread,
      b.published = some snapshot ∧ b.spreads? group = some spread ∧
        next = (b.pollPublished snapshot group spread).1 ∧
          samples = (b.pollPublished snapshot group spread).2 := by
  unfold poll at h
  split at h
  · cases h
  · cases h
  · next snapshot spread hpublished hspreads =>
    have heq := Except.ok.inj h
    exact ⟨snapshot, spread, hpublished, hspreads, (congrArg Prod.fst heq).symm,
      (congrArg Prod.snd heq).symm⟩

/-! ## Polls -/

/-- What keeping a sample does not change stays when samples are kept. -/
theorem foldl_keep_eq {α : Type} (part : Bridge → α)
    (hpart : ∀ b sample, part (keep b sample) = part b) (samples : List Sample) (b : Bridge) :
    part (samples.foldl keep b) = part b := by
  induction samples generalizing b with
  | nil => rfl
  | cons sample rest ih => exact (ih (b.keep sample)).trans (hpart b sample)

section

variable (b : Bridge) (snapshot : Snapshot) (group : String) (spread : Bool)

theorem plc_pollPublished : (b.pollPublished snapshot group spread).1.plc =
    readAll b.plc (Poll.started (snapshot.group group) (b.pollOptions spread) b.stopped) := by
  unfold pollPublished
  rw [Poll.run_eq_map]
  exact foldl_keep_eq Bridge.plc (fun _ _ => rfl) _ _

@[simp] theorem registry_pollPublished :
    (b.pollPublished snapshot group spread).1.registry = b.registry :=
  foldl_keep_eq Bridge.registry (fun _ _ => rfl) _ _

@[simp] theorem pollers_pollPublished :
    (b.pollPublished snapshot group spread).1.pollers = b.pollers :=
  foldl_keep_eq Bridge.pollers (fun _ _ => rfl) _ _

@[simp] theorem config_pollPublished :
    (b.pollPublished snapshot group spread).1.config = b.config :=
  foldl_keep_eq Bridge.config (fun _ _ => rfl) _ _

@[simp] theorem stopped_pollPublished :
    (b.pollPublished snapshot group spread).1.stopped = b.stopped :=
  foldl_keep_eq Bridge.stopped (fun _ _ => rfl) _ _

/-- The samples of a poll, one for each value of the group unless the bridge is stopped. -/
theorem samples_pollPublished : (b.pollPublished snapshot group spread).2 =
    if b.stopped then [] else (snapshot.group group).map (sampleOf (readAll b.plc
      (Poll.started (snapshot.group group) (b.pollOptions spread) b.stopped))
        (b.pollOptions spread)) := by
  unfold pollPublished
  rw [Poll.run_eq_map]

end

/-! ## Writes -/

/-- A write changes nothing but the controller. -/
theorem part_write {α : Type} (part : Bridge → α)
    (hpart : ∀ (b : Bridge) (plc : Plc), part { b with plc := plc } = part b) (b : Bridge)
    (id : ValueId) (value : Value) : part (b.write id value).1 = part b := by
  unfold write
  split
  · rfl
  · dsimp only
    split
    · exact hpart b _
    · split <;> exact hpart b _

/-! ## Passes and pollers that start -/

/-- A pass publishes its outcome, and leaves the rest of the bridge. -/
theorem merge_eq (b : Bridge) : ∃ registry plc,
    registry = (b.registry.merge b.plc b.config.route b.config.mergeThreshold).1 ∧
    plc = (b.registry.merge b.plc b.config.route b.config.mergeThreshold).2.1 ∧
    b.merge.1 = { b with
      registry := registry
      plc := plc
      published := some registry.snapshot } := by
  unfold merge
  generalize b.registry.merge b.plc b.config.route b.config.mergeThreshold = outcome
  exact ⟨outcome.1, outcome.2.1, rfl, rfl, rfl⟩

/-- **Starting the pollers** is a merge pass if there was none, and then polls. So what passes and
polls keep, whether the pollers run or not, is kept. -/
theorem start_keeps {P : Bridge → Prop} (hrunning : ∀ b, P b → P { b with running := true })
    (hpolled : ∀ b snapshot group spread, P b → P (pollPublished b snapshot group spread).1)
    (hmerged : P b → P b.merge.1) (h : P b) : P b.start := by
  unfold start
  split
  · exact h
  · have hready : P (if b.published.isNone then b.merge.1 else b) := by
      split
      · exact hmerged h
      · exact h
    revert hready
    generalize (if b.published.isNone then b.merge.1 else b) = ready
    intro hready
    dsimp only
    split
    · split
      · exact hrunning ready hready
      · exact List.foldlRecOn _ _ (hpolled _ _ _ _ (hrunning ready hready))
          fun polled hkept poller _ => hpolled polled _ _ _ hkept
    · exact hrunning ready hready

end PlcTags.Bridge

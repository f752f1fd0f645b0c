import PlcTags.Proofs.Bridge.Pollers

/-!
# The roster of pollers

The registry knows the names that descriptors may use, the bridge the pollers themselves. Both are
filled in two ways, by the configuration and one by one, and they agree at any time.

* `Config.validatePollers_eq_ok`: what the pollers of a usable configuration are like.
* `Bridge.Rostered`: the registry and the bridge have the same pollers, each once and usable.
* `Bridge.Reached.rostered`: so it is at any time.
-/

namespace PlcTags

/-- A usable poller has a name that is not blank and not reserved, and a period. -/
theorem PollerConfig.validate_eq_ok_iff {poller : PollerConfig} : poller.validate = .ok () ↔
    (Text.trim poller.name.toList).isEmpty = false ∧ poller.name ≠ initPoller ∧
      poller.rateMs ≠ 0 := by
  unfold validate
  split_ifs with hblank hreserved hrate
  · simp [hblank]
  · simp [hreserved]
  · simp [hrate]
  · simp [hblank, hreserved, hrate]

/-- **The pollers of a usable configuration** are usable, with names of their own. -/
theorem Config.validatePollers_eq_ok {seen : List String} {pollers : List PollerConfig}
    (h : validatePollers seen pollers = .ok ()) :
    (pollers.map PollerConfig.name).Nodup ∧
      ∀ poller ∈ pollers, poller.validate = .ok () ∧ poller.name ∉ seen := by
  induction pollers generalizing seen with
  | nil => exact ⟨List.nodup_nil, nofun⟩
  | cons poller rest ih =>
    unfold validatePollers at h
    split at h
    · cases h
    · next husable =>
      split_ifs at h with hseen
      obtain ⟨hnodup, hrest⟩ := ih h
      refine ⟨List.nodup_cons.mpr ⟨fun hmem => ?_, hnodup⟩, fun other hother => ?_⟩
      · obtain ⟨other, hother, hname⟩ := List.mem_map.mp hmem
        exact (hrest other hother).2 (hname ▸ List.mem_cons_self)
      · rcases List.mem_cons.mp hother with rfl | hother
        · exact ⟨husable, hseen⟩
        · exact ⟨(hrest other hother).1,
            fun hmem => (hrest other hother).2 (List.mem_cons_of_mem _ hmem)⟩

theorem Config.validatePollers_of_validate {config : Config} (h : config.validate = .ok ()) :
    validatePollers [] config.pollers = .ok () := by
  unfold validate at h
  split_ifs at h
  exact h

/-- Pollers with names of their own are added one after the other. -/
theorem Registry.pollers_foldl_addPoller (pollers : List PollerConfig) (r : Registry)
    (h : (r.pollers ++ pollers.map PollerConfig.name).Nodup) :
    (pollers.foldl (fun r poller => (r.addPoller poller.name).1) r).pollers =
      r.pollers ++ pollers.map PollerConfig.name := by
  induction pollers generalizing r with
  | nil => exact (List.append_nil _).symm
  | cons poller rest ih =>
    rw [List.map_cons, ← List.singleton_append, ← List.append_assoc] at h
    have hnew : poller.name ∉ r.pollers := fun hmem =>
      List.disjoint_of_nodup_append (List.Nodup.of_append_left h) hmem List.mem_cons_self
    have hadded : (r.addPoller poller.name).1.pollers = r.pollers ++ [poller.name] := by
      unfold addPoller
      rw [if_neg (by simpa using hnew)]
    rw [List.foldl_cons, ih _ (hadded ▸ h), hadded, List.append_assoc]
    rfl

namespace Bridge

/-- **The registry and the bridge have the same pollers**, each once and all usable. -/
structure Rostered (b : Bridge) : Prop where
  names : b.registry.pollers = b.pollers.map PollerConfig.name
  nodup : (b.pollers.map PollerConfig.name).Nodup
  usable : ∀ poller ∈ b.pollers, poller.validate = .ok ()

variable {b next : Bridge} {merged : Bool}

/-- A poller that was created is usable, with a name of its own. -/
theorem usable_of_createPoller {poller : PollerConfig} (h : b.createPoller poller = .ok next) :
    poller.validate = .ok () ∧ poller.name ∉ b.registry.pollers := by
  unfold createPoller at h
  split at h
  · cases h
  · next husable =>
    refine ⟨husable, fun hmem => ?_⟩
    rw [Registry.addPoller, if_pos (by simpa using hmem)] at h
    cases h

theorem rostered_ofConfig {ids : ValueId.Supply} {config : Config} {plc : Plc}
    (h : ofConfig ids config plc = .ok b) : b.Rostered := by
  obtain ⟨⟨⟩, hvalid, rfl⟩ := map_eq_ok_iff.mp h
  obtain ⟨hnodup, husable⟩ :=
    Config.validatePollers_eq_ok (Config.validatePollers_of_validate hvalid)
  exact ⟨Registry.pollers_foldl_addPoller config.pollers { ids := ids } hnodup, hnodup,
    fun poller hpoller => (husable poller hpoller).1⟩

theorem Rostered.createPoller (h : b.Rostered) {poller : PollerConfig}
    (hadded : b.createPoller poller = .ok next) : next.Rostered := by
  obtain ⟨husable, hnew⟩ := usable_of_createPoller hadded
  rw [createPoller_eq_ok hadded]
  refine ⟨?_, ?_, fun other hother => ?_⟩
  · rw [List.map_append, ← h.names]
    rfl
  · rw [List.map_append, List.nodup_append']
    refine ⟨h.nodup, List.nodup_singleton _, fun name hname hsame => hnew ?_⟩
    rw [h.names, ← List.mem_singleton.mp hsame]
    exact hname
  · rcases List.mem_append.mp hother with hother | hother
    · exact h.usable other hother
    · exact List.mem_singleton.mp hother ▸ husable

theorem Rostered.of_same (h : b.Rostered) (hsame : next.SameScope b) : next.Rostered :=
  ⟨by rw [hsame.names, hsame.pollers, h.names], hsame.pollers ▸ h.nodup, hsame.pollers ▸ h.usable⟩

/-- Values are registered and merged without regard to the roster. -/
theorem Rostered.register (h : b.Rostered) {text : String} {v : Registered}
    (hadded : b.register text = .ok (next, v)) : next.Rostered := by
  obtain ⟨registry, plc, hregister, rfl⟩ := added_eq_ok hadded
  obtain ⟨_, _, -, -, -, rfl⟩ := register_eq_ok hregister
  refine ⟨?_, ?_, ?_⟩ <;> rw [pollers_withAdded]
  · rw [registry_withAdded]
    exact h.names
  · exact h.nodup
  · exact h.usable

theorem Rostered.merge (h : b.Rostered) : b.merge.1.Rostered := by
  obtain ⟨registry, plc, hregistry, -, hmerge⟩ := b.merge_eq
  have hnames : registry.pollers = b.registry.pollers := by
    rw [hregistry]
    rfl
  rw [hmerge]
  exact ⟨hnames.trans h.names, h.nodup, h.usable⟩

/-- **The roster is right at any time.** -/
theorem Reached.rostered (h : Reached merged b) : b.Rostered :=
  h.keeps rostered_ofConfig Rostered.of_same (fun hb hadded => hb.createPoller hadded)
    (fun hb hadded => hb.register hadded) fun hb _ => hb.merge

end Bridge

end PlcTags

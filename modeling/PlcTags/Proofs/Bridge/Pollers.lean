import PlcTags.Proofs.Bridge.Writes
import PlcTags.Proofs.Descriptor.Reading

/-!
# The pollers of values

A descriptor names a poller that is known when it is read, or none (`Descriptor.poller_of_parse`).
The bridge never forgets a poller, so the group of every registered value can be polled at any time.

* `Bridge.Reached.keeps`: how to prove what depends on the values and the pollers only.
* `Bridge.groups`: the groups that can be polled.
* `Bridge.Staffed`: the pollers of all values are known to the bridge.
* `Bridge.Reached.staffed`: they are at any time.
-/

namespace PlcTags

namespace Bridge

/-- The values and the pollers are the same. -/
structure SameScope (next b : Bridge) : Prop where
  values : next.registry.values = b.registry.values
  names : next.registry.pollers = b.registry.pollers
  pollers : next.pollers = b.pollers

theorem sameScope_pollPublished (b : Bridge) (snapshot : Snapshot) (group : String)
    (spread : Bool) : SameScope (b.pollPublished snapshot group spread).1 b :=
  ⟨by rw [registry_pollPublished], by rw [registry_pollPublished], pollers_pollPublished _ _ _ _⟩

/-- **What depends on the values and the pollers only** holds at any time if it holds at first, and
when a poller is created, a value is registered, and values are merged. -/
theorem Reached.keeps {P : Bridge → Prop} {merged : Bool} {b : Bridge}
    (hstart : ∀ {ids config plc b}, Bridge.ofConfig ids config plc = .ok b → P b)
    (hsame : ∀ {b next : Bridge}, P b → next.SameScope b → P next)
    (hcreate : ∀ {b next poller}, P b → b.createPoller poller = .ok next → P next)
    (hregister : ∀ {b next : Bridge} {text v}, P b → b.register text = .ok (next, v) → P next)
    (hmerge : ∀ {b : Bridge} {merged}, P b → b.Sound merged → P b.merge.1)
    (h : Reached merged b) : P b := by
  induction h with
  | ofConfig h => exact hstart h
  | outside memory refused _ ih => exact hsame ih ⟨rfl, rfl, rfl⟩
  | loadStructs defs _ ih => exact hsame ih ⟨rfl, rfl, rfl⟩
  | createPoller _ hadded ih => exact hcreate ih hadded
  | register _ hadded ih => exact hregister ih hadded
  | merge h ih => exact hmerge ih h.sound
  | poll _ hpolled ih =>
    obtain ⟨snapshot, spread, -, -, rfl, -⟩ := poll_eq_ok hpolled
    exact hsame ih (sameScope_pollPublished _ _ _ _)
  | @write _ b id value _ ih =>
    have hpollers := part_write Bridge.pollers (fun _ _ => rfl) b id value
    have hregistry := (continues_write b id value).registry
    exact hsame ih ⟨by rw [hregistry], by rw [hregistry], hpollers⟩
  | start _ h ih =>
    exact start_keeps (fun b hb => hsame hb ⟨rfl, rfl, rfl⟩)
      (fun b snapshot group spread hb => hsame hb (sameScope_pollPublished b snapshot group spread))
      (fun hb => hmerge hb h.sound) ih
  | stop _ ih => exact hsame ih ⟨rfl, rfl, rfl⟩

/-- Is a poller of some name known to the bridge? -/
def Knows (b : Bridge) (name : String) : Prop :=
  ∃ poller ∈ b.pollers, poller.name = name

/-- The groups that can be polled: that of the values without a poller, and one for each poller. -/
def groups (b : Bridge) : List String :=
  initPoller :: b.pollers.map PollerConfig.name

/-- **The pollers of all values are known**, and so are those that descriptors may name. -/
structure Staffed (b : Bridge) : Prop where
  names : ∀ name ∈ b.registry.pollers, b.Knows name
  values : ∀ v ∈ b.registry.values, v.poller = initPoller ∨ b.Knows v.poller

variable {b next : Bridge} {merged : Bool} {v : Registered}

/-- The group of a registered value can be polled. -/
theorem Staffed.mem_groups (h : b.Staffed) (hv : v ∈ b.registry.values) :
    v.poller ∈ b.groups := by
  rcases h.values v hv with hinit | ⟨poller, hpoller, hname⟩
  · exact hinit ▸ List.mem_cons_self
  · exact List.mem_cons_of_mem _ (hname ▸ List.mem_map_of_mem hpoller)

theorem exists_spreads_of_mem {group : String} (h : group ∈ b.groups) :
    ∃ spread, b.spreads? group = some spread := by
  unfold spreads?
  split
  · exact ⟨false, rfl⟩
  · next hinit =>
    obtain ⟨poller, hpoller, hname⟩ := List.mem_map.mp ((List.mem_cons.mp h).resolve_left hinit)
    obtain ⟨found, hfound⟩ := Option.isSome_iff_exists.mp
      (List.find?_isSome (p := fun poller => poller.name == group) |>.mpr
        ⟨poller, hpoller, beq_iff_eq.mpr hname⟩)
    exact ⟨found.spread, by rw [hfound]; rfl⟩

theorem mem_pollers_addPoller {r : Registry} {name other : String}
    (h : other ∈ (r.addPoller name).1.pollers) : other ∈ r.pollers ∨ other = name := by
  unfold Registry.addPoller at h
  split at h
  · exact Or.inl h
  · exact (List.mem_append.mp h).imp_right List.mem_singleton.mp

theorem mem_pollers_foldl_addPoller {configs : List PollerConfig} {r : Registry} {name : String}
    (h : name ∈ (configs.foldl (fun r poller => (r.addPoller poller.name).1) r).pollers) :
    name ∈ r.pollers ∨ ∃ poller ∈ configs, poller.name = name := by
  induction configs generalizing r with
  | nil => exact Or.inl h
  | cons config rest ih =>
    rcases ih h with hbefore | ⟨poller, hpoller, heq⟩
    · rcases mem_pollers_addPoller hbefore with hbefore | rfl
      · exact Or.inl hbefore
      · exact Or.inr ⟨config, List.mem_cons_self, rfl⟩
    · exact Or.inr ⟨poller, List.mem_cons_of_mem _ hpoller, heq⟩

/-- The pollers of a configuration are known. -/
theorem staffed_ofConfig {ids : ValueId.Supply} {config : Config} {plc : Plc}
    (h : ofConfig ids config plc = .ok b) : b.Staffed := by
  have hvalues : b.registry.values = [] := by
    obtain ⟨pollers, rfl⟩ := exists_ofConfig h
    rfl
  obtain ⟨_, -, rfl⟩ := map_eq_ok_iff.mp h
  refine ⟨fun name hname => (mem_pollers_foldl_addPoller hname).resolve_left nofun, fun v hv => ?_⟩
  rw [hvalues] at hv
  cases hv

/-- One more poller is known to the registry and to the bridge. -/
theorem Staffed.createPoller (h : b.Staffed) {poller : PollerConfig}
    (hadded : b.createPoller poller = .ok next) : next.Staffed := by
  rw [createPoller_eq_ok hadded]
  have hknows : ∀ name, b.Knows name →
      ∃ known ∈ b.pollers ++ [poller], known.name = name :=
    fun name ⟨known, hknown, hname⟩ => ⟨known, List.mem_append_left _ hknown, hname⟩
  refine ⟨fun name hname => ?_, fun v hv => (h.values v hv).imp_right (hknows v.poller)⟩
  rcases List.mem_append.mp hname with hname | hname
  · exact hknows name (h.names name hname)
  · exact ⟨poller, List.mem_append_right _ List.mem_cons_self, (List.mem_singleton.mp hname).symm⟩

theorem Staffed.of_same (h : b.Staffed) (hsame : next.SameScope b) : next.Staffed := by
  constructor <;> unfold Knows
  · rw [hsame.names, hsame.pollers]
    exact h.names
  · rw [hsame.values, hsame.pollers]
    exact h.values

/-- A value that is registered names a known poller, or none. -/
theorem Staffed.register (h : b.Staffed) {text : String}
    (hadded : b.register text = .ok (next, v)) : next.Staffed := by
  obtain ⟨registry, plc, hregister, rfl⟩ := added_eq_ok hadded
  obtain ⟨d, outcome, hparse, -, rfl, rfl⟩ := register_eq_ok hregister
  have hmore : Staffed { b with
      registry := b.registry.append (b.registry.newValue b.config.route d outcome) } := by
    refine ⟨h.names, fun u hu => ?_⟩
    rcases List.mem_append.mp hu with hu | hu
    · exact h.values u hu
    · rw [List.mem_singleton] at hu
      subst hu
      show d.pollerName = _ ∨ b.Knows d.pollerName
      unfold Descriptor.pollerName
      cases hpoller : d.poller with
      | none => exact Or.inl rfl
      | some name => exact Or.inr (h.names name (Descriptor.poller_of_parse hparse hpoller))
  exact hmore.of_same ⟨by rw [registry_withAdded], by rw [registry_withAdded],
    pollers_withAdded _ _ _ _⟩

/-- A pass keeps the pollers of the values. -/
theorem Staffed.merge (h : b.Staffed) (hsound : b.Sound merged) : b.merge.1.Staffed := by
  obtain ⟨parsed, passes, hreached⟩ := hsound.registry
  have hsurvives := hreached.sound.survives_merge b.plc b.config.mergeThreshold
  obtain ⟨registry, plc, hregistry, -, hmerge⟩ := b.merge_eq
  have hpollers : registry.pollers = b.registry.pollers := by
    rw [hregistry]
    rfl
  rw [← hregistry] at hsurvives
  rw [hmerge]
  refine ⟨fun name hname => h.names name (hpollers ▸ hname), fun w hw => ?_⟩
  obtain ⟨v, hv, hkept⟩ := exists_of_mem_forall₂ hsurvives hw
  have hpoller : w.poller = v.poller := by
    unfold Registered.poller
    rw [hkept.descriptor]
    rfl
  rw [hpoller]
  exact h.values v hv

/-- **The pollers of all values are known at any time.** -/
theorem Reached.staffed (h : Reached merged b) : b.Staffed :=
  h.keeps staffed_ofConfig Staffed.of_same (fun hb hadded => hb.createPoller hadded)
    (fun hb hadded => hb.register hadded) Staffed.merge

end Bridge

end PlcTags

import Mathlib.Data.List.Nodup
import PlcTags.Proofs.Bridge.Roster
import PlcTags.Proofs.Bridge.Sessions

/-!
# No value is lost from polling

Once a merge pass has run, pollers see what is registered, whatever is asked of the bridge
afterwards: every value once, as it is now, in the group of its own poller. So if all groups are
polled once, in any order, each registered value has exactly one sample.

* `Bridge.roll`: the registered values in order, with their pollers; `Bridge.entered`: what a
  request adds to them.
* `Bridge.serve_cases`: what a request can do; `Bridge.Sound.roll_serve`, `Bridge.stopped_serve`:
  what becomes of the roll and of the pollers.
* `Bridge.pollEach`: polls of groups, one after the other.
* `values_polled`: no value is lost in a session.
-/

namespace PlcTags

namespace Bridge

/-! ## What a session enters -/

/-- **The roll**: the registered values in their order, each with the poller that reads it. -/
def roll (b : Bridge) : List (ValueId × String) :=
  b.registry.values.map fun v => (v.id, v.poller)

/-- What a request adds to the roll: the value of a registration that succeeds. -/
def entered (b : Bridge) : Request → List (ValueId × String)
  | .register text => match b.register text with
    | .ok (_, v) => [(v.id, v.poller)]
    | .error _ => []
  | _ => []

/-- What the requests of a session add to the roll. -/
def enteredBy (b : Bridge) : List Request → List (ValueId × String)
  | [] => []
  | request :: rest => b.entered request ++ (b.serve request).enteredBy rest

variable {b next : Bridge} {merged : Bool}

/-- A session goes on on bridges that are reached. -/
theorem Reached.serve (h : Reached true b) (request : Request) :
    Reached true (b.serve request) := by
  obtain ⟨after, hafter, hmerged⟩ := h.exists_serve request
  exact hmerged rfl ▸ hafter

/-- **What a request can do**: enter a value, run a pass, stop the bridge, or leave the values as
they are. -/
theorem serve_cases (b : Bridge) (request : Request) :
    (∃ text registry plc v, request = .register text ∧
      b.register text = .ok (b.withAdded registry plc v, v) ∧
      registry.values = b.registry.values ++ [v]) ∨
    request = .merge ∨ request = .stop ∨
    ((b.serve request).registry.values = b.registry.values ∧
      (b.serve request).stopped = b.stopped ∧ b.entered request = [] ∧ .stop ≠ request) := by
  have hstay : ∀ {ε : Type} (outcome : Except ε Bridge),
      (∀ next, outcome = .ok next →
        next.registry.values = b.registry.values ∧ next.stopped = b.stopped) →
      (b.orStay outcome).registry.values = b.registry.values ∧
        (b.orStay outcome).stopped = b.stopped := fun _ hok =>
    orStay_keeps (P := fun next => next.registry.values = b.registry.values ∧
      next.stopped = b.stopped) ⟨rfl, rfl⟩ hok
  cases request with
  | register text =>
    cases hadded : b.register text with
    | ok added =>
      obtain ⟨next, v⟩ := added
      obtain ⟨registry, plc, hregister, rfl⟩ := added_eq_ok hadded
      obtain ⟨_, _, -, -, -, hregistry⟩ := register_eq_ok hregister
      exact Or.inl ⟨text, registry, plc, v, rfl, hadded,
        by rw [hregistry, Registry.values_append]⟩
    | error cause =>
      have hserve : b.serve (.register text) = b := by
        show b.orStay ((b.register text).map Prod.fst) = b
        rw [hadded]
        rfl
      have hentered : b.entered (.register text) = [] := by
        unfold entered
        dsimp only
        rw [hadded]
      rw [hserve]
      exact Or.inr (Or.inr (Or.inr ⟨rfl, rfl, hentered, nofun⟩))
  | merge => exact Or.inr (Or.inl rfl)
  | stop => exact Or.inr (Or.inr (Or.inl rfl))
  | outside | loadStructs => exact Or.inr (Or.inr (Or.inr ⟨rfl, rfl, rfl, nofun⟩))
  | createPoller poller =>
    have hkept := hstay (b.createPoller poller) fun next hadded => by
      rw [createPoller_eq_ok hadded]
      exact ⟨rfl, rfl⟩
    exact Or.inr (Or.inr (Or.inr ⟨hkept.1, hkept.2, rfl, nofun⟩))
  | poll group =>
    have hkept := hstay ((b.poll group).map Prod.fst) fun next hnext => by
      obtain ⟨⟨_, samples⟩, hpolled, rfl⟩ := map_eq_ok_iff.mp hnext
      obtain ⟨snapshot, spread, -, -, rfl, -⟩ := poll_eq_ok hpolled
      exact ⟨by rw [registry_pollPublished], stopped_pollPublished _ _ _ _⟩
    exact Or.inr (Or.inr (Or.inr ⟨hkept.1, hkept.2, rfl, nofun⟩))
  | write id value =>
    exact Or.inr (Or.inr (Or.inr
      ⟨part_write (fun b => b.registry.values) (fun _ _ => rfl) b id value,
        part_write Bridge.stopped (fun _ _ => rfl) b id value, rfl, nofun⟩))

/-- A registration that succeeds gives the bridge with the new value. -/
theorem serve_register {text : String} {v : Registered} (h : b.register text = .ok (next, v)) :
    b.serve (.register text) = next ∧ b.entered (.register text) = [(v.id, v.poller)] := by
  constructor
  · show b.orStay ((b.register text).map Prod.fst) = next
    rw [h]
    rfl
  · unfold entered
    dsimp only
    rw [h]

/-- A merge pass keeps the roll. -/
theorem Sound.roll_merge (h : b.Sound merged) : b.merge.1.roll = b.roll := by
  obtain ⟨parsed, passes, hreached⟩ := h.registry
  have hsurvives := hreached.sound.survives_merge b.plc b.config.mergeThreshold
  obtain ⟨registry, plc, hregistry, -, hmerge⟩ := b.merge_eq
  rw [← hregistry] at hsurvives
  rw [hmerge]
  show registry.values.map _ = b.registry.values.map _
  generalize b.registry.values = before at hsurvives ⊢
  generalize registry.values = after at hsurvives ⊢
  induction hsurvives with
  | nil => rfl
  | @cons v w _ _ hkept _ ih =>
    have hpoller : w.poller = v.poller := by
      unfold Registered.poller
      rw [hkept.descriptor]
      rfl
    rw [List.map_cons, List.map_cons, ih, hkept.id, hpoller]

/-- **One request adds to the roll what it registers**, at the end, and nothing is taken off it. -/
theorem Sound.roll_serve (h : b.Sound merged) (request : Request) :
    (b.serve request).roll = b.roll ++ b.entered request := by
  rcases b.serve_cases request with
    ⟨text, registry, plc, v, rfl, hadded, hvalues⟩ | rfl | rfl | ⟨hvalues, -, hentered, -⟩
  · obtain ⟨hserve, hentered⟩ := serve_register hadded
    rw [hserve, hentered, roll, registry_withAdded, hvalues, List.map_append]
    rfl
  · exact h.roll_merge.trans (List.append_nil _).symm
  · exact (List.append_nil _).symm
  · rw [hentered, List.append_nil, roll, hvalues]
    rfl

/-- Only one request stops a bridge. -/
theorem stopped_serve (b : Bridge) (request : Request) :
    (b.serve request).stopped = true ↔ b.stopped = true ∨ .stop = request := by
  rcases b.serve_cases request with
    ⟨text, registry, plc, v, rfl, hadded, -⟩ | rfl | rfl | ⟨-, hstopped, -, hother⟩
  · rw [(serve_register hadded).1, stopped_withAdded]
    simp
  · obtain ⟨registry, plc, -, -, hmerge⟩ := b.merge_eq
    rw [Bridge.serve, hmerge]
    simp
  · exact iff_of_true rfl (Or.inr rfl)
  · rw [hstopped, or_iff_left hother]

/-! ## Polls of all groups -/

/-- Polls groups, one after the other, and gives the samples of each. -/
def pollEach (b : Bridge) : List String → Except BridgeError (Bridge × List (List Sample))
  | [] => .ok (b, [])
  | group :: rest =>
    match b.poll group with
    | .error cause => .error cause
    | .ok (next, samples) =>
      (next.pollEach rest).map fun polled => (polled.1, samples :: polled.2)

theorem Rostered.nodup_groups (h : b.Rostered) : b.groups.Nodup := by
  refine List.nodup_cons.mpr ⟨fun hmem => ?_, h.nodup⟩
  obtain ⟨poller, hpoller, hname⟩ := List.mem_map.mp hmem
  exact (PollerConfig.validate_eq_ok_iff.mp (h.usable poller hpoller)).2.1 hname

/-- **One poll** gives a sample of every value of the group, in order. -/
theorem Reached.exists_poll (h : Reached true b) (hrunning : b.stopped = false) {group : String}
    (hgroup : group ∈ b.groups) : ∃ next samples, b.poll group = .ok (next, samples) ∧
      samples.map Sample.id = (b.registry.snapshot.group group).map Registered.id ∧
      next.registry = b.registry ∧ next.pollers = b.pollers ∧ next.stopped = b.stopped := by
  obtain ⟨spread, hspread⟩ := exists_spreads_of_mem hgroup
  have hpoll : b.poll group = .ok (b.pollPublished b.registry.snapshot group spread) := by
    unfold Bridge.poll
    rw [(h.sound.published rfl).1, hspread]
  refine ⟨(b.pollPublished b.registry.snapshot group spread).1,
    (b.pollPublished b.registry.snapshot group spread).2, hpoll, ?_, registry_pollPublished _ _ _ _,
    pollers_pollPublished _ _ _ _, stopped_pollPublished _ _ _ _⟩
  have hsamples := b.samples_pollPublished b.registry.snapshot group spread
  rw [if_neg (by rw [hrunning]; exact Bool.false_ne_true)] at hsamples
  rw [hsamples, List.map_map]
  exact List.map_congr_left fun v _ => Poll.id_sampleOf _ _ v

/-- **Polls of groups, one after the other**, all succeed, each with a sample of every value of its
group. -/
theorem Reached.exists_pollEach (h : Reached true b) (hrunning : b.stopped = false)
    {order : List String} (horder : ∀ group ∈ order, group ∈ b.groups) :
    ∃ last results, b.pollEach order = .ok (last, results) ∧
      results.map (List.map Sample.id) =
        order.map fun group => (b.registry.snapshot.group group).map Registered.id := by
  induction order generalizing b with
  | nil => exact ⟨b, [], rfl, rfl⟩
  | cons group rest ih =>
    obtain ⟨next, samples, hpoll, hids, hregistry, hpollers, hstopped⟩ :=
      h.exists_poll hrunning (horder group List.mem_cons_self)
    have hgroups : next.groups = b.groups := by
      unfold groups
      rw [hpollers]
    obtain ⟨last, results, hrest, hresults⟩ := ih (h.poll hpoll) (hstopped.trans hrunning)
      fun other hother => hgroups ▸ horder other (List.mem_cons_of_mem _ hother)
    refine ⟨last, samples :: results, ?_, ?_⟩
    · rw [pollEach, hpoll]
      exact congrArg (Except.map _) hrest
    · rw [List.map_cons, List.map_cons, hids, hresults, hregistry]

end Bridge

/-! ## Sessions -/

/-- **No value is lost from polling**: what pollers see after a session of a bridge, and what polls
of all groups give. -/
structure KeepsPolled (b : Bridge) (requests : List Bridge.Request) (after : Bridge) : Prop where
  /-- The values that were registered before the session and those that are registered in it are on
  the roll, in the order of registration, each with its own poller, -/
  roll : after.roll = b.roll ++ b.enteredBy requests
  /-- and no other value has the identifier of one of them. -/
  distinct : (after.registry.values.map Registered.id).Nodup
  /-- Every group that is published holds the values of its poller, as they are now. -/
  published : ∃ snapshot, after.published = some snapshot ∧ ∀ group,
    snapshot.group group = after.registry.values.filter fun v =>
      v.descriptor.poller.getD initPoller = group
  /-- The bridge is stopped only if it was so before or is so in the session. -/
  stopped : after.stopped = true ↔ b.stopped = true ∨ .stop ∈ requests
  /-- As long as it is not, polls of all groups in any order succeed. A poll gives the values of its
  group in order, and together the polls give every registered value once. -/
  polled : after.stopped = false → ∀ order, order.Perm after.groups → ∃ last results,
    after.pollEach order = .ok (last, results) ∧
    results.map (List.map Sample.id) = order.map (fun group =>
      (after.registry.values.filter fun v =>
        v.descriptor.poller.getD initPoller = group).map Registered.id) ∧
    (results.flatten.map Sample.id).Perm (after.registry.values.map Registered.id)

theorem Bridge.Reached.foldl_serve {b : Bridge} (h : Bridge.Reached true b)
    (requests : List Bridge.Request) : Bridge.Reached true (requests.foldl Bridge.serve b) :=
  List.foldlRecOn requests _ h fun _ h request _ => h.serve request

/-- Induction on the requests: each adds to the roll what it registers. -/
theorem Bridge.Reached.roll_foldl {b : Bridge} (h : Bridge.Reached true b)
    (requests : List Bridge.Request) :
    (requests.foldl Bridge.serve b).roll = b.roll ++ b.enteredBy requests := by
  induction requests generalizing b with
  | nil => exact (List.append_nil _).symm
  | cons request rest ih =>
    rw [List.foldl_cons, ih (h.serve request), h.sound.roll_serve, List.append_assoc]
    rfl

theorem Bridge.stopped_foldl (requests : List Bridge.Request) (b : Bridge) :
    (requests.foldl Bridge.serve b).stopped = true ↔ b.stopped = true ∨ .stop ∈ requests := by
  induction requests generalizing b with
  | nil => simp
  | cons request rest ih =>
    rw [List.foldl_cons, ih, Bridge.stopped_serve, List.mem_cons, or_assoc]

/-- **No registered value is lost from polling**, whatever is asked of a bridge that has gone
through a merge pass, and whatever fails. -/
theorem values_polled {b : Bridge} (h : Bridge.Reached true b) (requests : List Bridge.Request) :
    KeepsPolled b requests (requests.foldl Bridge.serve b) := by
  have hafter := h.foldl_serve requests
  have hroll := h.roll_foldl requests
  have hstopped := Bridge.stopped_foldl requests b
  generalize requests.foldl Bridge.serve b = after at hafter hroll hstopped ⊢
  obtain ⟨parsed, passes, hreached⟩ := hafter.sound.registry
  have hids := hreached.sound.ids_nodup
  have hgroup : ∀ group, after.registry.snapshot.group group = after.registry.values.filter
      fun v => v.descriptor.poller.getD initPoller = group := fun group =>
    List.filter_congr fun v _ => beq_eq_decide v.poller group
  constructor
  case roll => exact hroll
  case distinct => exact hids
  case published => exact ⟨_, (hafter.sound.published rfl).1, hgroup⟩
  case stopped => exact hstopped
  case polled =>
    intro hrunning order horder
    obtain ⟨last, results, hpolls, hresults⟩ :=
      hafter.exists_pollEach hrunning fun group hmem => horder.mem_iff.mp hmem
    refine ⟨last, results, hpolls, ?_, ?_⟩
    · simp only [hresults, hgroup]
    · have hparts : results.flatten.map Sample.id = (order.flatMap fun group =>
          after.registry.values.filter fun v => v.poller == group).map Registered.id := by
        rw [List.map_flatten, hresults, List.map_flatMap]
        rfl
      rw [hparts]
      have hall : ∀ v ∈ after.registry.values, v.poller ∈ order := fun v hv =>
        horder.mem_iff.mpr (hafter.staffed.mem_groups hv)
      exact (perm_flatMap_filter (horder.nodup_iff.mpr hafter.rostered.nodup_groups)
        (List.Nodup.of_map _ hids) hall).map _

/-- A session with a pump that is merged already: a poller is created, a value of it is registered,
another registration is refused, and values are written, merged and polled in between. -/
def laterRequests : List Bridge.Request :=
  [.createPoller ⟨"fast", 100, false⟩, .register "@fast Alarm BOOL none none none",
    .register "@slow Alarm BOOL none none none", .merge, .poll "fast",
    .write ⟨3⟩ (.number ⟨.integer true .two, 300⟩)]

/-- The pump keeps its values, and has one more. -/
theorem values_polled_pump :
    (laterRequests.foldl Bridge.serve pumpBridge).roll = [(⟨1⟩, initPoller), (⟨2⟩, initPoller),
        (⟨3⟩, initPoller), (⟨4⟩, "fast")] ∧
      KeepsPolled pumpBridge laterRequests (laterRequests.foldl Bridge.serve pumpBridge) :=
  ⟨by decide +kernel, values_polled reached_pumpBridge laterRequests⟩

end PlcTags

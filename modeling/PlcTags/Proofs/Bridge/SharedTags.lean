import PlcTags.Proofs.Bridge.Complete
import PlcTags.Proofs.Plan.Groups

/-!
# Values that share a tag

A registration is all or nothing: a text that is refused changes nothing, and one that is accepted
adds one value behind the others. A tag is created for it only if no value holds one of its creation
text. So before the first pass the tags of the values are told apart by their creation texts, and as
many were created as there are texts for which one could be.

* `Bridge.AllOrNothing`: what comes of a registration, on any bridge.
* `Registry.SingleTags`: one tag for each creation text. Registering keeps it
  (`Registry.SingleTags.register`), and so does all else but a pass.
* `Bridge.SharesByConnection`: which values share a tag, and how many tags there are.
* `session_sharesTags`: the main statement.
-/

namespace PlcTags

open Registry Poll

/-! ## One registration -/

namespace Bridge

variable {b next : Bridge} {text : String} {v : Registered}

/-- **A registration is all or nothing.** -/
structure AllOrNothing (b : Bridge) (text : String) : Prop where
  /-- A text is refused because it is no descriptor, and nothing changes. -/
  refused : ∀ cause, b.register text = .error cause →
    Descriptor.parse b.registry.scope text = .error cause ∧ b.serve (.register text) = b
  /-- Otherwise the value of the descriptor is added behind the others, which stay as they are. -/
  added : ∀ next v, b.register text = .ok (next, v) → b.serve (.register text) = next ∧
    next.registry = b.registry.append v ∧
    Descriptor.parse b.registry.scope text = .ok v.descriptor ∧
    v.connection = v.descriptor.connection b.config.route
  /-- If a value holds a tag of the creation text, then the new one shares a tag of that text, and
  the controller is left alone. -/
  shared : ∀ next v, b.register text = .ok (next, v) →
    ∀ u ∈ b.registry.values, ∀ ref, u.tag = some ref → ref.connection = v.connection →
      next.plc = b.plc ∧ ∃ w ∈ b.registry.values, ∃ held, w.tag = some held ∧
        held.connection = v.connection ∧ v.tag = some held
  /-- If no value does, then the new one has the tag that is created for it, or none if that
  fails, which changes nothing on the controller. -/
  created : ∀ next v, b.register text = .ok (next, v) →
    (∀ u ∈ b.registry.values, ∀ ref, u.tag = some ref → ref.connection ≠ v.connection) →
      (∃ ref, b.plc.create v.connection = (next.plc, .ok ref) ∧ v.tag = some ref) ∨
      ∃ cause, b.plc.create v.connection = (next.plc, .error cause) ∧ v.tag = none ∧
        v.creationError = some cause ∧ next.plc = b.plc

/-- What a registration that succeeds has made of the bridge. -/
theorem register_spec (h : b.register text = .ok (next, v)) :
    next.registry = b.registry.append v ∧
      ∃ d outcome, Descriptor.parse b.registry.scope text = .ok d ∧
        v = b.registry.newValue b.config.route d outcome ∧
        obtainTag b.registry.values b.plc v.connection = (next.plc, outcome) := by
  obtain ⟨registry, plc, hregister, rfl⟩ := added_eq_ok h
  obtain ⟨d, outcome, hparse, hobtain, rfl, rfl⟩ := register_eq_ok hregister
  rw [registry_withAdded, plc_withAdded]
  exact ⟨rfl, d, outcome, hparse, rfl, hobtain⟩

theorem allOrNothing (b : Bridge) (text : String) : b.AllOrNothing text := by
  constructor
  case refused =>
    intro cause h
    refine ⟨?_, ?_⟩
    · unfold register Registry.register at h
      rwa [map_eq_error_iff, map_eq_error_iff] at h
    · show b.orStay ((b.register text).map Prod.fst) = b
      rw [h]
      rfl
  case added =>
    intro next v h
    obtain ⟨hregistry, d, outcome, hparse, hv, -⟩ := register_spec h
    refine ⟨(serve_register h).1, hregistry, ?_, ?_⟩ <;> rw [hv]
    · exact hparse
    · rfl
  case shared =>
    intro next v h u hu ref htag hconnection
    obtain ⟨-, d, outcome, -, hv, hobtain⟩ := register_spec h
    obtain ⟨hplc, held, rfl, hheld, w, hw, hwtag⟩ | ⟨hnew, -⟩ := obtainTag_cases hobtain
    · exact ⟨hplc, w, hw, held, hwtag, hheld, by rw [hv]; rfl⟩
    · exact absurd hconnection (hnew u hu ref htag)
  case created =>
    intro next v h hnew
    obtain ⟨-, d, outcome, -, hv, hobtain⟩ := register_spec h
    obtain ⟨-, held, -, hheld, w, hw, hwtag⟩ | ⟨-, hcreate⟩ := obtainTag_cases hobtain
    · exact absurd hheld (hnew w hw held hwtag)
    · cases outcome with
      | ok ref => exact .inl ⟨ref, hcreate, by rw [hv]; rfl⟩
      | error cause =>
        exact .inr ⟨cause, hcreate, by rw [hv]; rfl, by rw [hv]; rfl, Plc.create_eq_error hcreate⟩

end Bridge

/-! ## One tag for each creation text -/

namespace Registry

/-- **Each creation text has one tag**, and each tag one creation text, that of the values that hold
it. -/
structure SingleTags (values : List Registered) : Prop where
  own : ∀ v ∈ values, ∀ ref, v.tag = some ref → ref.connection = v.connection
  tagged : ∀ v ∈ values, v.tag.isSome = true ↔ v.creationError = none
  single : ∀ ref ∈ values.filterMap Registered.tag, ∀ other ∈ values.filterMap Registered.tag,
    ref.handle = other.handle ↔ ref.connection = other.connection

/-- The creation texts of the values that have a tag. -/
def connected (values : List Registered) : List String :=
  (values.filter fun v => v.tag.isSome).map Registered.connection

theorem handles_eq_map (values : List Registered) :
    handles values = (values.filterMap Registered.tag).map TagRef.handle := by
  rw [List.map_filterMap]
  rfl

namespace SingleTags

variable {values : List Registered} {r next : Registry} {plc after : Plc} {route text : String}
  {v : Registered}

theorem nil : SingleTags [] where
  own _ hv := absurd hv List.not_mem_nil
  tagged _ hv := absurd hv List.not_mem_nil
  single _ href := absurd href List.not_mem_nil

/-- A bridge begins without values. -/
theorem ofConfig {ids : ValueId.Supply} {config : Config} {b : Bridge}
    (h : Bridge.ofConfig ids config plc = .ok b) : SingleTags b.registry.values := by
  obtain ⟨pollers, rfl⟩ := Bridge.exists_ofConfig h
  exact .nil

/-- A tag that is created is told from all others by its handle and by its creation text. -/
theorem handle_eq_new_iff {connection : String} (haccounts : Accounts plc values)
    (hnew : ∀ v ∈ values, ∀ ref, v.tag = some ref → ref.connection ≠ connection) :
    ∀ ref ∈ values.filterMap Registered.tag,
      ref.handle = plc.created + 1 ↔ ref.connection = connection := by
  intro ref href
  obtain ⟨v, hv, htag⟩ := List.mem_filterMap.mp href
  refine iff_of_false (fun hhandle => ?_) (hnew v hv ref htag)
  have hlive := (haccounts.live ref.handle).mpr (MergePass.mem_handles_of_tag hv htag)
  have hgiven := haccounts.balanced.given ref.handle hlive
  omega

/-- **Registering keeps it.** -/
theorem register (h : SingleTags r.values) (haccounts : Accounts plc r.values)
    (hadded : r.register plc route text = .ok (next, after, v)) : SingleTags next.values := by
  obtain ⟨d, outcome, -, hobtain, rfl, rfl⟩ := register_eq_ok hadded
  have hown : ∀ ref, outcome.toOption = some ref → ref.connection = d.connection route := by
    intro ref href
    cases outcome with
    | error cause => cases href
    | ok made =>
      cases href
      exact connection_obtainTag hobtain
  have htags : (r.values ++ [r.newValue route d outcome]).filterMap Registered.tag =
      r.values.filterMap Registered.tag ++ outcome.toOption.toList := by
    rw [List.filterMap_append]
    cases outcome <;> rfl
  constructor
  case own =>
    intro u hu ref href
    rcases List.mem_append.mp hu with hu | hu
    · exact h.own u hu ref href
    · obtain rfl := List.mem_singleton.mp hu
      exact hown ref href
  case tagged =>
    intro u hu
    rcases List.mem_append.mp hu with hu | hu
    · exact h.tagged u hu
    · obtain rfl := List.mem_singleton.mp hu
      cases outcome with
      | ok made => exact iff_of_true rfl rfl
      | error cause => exact iff_of_false nofun nofun
  case single =>
    show ∀ ref ∈ (r.values ++ [r.newValue route d outcome]).filterMap Registered.tag, ∀ other ∈
      (r.values ++ [r.newValue route d outcome]).filterMap Registered.tag, _
    rw [htags]
    cases outcome with
    | error cause =>
      rw [Except.toOption, Option.toList_none, List.append_nil]
      exact h.single
    | ok made =>
      have hmade : ∀ ref ∈ r.values.filterMap Registered.tag,
          ref.handle = made.handle ↔ ref.connection = made.connection := by
        obtain ⟨-, held, hheld, -, u, hu, htag⟩ | ⟨hnew, hcreate⟩ := obtainTag_cases hobtain
        · cases hheld
          exact fun ref href => h.single ref href made (List.mem_filterMap.mpr ⟨u, hu, htag⟩)
        · obtain ⟨-, -, rfl⟩ := Plc.create_eq_ok hcreate
          exact handle_eq_new_iff haccounts hnew
      intro ref href other hother
      rcases List.mem_append.mp href with hheld | hlast <;>
        rcases List.mem_append.mp hother with hother | hother
      · exact h.single ref hheld other hother
      · rw [List.mem_singleton.mp hother]
        exact hmade ref hheld
      · rw [List.mem_singleton.mp hlast, eq_comm, hmade other hother, eq_comm]
      · rw [List.mem_singleton.mp hlast, List.mem_singleton.mp hother]
        exact iff_of_true rfl rfl

/-- Values share a tag exactly if they have tags of one creation text. -/
theorem shared_iff (h : SingleTags values) {u v : Registered} (hu : u ∈ values) (hv : v ∈ values) :
    (∃ handle, u.handle? = some handle ∧ v.handle? = some handle) ↔
      u.tag.isSome = true ∧ v.tag.isSome = true ∧ u.connection = v.connection := by
  unfold Registered.handle?
  cases hutag : u.tag with
  | none => simp
  | some ref =>
    cases hvtag : v.tag with
    | none => simp
    | some other =>
      have hsingle := h.single ref (List.mem_filterMap.mpr ⟨u, hu, hutag⟩) other
        (List.mem_filterMap.mpr ⟨v, hv, hvtag⟩)
      rw [h.own u hu ref hutag, h.own v hv other hvtag] at hsingle
      simp [← hsingle, eq_comm]

theorem connected_eq_map (h : SingleTags values) :
    connected values = (values.filterMap Registered.tag).map TagRef.connection := by
  have hown := h.own
  clear h
  unfold connected
  induction values with
  | nil => rfl
  | cons v rest ih =>
    have hrest := ih fun u hu => hown u (List.mem_cons_of_mem v hu)
    cases htag : v.tag with
    | none => rw [List.filter_cons_of_neg (by simp [htag]), List.filterMap_cons_none htag, hrest]
    | some ref =>
      rw [List.filter_cons_of_pos (by simp [htag]), List.filterMap_cons_some htag, List.map_cons,
        List.map_cons, hrest, hown v List.mem_cons_self ref htag]

/-- There are as many tags as creation texts. -/
theorem length_handles (h : SingleTags values) :
    (handles values).eraseDups.length = (connected values).eraseDups.length := by
  rw [h.connected_eq_map, handles_eq_map]
  exact length_eraseDups_map_congr _ h.single

end SingleTags

end Registry

/-! ## Sessions without a pass -/

namespace Bridge

variable {b next : Bridge}

/-- **Values share tags by their creation texts.** -/
structure SharesByConnection (b : Bridge) : Prop where
  /-- Two values are read from one tag exactly if both have a tag and their creation texts are the
  same. -/
  shared : ∀ u ∈ b.registry.values, ∀ v ∈ b.registry.values,
    (∃ handle, u.handle? = some handle ∧ v.handle? = some handle) ↔
      u.tag.isSome = true ∧ v.tag.isSome = true ∧ u.connection = v.connection
  /-- A value has a tag exactly if creating it did not fail. -/
  tagged : ∀ v ∈ b.registry.values, v.tag.isSome = true ↔ v.creationError = none
  /-- One tag lives for each creation text for which one could be created. -/
  live : b.plc.live.length = (connected b.registry.values).eraseDups.length
  /-- No more were created but for writes, which have destroyed them again. -/
  created : b.plc.created = b.plc.destroyed + (connected b.registry.values).eraseDups.length

theorem SharesByConnection.of_singleTags (h : SingleTags b.registry.values)
    (hsession : b.InSession) : b.SharesByConnection where
  shared u hu v hv := h.shared_iff hu hv
  tagged := h.tagged
  live := by rw [hsession.accounted.live.length_eq, h.length_handles]
  created := by rw [hsession.accounted.balance, h.length_handles]

/-- **All but a pass keeps one tag for each creation text.** -/
theorem InSession.singleTags_serve (h : b.InSession) (hsingle : SingleTags b.registry.values)
    {request : Request} (hrequest : request ≠ .merge) :
    SingleTags (b.serve request).registry.values := by
  rcases b.serve_cases request with
    ⟨text, registry, plc, v, rfl, hadded, -⟩ | rfl | rfl | ⟨hvalues, -, -, -⟩
  · obtain ⟨made, after, hregister, hnext⟩ := added_eq_ok hadded
    rw [(serve_register hadded).1, hnext, registry_withAdded]
    exact hsingle.register h.accounts hregister
  · exact absurd rfl hrequest
  · exact hsingle
  · rwa [hvalues]

theorem InSession.sharesByConnection (h : b.InSession) (hsingle : SingleTags b.registry.values)
    {requests : List Request} (hmerge : ∀ request ∈ requests, request ≠ .merge) :
    (requests.foldl Bridge.serve b).SharesByConnection := by
  induction requests generalizing b with
  | nil => exact .of_singleTags hsingle h
  | cons request rest ih =>
    obtain ⟨hfirst, hrest⟩ := List.forall_mem_cons.mp hmerge
    exact ih (h.serve request) (h.singleTags_serve hsingle hfirst) hrest

/-- Only writes and passes destroy tags. -/
theorem destroyed_serve {request : Request} (hmerge : request ≠ .merge)
    (hwrite : ∀ id value, request ≠ .write id value) :
    (b.serve request).plc.destroyed = b.plc.destroyed := by
  cases request with
  | outside | loadStructs | stop => rfl
  | createPoller poller =>
    refine orStay_keeps (P := fun next => next.plc.destroyed = b.plc.destroyed) rfl
      fun next hadded => ?_
    rw [createPoller_eq_ok hadded]
  | register text =>
    refine orStay_keeps (P := fun next => next.plc.destroyed = b.plc.destroyed) rfl
      fun next hnext => ?_
    obtain ⟨⟨_, v⟩, hadded, rfl⟩ := map_eq_ok_iff.mp hnext
    obtain ⟨-, d, outcome, -, -, hobtain⟩ := register_spec hadded
    obtain ⟨hplc, -⟩ | ⟨-, hcreate⟩ := obtainTag_cases hobtain
    · rw [hplc]
    · cases outcome with
      | error cause => rw [Plc.create_eq_error hcreate]
      | ok ref =>
        obtain ⟨-, hplc, -⟩ := Plc.create_eq_ok hcreate
        rw [hplc]
        rfl
  | merge => exact absurd rfl hmerge
  | poll group =>
    refine orStay_keeps (P := fun next => next.plc.destroyed = b.plc.destroyed) rfl
      fun next hnext => ?_
    obtain ⟨⟨_, samples⟩, hpolled, rfl⟩ := map_eq_ok_iff.mp hnext
    obtain ⟨snapshot, spread, -, -, rfl, -⟩ := poll_eq_ok hpolled
    rw [plc_pollPublished]
    exact (sameTags_readAll _ _).destroyed
  | write id value => exact absurd rfl (hwrite id value)

theorem destroyed_session {requests : List Request}
    (hmerge : ∀ request ∈ requests, request ≠ .merge)
    (hwrite : ∀ request ∈ requests, ∀ id value, request ≠ .write id value) :
    (requests.foldl serve b).plc.destroyed = b.plc.destroyed := by
  induction requests generalizing b with
  | nil => rfl
  | cons request rest ih =>
    obtain ⟨hmergeFirst, hmergeRest⟩ := List.forall_mem_cons.mp hmerge
    obtain ⟨hwriteFirst, hwriteRest⟩ := List.forall_mem_cons.mp hwrite
    rw [List.foldl_cons, ih hmergeRest hwriteRest, destroyed_serve hmergeFirst hwriteFirst]

end Bridge

/-- **A registration is all or nothing**, on any bridge. In a session from a usable configuration on
a controller without tags, as long as no pass has run, values share a tag exactly if it has the
creation text of both; and if nothing was written, as many tags were created as there are creation
texts for which that succeeded. -/
theorem session_sharesTags {ids : ValueId.Supply} {config : Config}
    {memory : List (String × Buffer)} {refused : List String} {b : Bridge}
    (hstart : Bridge.ofConfig ids config { memory := memory, refused := refused } = .ok b)
    (requests : List Bridge.Request) :
    (∀ (any : Bridge) (text : String), any.AllOrNothing text) ∧
      ((∀ request ∈ requests, request ≠ .merge) →
        (requests.foldl Bridge.serve b).SharesByConnection ∧
        ((∀ request ∈ requests, ∀ id value, request ≠ .write id value) →
          (requests.foldl Bridge.serve b).plc.created =
            (connected (requests.foldl Bridge.serve b).registry.values).eraseDups.length)) := by
  refine ⟨Bridge.allOrNothing, fun hmerge => ?_⟩
  have hshares := (Bridge.InSession.ofConfig hstart rfl rfl).sharesByConnection
    (SingleTags.ofConfig hstart) hmerge
  refine ⟨hshares, fun hwrite => ?_⟩
  have hdestroyed : b.plc.destroyed = 0 := by
    obtain ⟨_, -, rfl⟩ := map_eq_ok_iff.mp hstart
    rfl
  rw [hshares.created, Bridge.destroyed_session hmerge hwrite, hdestroyed, Nat.zero_add]

/-- Two values of one tag, one whose tag cannot be created, and a text that is no descriptor. -/
def twinSession : List Bridge.Request :=
  [.register "Pump.Speed INT none 0 none", .register "missing INT none 0 none", .register "Pump",
    .register "Pump.Speed INT none 2 none", .poll initPoller]

theorem session_sharesTags_twins :
    (twinSession.foldl Bridge.serve idleBridge).registry.values.map Registered.handle? =
        [some 1, none, some 1] ∧
      (twinSession.foldl Bridge.serve idleBridge).SharesByConnection ∧
      (twinSession.foldl Bridge.serve idleBridge).plc.created = (connected
        (twinSession.foldl Bridge.serve idleBridge).registry.values).eraseDups.length := by
  obtain ⟨-, hsession⟩ :=
    @session_sharesTags .counting pumpConfig [] [] idleBridge rfl twinSession
  obtain ⟨hshares, hcreated⟩ := hsession (by simp [twinSession])
  exact ⟨by decide +kernel, hshares, hcreated (by simp [twinSession])⟩

end PlcTags

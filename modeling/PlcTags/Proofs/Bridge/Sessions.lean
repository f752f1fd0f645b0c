import PlcTags.Proofs.Bridge.Writes
import PlcTags.Proofs.Registry.Owners

/-!
# Sessions

Requests to a bridge whose pollers do not run, one after the other, from a configuration and a
controller without tags. After each of them exactly those tags live that registered values refer to,
and all others that were created have been destroyed: those of values that were merged, and those
that were made for a write.

* `Bridge.Request`, `Bridge.serve`: what can be asked, and what becomes of the bridge.
* `Accounts`: the tags of a controller belong to values. Each request keeps it.
* `session_accounted`: so it holds after any session.
-/

namespace PlcTags

open Registry Poll

/-! ## Requests -/

/-- What can be asked of a bridge whose pollers do not run. Between requests the memory of the
controller and the names that it refuses may change. -/
inductive Bridge.Request
  | outside (memory : List (String × Buffer)) (refused : List String)
  | loadStructs (defs : Layout.Definitions)
  | createPoller (poller : PollerConfig)
  | register (text : String)
  | merge
  | poll (group : String)
  | write (id : ValueId) (value : Value)
  | stop

/-- The bridge that came of a request, or the same one if the request was refused. -/
def Bridge.orStay {ε : Type} (b : Bridge) : Except ε Bridge → Bridge
  | .ok next => next
  | .error _ => b

/-- **The bridge after a request.** -/
def Bridge.serve (b : Bridge) : Request → Bridge
  | .outside memory refused => { b with plc := { b.plc with memory := memory, refused := refused } }
  | .loadStructs defs => (b.loadStructs defs).1
  | .createPoller poller => b.orStay (b.createPoller poller)
  | .register text => b.orStay ((b.register text).map Prod.fst)
  | .merge => b.merge.1
  | .poll group => b.orStay ((b.poll group).map Prod.fst)
  | .write id value => (b.write id value).1
  | .stop => b.stop

/-- What holds of a bridge and of all that may come of a request holds afterwards. -/
theorem Bridge.orStay_keeps {ε : Type} {P : Bridge → Prop} {b : Bridge}
    {outcome : Except ε Bridge} (h : P b) (hok : ∀ next, outcome = .ok next → P next) :
    P (b.orStay outcome) := by
  cases outcome with
  | error cause => exact h
  | ok next => exact hok next rfl

/-- Requests to a reached bridge lead to reached bridges, and a pass is not undone. -/
theorem Bridge.Reached.exists_serve {merged : Bool} {b : Bridge} (h : Reached merged b)
    (request : Request) :
    ∃ after, Reached after (b.serve request) ∧ (merged = true → after = true) := by
  cases request with
  | outside memory refused => exact ⟨merged, h.outside memory refused, id⟩
  | loadStructs defs => exact ⟨merged, h.loadStructs defs, id⟩
  | createPoller poller =>
    exact ⟨merged, orStay_keeps h fun next hadded => h.createPoller hadded, id⟩
  | register text =>
    refine ⟨merged, orStay_keeps h fun next hnext => ?_, id⟩
    obtain ⟨⟨_, v⟩, hadded, rfl⟩ := map_eq_ok_iff.mp hnext
    exact h.register hadded
  | merge => exact ⟨true, h.merge, fun _ => rfl⟩
  | poll group =>
    refine ⟨merged, orStay_keeps h fun next hnext => ?_, id⟩
    obtain ⟨⟨_, samples⟩, hpolled, rfl⟩ := map_eq_ok_iff.mp hnext
    exact h.poll hpolled
  | write id value => exact ⟨merged, h.write id value, fun hmerged => hmerged⟩
  | stop => exact ⟨merged, h.stop, id⟩

/-- So does a session. -/
theorem Bridge.Reached.exists_session {merged : Bool} {b : Bridge} (h : Reached merged b)
    (requests : List Request) : ∃ after, Reached after (requests.foldl serve b) := by
  induction requests generalizing merged b with
  | nil => exact ⟨merged, h⟩
  | cons request rest ih =>
    obtain ⟨after, hafter, -⟩ := h.exists_serve request
    exact ih hafter

/-! ## Accounts -/

/-- **The tags of a controller belong to values**: they are accounted for, and those live that
values refer to. -/
structure Accounts (plc : Plc) (values : List Registered) : Prop where
  balanced : plc.Balanced
  live : ∀ handle, handle ∈ plc.live ↔ handle ∈ handles values

section

variable {plc next : Plc} {values : List Registered} {route : String} {threshold : Nat}

theorem Accounts.congr (h : Accounts plc values) (hnext : next.SameTags plc) :
    Accounts next values :=
  ⟨hnext.balanced h.balanced, fun handle => hnext.live ▸ h.live handle⟩

/-- **Registering**: the new value refers to the tag that was created for it, or to one that other
values have, or to none. -/
theorem Accounts.register {r registry : Registry} {text : String} {v : Registered}
    (h : Accounts plc r.values) (hadded : r.register plc route text = .ok (registry, next, v)) :
    Accounts next registry.values := by
  obtain ⟨d, outcome, -, hobtain, rfl, rfl⟩ := register_eq_ok hadded
  have hhandles : handles (r.values ++ [r.newValue route d outcome]) =
      handles r.values ++ Plc.obtained outcome := by
    rw [handles, List.filterMap_append]
    cases outcome <;> rfl
  show Accounts next (r.values ++ [r.newValue route d outcome])
  obtain ⟨rfl, held, rfl, -, u, hu, htag⟩ | ⟨-, hcreate⟩ := obtainTag_cases hobtain
  · refine ⟨h.balanced, fun handle => ?_⟩
    rw [hhandles, List.mem_append, h.live]
    refine ⟨Or.inl, fun hin => hin.elim id fun hmem => ?_⟩
    rw [List.mem_singleton.mp hmem]
    exact MergePass.mem_handles_of_tag hu htag
  · refine ⟨h.balanced.create hcreate, fun handle => ?_⟩
    rw [hhandles, List.mem_append, ← h.live]
    cases outcome with
    | error cause =>
      rw [Plc.create_eq_error hcreate]
      exact ⟨Or.inl, fun hin => hin.elim id fun hmem => absurd hmem List.not_mem_nil⟩
    | ok made =>
      obtain ⟨-, rfl, rfl⟩ := Plc.create_eq_ok hcreate
      rw [h.balanced.live_withNew, List.mem_append]
      rfl

/-- **A merge pass**: at its end those tags are kept that values refer to. -/
theorem Accounts.merge {r : Registry} {parsed : List Descriptor} (h : Accounts plc r.values)
    (hsound : r.Sound route parsed) (hheld : AllHeld plc r.values) :
    Accounts (r.merge plc route threshold).2.1 (r.merge plc route threshold).1.values := by
  have hafter := (hheld.merge route threshold).1
  obtain ⟨sliced, hordered, hmerge, -⟩ := @Sound.exists_sliced r plc [] route parsed hsound
    h.balanced (fun handle hlive => Or.inl ((h.live handle).mp hlive)) threshold
  rw [hmerge] at hafter ⊢
  refine ⟨hordered.balanced.keepOnly _, fun handle => ⟨fun hlive => ?_, fun hin => ?_⟩⟩
  · exact (Plc.mem_live_keepOnly.mp hlive).2
  · obtain ⟨v, hv, hhandle⟩ := List.mem_filterMap.mp hin
    obtain ⟨ref, href, rfl⟩ := Option.map_eq_some_iff.mp hhandle
    obtain ⟨tag, htag, -⟩ := (hafter v hv ref href).backs
    exact Plc.mem_live_iff.mpr (by rw [htag]; rfl)

theorem sameTags_readAll (plc : Plc) (handles : List Nat) : (readAll plc handles).SameTags plc :=
  List.foldlRecOn handles _ (.refl plc) fun read h handle _ =>
    (Plc.sameTags_startRead read handle).trans h

end

namespace Bridge

variable {b next : Bridge} {merged : Bool}

theorem sameTags_writeThrough (plc : Plc) (ref : TagRef) (d : Descriptor) (value : Value)
    (options : DecodeOptions) (timeoutMs : Nat) :
    (writeThrough plc ref d value options timeoutMs).1.SameTags plc := by
  have hread := Plc.sameTags_startRead plc ref.handle
  unfold writeThrough
  dsimp only
  split
  · exact hread
  · exact hread
  · next buffer _ _ =>
    have hencoded := (Plc.sameTags_setBuffer (plc.startRead ref.handle).1 ref.handle
      (encode buffer d value options).1).trans hread
    split
    · exact hencoded
    · exact (Plc.sameTags_startWrite _ _).trans hencoded

/-- **A write leaves the tags that live**, whatever comes of it: the tag that is made for it is
destroyed. -/
theorem live_write (h : b.plc.Balanced) (id : ValueId) (value : Value) :
    (b.write id value).1.plc.Balanced ∧ (b.write id value).1.plc.live = b.plc.live := by
  unfold write
  split
  · exact ⟨h, rfl⟩
  · next v _ =>
    dsimp only
    split
    · next ref _ =>
      have hsame := sameTags_writeThrough b.plc ref (ownDescriptor v) value ⟨false, b.config.zone⟩
        b.config.readTimeoutMs
      exact ⟨hsame.balanced h, hsame.live⟩
    · split
      · next plc cause hcreate =>
        rw [Plc.create_eq_error hcreate]
        exact ⟨h, rfl⟩
      · next plc ref hcreate =>
        obtain ⟨-, rfl, rfl⟩ := Plc.create_eq_ok hcreate
        have hsame := sameTags_writeThrough (b.plc.withNew v.connection)
          ⟨b.plc.created + 1, v.connection⟩ (ownDescriptor v) value ⟨false, b.config.zone⟩
          b.config.readTimeoutMs
        exact ⟨(hsame.balanced (h.withNew _)).destroy _, h.live_destroy_withNew hsame⟩

/-- What holds of the bridge of a session. -/
structure InSession (b : Bridge) : Prop where
  reached : ∃ merged, Reached merged b
  accounts : Accounts b.plc b.registry.values

theorem InSession.createPoller (h : b.InSession) {poller : PollerConfig}
    (hadded : b.createPoller poller = .ok next) : next.InSession := by
  obtain ⟨⟨merged, hreached⟩, haccounts⟩ := h
  refine ⟨⟨merged, hreached.createPoller hadded⟩, ?_⟩
  rw [createPoller_eq_ok hadded]
  exact haccounts

theorem InSession.register (h : b.InSession) {text : String} {v : Registered}
    (hadded : b.register text = .ok (next, v)) : next.InSession := by
  obtain ⟨⟨merged, hreached⟩, haccounts⟩ := h
  refine ⟨⟨merged, hreached.register hadded⟩, ?_⟩
  obtain ⟨registry, plc, hregister, rfl⟩ := added_eq_ok hadded
  rw [registry_withAdded, plc_withAdded]
  exact haccounts.register hregister

theorem InSession.merge (h : b.InSession) : b.merge.1.InSession := by
  obtain ⟨⟨merged, hreached⟩, haccounts⟩ := h
  refine ⟨⟨true, hreached.merge⟩, ?_⟩
  obtain ⟨parsed, passes, hsound⟩ := hreached.sound.registry
  obtain ⟨registry, plc, hregistry, hplc, hmerge⟩ := b.merge_eq
  have hafter := @Accounts.merge _ _ b.config.mergeThreshold _ _ haccounts hsound.sound
    hreached.held
  rw [← hregistry, ← hplc] at hafter
  rw [hmerge]
  exact hafter

theorem InSession.poll (h : b.InSession) {group : String} {samples : List Sample}
    (hpolled : b.poll group = .ok (next, samples)) : next.InSession := by
  obtain ⟨⟨merged, hreached⟩, haccounts⟩ := h
  refine ⟨⟨merged, hreached.poll hpolled⟩, ?_⟩
  obtain ⟨snapshot, spread, -, -, rfl, -⟩ := poll_eq_ok hpolled
  rw [registry_pollPublished, plc_pollPublished]
  exact haccounts.congr (sameTags_readAll _ _)

theorem InSession.write (h : b.InSession) (id : ValueId) (value : Value) :
    (b.write id value).1.InSession := by
  obtain ⟨⟨merged, hreached⟩, haccounts⟩ := h
  obtain ⟨hbalanced, hlive⟩ := live_write haccounts.balanced id value
  refine ⟨⟨merged, hreached.write id value⟩, hbalanced, fun handle => ?_⟩
  rw [hlive, (continues_write b id value).registry]
  exact haccounts.live handle

/-- **Every request keeps the accounts.** -/
theorem InSession.serve (h : b.InSession) (request : Request) : (b.serve request).InSession := by
  obtain ⟨merged, hreached⟩ := h.reached
  cases request with
  | outside memory refused =>
    exact ⟨⟨merged, hreached.outside memory refused⟩, h.accounts.congr ⟨rfl, rfl, rfl⟩⟩
  | loadStructs defs => exact ⟨⟨merged, hreached.loadStructs defs⟩, h.accounts⟩
  | createPoller poller => exact orStay_keeps h fun next hadded => h.createPoller hadded
  | register text =>
    refine orStay_keeps h fun next hnext => ?_
    obtain ⟨⟨_, v⟩, hadded, rfl⟩ := map_eq_ok_iff.mp hnext
    exact h.register hadded
  | merge => exact h.merge
  | poll group =>
    refine orStay_keeps h fun next hnext => ?_
    obtain ⟨⟨_, samples⟩, hpolled, rfl⟩ := map_eq_ok_iff.mp hnext
    exact h.poll hpolled
  | write id value => exact h.write id value
  | stop => exact ⟨⟨merged, hreached.stop⟩, h.accounts⟩

theorem InSession.ofConfig {ids : ValueId.Supply} {config : Config} {plc : Plc}
    (h : Bridge.ofConfig ids config plc = .ok b) (hempty : plc.tags = [])
    (hcounts : plc.created = plc.destroyed) : b.InSession := by
  refine ⟨⟨false, .ofConfig h⟩, ?_⟩
  obtain ⟨pollers, rfl⟩ := exists_ofConfig h
  have hlive : plc.live = [] := by rw [Plc.live, hempty, List.map_nil]
  have hnone : ∀ handle, handle ∉ plc.live := fun _ hmem => by rw [hlive] at hmem; cases hmem
  have hbalanced : plc.Balanced :=
    { nodup := hlive ▸ List.nodup_nil
      given := fun handle hmem => absurd hmem (hnone handle)
      balance := by rw [hlive, hcounts]; rfl }
  exact ⟨hbalanced, fun handle => iff_of_false (hnone handle) List.not_mem_nil⟩

/-! ## Accounted bridges -/

/-- **No tag is left behind and none is destroyed early.** -/
structure Accounted (b : Bridge) : Prop where
  /-- Those tags live that registered values refer to, each once. -/
  live : b.plc.live.Perm (handles b.registry.values).eraseDups
  /-- All others that were created have been destroyed. -/
  balance : b.plc.created = b.plc.destroyed + (handles b.registry.values).eraseDups.length
  /-- A write leaves the tags that live, on each of its exits. -/
  writes : ∀ id value, (b.write id value).1.plc.live = b.plc.live
  /-- Tags that a merge pass has replaced do not live. -/
  replaced : ∀ handle, handle ∉ handles b.merge.1.registry.values →
    b.merge.1.plc.tag? handle = none
  /-- In a merge pass tags may be destroyed one by one, each when nobody owns it any more. -/
  passes : b.registry.mergeCounted b.plc ((b.published.map Snapshot.values).getD [])
      b.config.route b.config.mergeThreshold =
    b.registry.merge b.plc b.config.route b.config.mergeThreshold

theorem InSession.accounted (h : b.InSession) : b.Accounted := by
  have hafter := h.merge.accounts
  obtain ⟨⟨merged, hreached⟩, haccounts⟩ := h
  obtain ⟨parsed, passes, hregistry⟩ := hreached.sound.registry
  have hperm : b.plc.live.Perm (handles b.registry.values).eraseDups :=
    (List.perm_ext_iff_of_nodup haccounts.balanced.nodup (nodup_eraseDups _)).mpr fun handle => by
      rw [List.mem_eraseDups, haccounts.live]
  obtain ⟨-, -, -, hpasses⟩ := @Sound.exists_sliced b.registry b.plc
    ((b.published.map Snapshot.values).getD []) _ _ hregistry.sound haccounts.balanced
    (fun handle hlive => Or.inl ((haccounts.live handle).mp hlive)) b.config.mergeThreshold
  exact
    { live := hperm
      balance := hperm.length_eq ▸ haccounts.balanced.balance
      writes := fun id value => (live_write haccounts.balanced id value).2
      replaced := fun handle hnot => Option.not_isSome_iff_eq_none.mp fun hsome =>
        hnot ((hafter.live handle).mp (Plc.mem_live_iff.mpr hsome))
      passes := hpasses }

end Bridge

/-- **After every session the tags are accounted for**, from any usable configuration on a
controller without tags, whatever is asked and whatever fails. -/
theorem session_accounted {ids : ValueId.Supply} {config : Config} {plc : Plc} {b : Bridge}
    (hstart : Bridge.ofConfig ids config plc = .ok b) (hempty : plc.tags = [])
    (hcounts : plc.created = plc.destroyed) (requests : List Bridge.Request) :
    (requests.foldl Bridge.serve b).Accounted := by
  have hsession : (requests.foldl Bridge.serve b).InSession :=
    List.foldlRecOn requests _ (Bridge.InSession.ofConfig hstart hempty hcounts)
      fun _ h request _ => h.serve request
  exact hsession.accounted

/-- A session with a pump: two values are merged, one of them is written, and what is no descriptor
or no value of the right type is refused. -/
def pumpSession : List Bridge.Request :=
  [.register "Pump.Speed INT none 0 none", .register "Pump.Load INT none 2 none", .register "Pump",
    .merge, .write ⟨2⟩ (.bool true), .poll initPoller]

/-- Of four tags the own ones of the values and the one for the write are destroyed. -/
theorem session_accounted_pump :
    (pumpSession.foldl Bridge.serve idleBridge).plc.counts = (4, 3, 1) ∧
      (pumpSession.foldl Bridge.serve idleBridge).Accounted :=
  ⟨by decide +kernel, @session_accounted .counting pumpConfig {} idleBridge rfl rfl rfl pumpSession⟩

end PlcTags

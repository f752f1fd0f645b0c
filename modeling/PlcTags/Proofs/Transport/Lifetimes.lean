import Mathlib.Data.List.Induction
import PlcTags.Proofs.Runs
import PlcTags.Proofs.Transport.References

/-!
# Lifetimes of tags

What is asked of a controller that has had no tags before, from the creation of a tag to its end.
Handles are given one after the other, so no tag takes the place of another. A tag lives until it is
destroyed by its handle or its last reference goes, whichever is first; what comes second finds no tag
and changes nothing.

* `Plc.Unusable`: whatever is done with a handle that has no tag fails and changes nothing.
* `Slots.after`, `Slots.history`: what becomes of a list of requests, and how.
* `Slots.Unended`: a handle was given, and no request since has ended its tag.
  `Slots.mem_live_after_iff`: those tags live.
* `Slots.perm_givenIn`: each handle that was given is that of a tag that was destroyed or lives, once.
* `Slots.handles_accounted`: **the account of the handles**, after any requests that leave their
  counter within 32 bits.
-/

namespace PlcTags

/-! ## Handles without a tag -/

namespace Plc

variable {plc : Plc} {handle : Nat}

/-- **The handle is of no use any more**: whatever is done with it fails, and nothing changes. -/
structure Unusable (plc : Plc) (handle : Nat) : Prop where
  read : plc.startRead handle = (plc, .failed TagFault.nullHandle.code)
  write : plc.startWrite handle = (plc, .failed TagFault.nullHandle.code)
  status : plc.status handle = .failed TagFault.nullHandle.code
  access : ∀ access, ∃ fault, plc.access handle access = (plc, .error fault)
  destroy : plc.destroy handle = plc

theorem exists_access_eq_error (h : plc.bufferOf handle = .error .nullHandle) (access : Access) :
    ∃ fault, plc.access handle access = (plc, .error fault) := by
  have hlook : ∀ read, plc.look handle read = (plc, .error .nullHandle) := by
    intro read
    rw [look, h]
    rfl
  have hedit : ∀ edit, plc.edit? handle edit = .error .nullHandle := by
    intro edit
    rw [edit?, h]
    rfl
  cases access with
  | size | bit | scalar | octets | string => exact ⟨.nullHandle, hlook _⟩
  | setBit | setScalar | setOctets => exact ⟨.nullHandle, congrArg plc.changed (hedit _)⟩
  | setString offset value =>
    -- that the string is too long is found before the tag is looked for
    have hstring : ∃ fault, plc.setString? handle offset value = .error fault := by
      unfold setString?
      split
      · exact ⟨.outOfBounds, rfl⟩
      · rw [h]
        exact ⟨.nullHandle, rfl⟩
    obtain ⟨fault, hfault⟩ := hstring
    exact ⟨fault, congrArg plc.changed hfault⟩

theorem unusable_of_not_mem_live (h : handle ∉ plc.live) : plc.Unusable handle := by
  have hnone : plc.tag? handle = none :=
    Option.not_isSome_iff_eq_none.mp fun hsome => h (mem_live_iff.mpr hsome)
  constructor
  case read => rw [startRead, hnone]
  case write => rw [startWrite, hnone]
  case status => rw [Plc.status, hnone]
  case access => exact exists_access_eq_error (by rw [bufferOf, hnone])
  case destroy => rw [Plc.destroy, hnone]

end Plc

namespace Slots

variable {s : Slots} {request : Request} {requests : List Request} {handle : Nat}

/-! ## Requests for a tag -/

/-- The request is for the tag of a handle, named by a slot or by the handle. -/
def Request.IsFor (s : Slots) (handle : Nat) : Request → Prop
  | .read target | .write target | .access target _ => s.handle? target = some handle
  | .destroy other => other = handle
  | .store .. | .refuse _ | .create .. | .share .. | .drop _ => False

theorem operate_eq_self {target : Target} {operation : Plc → Nat → Plc}
    (htarget : s.handle? target = some handle) (h : operation s.plc handle = s.plc) :
    s.operate target operation = s := by
  rw [operate, htarget]
  exact congrArg (fun plc => { s with plc := plc }) h

theorem serve_eq_self (h : s.plc.Unusable handle) (hfor : request.IsFor s handle) :
    s.serve request = s := by
  cases request with
  | store | refuse | create | share | drop => cases hfor
  | read target =>
    rw [serve, operate_eq_self hfor]
    rw [h.read]
  | write target =>
    rw [serve, operate_eq_self hfor]
    rw [h.write]
  | access target access =>
    obtain ⟨fault, hfault⟩ := h.access access
    rw [serve, operate_eq_self hfor]
    rw [hfault]
  | destroy other =>
    cases hfor
    exact congrArg (fun plc => { s with plc := plc }) h.destroy

/-! ## The tags that a request destroys -/

/-- The tags that a request destroys: they live before it and not afterwards. -/
def destroyed (s : Slots) (request : Request) : List Nat :=
  s.plc.live.filter fun handle => decide (handle ∉ (s.serve request).plc.live)

theorem mem_destroyed_iff : handle ∈ s.destroyed request ↔
    handle ∈ s.plc.live ∧ handle ∉ (s.serve request).plc.live := by
  rw [destroyed, List.mem_filter, decide_eq_true_eq]

theorem Owned.given?_not_mem_live (h : s.Owned) (hgiven : s.given? request = some handle) :
    handle ∉ s.plc.live := by
  obtain ⟨hnone, -⟩ | ⟨hnew, -⟩ := (h.served request).given
  · rw [hgiven] at hnone
    cases hnone
  · rw [hgiven] at hnew
    rw [Option.some.inj hnew]
    exact h.balanced.not_mem_live

/-- **A request destroys the live tags that it ends.** -/
theorem Owned.mem_destroyed_iff (h : s.Owned) :
    handle ∈ s.destroyed request ↔ s.Ends request handle ∧ handle ∈ s.plc.live := by
  rw [Slots.mem_destroyed_iff, (h.served request).live]
  constructor
  · rintro ⟨hlive, hgone⟩
    exact ⟨by_contra fun hends => hgone (.inl ⟨hlive, hends⟩), hlive⟩
  · rintro ⟨hends, hlive⟩
    refine ⟨hlive, ?_⟩
    rintro (⟨-, hstill⟩ | hgiven)
    · exact hstill hends
    · exact h.given?_not_mem_live hgiven hlive

/-- Nothing is lost: what lived before or is new has been destroyed or lives, and not both. -/
theorem Owned.perm_destroyed (h : s.Owned) (request : Request) :
    (s.destroyed request ++ (s.serve request).plc.live).Perm
      (s.plc.live ++ (s.given? request).toList) := by
  have hserved := h.served request
  refine (List.perm_ext_iff_of_nodup ?_ ?_).mpr fun handle => ?_
  · refine List.nodup_append'.mpr ⟨h.balanced.nodup.filter _, hserved.owned.balanced.nodup, ?_⟩
    exact fun handle hgone hlive => (Slots.mem_destroyed_iff.mp hgone).2 hlive
  · refine List.nodup_append'.mpr ⟨h.balanced.nodup, Option.toList_nodup _, ?_⟩
    exact fun handle hlive hnew => h.given?_not_mem_live (Option.mem_toList.mp hnew) hlive
  · have hlive := hserved.live handle
    rw [List.mem_append, List.mem_append, Slots.mem_destroyed_iff, Option.mem_toList]
    tauto

/-! ## Histories -/

/-- What has become of requests to a controller that has had no tags before. -/
def after (requests : List Request) : Slots :=
  requests.foldl serve {}

/-- The requests, each with the slots before it. -/
def history (requests : List Request) : List (Slots × Request) :=
  steps serve {} requests

theorem after_concat (requests : List Request) (request : Request) :
    after (requests ++ [request]) = (after requests).serve request :=
  List.foldl_concat ..

theorem history_concat (requests : List Request) (request : Request) :
    history (requests ++ [request]) = history requests ++ [(after requests, request)] :=
  steps_append serve {} requests [request]

theorem owned_after (requests : List Request) : (after requests).Owned := by
  refine List.foldlRecOn requests serve ?_ fun s h request _ => (h.served request).owned
  exact
    { balanced := ⟨List.nodup_nil, fun _ hlive => absurd hlive List.not_mem_nil, rfl⟩
      names := List.nodup_nil
      given := fun _ hheld => nomatch hheld
      held := fun _ hlive => absurd hlive List.not_mem_nil }

/-- **A tag goes on through a history**: its handle was given, and no request since has ended it. -/
def Unended (history : List (Slots × Request)) (handle : Nat) : Prop :=
  ∃ earlier e later, history = earlier ++ e :: later ∧ e.1.given? e.2 = some handle ∧
    ∀ e' ∈ later, ¬ e'.1.Ends e'.2 handle

theorem not_unended_nil : ¬ Unended [] handle := by
  rintro ⟨earlier, e, later, hsplit, -⟩
  exact List.append_ne_nil_of_right_ne_nil earlier (List.cons_ne_nil e later) hsplit.symm

theorem unended_concat_iff {history : List (Slots × Request)} {e : Slots × Request} :
    Unended (history ++ [e]) handle ↔
      Unended history handle ∧ ¬ e.1.Ends e.2 handle ∨ e.1.given? e.2 = some handle := by
  constructor
  · rintro ⟨earlier, made, later, hsplit, hmade, hlater⟩
    rcases List.eq_nil_or_concat later with rfl | ⟨between, last, rfl⟩
    · obtain ⟨-, heq⟩ := List.append_inj' hsplit rfl
      obtain rfl := List.singleton_inj.mp heq
      exact .inr hmade
    · rw [List.concat_eq_append] at hsplit hlater
      rw [← List.cons_append, ← List.append_assoc] at hsplit
      obtain ⟨rfl, heq⟩ := List.append_inj' hsplit rfl
      obtain rfl := List.singleton_inj.mp heq
      refine .inl ⟨⟨earlier, made, between, rfl, hmade, fun e' he' => ?_⟩, ?_⟩
      · exact hlater e' (List.mem_append_left _ he')
      · exact hlater _ (List.mem_append_right _ List.mem_cons_self)
  · rintro (⟨⟨earlier, made, later, rfl, hmade, hlater⟩, hlast⟩ | hgiven)
    · refine ⟨earlier, made, later ++ [e], by simp, hmade, fun e' he' => ?_⟩
      rcases List.mem_append.mp he' with he' | he'
      · exact hlater e' he'
      · rwa [List.mem_singleton.mp he']
    · exact ⟨history, e, [], rfl, hgiven, fun _ he' => nomatch he'⟩

/-- **Those tags live whose handles were given and that no request since has ended.** -/
theorem mem_live_after_iff (requests : List Request) :
    handle ∈ (after requests).plc.live ↔ Unended (history requests) handle := by
  induction requests using List.reverseRecOn with
  | nil => exact iff_of_false List.not_mem_nil not_unended_nil
  | append_singleton requests request ih =>
    rw [after_concat, history_concat, ((owned_after requests).served request).live, ih,
      unended_concat_iff]

/-- The handles that were given in a history, in order. -/
def givenIn (history : List (Slots × Request)) : List Nat :=
  history.filterMap fun e => e.1.given? e.2

/-- The handles of the tags that were destroyed in a history, in order. -/
def destroyedIn (history : List (Slots × Request)) : List Nat :=
  history.flatMap fun e => e.1.destroyed e.2

theorem givenIn_concat (history : List (Slots × Request)) (e : Slots × Request) :
    givenIn (history ++ [e]) = givenIn history ++ (e.1.given? e.2).toList := by
  rw [givenIn, List.filterMap_append]
  rfl

theorem destroyedIn_concat (history : List (Slots × Request)) (e : Slots × Request) :
    destroyedIn (history ++ [e]) = destroyedIn history ++ e.1.destroyed e.2 := by
  rw [destroyedIn, List.flatMap_append, List.flatMap_singleton, ← destroyedIn]

/-- **Handles are given one after the other**, from one on. -/
theorem givenIn_history (requests : List Request) :
    givenIn (history requests) = List.range' 1 (after requests).plc.created := by
  induction requests using List.reverseRecOn with
  | nil => rfl
  | append_singleton requests request ih =>
    rw [history_concat, givenIn_concat, ih, after_concat]
    obtain ⟨hnone, hcreated⟩ | ⟨hnew, hcreated⟩ := ((owned_after requests).served request).given
    · rw [hcreated, hnone, Option.toList_none, List.append_nil]
    · rw [hcreated, hnew, Option.toList_some, List.range'_1_concat, Nat.add_comm 1]

/-- **Every handle that was given is accounted for**, once: its tag was destroyed or lives. -/
theorem perm_givenIn (requests : List Request) :
    (destroyedIn (history requests) ++ (after requests).plc.live).Perm
      (givenIn (history requests)) := by
  induction requests using List.reverseRecOn with
  | nil => rfl
  | append_singleton requests request ih =>
    rw [history_concat, after_concat, destroyedIn_concat, givenIn_concat, List.append_assoc]
    have hstep := ((owned_after requests).perm_destroyed request).append_left
      (destroyedIn (history requests))
    rw [← List.append_assoc (destroyedIn (history requests)) (after requests).plc.live] at hstep
    exact hstep.trans (ih.append_right _)

theorem length_destroyedIn (requests : List Request) :
    (destroyedIn (history requests)).length = (after requests).plc.destroyed := by
  have hlength := (perm_givenIn requests).length_eq
  have hbalance := (owned_after requests).balanced.balance
  rw [givenIn_history, List.length_append, List.length_range'] at hlength
  omega

/-- A handle that was destroyed stays without a tag. -/
theorem unusable_of_destroyedIn (requests : List Request)
    (h : handle ∈ destroyedIn (history requests)) : (after requests).plc.Unusable handle := by
  have hnodup : (destroyedIn (history requests) ++ (after requests).plc.live).Nodup := by
    rw [(perm_givenIn requests).nodup_iff, givenIn_history]
    exact List.nodup_range'
  exact Plc.unusable_of_not_mem_live fun hlive => List.disjoint_of_nodup_append hnodup h hlive

/-! ## The account of the handles -/

/-- **Every handle is new, and it is destroyed once at most**: when its tag is first ended. -/
structure Accounted (requests : List Request) : Prop where
  /-- Handles are given one after the other, from one on, so none of them twice. -/
  given : givenIn (history requests) = List.range' 1 (after requests).plc.created
  /-- They are what a counter of 32 bits with a sign shows, which has not wrapped. -/
  words : ∀ handle ∈ givenIn (history requests), (BitVec.ofNat 32 handle).toInt = handle
  /-- Each handle that was given is that of a tag that was destroyed or lives, and of one only. -/
  once : (destroyedIn (history requests) ++ (after requests).plc.live).Perm
    (givenIn (history requests))
  /-- As many were destroyed as is counted. -/
  counted : (destroyedIn (history requests)).length = (after requests).plc.destroyed
  /-- What was created and not destroyed lives. -/
  balance : (after requests).plc.created =
    (after requests).plc.destroyed + (after requests).plc.tags.length
  /-- A creation that fails changes nothing. -/
  failed : ∀ slot connection cause,
    ((after requests).create slot connection).2 = .error cause →
      (after requests).serve (.create slot connection) = after requests
  /-- The next request destroys a tag exactly if it is the first since its creation that ends it. -/
  ended : ∀ request handle, handle ∈ (after requests).destroyed request ↔
    (after requests).Ends request handle ∧ Unended (history requests) handle
  /-- A tag whose handle was not destroyed stands in a slot. -/
  held : ∀ handle ∈ (after requests).plc.live, (after requests).holds handle = true
  /-- Whatever is done with a handle that was destroyed fails. -/
  unusable : ∀ handle ∈ destroyedIn (history requests), (after requests).plc.Unusable handle
  /-- Requests for it change nothing, also those by slots that still hold it. -/
  unchanged : ∀ handle ∈ destroyedIn (history requests), ∀ request : Request,
    request.IsFor (after requests) handle → (after requests).serve request = after requests

theorem toInt_of_mem_givenIn (hcreated : (after requests).plc.created < Plc.handleLimit)
    (hgiven : handle ∈ givenIn (history requests)) : (BitVec.ofNat 32 handle).toInt = handle := by
  rw [givenIn_history, List.mem_range'_1] at hgiven
  have hlimit : handle < 2147483648 := by
    unfold Plc.handleLimit at hcreated
    omega
  have hword : (BitVec.ofNat 32 handle).toNat = handle := Nat.mod_eq_of_lt (by omega)
  rw [BitVec.toInt_eq_toNat_of_lt (by omega), hword]

/-- **The account of the handles**, whatever is asked of a controller that has had no tags before, as
long as their counter does not wrap. -/
theorem handles_accounted (requests : List Request)
    (hcreated : (after requests).plc.created < Plc.handleLimit) : Accounted requests where
  given := givenIn_history requests
  words _ hgiven := toInt_of_mem_givenIn hcreated hgiven
  once := perm_givenIn requests
  counted := length_destroyedIn requests
  balance := by
    have hbalance := (owned_after requests).balanced.balance
    rwa [Plc.live, List.length_map] at hbalance
  failed slot connection cause hfailed := by
    rw [create_eq] at hfailed
    split at hfailed
    · cases hfailed
    · next hrefused => rw [serve, create_eq, if_neg hrefused]
  ended request handle := by
    rw [(owned_after requests).mem_destroyed_iff, mem_live_after_iff]
  held := (owned_after requests).held
  unusable handle hgone := unusable_of_destroyedIn requests hgone
  unchanged handle hgone request hfor := serve_eq_self (unusable_of_destroyedIn requests hgone) hfor

/-- A tag is destroyed by its handle while two slots hold it, both let go of it afterwards, and
another tag is created. -/
def valveRequests : List Request :=
  [.create "inlet" "plc&name=Valve", .share "inlet" "outlet", .destroy 1, .drop "inlet",
    .drop "outlet", .create "inlet" "plc&name=Pump"]

/-- The valve is destroyed once: that the slots let go of it destroys nothing more, and the pump has a
handle of its own. -/
theorem handles_accounted_valve :
    (after valveRequests).plc.created < Plc.handleLimit ∧ Accounted valveRequests ∧
      givenIn (history valveRequests) = [1, 2] ∧ destroyedIn (history valveRequests) = [1] ∧
      (after valveRequests).plc.live = [2] := by
  have hcreated : (after valveRequests).plc.created < Plc.handleLimit := by decide +kernel
  exact ⟨hcreated, handles_accounted valveRequests hcreated, by decide +kernel, by decide +kernel,
    by decide +kernel⟩

end Slots

end PlcTags

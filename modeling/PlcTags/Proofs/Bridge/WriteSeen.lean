import PlcTags.Proofs.Bridge.Pollers
import PlcTags.Proofs.Codec.ReadBack

/-!
# A write is seen by the next poll

A value that no pass has merged is read from its own tag. A write of it stores the octets under the
name of that tag, whether it goes through this very tag or through one that is made for it; a poll
reads the tag again before it decodes the value. So the poll tells what was written, whatever else
happens to the bridge in between, as long as nothing is written.

* `Bridge.Quiet`: a bridge goes on, and nothing is written.
* `Bridge.Presents`: what stays meanwhile; `Bridge.Quiet.presents`.
* `Bridge.Presents.poll_eq`: what a poll tells of the value.
* `write_seen`: a write that succeeds is seen.
-/

namespace PlcTags

open Poll PlcTags.Text

namespace Bridge

/-- **Nothing is written** while a bridge goes on: values are registered, passes run and groups are
polled. -/
inductive Quiet (b : Bridge) : Bridge → Prop
  | refl : Quiet b b
  | loadStructs {next : Bridge} (defs : Layout.Definitions) (h : Quiet b next) :
      Quiet b (next.loadStructs defs).1
  | createPoller {next last : Bridge} {poller : PollerConfig} (h : Quiet b next)
      (hadded : next.createPoller poller = .ok last) : Quiet b last
  | register {next last : Bridge} {text : String} {v : Registered} (h : Quiet b next)
      (hadded : next.register text = .ok (last, v)) : Quiet b last
  | merge {next : Bridge} (h : Quiet b next) : Quiet b next.merge.1
  | poll {next last : Bridge} {group : String} {samples : List Sample} (h : Quiet b next)
      (hpolled : next.poll group = .ok (last, samples)) : Quiet b last
  | start {next : Bridge} (h : Quiet b next) : Quiet b next.start

/-- **A merged bridge presents a value** as it is, to a controller that stores given octets. -/
structure Presents (v : Registered) (memory : List (String × Buffer)) (zone : BitVec 64)
    (b : Bridge) : Prop where
  sound : b.Sound true
  held : AllHeld b.plc b.registry.values
  staffed : b.Staffed
  value : v ∈ b.registry.values
  memory : b.plc.memory = memory
  zone : b.config.zone = zone

variable {b next later : Bridge} {v : Registered} {memory : List (String × Buffer)}
  {zone : BitVec 64} {ref : TagRef}

namespace Presents

/-- Registering another value. -/
theorem register (h : Presents v memory zone b) {text : String} {u : Registered}
    (hadded : b.register text = .ok (next, u)) : Presents v memory zone next := by
  have hsound := h.sound.register hadded
  have hstaffed := h.staffed.register hadded
  obtain ⟨registry, plc, hregister, rfl⟩ := added_eq_ok hadded
  obtain ⟨hgrows, hheld⟩ := h.held.register hregister
  obtain ⟨_, _, -, -, -, rfl⟩ := register_eq_ok hregister
  refine ⟨hsound, ?_, hstaffed, ?_, ?_, ?_⟩
  · rw [registry_withAdded, plc_withAdded]
    exact hheld
  · rw [registry_withAdded]
    exact List.mem_append_left _ h.value
  · rw [plc_withAdded, hgrows.memory, h.memory]
  · rw [config_withAdded, h.zone]

/-- A pass leaves a value alone that an earlier pass has left alone. -/
theorem merge (h : Presents v memory zone b) (hshares : v.state.sharesBuffer = false) :
    Presents v memory zone b.merge.1 := by
  obtain ⟨parsed, passes, hreached⟩ := h.sound.registry
  have hrequested := hreached.sound.requested (h.sound.published rfl).2 v h.value
  obtain ⟨w, hw, hsurvives⟩ := h.sound.exists_survives h.value
  obtain ⟨hmemory, -, hconfig⟩ := kept_merge h.held
  have hsame := hsurvives.alone hshares hrequested
  exact ⟨h.sound.merge, held_merge h.held, h.staffed.merge h.sound, hsame ▸ hw,
    hmemory.trans h.memory, (congrArg Config.zone hconfig).trans h.zone⟩

/-- A poll stores nothing. -/
theorem polled (h : Presents v memory zone b) (snapshot : Snapshot) (group : String)
    (spread : Bool) : Presents v memory zone (b.pollPublished snapshot group spread).1 where
  sound := h.sound.continues (continues_pollPublished b snapshot group spread)
  held := by
    rw [registry_pollPublished]
    exact h.held.mono (upholds_pollPublished b snapshot group spread)
  staffed := h.staffed.of_same (sameScope_pollPublished b snapshot group spread)
  value := by
    rw [registry_pollPublished]
    exact h.value
  memory := by rw [plc_pollPublished, memory_readAll, h.memory]
  zone := by rw [config_pollPublished, h.zone]

end Presents

/-- **As long as nothing is written**, a value that no pass has merged is presented as before. -/
theorem Quiet.presents (hquiet : Quiet b later) (hshares : v.state.sharesBuffer = false)
    (h : Presents v memory zone b) : Presents v memory zone later := by
  induction hquiet with
  | refl => exact h
  | @loadStructs next defs _ ih =>
    exact ⟨ih.sound.scope next.registry.pollers _ next.pollers, ih.held,
      ih.staffed.of_same ⟨rfl, rfl, rfl⟩, ih.value, ih.memory, ih.zone⟩
  | createPoller _ hadded ih =>
    have hsound := ih.sound.createPoller hadded
    have hstaffed := ih.staffed.createPoller hadded
    rw [createPoller_eq_ok hadded] at hsound hstaffed ⊢
    exact ⟨hsound, ih.held, hstaffed, ih.value, ih.memory, ih.zone⟩
  | register _ hadded ih => exact ih.register hadded
  | merge _ ih => exact ih.merge hshares
  | poll _ hpolled ih =>
    obtain ⟨snapshot, spread, -, -, rfl, -⟩ := poll_eq_ok hpolled
    exact ih.polled snapshot _ spread
  | start _ ih =>
    exact start_keeps (P := Presents v memory zone)
      (fun b hb => ⟨hb.sound.continues ⟨rfl, rfl, rfl⟩, hb.held,
        hb.staffed.of_same ⟨rfl, rfl, rfl⟩, hb.value, hb.memory, hb.zone⟩)
      (fun b snapshot group spread hb => hb.polled snapshot group spread)
      (fun hb => hb.merge hshares) ih

end Bridge

/-! ## What a poll tells of a value -/

/-- A value stands alone among values with distinct identifiers. -/
theorem filter_id_eq {values : List Registered} (hids : (values.map Registered.id).Nodup)
    {v : Registered} (hv : v ∈ values) : values.filter (fun u => u.id = v.id) = [v] := by
  induction values with
  | nil => cases hv
  | cons first rest ih =>
    rw [List.map_cons, List.nodup_cons] at hids
    rcases List.mem_cons.mp hv with rfl | hv
    · have hrest : rest.filter (fun u => u.id = v.id) = [] := by
        rw [List.filter_eq_nil_iff]
        intro u hu hid
        exact hids.1 (of_decide_eq_true hid ▸ List.mem_map_of_mem hu)
      rw [List.filter_cons_of_pos (by simp), hrest]
    · have hne : first.id ≠ v.id := fun heq => hids.1 (heq ▸ List.mem_map_of_mem hv)
      rw [List.filter_cons_of_neg (by simpa using hne), ih hids.2 hv]

namespace Bridge

variable {b later : Bridge} {v : Registered} {memory : List (String × Buffer)} {zone : BitVec 64}
  {ref : TagRef}

/-- **A poll reads an unmerged value from its own tag**, and tells what is stored under its name. -/
theorem Presents.poll_eq (h : Presents v memory zone b) (hrunning : b.stopped = false)
    (hshares : v.state.sharesBuffer = false) (href : v.tag = some ref) {stored : Buffer}
    (hanswers : b.plc.Answers (tagNameOf v.connection) stored) {result : Value}
    (hdecode : decode stored v.descriptor ⟨false, zone⟩ = .ok result) :
    ∃ next samples, b.poll v.poller = .ok (next, samples) ∧
      samples.filter (fun sample => sample.id = v.id) = [.success v.id result] := by
  obtain ⟨parsed, passes, hreached⟩ := h.sound.registry
  obtain ⟨d, hd⟩ := hreached.sound.exists_sound h.value
  have own := hd.unmerged hshares
  obtain ⟨spread, hspread⟩ := exists_spreads_of_mem (h.staffed.mem_groups h.value)
  have hpoll : b.poll v.poller = .ok (b.pollPublished b.registry.snapshot v.poller spread) := by
    unfold Bridge.poll
    rw [(h.sound.published rfl).1, hspread]
  refine ⟨(b.pollPublished b.registry.snapshot v.poller spread).1,
    (b.pollPublished b.registry.snapshot v.poller spread).2, hpoll, ?_⟩
  have hgroup : v ∈ b.registry.snapshot.group v.poller :=
    List.mem_filter.mpr ⟨h.value, beq_self_eq_true v.poller⟩
  have hids : ((b.registry.snapshot.group v.poller).map Registered.id).Nodup :=
    hreached.sound.ids_nodup.sublist (List.filter_sublist.map Registered.id)
  have hread := mem_readers hgroup own.reads href
  -- every value of the group has a sample, and the one of this value is what was read of its tag
  have hsamples : (b.pollPublished b.registry.snapshot v.poller spread).2 =
      (b.registry.snapshot.group v.poller).map (sampleOf (readAll b.plc
        (readers (b.registry.snapshot.group v.poller))) (b.pollOptions spread)) := by
    unfold pollPublished
    rw [Poll.run_eq_map, hrunning]
    rfl
  rw [hsamples, List.filter_map]
  have hsame : ((fun sample : Sample => decide (sample.id = v.id)) ∘
      sampleOf (readAll b.plc (readers (b.registry.snapshot.group v.poller)))
        (b.pollOptions spread)) = fun u => decide (u.id = v.id) :=
    funext fun u => by rw [Function.comp_apply, Poll.id_sampleOf]
  rw [hsame, filter_id_eq hids hgroup, List.map_singleton,
    sampleOf_readAll _ href (h.held v h.value ref href).backs ((own.own ref href).symm ▸ hanswers)
      hread]
  unfold reading
  rw [hshares, show (b.pollOptions spread).zone = zone from h.zone, hdecode]

end Bridge

/-- **A write that succeeds is seen by the next poll**, and by all polls until something else is
written, of a bridge that has gone through a merge pass. The value is one that no pass has merged, of
a kind that is read back from its own tag; the octets of the tag have addresses. -/
theorem write_seen {b later : Bridge} (h : Bridge.Reached true b) {v : Registered}
    (hv : v ∈ b.registry.values) (hmaster : v.state ≠ .master) (hoptimised : v.state ≠ .optimised)
    {ref : TagRef} (href : v.tag = some ref) {value : Value}
    (hwrite : (b.write v.id value).2 = .ok ())
    (hback : ∀ stored, (b.write v.id value).1.plc.stored? (tagNameOf v.connection) = some stored →
      v.descriptor.ReadsBack value stored ∧ stored.length < wordLimit)
    (hlater : (b.write v.id value).1.Quiet later) (hrunning : later.stopped = false) :
    ∃ next samples, later.poll v.poller = .ok (next, samples) ∧
      samples.filter (fun sample => sample.id = v.id) =
        [.success v.id (value.storedAs v.descriptor.type)] := by
  have hshares : v.state.sharesBuffer = false := by
    cases hstate : v.state with
    | master => exact absurd hstate hmaster
    | optimised => exact absurd hstate hoptimised
    | _ => rfl
  obtain ⟨parsed, passes, hreached⟩ := h.sound.registry
  obtain ⟨d, hd⟩ := hreached.sound.exists_sound hv
  have hown : Bridge.ownDescriptor v = v.descriptor := by
    unfold Bridge.ownDescriptor
    rw [(hd.unmerged hshares).alone]
    rfl
  rcases h.write_cases hv value with ⟨-, hfailed⟩ | ⟨handle, tag, hwritten⟩
  · rw [hfailed] at hwrite
    cases hwrite
  rcases hwritten.cases with ⟨_, hfailed, -⟩ | ⟨htimeout, herror, changed, hencode, -, hmemory⟩
  · cases hwrite.symm.trans hfailed
  have hstored : Keyed.find? (tagNameOf v.connection)
      (b.write v.id value).1.plc.memory = some changed := by
    rw [hmemory, Keyed.find?_assign, if_pos rfl]
  obtain ⟨hreads, hsize⟩ := hback changed hstored
  rw [hown] at hencode
  have hdecode := decode_of_encode hencode hreads hsize
  have hcontinues := Bridge.continues_write b v.id value
  have hnext : Bridge.Presents v (b.write v.id value).1.plc.memory b.config.zone
      (b.write v.id value).1 :=
    ⟨(h.write v.id value).sound, (h.write v.id value).held, (h.write v.id value).staffed,
      hcontinues.registry ▸ hv, rfl, congrArg Config.zone hcontinues.config⟩
  have hpresents := hlater.presents hshares hnext
  refine hpresents.poll_eq hrunning hshares href ⟨?_, htimeout, herror⟩ hdecode
  rw [Plc.stored?, hpresents.memory, hstored]

/-- A level is written, and the next poll tells it. -/
theorem write_seen_level :
    (pumpBridge.write ⟨3⟩ (.number ⟨.integer true .two, 300⟩)).2 = .ok () ∧
    ∃ next samples,
      (pumpBridge.write ⟨3⟩ (.number ⟨.integer true .two, 300⟩)).1.poll initPoller =
        .ok (next, samples) ∧
      samples.filter (fun sample => sample.id = ⟨3⟩) =
        [.success ⟨3⟩ (.number ⟨.integer true .four, 300⟩)] := by
  obtain ⟨hlevel, hwrite, hstores, hrunning⟩ :
      (pumpBridge.registry.find? ⟨3⟩).map (fun v =>
        (v.id, v.descriptor, v.state, v.tag, tagNameOf v.connection)) = some (⟨3⟩, sumpLevel,
          .doNotOptimise, some ⟨3, sumpLevel.connection pumpRoute⟩, "Level") ∧
      (pumpBridge.write ⟨3⟩ (.number ⟨.integer true .two, 300⟩)).2 = .ok () ∧
      (pumpBridge.write ⟨3⟩ (.number ⟨.integer true .two, 300⟩)).1.plc.stored? "Level" =
        some [44, 1, 0, 0] ∧
      (pumpBridge.write ⟨3⟩ (.number ⟨.integer true .two, 300⟩)).1.stopped = false := by
    decide +kernel
  obtain ⟨v, hfind, heq⟩ := Option.map_eq_some_iff.mp hlevel
  obtain ⟨hid, hdescriptor, hstate, htag, hname⟩ : v.id = ⟨3⟩ ∧ v.descriptor = sumpLevel ∧
      v.state = .doNotOptimise ∧ v.tag = some ⟨3, sumpLevel.connection pumpRoute⟩ ∧
      tagNameOf v.connection = "Level" := by
    simpa only [Prod.mk.injEq] using heq
  have hpoller : v.poller = initPoller := by
    unfold Registered.poller
    rw [hdescriptor]
    rfl
  have hv : v ∈ pumpBridge.registry.values :=
    (reached_pumpBridge.numbered.find?_eq_some_iff.mp hfind).1
  have hseen := write_seen reached_pumpBridge hv
    (by rw [hstate]; exact nofun) (by rw [hstate]; exact nofun) htag (by rw [hid]; exact hwrite)
    (fun stored hstored => by
      rw [hid, hname, hstores] at hstored
      cases hstored
      rw [hdescriptor]
      exact ⟨trivial, by decide +kernel⟩)
    .refl (by rw [hid]; exact hrunning)
  rw [hid, hpoller, hdescriptor] at hseen
  exact ⟨hwrite, hseen⟩

end PlcTags

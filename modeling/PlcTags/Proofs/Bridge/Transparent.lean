import PlcTags.Proofs.Bridge.Readings
import PlcTags.Proofs.Codec.Field
import PlcTags.Proofs.Registry.Merge

/-!
# Merging does not change what is read

A merge pass that moves nothing to slices changes the tags that values are read from, but no
sample: a value that joined a shared tag finds there, at its offset, what it found in its own tag.
This holds as far as the memory of the controller is coherent, and whichever shared tags could be
created.

* `Coherent`: the tags answer, and what is stored for a member of a structure is a part of what is
  stored for the structure.
* `settled_cases`: a value keeps its own tag, or it reads the tag of its group.
* `decode_member`, `decode_parent`: a value is decoded alike from both.
* `Settled.reading_eq`: so its sample is the same.
-/

namespace PlcTags

open Registry
open PlcTags.Text (wordLimit)

/-- **The memory of the controller is coherent** for the values of a registry. -/
structure Coherent (route : String) (threshold : Nat) (r : Registry) (plc : Plc) : Prop where
  /-- Own tags answer. -/
  own : ∀ v ∈ r.values, ∃ stored, plc.Answers (tagName route v.descriptor.tag) stored
  /-- Parent tags answer, if they can be created. -/
  parents : ∀ group ∈ (r.plan threshold).groups,
    plc.admits (tagName route group.parent) = true →
      ∃ stored, plc.Answers (tagName route group.parent) stored
  /-- The tag of a member begins with the field that its parent has at the offset of the member. -/
  members : ∀ v ∈ r.values, ∀ parent own shared, v.descriptor.liesInParent = true →
    dottedParent? v.descriptor.tag = some parent →
    plc.stored? (tagName route v.descriptor.tag) = some own →
    plc.stored? (tagName route parent) = some shared →
    (v.descriptor.field {}).Agree own 0 shared v.descriptor.offset
  /-- Tags fit the memory of a process: all their bits have addresses of 64 bits. -/
  addressable : ∀ name stored, plc.stored? name = some stored → 8 * stored.length ≤ wordLimit

theorem Plc.Answers.of_memory {plc next : Plc} {name : String} {stored : Buffer}
    (h : plc.Answers name stored) (hmemory : next.memory = plc.memory) :
    next.Answers name stored := by
  refine ⟨?_, h.completes, h.wellFormed⟩
  unfold Plc.stored?
  rw [hmemory]
  exact h.memory

theorem Plc.storedFor_eq {plc : Plc} {v : Registered} {ref : TagRef} {stored : Buffer}
    (href : v.tag = some ref) (h : plc.Answers (tagNameOf ref.connection) stored) :
    plc.storedFor v = stored := by
  unfold Plc.storedFor
  rw [href, Option.bind_some, h.memory, Option.getD_some]

/-! ## Decoding from a shared tag -/

/-- Options matter to the place of a string and to nothing else of a field. -/
theorem Descriptor.agree_field {d : Descriptor} (h : d.type ≠ .string) {options : DecodeOptions}
    {buffer₁ buffer₂ : Buffer} {base₁ base₂ : Nat}
    (hagree : (d.field {}).Agree buffer₁ base₁ buffer₂ base₂) :
    (d.field options).Agree buffer₁ base₁ buffer₂ base₂ := by
  unfold Descriptor.field at hagree ⊢
  cases htype : d.type <;> rw [htype] at hagree <;> first | exact absurd htype h | exact hagree

theorem Descriptor.field_shared {d : Descriptor} (h : d.type ≠ .string) (zone : BitVec 64) :
    d.field ⟨true, zone⟩ = d.field ⟨false, zone⟩ := by
  unfold Descriptor.field
  cases htype : d.type <;> first | exact absurd htype h | rfl

/-- **A member of a structure** is decoded alike from its own tag and from the tag of its parent. -/
theorem decode_member {d : Descriptor} {own shared : Buffer} {zone : BitVec 64}
    (htype : d.type ≠ .string) (hmember : d.liesInParent = true)
    (hown : 8 * own.length ≤ wordLimit) (hshared : 8 * shared.length ≤ wordLimit)
    (hagree : (d.field {}).Agree own 0 shared d.offset) :
    decode shared d ⟨true, zone⟩ = decode own d ⟨false, zone⟩ := by
  have hbase : d.base ⟨false, zone⟩ = 0 := by
    unfold Descriptor.base
    rw [hmember]
    rfl
  rw [decode_eq_read, decode_eq_read, Descriptor.field_shared htype, hbase]
  exact (Field.read_eq_of_agree hown hshared (Descriptor.agree_field htype hagree)).symm

/-- A value that is no member of a structure keeps its offset in a shared tag. -/
theorem decode_parent {d : Descriptor} {own : Buffer} {zone : BitVec 64}
    (htype : d.type ≠ .string) (hparent : d.liesInParent = false) :
    decode own d ⟨true, zone⟩ = decode own d ⟨false, zone⟩ := by
  have hbase : d.base ⟨false, zone⟩ = d.base ⟨true, zone⟩ := by
    unfold Descriptor.base
    rw [hparent]
    rfl
  rw [decode_eq_read, decode_eq_read, Descriptor.field_shared htype, hbase]

/-- The parent of a value that lies in one is the dotted one; the parent of another is itself. -/
theorem Descriptor.mergeParent?_cases {d : Descriptor} {parent : String}
    (h : d.mergeParent? = some parent) :
    (d.liesInParent = true ∧ dottedParent? d.tag = some parent) ∨
      (d.liesInParent = false ∧ d.tag = parent) := by
  unfold Descriptor.mergeParent? at h
  split at h
  · cases h
  · unfold Descriptor.parent? at h
    unfold Descriptor.liesInParent
    cases hoptimise : d.attributes.optimise with
    | true =>
      rw [hoptimise] at h
      exact Or.inr ⟨rfl, Option.some.inj h⟩
    | false =>
      rw [hoptimise] at h
      replace h : dottedParent? d.tag = some parent := h
      exact Or.inl ⟨by rw [h]; rfl, h⟩

/-! ## The two registries -/

section

variable {route : String} {threshold : Nat} {r : Registry} {plc next : Plc}
  {done : List (Group × Option TagRef)} {values : List Registered}

theorem Intact.answers (h : Intact route r plc) (hcoherent : Coherent route threshold r plc)
    {v : Registered} (hv : v ∈ r.values) {ref : TagRef} (href : v.tag = some ref) :
    ∃ stored, plc.Answers (tagNameOf ref.connection) stored := by
  rw [h.own hv href]
  exact hcoherent.own v hv

/-- Before the pass every value reads its own tag. -/
theorem Intact.readable (h : Intact route r plc) (hcoherent : Coherent route threshold r plc)
    (htags : ∀ v ∈ r.values, v.tag.isSome = true) : Readable plc r.values := by
  intro v hv
  obtain ⟨ref, href⟩ := Option.isSome_iff_exists.mp (htags v hv)
  obtain ⟨stored, hanswers⟩ := h.answers hcoherent hv href
  exact ⟨ref, stored, href, h.served v hv ref href, hanswers, v, hv, rfl,
    (h.untouched v hv).reads, href⟩

/-- What the pass makes of a value. -/
def afterPass (threshold : Nat) (r : Registry) (done : List (Group × Option TagRef))
    (v : Registered) : Registered :=
  settle done (leftAlone (r.plan threshold).notMerged v)

@[simp] theorem id_afterPass (v : Registered) : (afterPass threshold r done v).id = v.id :=
  (id_settle _ _).trans (id_leftAlone _ _)

@[simp] theorem descriptor_afterPass (v : Registered) :
    (afterPass threshold r done v).descriptor = v.descriptor :=
  (descriptor_settle _ _).trans (descriptor_leftAlone _ _)

variable (threshold done) in
/-- **A value keeps its own tag, or it reads the tag of its group.** -/
theorem settled_cases (h : Intact route r plc) {v : Registered} (hv : v ∈ r.values) :
    ((afterPass threshold r done v).tag = v.tag ∧
      (afterPass threshold r done v).readFlag = true ∧
      (afterPass threshold r done v).state.sharesBuffer = false) ∨
    ∃ group tag, (group, some tag) ∈ done ∧ v.id ∈ group.members ∧
      (afterPass threshold r done v).tag = some tag ∧
      (afterPass threshold r done v).state.sharesBuffer = true := by
  have hreads := (readFlag_leftAlone (r.plan threshold).notMerged v).trans (h.untouched v hv).reads
  have htag := tag_leftAlone (r.plan threshold).notMerged v
  rcases settle_cases done (leftAlone (r.plan threshold).notMerged v) with
    heq | ⟨⟨group, outcome⟩, hentry, hmember, heq⟩
  · refine Or.inl ?_
    unfold afterPass
    rw [heq]
    refine ⟨htag, hreads, ?_⟩
    unfold leftAlone
    split
    · rfl
    · rw [(h.untouched v hv).state]
      rfl
  · rw [id_leftAlone] at hmember
    unfold afterPass
    rw [heq]
    cases outcome with
    | none => exact Or.inl ⟨htag, hreads, rfl⟩
    | some tag =>
      refine Or.inr ⟨group, tag, hentry, hmember, rfl, ?_⟩
      show (if _ then MergeState.master else MergeState.optimised).sharesBuffer = true
      split <;> rfl

/-- The master of a group with a tag reads it for the whole group. -/
theorem Settled.exists_reader (h : Intact route r plc)
    (hs : Settled route threshold r plc done values next) {v : Registered} (hv : v ∈ r.values)
    {group : Group} {tag : TagRef} (hentry : (group, some tag) ∈ done)
    (hmember : v.id ∈ group.members) :
    ∃ reader ∈ values, reader.poller = v.poller ∧ reader.readFlag = true ∧
      reader.tag = some tag := by
  have hholds := hs.holds _ hentry
  obtain ⟨d, hd, -, hpoller⟩ := hholds.member v.id hmember
  obtain ⟨dm, hdm, -, hmasterPoller⟩ := hholds.member group.master hholds.master
  obtain ⟨u, hu, heq⟩ := List.mem_map.mp hdm
  obtain ⟨huid, hudescriptor⟩ := Prod.mk.inj heq
  obtain rfl : d = v.descriptor := descriptor_of_mem_planned h.ids_nodup hv hd
  have hsettle : afterPass threshold r done u =
      group.settled (some tag) (leftAlone (r.plan threshold).notMerged u) :=
    settle_of_mem hs.disjoint hentry (by rw [id_leftAlone, huid]; exact hholds.master)
  refine ⟨afterPass threshold r done u, hs.settled ▸ List.mem_map_of_mem hu, ?_, ?_, ?_⟩
  · show (afterPass threshold r done u).descriptor.pollerName = v.descriptor.pollerName
    rw [descriptor_afterPass, hudescriptor, hmasterPoller, hpoller]
  · rw [hsettle]
    show decide ((leftAlone _ u).id = group.master) = true
    rw [id_leftAlone, huid, decide_eq_true_eq]
  · rw [hsettle]
    rfl

/-- The tag of a group answers: a value has it as its own, or it could be created. -/
theorem Settled.answers (h : Intact route r plc) (hcoherent : Coherent route threshold r plc)
    (hs : Settled route threshold r plc done values next) {v : Registered} (hv : v ∈ values)
    {group : Group} {tag : TagRef} (hentry : (group, some tag) ∈ done) (htag : v.tag = some tag) :
    ∃ stored, plc.Answers (tagName route group.parent) stored := by
  have hname := hs.named _ hentry tag rfl
  rcases hs.known v hv tag htag with ⟨u, hu, own, hown, heq⟩ | hadmits
  · obtain ⟨stored, hanswers⟩ := h.answers hcoherent hu hown
    exact ⟨stored, hname ▸ heq ▸ hanswers⟩
  · rw [hname] at hadmits
    exact hcoherent.parents group (hs.groups ▸ List.mem_map_of_mem hentry) hadmits

/-- After the pass every value can be read too. -/
theorem Settled.readable (h : Intact route r plc) (hcoherent : Coherent route threshold r plc)
    (htags : ∀ v ∈ r.values, v.tag.isSome = true)
    (hs : Settled route threshold r plc done values next) : Readable next values := by
  intro v' hv'
  obtain ⟨v, hv, rfl⟩ := List.mem_map.mp (hs.settled ▸ hv')
  have hpoller : (afterPass threshold r done v).poller = v.poller :=
    congrArg Descriptor.pollerName (descriptor_afterPass v)
  rcases settled_cases threshold done h hv with
    ⟨htag, hreads, -⟩ | ⟨group, tag, hentry, hmember, htag, -⟩
  · obtain ⟨ref, href⟩ := Option.isSome_iff_exists.mp (htags v hv)
    obtain ⟨stored, hanswers⟩ := h.answers hcoherent hv href
    exact ⟨ref, stored, htag.trans href, hs.served _ hv' ref (htag.trans href),
      hanswers.of_memory hs.memory, _, hv', rfl, hreads, htag.trans href⟩
  · obtain ⟨stored, hanswers⟩ := hs.answers h hcoherent hv' hentry htag
    obtain ⟨reader, hreader, hgroup, hreads, hreaderTag⟩ := hs.exists_reader h hv hentry hmember
    exact ⟨tag, stored, htag, hs.served _ hv' tag htag,
      (hs.named _ hentry tag rfl ▸ hanswers).of_memory hs.memory, reader, hreader,
      hgroup.trans hpoller.symm, hreads, hreaderTag⟩

/-- **One value**: what its tag holds after the pass gives the sample that its own tag gave. -/
theorem Settled.reading_eq (h : Intact route r plc) (hcoherent : Coherent route threshold r plc)
    (htags : ∀ v ∈ r.values, v.tag.isSome = true)
    (hs : Settled route threshold r plc done values next) {v : Registered} (hv : v ∈ r.values)
    (htype : v.descriptor.type ≠ .string) (options : PollOptions) :
    reading options (afterPass threshold r done v) (next.storedFor (afterPass threshold r done v)) =
      reading options v (plc.storedFor v) := by
  have hstate : v.state.sharesBuffer = false := by
    rw [(h.untouched v hv).state]
    rfl
  obtain ⟨ref, href⟩ := Option.isSome_iff_exists.mp (htags v hv)
  obtain ⟨own, hown⟩ := h.answers hcoherent hv href
  have hownMemory := h.own hv href ▸ hown.memory
  unfold reading
  rw [descriptor_afterPass, id_afterPass, hstate, Plc.storedFor_eq href hown]
  rcases settled_cases threshold done h hv with
    ⟨htag, -, hshares⟩ | ⟨group, tag, hentry, hmember, htag, hshares⟩
  · -- it still reads its own tag
    rw [hshares, Plc.storedFor_eq (htag.trans href) (hown.of_memory hs.memory)]
  · -- it reads the tag of its group, which has the name of its parent
    have hv' : afterPass threshold r done v ∈ values := hs.settled ▸ List.mem_map_of_mem hv
    have hname := hs.named _ hentry tag rfl
    obtain ⟨shared, hanswers⟩ := hs.answers h hcoherent hv' hentry htag
    have hshared : next.storedFor (afterPass threshold r done v) = shared :=
      Plc.storedFor_eq htag ((hname ▸ hanswers).of_memory hs.memory)
    obtain ⟨d, hd, hmerge, -⟩ := (hs.holds _ hentry).member v.id hmember
    obtain rfl : d = v.descriptor := descriptor_of_mem_planned h.ids_nodup hv hd
    have hdecode : decode shared v.descriptor ⟨true, options.zone⟩ =
        decode own v.descriptor ⟨false, options.zone⟩ := by
      rcases Descriptor.mergeParent?_cases hmerge with ⟨hlies, hdotted⟩ | ⟨halone, hparent⟩
      · exact decode_member htype hlies (hcoherent.addressable _ _ hownMemory)
          (hcoherent.addressable _ _ hanswers.memory)
          (hcoherent.members v hv _ _ _ hlies hdotted hownMemory hanswers.memory)
      · rw [hparent] at hownMemory
        obtain rfl : shared = own :=
          Option.some.inj (hanswers.memory.symm.trans hownMemory)
        exact decode_parent htype halone
    rw [hshares, hshared, hdecode]

theorem group_map {change : Registered → Registered} (poller : String)
    (hpoller : ∀ v, (change v).poller = v.poller) :
    (Snapshot.mk (r.values.map change)).group poller =
      ((Snapshot.mk r.values).group poller).map change := by
  unfold Snapshot.group
  rw [List.filter_map]
  congr 2
  funext v
  rw [Function.comp_apply, hpoller]

end

/-- **Merging does not change what is read.** For values without strings, each with its own tag, on
a controller with coherent memory: if nothing is moved to slices, then polls give the samples after
the pass that they would have given without it. Shared tags that cannot be created change nothing. -/
theorem sweep_merge {route : String} {threshold : Nat} {r : Registry} {plc : Plc}
    (henrolled : Enrolled route r plc) (htypes : ∀ v ∈ r.values, v.descriptor.type ≠ .string)
    (htags : ∀ v ∈ r.values, v.tag.isSome = true) (hcoherent : Coherent route threshold r plc)
    (hslices : (r.merge plc route threshold).2.2.slices = 0) (polls : List (String × PollOptions)) :
    sweep (r.merge plc route threshold).1.snapshot (r.merge plc route threshold).2.1 polls =
      sweep r.snapshot plc polls := by
  have h := henrolled.intact
  obtain ⟨done, hs⟩ := h.settled hslices
  have hvalues : (r.merge plc route threshold).1.values =
      r.values.map (afterPass threshold r done) := hs.settled
  have hafter := sweep_eq (hs.readable h hcoherent htags) polls
  refine hafter.trans ((sweep_eq (h.readable hcoherent htags) polls).trans ?_).symm
  refine List.map_congr_left fun poll _ => ?_
  rw [hvalues, group_map poll.1 fun v => congrArg Descriptor.pollerName (descriptor_afterPass v),
    List.map_map]
  refine List.map_congr_left fun v hv => ?_
  have hmem := (List.mem_filter.mp hv).1
  exact (hs.reading_eq h hcoherent htags hmem (htypes v hmem) poll.2).symm

/-! ## Two members of a tank -/

/-- A member of the tank, at an offset of the tank. -/
def tankMember (member : String) (type : DataType) (offset : Nat) : Descriptor where
  poller := none
  tag := "Tank." ++ member
  startIndex := none
  type := type
  count := 1
  source := .literal offset
  offset := offset
  bitAddressed := false
  attributes := .defaults false
  extras := "&allow_packing=1"

def tankRoute : String := "protocol=ab_eip"

/-- The value of a member after its registration. -/
def tankValue (number : Nat) (d : Descriptor) : Registered where
  id := ⟨number⟩
  descriptor := d
  connection := d.connection tankRoute
  state := .notRequested
  tag := some ⟨number, d.connection tankRoute⟩
  readFlag := true
  creationError := none
  elementOffset := none

def tankLevel : Registered := tankValue 1 (tankMember "Level" .dint 0)

def tankValve : Registered := tankValue 2 (tankMember "Valve" .int 4)

/-- The registry after the first registration. -/
def levelRegistry : Registry := Registry.append { ids := .counting } tankLevel

def tankRegistry : Registry := levelRegistry.append tankValve

def tankPlc : Plc where
  tags := [(1, ⟨"Tank.Level", .ok, [1, 2, 3, 4]⟩), (2, ⟨"Tank.Valve", .ok, [5, 6]⟩)]
  memory := [("Tank", [1, 2, 3, 4, 5, 6]), ("Tank.Level", [1, 2, 3, 4]), ("Tank.Valve", [5, 6])]
  created := 2

theorem enrolled_tank : Enrolled tankRoute tankRegistry tankPlc := by
  have hlevel : Registry.register { ids := .counting } { memory := tankPlc.memory } tankRoute
      "Tank.Level DINT none 0 none" = .ok (levelRegistry,
        { tankPlc with tags := [(1, ⟨"Tank.Level", .ok, [1, 2, 3, 4]⟩)], created := 1 },
        tankLevel) := by
    with_unfolding_all rfl
  have hvalve : levelRegistry.register
      { tankPlc with tags := [(1, ⟨"Tank.Level", .ok, [1, 2, 3, 4]⟩)], created := 1 } tankRoute
      "Tank.Valve INT none 4 none" = .ok (tankRegistry, tankPlc, tankValve) := by
    with_unfolding_all rfl
  exact .register (.register (.start .counting tankPlc.memory []) hlevel) hvalve

theorem coherent_tank : Coherent tankRoute 2 tankRegistry tankPlc where
  own v hv := by
    rcases List.mem_cons.mp hv with rfl | hv
    · exact ⟨[1, 2, 3, 4], by decide +kernel, by decide +kernel, by decide +kernel⟩
    · rw [List.mem_singleton.mp hv]
      exact ⟨[5, 6], by decide +kernel, by decide +kernel, by decide +kernel⟩
  parents group hgroup _ := by
    have hgroups : (tankRegistry.plan 2).groups =
        [⟨initPoller, "Tank", ⟨1⟩, [⟨1⟩, ⟨2⟩], false⟩] := by
      decide +kernel
    rw [hgroups, List.mem_singleton] at hgroup
    subst hgroup
    exact ⟨[1, 2, 3, 4, 5, 6], by decide +kernel, by decide +kernel, by decide +kernel⟩
  members v hv parent own shared _ hparent hown hshared := by
    have htank : tankPlc.stored? (tagName tankRoute "Tank") = some [1, 2, 3, 4, 5, 6] := by
      decide +kernel
    rcases List.mem_cons.mp hv with rfl | hv
    · have hlevel : tankPlc.stored? (tagName tankRoute "Tank.Level") = some [1, 2, 3, 4] := by
        decide +kernel
      have htag : dottedParent? "Tank.Level" = some "Tank" := by decide +kernel
      cases htag.symm.trans hparent
      cases hlevel.symm.trans hown
      cases htank.symm.trans hshared
      exact ⟨4, rfl, by decide, show Buffer.Agree _ _ _ _ _ from ⟨by decide, by decide, by decide⟩⟩
    · obtain rfl := List.mem_singleton.mp hv
      have hvalve : tankPlc.stored? (tagName tankRoute "Tank.Valve") = some [5, 6] := by
        decide +kernel
      have htag : dottedParent? "Tank.Valve" = some "Tank" := by decide +kernel
      cases htag.symm.trans hparent
      cases hvalve.symm.trans hown
      cases htank.symm.trans hshared
      exact ⟨2, rfl, by decide, show Buffer.Agree _ _ _ _ _ from ⟨by decide, by decide, by decide⟩⟩
  addressable name stored h := by
    have hmem := Keyed.mem_of_find? h
    simp only [tankPlc, List.mem_cons, Prod.mk.injEq, List.not_mem_nil, or_false] at hmem
    rcases hmem with ⟨-, rfl⟩ | ⟨-, rfl⟩ | ⟨-, rfl⟩ <;> decide

/-- The two are read through one tag of the tank. -/
theorem sweep_merge_tank :
    (tankRegistry.merge tankPlc tankRoute 2).2.2.values = 1 ∧
    sweep (tankRegistry.merge tankPlc tankRoute 2).1.snapshot
        (tankRegistry.merge tankPlc tankRoute 2).2.1 [(initPoller, ⟨1000, 0, false⟩)] =
      sweep tankRegistry.snapshot tankPlc [(initPoller, ⟨1000, 0, false⟩)] :=
  ⟨by decide +kernel, sweep_merge enrolled_tank (by decide) (by decide) coherent_tank
    (by decide +kernel) _⟩

end PlcTags

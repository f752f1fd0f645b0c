import PlcTags.Proofs.Registry.Index
import PlcTags.Proofs.Transport.Tags

/-!
# Registries before their first merge

What registering values leads to, on a controller whose memory and whose willingness to create tags
may change at any time (`Enrolled`): every value reads its own tag (`Untouched`), and the tags live
(`Enrolled.intact`).

* `obtainTag_cases`: a tag is created only if no value holds one of its creation text.
* `obtainTag_spec`: a tag for a creation text lives under its name, and other tags stay.
-/

namespace PlcTags

open Registry

/-! ## Obtaining tags -/

/-- The controller keeps its live tags, its memory and what it refuses. -/
structure Plc.Continues (next plc : Plc) : Prop where
  tags : next.Extends plc
  memory : next.memory = plc.memory
  refused : next.refused = plc.refused

theorem Plc.Continues.refl (plc : Plc) : plc.Continues plc :=
  ⟨Plc.Extends.refl plc, rfl, rfl⟩

theorem Plc.Continues.trans {last next first : Plc} (h : last.Continues next)
    (h' : next.Continues first) : last.Continues first :=
  ⟨fun handle tag htag => h.tags handle tag (h'.tags handle tag htag), h.memory.trans h'.memory,
    h.refused.trans h'.refused⟩

theorem Plc.Fresh.continues_withNew {plc : Plc} (h : plc.Fresh) (connection : String) :
    (plc.withNew connection).Continues plc :=
  ⟨h.extends_withNew connection, rfl, rfl⟩

/-- The tags of values live. -/
def Served (plc : Plc) (values : List Registered) : Prop :=
  ∀ v ∈ values, ∀ ref, v.tag = some ref → plc.Backs ref

namespace Registry

variable {values : List Registered} {plc next : Plc} {connection : String} {ref : TagRef}

theorem tagAmong?_eq_some (h : tagAmong? values connection = some ref) :
    ref.connection = connection ∧ ∃ v ∈ values, v.tag = some ref := by
  unfold tagAmong? at h
  obtain ⟨v, hv, href⟩ := List.mem_filterMap.mp (List.mem_of_find?_eq_some h)
  exact ⟨by simpa using List.find?_some h, v, hv, href⟩

theorem tagAmong?_eq_none_iff : tagAmong? values connection = none ↔
    ∀ v ∈ values, ∀ ref, v.tag = some ref → ref.connection ≠ connection := by
  unfold tagAmong?
  rw [List.find?_eq_none]
  constructor
  · intro h v hv ref htag
    simpa using h ref (List.mem_filterMap.mpr ⟨v, hv, htag⟩)
  · intro h ref href
    obtain ⟨v, hv, htag⟩ := List.mem_filterMap.mp href
    simpa using h v hv ref htag

/-- **Inversion** of obtaining a tag: a value holds one of the creation text, or none does and it is
created. -/
theorem obtainTag_cases {outcome : Except TransportError TagRef}
    (h : obtainTag values plc connection = (next, outcome)) :
    (next = plc ∧ ∃ held, outcome = .ok held ∧ held.connection = connection ∧
      ∃ v ∈ values, v.tag = some held) ∨
    ((∀ v ∈ values, ∀ ref, v.tag = some ref → ref.connection ≠ connection) ∧
      plc.create connection = (next, outcome)) := by
  unfold obtainTag at h
  split at h
  · next held hamong =>
    obtain ⟨rfl, rfl⟩ := Prod.mk.inj h
    exact .inl ⟨rfl, held, rfl, tagAmong?_eq_some hamong⟩
  · next hnone => exact .inr ⟨tagAmong?_eq_none_iff.mp hnone, h⟩

/-- **Obtaining a tag**: other tags stay, and a tag that is obtained lives under the name in its
creation text. Either a value has it already, or the controller lets it be created. -/
theorem obtainTag_spec {outcome : Except TransportError TagRef} (hfresh : plc.Fresh)
    (hserved : Served plc values) (h : obtainTag values plc connection = (next, outcome)) :
    next.Fresh ∧ next.Continues plc ∧ ∀ ref, outcome = .ok ref →
      ref.connection = connection ∧ next.Backs ref ∧
        ((∃ v ∈ values, v.tag = some ref) ∨ plc.admits (tagNameOf connection) = true) := by
  obtain ⟨rfl, held, rfl, hconnection, v, hv, htag⟩ | ⟨-, hcreate⟩ := obtainTag_cases h
  · refine ⟨hfresh, Plc.Continues.refl _, fun ref href => ?_⟩
    cases href
    exact ⟨hconnection, hserved v hv held htag, Or.inl ⟨v, hv, htag⟩⟩
  · cases outcome with
    | error cause =>
      rw [Plc.create_eq_error hcreate]
      exact ⟨hfresh, Plc.Continues.refl _, fun ref href => by cases href⟩
    | ok made =>
      obtain ⟨hadmits, rfl, rfl⟩ := Plc.create_eq_ok hcreate
      refine ⟨hfresh.withNew _, hfresh.continues_withNew _, fun ref href => ?_⟩
      cases href
      exact ⟨rfl, Plc.backs_withNew plc connection, Or.inr hadmits⟩

end Registry

/-! ## Registration -/

/-- **What registering leads to**, from an empty registry on a controller without tags. Between
registrations the pollers and the structures may change, and outside the driver the memory of the
controller and the names that it refuses. -/
inductive Enrolled (route : String) : Registry → Plc → Prop
  | start (ids : ValueId.Supply) (memory : List (String × Buffer)) (refused : List String) :
      Enrolled route { ids := ids } { memory := memory, refused := refused }
  | scope {r : Registry} {plc : Plc} (pollers : List String) (structs : Layout.Table)
      (h : Enrolled route r plc) :
      Enrolled route { r with pollers := pollers, structs := structs } plc
  | outside {r : Registry} {plc : Plc} (memory : List (String × Buffer)) (refused : List String)
      (h : Enrolled route r plc) :
      Enrolled route r { plc with memory := memory, refused := refused }
  | register {r next : Registry} {plc after : Plc} {text : String} {v : Registered}
      (h : Enrolled route r plc) (hadded : r.register plc route text = .ok (next, after, v)) :
      Enrolled route next after

/-- **A value as registration leaves it.** If it has a tag, then its own one. -/
structure Untouched (route : String) (v : Registered) : Prop where
  connection : v.connection = v.descriptor.connection route
  state : v.state = .notRequested
  reads : v.readFlag = true
  own : ∀ ref, v.tag = some ref → ref.connection = v.connection

/-- **A registry as registration leaves it**: the values are numbered, and their tags live. -/
structure Intact (route : String) (r : Registry) (plc : Plc) : Prop where
  unmerged : r.optimised = false
  numbered : r.Numbered
  untouched : ∀ v ∈ r.values, Untouched route v
  served : Served plc r.values
  fresh : plc.Fresh

variable {route : String} {r : Registry} {plc : Plc}

/-- One registration appends a value with its own tag. -/
theorem Intact.register {next : Registry} {after : Plc} {text : String} {v : Registered}
    (h : Intact route r plc) (hadded : r.register plc route text = .ok (next, after, v)) :
    Intact route next after := by
  unfold Registry.register at hadded
  obtain ⟨d, -, heq⟩ := map_eq_ok_iff.mp hadded
  cases hobtain : obtainTag r.values plc (d.connection route) with
  | mk created outcome =>
    rw [hobtain] at heq
    obtain ⟨rfl, rfl, rfl⟩ : r.append (r.newValue route d outcome) = next ∧ created = after ∧
        r.newValue route d outcome = v := by
      obtain ⟨hnext, hrest⟩ := Prod.mk.inj heq
      exact ⟨hnext, Prod.mk.inj hrest⟩
    obtain ⟨hfresh, hcontinues, hspec⟩ := obtainTag_spec h.fresh h.served hobtain
    have hown : ∀ ref, outcome.toOption = some ref →
        ref.connection = d.connection route ∧ created.Backs ref := by
      intro ref href
      cases outcome with
      | error cause => cases href
      | ok made =>
        cases href
        exact ⟨(hspec ref rfl).1, (hspec ref rfl).2.1⟩
    refine ⟨h.unmerged, h.numbered.append rfl, ?_, ?_, hfresh⟩
    · intro v hv
      rcases List.mem_append.mp hv with hv | hv
      · exact h.untouched v hv
      · rw [List.mem_singleton] at hv
        subst hv
        refine ⟨rfl, ?_, rfl, fun ref href => (hown ref href).1⟩
        show (if r.optimised then _ else _) = _
        rw [h.unmerged]
        rfl
    · intro v hv ref href
      rcases List.mem_append.mp hv with hv | hv
      · exact hcontinues.tags.backs (h.served v hv ref href)
      · rw [List.mem_singleton] at hv
        subst hv
        exact (hown ref href).2

/-- **Registration leaves values untouched**, whatever happens in between. -/
theorem Enrolled.intact (h : Enrolled route r plc) : Intact route r plc := by
  induction h with
  | start ids memory refused =>
    exact ⟨rfl, .start ids, fun v hv => (by cases hv), fun v hv => (by cases hv),
      fun handle tag htag => (by cases htag)⟩
  | scope pollers structs _ ih =>
    exact ⟨ih.unmerged, ih.numbered.of_same rfl rfl rfl, ih.untouched, ih.served, ih.fresh⟩
  | outside memory refused _ ih =>
    exact ⟨ih.unmerged, ih.numbered, ih.untouched, ih.served, ih.fresh⟩
  | register _ hadded ih => exact ih.register hadded

theorem Intact.ids_nodup (h : Intact route r plc) : (r.values.map Registered.id).Nodup :=
  h.numbered.ids_nodup

end PlcTags

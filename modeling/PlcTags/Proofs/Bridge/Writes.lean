import PlcTags.Proofs.Bridge.Fresh
import PlcTags.Proofs.Codec.Written
import PlcTags.Proofs.Registry.Kept

/-!
# What a write does

A write goes through the value's own tag, or through one that is made for it when the own tag serves
other values too. It comes to the same: what is stored under the name of the own tag is read, the
field of the value is changed in it, and the whole is stored again.

* `Bridge.writeEffect`: the memory and the outcome after a write through a tag.
* `Bridge.Reached.held`: all tags of registered values are held at any time.
* `Bridge.Reached.write_cases`: what a write of a registered value does.
* `write_isolated`: what it leaves alone.
-/

namespace PlcTags

open Poll

namespace Bridge

/-! ## Writing through a tag -/

/-- **What comes of a write through a tag**: the memory afterwards, and the outcome. -/
def writeEffect (plc : Plc) (handle : Nat) (tag : PlcTag) (d : Descriptor) (value : Value)
    (options : DecodeOptions) (timeoutMs : Nat) :
    List (String × Buffer) × Except BridgeError Unit :=
  if nameHas "timeout" tag.name then (plc.memory, .error (.transport (.timeout handle timeoutMs)))
  else if nameHas "error" tag.name then
    (plc.memory, .error (.transport (.status handle TagFault.badReply.code)))
  else
    match encode ((plc.stored? tag.name).getD tag.buffer) d value options with
    | (changed, .ok ()) => (Keyed.assign tag.name changed plc.memory, .ok ())
    | (_, .error cause) => (plc.memory, .error (.decode cause))

section

variable {plc : Plc} {tag : PlcTag} {timeoutMs : Nat}

/-- A write through a tag leaves the other tags alone, whatever comes of it. -/
theorem onlyAt_writeThrough (plc : Plc) (ref : TagRef) (d : Descriptor) (value : Value)
    (options : DecodeOptions) (timeoutMs : Nat) :
    Plc.OnlyAt ref.handle (writeThrough plc ref d value options timeoutMs).1 plc := by
  have hread := Plc.onlyAt_startRead plc ref.handle
  unfold writeThrough
  dsimp only
  split
  · exact hread
  · exact hread
  · next buffer _ _ =>
    have hencoded := Plc.OnlyAt.trans
      (Plc.onlyAt_setBuffer (plc.startRead ref.handle).1 ref.handle
        (encode buffer d value options).1) hread
    split
    · exact hencoded
    · exact Plc.OnlyAt.trans (Plc.onlyAt_startWrite _ _) hencoded

/-- What is awaited of a live tag is its status. -/
theorem await_of_tag? {handle : Nat} (h : plc.tag? handle = some tag) :
    plc.await handle .pending timeoutMs = match tag.status with
      | .ok => .ok ()
      | .failed code => .error (.status handle code)
      | .pending => .error (.timeout handle timeoutMs) := by
  cases hstatus : tag.status <;> simp only [Plc.await, Plc.status, h, hstatus]

/-- **Writing through a live tag** reads, encodes and stores. -/
theorem writeThrough_eq {ref : TagRef} (h : plc.tag? ref.handle = some tag) (d : Descriptor)
    (value : Value) (options : DecodeOptions) (timeoutMs : Nat) :
    ((writeThrough plc ref d value options timeoutMs).1.memory,
      (writeThrough plc ref d value options timeoutMs).2) =
        writeEffect plc ref.handle tag d value options timeoutMs := by
  obtain ⟨read, hread, hmemory, htag⟩ := Plc.exists_startRead h
  have hbuffer : read.bufferOf ref.handle = .ok (plc.afterRead tag).buffer := by
    unfold Plc.bufferOf
    rw [htag]
  unfold writeThrough writeEffect
  rw [hread]
  dsimp only
  rw [await_of_tag? htag, hbuffer]
  unfold Plc.afterRead at htag ⊢
  by_cases htimeout : nameHas "timeout" tag.name = true
  · simp only [if_pos htimeout, hmemory]
  by_cases herror : nameHas "error" tag.name = true
  · simp only [if_neg htimeout, if_pos herror, hmemory]
  simp only [if_neg htimeout, if_neg herror] at htag ⊢
  -- the read has completed: what is encoded is stored if the encoder succeeds
  generalize encode ((plc.stored? tag.name).getD tag.buffer) d value options = encoded
  obtain ⟨changed, outcome⟩ := encoded
  have hkept := (Plc.memory_setBuffer read ref.handle changed).trans hmemory
  cases outcome with
  | error cause => exact Prod.ext hkept rfl
  | ok =>
    obtain ⟨written, hwrite, hstored, hlive⟩ := Plc.exists_startWrite
      (Plc.tag?_setBuffer htag changed) (eq_false_of_ne_true htimeout)
    dsimp only
    rw [hwrite]
    dsimp only
    rw [await_of_tag? hlive]
    exact Prod.ext (hstored.trans (congrArg _ hkept)) rfl

/-- **What comes of a write**: nothing, or what the encoder has made of the stored octets is stored
in their place. -/
theorem writeEffect_cases (plc : Plc) (handle : Nat) (tag : PlcTag) (d : Descriptor)
    (value : Value) (options : DecodeOptions) (timeoutMs : Nat) :
    (∃ cause, writeEffect plc handle tag d value options timeoutMs =
      (plc.memory, .error cause)) ∨
    (nameHas "timeout" tag.name = false ∧ nameHas "error" tag.name = false ∧ ∃ changed,
      encode ((plc.stored? tag.name).getD tag.buffer) d value options = (changed, .ok ()) ∧
      writeEffect plc handle tag d value options timeoutMs =
        (Keyed.assign tag.name changed plc.memory, .ok ())) := by
  unfold writeEffect
  split_ifs with htimeout herror
  · exact Or.inl ⟨_, rfl⟩
  · exact Or.inl ⟨_, rfl⟩
  · split
    · next changed hencode =>
      exact Or.inr ⟨eq_false_of_ne_true htimeout, eq_false_of_ne_true herror, changed, hencode, rfl⟩
    · exact Or.inl ⟨_, rfl⟩

end

/-! ## The controller during a write -/

/-- A tag that is made for a write and destroyed again has a handle of its own. -/
theorem upholds_throughNew (plc : Plc) (connection : String) (d : Descriptor) (value : Value)
    (options : DecodeOptions) (timeoutMs : Nat) :
    ((writeThrough (plc.withNew connection) ⟨plc.created + 1, connection⟩ d value options
      timeoutMs).1.destroy (plc.created + 1)).Upholds plc := by
  have hthrough := (onlyAt_writeThrough (plc.withNew connection) ⟨plc.created + 1, connection⟩ d
    value options timeoutMs).upholds
  exact (hthrough.trans (Plc.upholds_withNew plc connection)).destroy (Nat.lt_succ_self _)

/-- **A write keeps the tags that were held before it**, also when it makes a tag of its own. -/
theorem upholds_write (b : Bridge) (id : ValueId) (value : Value) :
    (b.write id value).1.plc.Upholds b.plc := by
  unfold write
  split
  · exact .refl b.plc
  · dsimp only
    split
    · exact (onlyAt_writeThrough _ _ _ _ _ _).upholds
    · split
      · next plc cause hcreate =>
        rw [Plc.create_eq_error hcreate]
        exact .refl b.plc
      · next plc ref hcreate =>
        obtain ⟨-, rfl, rfl⟩ := Plc.create_eq_ok hcreate
        exact upholds_throughNew _ _ _ _ _ _

theorem upholds_readAll (plc : Plc) (handles : List Nat) : (readAll plc handles).Upholds plc :=
  List.foldlRecOn handles _ (.refl plc) fun read h handle _ =>
    (Plc.onlyAt_startRead read handle).upholds.trans h

/-- A poll keeps the tags that were held before it. -/
theorem upholds_pollPublished (b : Bridge) (snapshot : Snapshot) (group : String) (spread : Bool) :
    (b.pollPublished snapshot group spread).1.plc.Upholds b.plc := by
  rw [plc_pollPublished]
  exact upholds_readAll _ _

section

variable {b next : Bridge} {merged : Bool}

/-- A merge pass keeps all tags of values held. -/
theorem held_merge (h : AllHeld b.plc b.registry.values) :
    AllHeld b.merge.1.plc b.merge.1.registry.values := by
  obtain ⟨registry, plc, hregistry, hplc, hmerge⟩ := b.merge_eq
  have hheld := (h.merge b.config.route b.config.mergeThreshold).1
  rw [← hregistry, ← hplc] at hheld
  rw [hmerge]
  exact hheld

/-- A merge pass leaves what is stored and what can be created, and the configuration. -/
theorem kept_merge (h : AllHeld b.plc b.registry.values) :
    b.merge.1.plc.memory = b.plc.memory ∧ b.merge.1.plc.refused = b.plc.refused ∧
      b.merge.1.config = b.config := by
  obtain ⟨-, hmemory, hrefused⟩ := h.merge b.config.route b.config.mergeThreshold
  obtain ⟨registry, plc, -, hplc, hmerge⟩ := b.merge_eq
  rw [← hplc] at hmemory hrefused
  rw [hmerge]
  exact ⟨hmemory, hrefused, rfl⟩

/-- A registered value after a merge pass. -/
theorem Sound.exists_survives (h : b.Sound merged) {v : Registered}
    (hv : v ∈ b.registry.values) : ∃ w ∈ b.merge.1.registry.values, v.Survives w := by
  obtain ⟨parsed, passes, hreached⟩ := h.registry
  have hsurvives := hreached.sound.survives_merge b.plc b.config.mergeThreshold
  obtain ⟨registry, plc, hregistry, -, hmerge⟩ := b.merge_eq
  rw [← hregistry] at hsurvives
  rw [hmerge]
  exact exists_of_mem_forall₂ hsurvives.flip hv

/-- **All tags of registered values are held at any time.** -/
theorem Reached.held (h : Reached merged b) : AllHeld b.plc b.registry.values := by
  induction h with
  | ofConfig h =>
    obtain ⟨pollers, rfl⟩ := exists_ofConfig h
    exact fun v hv => nomatch hv
  | outside memory refused _ ih =>
    exact fun v hv ref href => ⟨(ih v hv ref href).given, (ih v hv ref href).backs⟩
  | loadStructs defs _ ih => exact ih
  | createPoller _ hadded ih =>
    rw [createPoller_eq_ok hadded]
    exact ih
  | register _ hadded ih =>
    obtain ⟨registry, plc, hregister, rfl⟩ := added_eq_ok hadded
    rw [registry_withAdded, plc_withAdded]
    exact (ih.register hregister).2
  | merge _ ih => exact held_merge ih
  | poll _ hpolled ih =>
    obtain ⟨snapshot, spread, -, -, rfl, -⟩ := poll_eq_ok hpolled
    rw [registry_pollPublished]
    exact ih.mono (upholds_pollPublished _ _ _ _)
  | write id value _ ih =>
    rw [(continues_write _ id value).registry]
    exact ih.mono (upholds_write _ id value)
  | start _ _ ih =>
    refine start_keeps (P := fun b => AllHeld b.plc b.registry.values) (fun b hb => hb)
      (fun b snapshot group spread hb => ?_) held_merge ih
    rw [registry_pollPublished]
    exact hb.mono (upholds_pollPublished b snapshot group spread)
  | stop _ ih => exact ih

end

/-! ## Writing a value -/

/-- **A write of a value through a tag** with the name of its own: what comes of it, and the tags
that it leaves alone. -/
structure WrittenThrough (b : Bridge) (v : Registered) (value : Value) (handle : Nat)
    (tag : PlcTag) (result : Bridge × Except BridgeError Unit) : Prop where
  name : tag.name = tagNameOf v.connection
  effect : (result.1.plc.memory, result.2) = writeEffect b.plc handle tag (ownDescriptor v) value
    ⟨false, b.config.zone⟩ b.config.readTimeoutMs
  others : ∀ u ∈ b.registry.values, u.id ≠ v.id → ∀ ref, u.tag = some ref →
    result.1.plc.tag? ref.handle = b.plc.tag? ref.handle

section

variable {merged : Bool} {b : Bridge} {route : String} {parsed : List Descriptor} {r : Registry}
  {u v : Registered} {ref other : TagRef}

/-- Two elements with a property are counted twice. -/
theorem one_lt_countP {α : Type} {p : α → Bool} {xs : List α} {x y : α} (hx : x ∈ xs) (hy : y ∈ xs)
    (hpx : p x = true) (hpy : p y = true) (hne : x ≠ y) : 1 < xs.countP p := by
  rw [List.countP_eq_length_filter]
  have hxin : x ∈ xs.filter p := List.mem_filter.mpr ⟨hx, hpx⟩
  have hyin : y ∈ xs.filter p := List.mem_filter.mpr ⟨hy, hpy⟩
  match hlist : xs.filter p with
  | [] => rw [hlist] at hxin; cases hxin
  | [z] =>
    rw [hlist, List.mem_singleton] at hxin hyin
    exact absurd (hxin.trans hyin.symm) hne
  | _ :: _ :: _ => exact Nat.succ_lt_succ (Nat.succ_pos _)

/-- **A tag that is not shared** is referred to by its value only. -/
theorem handle_ne_of_unshared (h : r.Sound route parsed) (hv : v ∈ r.values)
    (hunshared : r.sharesTag v.id = false) (href : v.tag = some ref) (hu : u ∈ r.values)
    (hne : u.id ≠ v.id) (hother : u.tag = some other) : other.handle ≠ ref.handle := by
  intro heq
  have hhandle : v.handle? = some ref.handle := congrArg (Option.map TagRef.handle) href
  have huhandle : u.handle? = some ref.handle := by
    rw [← heq]
    exact congrArg (Option.map TagRef.handle) hother
  have hcount : 1 < (Registry.handles r.values).count ref.handle := by
    rw [Registry.handles, List.count, List.countP_filterMap]
    exact one_lt_countP hv hu (by rw [hhandle]; simp) (by rw [huhandle]; simp)
      fun hsame => hne (congrArg Registered.id hsame.symm)
  unfold Registry.sharesTag at hunshared
  rw [h.numbered.find?_eq hv, Option.bind_some, hhandle] at hunshared
  exact absurd hcount (by simpa using hunshared)

/-- A write through the value's own tag, which serves this value only. -/
theorem Reached.writtenThrough_own (h : Reached merged b) (hv : v ∈ b.registry.values)
    (hown : ownTag? b.registry v = some ref) (value : Value) {result : Plc × Except BridgeError Unit}
    (hresult : writeThrough b.plc ref (ownDescriptor v) value ⟨false, b.config.zone⟩
      b.config.readTimeoutMs = result) :
    ∃ handle tag, b.WrittenThrough v value handle tag ({ b with plc := result.1 }, result.2) := by
  obtain ⟨parsed, passes, hreached⟩ := h.sound.registry
  have hsound := hreached.sound
  unfold ownTag? at hown
  split at hown
  · cases hown
  · next hunshared =>
    rw [Bool.or_eq_true, not_or, Bool.not_eq_true, Bool.not_eq_true] at hunshared
    obtain ⟨d, hd⟩ := hsound.exists_sound hv
    obtain ⟨tag, htag, hname⟩ := (h.held v hv ref hown).backs
    have hconnection := (hd.unmerged hunshared.2).own ref hown
    have honly := onlyAt_writeThrough b.plc ref (ownDescriptor v) value ⟨false, b.config.zone⟩
      b.config.readTimeoutMs
    subst hresult
    exact ⟨ref.handle, tag, hconnection ▸ hname, writeThrough_eq htag _ _ _ _,
      fun u hu hne other hother => honly.others other.handle
        (handle_ne_of_unshared hsound hv hunshared.1 hown hu hne hother)⟩

/-- A write through a tag that is made for it. Its handle is one that no value refers to. -/
theorem Reached.writtenThrough_new (h : Reached merged b) (v : Registered) (value : Value)
    {result : Plc × Except BridgeError Unit}
    (hresult : writeThrough (b.plc.withNew v.connection) ⟨b.plc.created + 1, v.connection⟩
      (ownDescriptor v) value ⟨false, b.config.zone⟩ b.config.readTimeoutMs = result) :
    ∃ handle tag, b.WrittenThrough v value handle tag
      ({ b with plc := result.1.destroy (b.plc.created + 1) }, result.2) := by
  have hmade : (b.plc.withNew v.connection).tag?
      (TagRef.mk (b.plc.created + 1) v.connection).handle = some (b.plc.newTag v.connection) :=
    (Plc.tag?_withNew _ _ _).trans (if_pos rfl)
  have honly := onlyAt_writeThrough (b.plc.withNew v.connection)
    ⟨b.plc.created + 1, v.connection⟩ (ownDescriptor v) value ⟨false, b.config.zone⟩
    b.config.readTimeoutMs
  have heffect := writeThrough_eq hmade (ownDescriptor v) value ⟨false, b.config.zone⟩
    b.config.readTimeoutMs
  rw [hresult] at honly heffect
  refine ⟨b.plc.created + 1, b.plc.newTag v.connection, rfl, ?_, ?_⟩
  · rw [← Plc.memory_destroy] at heffect
    exact heffect
  · intro u hu hne other hother
    have hgiven := (h.held u hu other hother).given
    have hapart : other.handle ≠ b.plc.created + 1 := by omega
    show (result.1.destroy _).tag? _ = _
    rw [Plc.tag?_destroy, if_neg hapart, honly.others _ hapart, Plc.tag?_withNew, if_neg hapart]

/-- **What a write of a registered value does**: it goes through a tag, unless the tag that would be
made for it cannot be created. -/
theorem Reached.write_cases (h : Reached merged b) (hv : v ∈ b.registry.values) (value : Value) :
    (b.plc.admits (tagNameOf v.connection) = false ∧ b.write v.id value =
      (b, .error (.transport (.createFailed v.connection TagFault.notFound.code)))) ∨
    ∃ handle tag, b.WrittenThrough v value handle tag (b.write v.id value) := by
  obtain ⟨parsed, passes, hreached⟩ := h.sound.registry
  unfold Bridge.write
  rw [hreached.sound.numbered.find?_eq hv]
  dsimp only
  split
  · next ref hown => exact Or.inr (h.writtenThrough_own hv hown value rfl)
  · rw [Plc.create_eq]
    by_cases hadmits : b.plc.admits (tagNameOf v.connection) = true
    · rw [if_pos hadmits]
      exact Or.inr (h.writtenThrough_new v value rfl)
    · rw [if_neg hadmits]
      exact Or.inl ⟨eq_false_of_ne_true hadmits, rfl⟩

/-- **What comes of it**: the write fails and stores nothing, or what the encoder has made of the
stored octets is stored under the name of the value's own tag. -/
theorem WrittenThrough.cases {value : Value} {handle : Nat} {tag : PlcTag}
    {result : Bridge × Except BridgeError Unit} (h : b.WrittenThrough v value handle tag result) :
    (∃ cause, result.2 = .error cause ∧ result.1.plc.memory = b.plc.memory) ∨
    (nameHas "timeout" (tagNameOf v.connection) = false ∧
      nameHas "error" (tagNameOf v.connection) = false ∧ ∃ changed,
        encode ((b.plc.stored? (tagNameOf v.connection)).getD tag.buffer) (ownDescriptor v) value
          ⟨false, b.config.zone⟩ = (changed, .ok ()) ∧
        result.2 = .ok () ∧
        result.1.plc.memory = Keyed.assign (tagNameOf v.connection) changed b.plc.memory) := by
  have heffect := h.effect
  rw [← h.name]
  rcases writeEffect_cases b.plc handle tag (ownDescriptor v) value ⟨false, b.config.zone⟩
    b.config.readTimeoutMs with ⟨cause, hfails⟩ | ⟨htimeout, herror, changed, hencode, hstores⟩
  · obtain ⟨hmemory, houtcome⟩ := Prod.mk.inj (heffect.trans hfails)
    exact Or.inl ⟨cause, houtcome, hmemory⟩
  · obtain ⟨hmemory, houtcome⟩ := Prod.mk.inj (heffect.trans hstores)
    exact Or.inr ⟨htimeout, herror, changed, hencode, houtcome, hmemory⟩

end

end Bridge

/-! ## Isolation -/

/-- **A write that is isolated**, of a value to the identifier of a registered one or of none. -/
structure IsolatedWrite (b next : Bridge) (id : ValueId) (value : Value)
    (outcome : Except BridgeError Unit) : Prop where
  registry : next.registry = b.registry
  /-- The tags of the other values are as they were, with their buffers. -/
  others : ∀ u ∈ b.registry.values, u.id ≠ id → ∀ ref, u.tag = some ref →
    next.plc.tag? ref.handle = b.plc.tag? ref.handle
  /-- A write that fails stores nothing. -/
  failed : ∀ cause, outcome = .error cause → next.plc.memory = b.plc.memory
  /-- A write that succeeds stores something under the name of the value's own tag only. What was
  stored there keeps its length and all bits that the encoder does not write. -/
  stored : outcome = .ok () → ∃ v ∈ b.registry.values, v.id = id ∧
    (∀ name, name ≠ tagNameOf v.connection → next.plc.stored? name = b.plc.stored? name) ∧
    ∃ changed, next.plc.stored? (tagNameOf v.connection) = some changed ∧
      ∀ before, b.plc.stored? (tagNameOf v.connection) = some before →
        changed.SameOn (fun bit =>
          ¬ (Bridge.ownDescriptor v).Written value ⟨false, b.config.zone⟩ bit) before

/-- A write that fails and changes nothing is isolated. -/
theorem isolatedWrite_error (b : Bridge) (id : ValueId) (value : Value) (cause : BridgeError) :
    IsolatedWrite b b id value (.error cause) :=
  ⟨rfl, fun _ _ _ _ _ => rfl, fun _ _ => rfl, nofun⟩

/-- **Writes are isolated**, on every bridge that is reached, of any value to any identifier. -/
theorem write_isolated {merged : Bool} {b : Bridge} (h : Bridge.Reached merged b) (id : ValueId)
    (value : Value) : IsolatedWrite b (b.write id value).1 id value (b.write id value).2 := by
  cases hfind : b.registry.find? id with
  | none =>
    have hwrite : b.write id value = (b, .error (.unknownValue id)) := by
      unfold Bridge.write
      rw [hfind]
    rw [hwrite]
    exact isolatedWrite_error b id value _
  | some v =>
    obtain ⟨hv, rfl⟩ := h.numbered.find?_eq_some_iff.mp hfind
    rcases h.write_cases hv value with ⟨-, hwrite⟩ | ⟨handle, tag, hwritten⟩
    · rw [hwrite]
      exact isolatedWrite_error b v.id value _
    · refine ⟨(Bridge.continues_write b v.id value).registry, hwritten.others, ?_, ?_⟩
      · intro cause hcause
        rcases hwritten.cases with ⟨_, -, hmemory⟩ | ⟨-, -, _, -, hok, -⟩
        · exact hmemory
        · cases hcause.symm.trans hok
      · intro hok
        rcases hwritten.cases with ⟨_, hfailed, -⟩ | ⟨-, -, changed, hencode, -, hmemory⟩
        · cases hok.symm.trans hfailed
        · refine ⟨v, hv, rfl, fun name hname => ?_, changed, ?_, fun before hbefore => ?_⟩
          · rw [Plc.stored?, hmemory, Keyed.find?_assign, if_neg hname, Plc.stored?]
          · rw [Plc.stored?, hmemory, Keyed.find?_assign, if_pos rfl]
          · have hsame := sameOn_encode before (Bridge.ownDescriptor v) value
              ⟨false, b.config.zone⟩
            rw [hbefore, Option.getD_some] at hencode
            rwa [hencode] at hsame

/-- A level that is written leaves the pump alone. -/
theorem write_isolated_pump :
    ((pumpBridge.write ⟨3⟩ (.number ⟨.integer true .two, 300⟩)).1.plc.memory =
        [("Pump", [10, 0, 20, 0]), ("Level", [44, 1, 0, 0])]) ∧
      IsolatedWrite pumpBridge (pumpBridge.write ⟨3⟩ (.number ⟨.integer true .two, 300⟩)).1 ⟨3⟩
        (.number ⟨.integer true .two, 300⟩)
        (pumpBridge.write ⟨3⟩ (.number ⟨.integer true .two, 300⟩)).2 :=
  ⟨by decide +kernel, write_isolated reached_pumpBridge ⟨3⟩ _⟩

end PlcTags

import PlcTags.Proofs.Bridge.Writes

/-!
# Merging does not show in writes

A merge pass may give a value a tag that it shares with others, at another offset. A write still goes
to the value's own tag and to the place that it has there, so a pass neither changes what is stored
nor whether the write succeeds.

* `SameWrite`: two writes that differ in the handles of the tags they use only.
* `Registered.Survives.ownDescriptor_eq`: a pass keeps the place of a value in its own tag.
* `write_merge`: a write after a pass comes to the same as one before.
-/

namespace PlcTags

/-- The error of a tag, without telling the tag's handle. -/
def TransportError.anonymous : TransportError → TransportError
  | .status _ code => .status 0 code
  | .timeout _ millis => .timeout 0 millis
  | cause => cause

/-- The error without the handle of a tag. -/
def BridgeError.anonymous : BridgeError → BridgeError
  | .transport cause => .transport cause.anonymous
  | cause => cause

/-- **The same write**: the same is stored afterwards, and the outcome is the same apart from the
handles that errors tell. -/
structure SameWrite (first second : Bridge × Except BridgeError Unit) : Prop where
  memory : first.1.plc.memory = second.1.plc.memory
  outcome : first.2.mapError BridgeError.anonymous = second.2.mapError BridgeError.anonymous

/-- **What comes of a write depends on the name of the tag** and on what is stored under it. -/
theorem Bridge.writeEffect_congr {plc next : Plc} {tag other : PlcTag} {stored : Buffer}
    (hname : other.name = tag.name) (hmemory : next.memory = plc.memory)
    (hstored : plc.stored? tag.name = some stored) (handle handle' : Nat) (d : Descriptor)
    (value : Value) (options : DecodeOptions) (timeoutMs : Nat) :
    (writeEffect next handle' other d value options timeoutMs).1 =
        (writeEffect plc handle tag d value options timeoutMs).1 ∧
      (writeEffect next handle' other d value options timeoutMs).2.mapError
          BridgeError.anonymous =
        (writeEffect plc handle tag d value options timeoutMs).2.mapError
          BridgeError.anonymous := by
  have hnext : next.stored? tag.name = some stored := by
    rw [Plc.stored?, hmemory, ← Plc.stored?]
    exact hstored
  unfold writeEffect
  rw [hname, hmemory, hnext, hstored, Option.getD_some, Option.getD_some]
  split_ifs
  · exact ⟨rfl, rfl⟩
  · exact ⟨rfl, rfl⟩
  · split <;> exact ⟨rfl, rfl⟩

/-- **A pass keeps the place of a value in its own tag**, wherever the value is read. -/
theorem Registered.Survives.ownDescriptor_eq {v w : Registered} (h : v.Survives w) :
    Bridge.ownDescriptor w = Bridge.ownDescriptor v := by
  unfold Bridge.ownDescriptor
  rw [h.own, h.descriptor]

/-- **Merging does not show in writes**: if tags of the name of a value's own tag can be created, and
something is stored under the name, then a write of the value after a merge pass is the same as one
before it, whatever the pass has made of the value. -/
theorem write_merge {merged : Bool} {b : Bridge} (h : Bridge.Reached merged b) {v : Registered}
    (hv : v ∈ b.registry.values) (hadmits : b.plc.admits (tagNameOf v.connection) = true)
    {stored : Buffer} (hstored : b.plc.stored? (tagNameOf v.connection) = some stored)
    (value : Value) : SameWrite (b.merge.1.write v.id value) (b.write v.id value) := by
  obtain ⟨w, hw, hsurvives⟩ := h.sound.exists_survives hv
  obtain ⟨hmemory, hrefused, hconfig⟩ := Bridge.kept_merge h.held
  have hmerged := h.merge
  generalize b.merge.1 = next at hw hmemory hrefused hconfig hmerged ⊢
  have hadmits' : next.plc.admits (tagNameOf w.connection) = true := by
    rw [hsurvives.connection, Plc.admits_congr hrefused]
    exact hadmits
  rcases h.write_cases hv value with ⟨hrefuses, -⟩ | ⟨handle, tag, hbefore⟩
  · cases hadmits.symm.trans hrefuses
  rcases hmerged.write_cases hw value with ⟨hrefuses, -⟩ | ⟨handle', tag', hafter⟩
  · cases hadmits'.symm.trans hrefuses
  rw [hsurvives.id] at hafter
  -- both tags have the name of the own tag, so the same octets are read and changed
  have hname : tag'.name = tag.name := by
    rw [hafter.name, hbefore.name, hsurvives.connection]
  have heffect := hafter.effect
  rw [hsurvives.ownDescriptor_eq, hconfig] at heffect
  obtain ⟨hstores, houtcome⟩ := Bridge.writeEffect_congr hname hmemory (hbefore.name ▸ hstored)
    handle handle' (Bridge.ownDescriptor v) value ⟨false, b.config.zone⟩ b.config.readTimeoutMs
  rw [← heffect, ← hbefore.effect] at hstores houtcome
  exact ⟨hstores, houtcome⟩

/-! ## The load of a pump -/

/-- The values of the pump before they are merged, and what the controller stores under the name of
one of them. -/
def loadBridge : Bridge :=
  let watching := [pumpSpeed, pumpLoad, sumpLevel].foldl watched idleBridge
  { watching with plc := { watching.plc with memory := [("Pump.Load", [1, 0, 9])], refused := [] } }

/-- The load is read from the tag of the pump, and written to its own one. -/
theorem write_merge_load :
    ((loadBridge.merge.1.registry.find? ⟨2⟩).map Registered.state = some .optimised ∧
      (loadBridge.merge.1.write ⟨2⟩ (.number ⟨.integer true .two, 513⟩)).1.plc.memory =
        [("Pump.Load", [1, 2, 9])]) ∧
    ∃ v ∈ loadBridge.registry.values, v.id = ⟨2⟩ ∧
      SameWrite (loadBridge.merge.1.write v.id (.number ⟨.integer true .two, 513⟩))
        (loadBridge.write v.id (.number ⟨.integer true .two, 513⟩)) := by
  have hreached : Bridge.Reached false loadBridge := reached_watchedPump.outside _ []
  have hname : (loadBridge.registry.find? ⟨2⟩).map (fun v => tagNameOf v.connection) =
      some "Pump.Load" := by decide +kernel
  obtain ⟨v, hfind, hname⟩ := Option.map_eq_some_iff.mp hname
  have hadmits : loadBridge.plc.admits (tagNameOf v.connection) = true := by
    rw [hname]
    decide +kernel
  have hstored : loadBridge.plc.stored? (tagNameOf v.connection) = some [1, 0, 9] := by
    rw [hname]
    rfl
  obtain ⟨hv, hid⟩ := hreached.numbered.find?_eq_some_iff.mp hfind
  exact ⟨by decide +kernel, v, hv, hid, write_merge hreached hv hadmits hstored _⟩

end PlcTags

import PlcTags.Codec
import PlcTags.Proofs.Registry.Reached

/-!
# Structures without a size

A value that reads a structure without a size reads up to the end of its tag. Merging moves it to a
tag that may go on behind the old one. The octets of the old tag are then followed by all that lies
behind them, so what is read stays the same only when nothing does.

* `decode_openEnded`: what is read from a buffer.
* `Registered.GrowsInto`: what is read before and after a value moves.
* `Registered.growsInto_of_start_le`: moving to a place that is not before the old one.
-/

namespace PlcTags

open MergePass

/-! ## Reading to the end -/

/-- **An open-ended value**: a structure whose size is not told. -/
def Descriptor.OpenEnded (d : Descriptor) : Prop :=
  d.type = .udt ∧ d.attributes.readSize = none

instance (d : Descriptor) : Decidable d.OpenEnded :=
  inferInstanceAs (Decidable (_ ∧ _))

/-- An open-ended value is all that follows its offset, if the offset is in the buffer or at its
end. -/
theorem decode_openEnded {d : Descriptor} (h : d.OpenEnded) (buffer : Buffer)
    (options : DecodeOptions) : decode buffer d options =
      if d.base options ≤ buffer.length then .ok (.bytes (buffer.drop (d.base options)))
      else .error (.outOfRange (d.base options) 0 buffer.length) := by
  obtain ⟨htype, hsize⟩ := h
  unfold decode
  rw [htype]
  show decodeUdt buffer d.attributes.readSize (d.base options) = _
  unfold decodeUdt
  rw [hsize, Option.getD_none]
  by_cases hbase : d.base options ≤ buffer.length
  · have hfits : d.base options + (buffer.length - d.base options) ≤ buffer.length := by omega
    have hall : (buffer.drop (d.base options)).take (buffer.length - d.base options) =
        buffer.drop (d.base options) := List.take_of_length_le (by rw [List.length_drop])
    rw [if_pos hfits, if_pos hbase, Buffer.read?, if_pos hfits, hall]
    rfl
  · rw [if_neg (by omega), if_neg hbase, Nat.sub_eq_zero_of_le (by omega)]

namespace Registered

/-- What is read as the value from a buffer in place of its tag. -/
def decodeIn (v : Registered) (zone : BitVec 64) (buffer : Buffer) : Except DecodeError Value :=
  decode buffer v.descriptor ⟨v.state.sharesBuffer, zone⟩

/-- Where the field of the value starts in its tag. -/
def start (v : Registered) : Nat :=
  v.descriptor.base ⟨v.state.sharesBuffer, 0⟩

/-- **What is read before and after a value moves** from its own tag to another one, with the octets
of the old tag at the place that it moves to. -/
structure GrowsInto (v w : Registered) : Prop where
  start_le : v.start ≤ w.start
  /-- What was read is followed by the rest of the new tag. -/
  decode : ∀ (zone : BitVec 64) (front own rest : Buffer), front.length + v.start = w.start →
    v.start ≤ own.length → v.decodeIn zone own = .ok (.bytes (own.drop v.start)) ∧
      w.decodeIn zone (front ++ (own ++ rest)) = .ok (.bytes (own.drop v.start ++ rest))
  /-- So it stays the same only when there is no rest. -/
  same : ∀ (zone : BitVec 64) (front own rest : Buffer), front.length + v.start = w.start →
    v.start ≤ own.length →
      (w.decodeIn zone (front ++ (own ++ rest)) = v.decodeIn zone own ↔ rest = [])
  /-- Nothing was read from a tag that ends before the field. -/
  short : ∀ (zone : BitVec 64) (own : Buffer), own.length < v.start →
    v.decodeIn zone own = .error (.outOfRange v.start 0 own.length)

variable {v w : Registered}

/-- **Moving** an open-ended value to a place that is not before the old one. -/
theorem growsInto_of_start_le (hv : v.descriptor.OpenEnded) (hw : w.descriptor.OpenEnded)
    (hle : v.start ≤ w.start) : v.GrowsInto w := by
  have hread : ∀ (zone : BitVec 64) (front own rest : Buffer), front.length + v.start = w.start →
      v.start ≤ own.length → v.decodeIn zone own = .ok (.bytes (own.drop v.start)) ∧
        w.decodeIn zone (front ++ (own ++ rest)) = .ok (.bytes (own.drop v.start ++ rest)) := by
    intro zone front own rest hplace hown
    have hdrop : (front ++ (own ++ rest)).drop w.start = own.drop v.start ++ rest := by
      rw [← hplace, ← List.drop_drop, List.drop_left, List.drop_append_of_le_length hown]
    have hinside : w.start ≤ (front ++ (own ++ rest)).length := by
      rw [List.length_append, List.length_append]
      omega
    constructor
    · exact (decode_openEnded hv own _).trans (if_pos hown)
    · rw [← hdrop]
      exact (decode_openEnded hw _ _).trans (if_pos hinside)
  refine ⟨hle, hread, fun zone front own rest hplace hown => ?_, fun zone own hown => ?_⟩
  · obtain ⟨hbefore, hafter⟩ := hread zone front own rest hplace hown
    rw [hbefore, hafter, Except.ok.injEq, Value.bytes.injEq, List.append_right_eq_self]
  · exact (decode_openEnded hv own _).trans (if_neg (Nat.not_le.mpr hown))

/-- A group reads its members at their offsets in the parent. -/
theorem start_le_of_joined (hbefore : v.state.sharesBuffer = false)
    (hafter : w.state.sharesBuffer = true) (hdescriptor : w.descriptor = v.descriptor) :
    v.start ≤ w.start := by
  unfold start Descriptor.base
  rw [hbefore, hafter, hdescriptor]
  dsimp only [Bool.not_true, Bool.false_and]
  split
  · exact Nat.zero_le _
  · exact Nat.le_refl _

/-- A slice reads its elements one after the other. -/
theorem GoesOn.start_le (h : v.GoesOn w) : v.start ≤ w.start := by
  unfold start Descriptor.base
  rw [h.before, h.after]
  exact h.offset_le

theorem GoesOn.openEnded (h : v.GoesOn w) (hv : v.descriptor.OpenEnded) :
    w.descriptor.OpenEnded := by
  rw [h.descriptor]
  exact hv

end Registered

/-! ## Merging -/

/-- **Merging an open-ended value**, into a group or from a group into a slice: whatever the tags
hold, the octets that were read are followed by all that the shared tag has behind them. -/
theorem growsInto_merge {route : String} {parsed : List Descriptor} {passes : Nat} {r : Registry}
    {plc : Plc} (h : Registry.Reached route parsed passes r plc) (outside : MergePass → Plc)
    (threshold : Nat) :
    List.Forall₂ (fun v w => v.descriptor.OpenEnded → v.state.sharesBuffer = false →
        w.state.sharesBuffer = true → v.GrowsInto w)
      r.values (r.groupAmid outside plc route threshold).values ∧
    List.Forall₂ (fun v w => v.descriptor.OpenEnded → w ≠ v → v.GrowsInto w)
      (r.groupAmid outside plc route threshold).values
      (r.mergeAmid outside plc route threshold).1.values := by
  obtain ⟨done, -, hvalues, hslicing⟩ := h.sound.exists_slicing outside plc threshold
  constructor
  · rw [hvalues, List.forall₂_map_right_iff, List.forall₂_same]
    intro v _ hopen hbefore hafter
    have hsame := descriptor_placed (r.plan threshold) done v
    exact Registered.growsInto_of_start_le hopen (hsame ▸ hopen)
      (Registered.start_le_of_joined hbefore hafter hsame)
  · refine hslicing.relocated.imp fun v w hmoved hopen hne => ?_
    have hgoes : v.GoesOn w := hmoved.resolve_left hne
    exact Registered.growsInto_of_start_le hopen (hgoes.openEnded hopen) hgoes.start_le

/-! ## A probe and a valve of a vat -/

def vatProbe : Descriptor := plainAt "Vat.Probe" .udt 0

def vatValve : Descriptor := plainAt "Vat.Valve" .int 4

def vat : Registry × Plc := [vatProbe, vatValve].foldl enrolled bare

theorem reached_vat : Registry.Reached pumpRoute [vatProbe, vatValve] 0 vat.1 vat.2 := by
  have hparseProbe : Descriptor.parse ⟨[], .empty⟩ "Vat.Probe UDT none 0 none" =
      .ok vatProbe := by
    with_unfolding_all rfl
  have hparseValve : Descriptor.parse ⟨[], .empty⟩ "Vat.Valve INT none 4 none" =
      .ok vatValve := by
    with_unfolding_all rfl
  have hprobe := register_enrolled bare hparseProbe (by decide +kernel) (by decide +kernel)
  have hvalve := register_enrolled ([vatProbe].foldl enrolled bare) hparseValve
    (by decide +kernel) (by decide +kernel)
  exact ((Registry.Reached.start .counting {}).register hparseProbe hprobe).register
    hparseValve hvalve

/-- The values of the vat are merged. -/
theorem growsInto_merge_vat :
    (vat.1.groupAmid MergePass.plc vat.2 pumpRoute 2).values.map Registered.state =
        [.master, .optimised] ∧
      List.Forall₂ (fun v w => v.descriptor.OpenEnded → v.state.sharesBuffer = false →
          w.state.sharesBuffer = true → v.GrowsInto w)
        vat.1.values (vat.1.groupAmid MergePass.plc vat.2 pumpRoute 2).values ∧
      List.Forall₂ (fun v w => v.descriptor.OpenEnded → w ≠ v → v.GrowsInto w)
        (vat.1.groupAmid MergePass.plc vat.2 pumpRoute 2).values
        (vat.1.mergeAmid MergePass.plc vat.2 pumpRoute 2).1.values :=
  ⟨by decide +kernel, growsInto_merge reached_vat MergePass.plc 2⟩

/-- The probe as it was registered. -/
def probeAlone : Registered :=
  bare.1.newValue pumpRoute vatProbe (.ok ⟨1, vatProbe.connection pumpRoute⟩)

/-- The probe as the reader of the vat. -/
def probeMerged : Registered :=
  probeAlone.joinGroup probeAlone.id
    ⟨3, connectionText pumpRoute "Vat" 1 ((Attributes.sharedParent true).render .udt)⟩

/-- **Merging does not keep the octets**: the probe goes on with those of the valve. -/
theorem not_forall_decodeIn_merge_vat :
    ¬ ∀ (i : Nat) (v w : Registered) (front own rest : Buffer), vat.1.values[i]? = some v →
      (vat.1.groupAmid MergePass.plc vat.2 pumpRoute 2).values[i]? = some w →
      v.descriptor.OpenEnded → v.state.sharesBuffer = false → w.state.sharesBuffer = true →
      front.length + v.start = w.start → v.start ≤ own.length →
        w.decodeIn 0 (front ++ (own ++ rest)) = v.decodeIn 0 own := by
  intro h
  have hbefore : vat.1.values[0]? = some probeAlone := by decide +kernel
  have hafter : (vat.1.groupAmid MergePass.plc vat.2 pumpRoute 2).values[0]? =
      some probeMerged := by decide +kernel
  have hopen : probeAlone.descriptor.OpenEnded := by decide +kernel
  have hstart : probeAlone.start = 0 ∧ probeMerged.start = 0 := by decide +kernel
  have hgrows : probeAlone.GrowsInto probeMerged :=
    Registered.growsInto_of_start_le hopen hopen (by omega)
  have hplace : ([] : Buffer).length + probeAlone.start = probeMerged.start := by
    rw [hstart.1, hstart.2]
    rfl
  have hin : probeAlone.start ≤ ([1, 2, 3, 4] : Buffer).length := by
    rw [hstart.1]
    exact Nat.zero_le _
  have hsame := h 0 probeAlone probeMerged [] [1, 2, 3, 4] [5, 6] hbefore hafter hopen rfl rfl
    hplace hin
  exact absurd ((hgrows.same 0 [] [1, 2, 3, 4] [5, 6] hplace hin).mp hsame) (List.cons_ne_nil _ _)

end PlcTags

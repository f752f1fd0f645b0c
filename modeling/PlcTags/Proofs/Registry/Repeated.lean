import PlcTags.Proofs.Registry.Spared
import PlcTags.Proofs.Transport.Live

/-!
# Passes that come again

A pass treats all values for good, and values that are registered later are left alone. So a pass
over a registry that has gone through one does nothing, whatever it could create.

* `Registry.Later`: what a registry and its controller become by registrations, while others read
  and write.
* `Plc.Tidy`: every live tag is one that a value refers to. A pass leaves a controller tidy, and
  registrations keep it so.
* `Registry.Idle`: a pass does nothing; `idle_of_later`: this holds **after every first pass**.
-/

namespace PlcTags

open Registry MergePass

/-! ## Later registries -/

/-- **What comes later**: values are registered, pollers and structures may change, and others may
do anything to the controller that neither creates nor destroys tags. -/
inductive Registry.Later (route : String) (r : Registry) (plc : Plc) : Registry → Plc → Prop
  | refl : Later route r plc r plc
  | scope {next : Registry} {after : Plc} (pollers : List String) (structs : Layout.Table)
      (h : Later route r plc next after) :
      Later route r plc { next with pollers := pollers, structs := structs } after
  | outside {next : Registry} {after other : Plc} (h : Later route r plc next after)
      (hother : other.SameTags after) : Later route r plc next other
  | register {next last : Registry} {after other : Plc} {text : String} {v : Registered}
      (h : Later route r plc next after)
      (hadded : next.register after route text = .ok (last, other, v)) :
      Later route r plc last other

section

variable {route : String} {parsed : List Descriptor} {passes threshold : Nat}
  {r next : Registry} {plc after : Plc}

/-- Later registries are reached by as many passes. -/
theorem Registry.Later.reached (h : Later route r plc next after)
    (hr : Registry.Reached route parsed passes r plc) :
    ∃ all, Registry.Reached route all passes next after := by
  induction h with
  | refl => exact ⟨parsed, hr⟩
  | scope pollers structs _ ih =>
    obtain ⟨all, hall⟩ := ih
    exact ⟨all, hall.scope pollers structs⟩
  | outside _ _ ih =>
    obtain ⟨all, hall⟩ := ih
    exact ⟨all, hall.outside _⟩
  | register _ hadded ih =>
    obtain ⟨all, hall⟩ := ih
    obtain ⟨d, _, hparse, -⟩ := register_eq_ok hadded
    exact ⟨all ++ [d], hall.register hparse hadded⟩

/-! ## Tidy controllers -/

/-- **A tidy controller** has no live tag but those that values refer to. -/
def Plc.Tidy (plc : Plc) (values : List Registered) : Prop :=
  ∀ handle ∈ plc.live, handle ∈ handles values

/-- What a pass does not keep is gone. -/
theorem tidy_mergeAmid (outside : MergePass → Plc) (r : Registry) (plc : Plc) (route : String)
    (threshold : Nat) : (r.mergeAmid outside plc route threshold).2.Tidy
      (r.mergeAmid outside plc route threshold).1.values :=
  fun _ hlive => (Plc.mem_live_keepOnly.mp hlive).2

/-- A tag that is created for a new value is that of the value. -/
theorem Plc.Tidy.register {last : Registry} {other : Plc} {text : String} {v : Registered}
    (h : after.Tidy next.values)
    (hadded : next.register after route text = .ok (last, other, v)) :
    other.Tidy last.values := by
  obtain ⟨d, outcome, -, hobtain, rfl, rfl⟩ := register_eq_ok hadded
  have hsplit : handles (next.values ++ [next.newValue route d outcome]) =
      handles next.values ++ handles [next.newValue route d outcome] := List.filterMap_append
  intro handle hlive
  show handle ∈ handles (next.values ++ [_])
  rw [hsplit, List.mem_append]
  obtain ⟨rfl, -⟩ | ⟨-, hcreate⟩ := obtainTag_cases hobtain
  · exact Or.inl (h handle hlive)
  · cases outcome with
    | error cause =>
      rw [Plc.create_eq_error hcreate] at hlive
      exact Or.inl (h handle hlive)
    | ok ref =>
      obtain ⟨-, rfl, rfl⟩ := Plc.create_eq_ok hcreate
      rw [Plc.mem_live_iff, Plc.tag?_withNew] at hlive
      split at hlive
      · next heq =>
        rw [heq]
        exact Or.inr List.mem_cons_self
      · exact Or.inl (h handle (Plc.mem_live_iff.mpr hlive))

theorem Registry.Later.tidy (h : Later route r plc next after) (hr : plc.Tidy r.values) :
    after.Tidy next.values := by
  induction h with
  | refl => exact hr
  | scope _ _ _ ih => exact ih
  | outside _ hother ih => exact fun handle hlive => ih handle (hother.live ▸ hlive)
  | register _ hadded ih => exact ih.register hadded

/-! ## Passes that do nothing -/

/-- **A registry is idle**: a pass changes neither it nor its controller, reports nothing, and does
not ask for any tag. -/
structure Registry.Idle (r : Registry) (plc : Plc) (route : String) : Prop where
  /-- The whole pass, with any threshold: the controller may refuse any tags. -/
  merge : ∀ threshold, r.merge plc route threshold = (r, plc, {})
  /-- The pass up to the end, with others that change the controller between its steps: it has no
  steps. -/
  sliced : ∀ outside threshold,
    r.slicedAmid outside route plc threshold = ⟨r.values, plc, {}, []⟩

/-- Nothing is planned for values that a pass has seen. -/
theorem Registry.plan_of_requested (h : ∀ v ∈ r.values, v.state ≠ .notRequested)
    (threshold : Nat) : r.plan threshold = ⟨[], []⟩ := by
  have hnone : r.values.filter (fun v => v.state == .notRequested) = [] :=
    List.filter_eq_nil_iff.mpr fun v hv => by simpa using h v hv
  rw [Registry.plan, hnone]
  rfl

/-- **A registry without values that wait** is idle on a tidy controller. -/
theorem Registry.idle_of_requested (hrequested : ∀ v ∈ r.values, v.state ≠ .notRequested)
    (hoptimised : r.optimised = true) (htidy : plc.Tidy r.values) : r.Idle plc route := by
  have hstart : r.startMerge plc ⟨[], []⟩ = ⟨r.values, plc, {}, []⟩ := by
    simp [startMerge, update]
  have hsliced : ∀ outside threshold,
      r.slicedAmid outside route plc threshold = ⟨r.values, plc, {}, []⟩ := by
    intro outside threshold
    unfold slicedAmid groupAmid
    rw [plan_of_requested hrequested, hstart]
    rfl
  refine ⟨fun threshold => ?_, hsliced⟩
  have hsame : ({ r with values := r.values, optimised := true } : Registry) = r := by
    rw [← hoptimised]
  rw [merge_eq_slicedAmid, hsliced]
  dsimp only
  rw [hsame, Plc.keepOnly_of_live_subset htidy]

/-- **A pass is the only one**: after any first pass over any registry, and any registrations, the
registry is idle. -/
theorem idle_of_later (h : Registry.Reached route parsed passes r plc)
    (outside : MergePass → Plc) (threshold : Nat)
    (hlater : Registry.Later route (r.mergeAmid outside plc route threshold).1
      (r.mergeAmid outside plc route threshold).2 next after) : next.Idle after route := by
  obtain ⟨all, hall⟩ := hlater.reached (h.merge outside threshold)
  have hoptimised := hall.optimised (Nat.succ_pos passes)
  exact idle_of_requested (hall.sound.requested hoptimised) hoptimised
    (hlater.tidy (tidy_mergeAmid outside r plc route threshold))

end

/-! ## A pump that is merged before its last value is registered -/

def mergedPump : Registry × Plc := pump.1.mergeAmid MergePass.plc pump.2 pumpRoute 2

def pumpFlow : Descriptor := plainAt "Pump.Flow" .int 4

theorem parse_pumpFlow : Descriptor.parse ⟨[], .empty⟩ "Pump.Flow INT none 4 none" =
    .ok pumpFlow := by
  with_unfolding_all rfl

/-- The flow belongs to the pump, but it comes too late to be merged. -/
theorem idle_of_later_pump :
    (enrolled mergedPump pumpFlow).1.values.map Registered.state =
        [.master, .optimised, .doNotOptimise, .doNotOptimise] ∧
      (enrolled mergedPump pumpFlow).1.Idle (enrolled mergedPump pumpFlow).2 pumpRoute := by
  have hadded := register_enrolled mergedPump parse_pumpFlow (by decide +kernel)
    (by decide +kernel)
  exact ⟨by decide +kernel, idle_of_later reached_pump MergePass.plc 2 (.register .refl hadded)⟩

end PlcTags

import PlcTags.Registry.Basic

/-!
# The merge pass

Groups of values move to one tag of their parent, then neighbouring array elements move to one tag
of a slice of the array. One value of each tag and poller, the master, starts the reads. Where a tag
cannot be created the values keep what they had.

A pass looks for values by their identifiers. In every registry that is reached this finds what its
index finds, and a pass keeps the identifiers and the index.

* `Registry.merge` runs the pass over the values that no pass has seen.
* Tags that no value refers to any more are destroyed at the end.
-/

namespace PlcTags

/-- Why a merge did not happen. -/
inductive MergeError
  | sharedTag (poller parent : String) (cause : TransportError)
  deriving DecidableEq, Repr

/-- The text of an error. -/
def MergeError.message : MergeError → String
  | .sharedTag poller parent cause =>
    s!"optimisation error: could not create shared tag '{parent}' for poller '{poller}': " ++
      cause.message

/-- What a pass did. -/
structure MergeReport where
  groups : Nat := 0
  values : Nat := 0
  slices : Nat := 0
  notMerged : Nat := 0
  failures : List MergeError := []
  deriving DecidableEq, Repr

/-- A pass under way; `shared` has the tag of each group so far, if it was obtained. -/
structure MergePass where
  values : List Registered
  plc : Plc
  report : MergeReport := {}
  shared : List (Option TagRef) := []

namespace Registered

/-- The value when nothing is merged. -/
def withState (v : Registered) (state : MergeState) : Registered :=
  { v with state := state }

/-- The value as a reader of a shared tag. The master starts the reads. -/
def joined (v : Registered) (master : ValueId) (tag : TagRef) : Registered :=
  { v with
    tag := some tag
    state := if v.id = master then .master else .optimised
    readFlag := v.id = master }

/-- The value as a member of a group with a tag. -/
def joinGroup (v : Registered) (master : ValueId) (tag : TagRef) : Registered :=
  { v.joined master tag with creationError := none }

/-- The value as part of a slice, at an offset of the slice. -/
def joinSlice (v : Registered) (master : ValueId) (tag : TagRef) (offset : Nat) : Registered :=
  { v.joined master tag with
    elementOffset := some v.descriptor.offset
    descriptor := { v.descriptor with offset := offset } }

end Registered

namespace MergePass

/-- Changes the values with given identifiers. -/
def update (values : List Registered) (ids : List ValueId) (change : Registered → Registered) :
    List Registered :=
  values.map fun v => if v.id ∈ ids then change v else v

/-- May the tags that serve a value pack requests? -/
def allowsPacking (values : List Registered) (master : ValueId) : Bool :=
  match values.find? fun v => v.id == master with
  | some v => v.descriptor.attributes.allowPacking
  | none => true

/-- The creation text of a tag for merged reads. -/
def sharedConnection (values : List Registered) (route tag : String) (count : Nat)
    (master : ValueId) : String :=
  connectionText route tag count
    ((Attributes.sharedParent (allowsPacking values master)).render .udt)

/-- The tag that the master already has when it is the parent itself. -/
def masterTag? (values : List Registered) (group : Group) : Option TagRef :=
  if group.masterIsParent then
    (values.find? fun v => v.id == group.master).bind Registered.tag
  else none

/-- The tag of a group: the master's if it is the parent, else one that a value holds, else a new
one. -/
def groupTag (values : List Registered) (plc : Plc) (route : String) (group : Group) :
    Plc × Except TransportError TagRef :=
  match masterTag? values group with
  | some tag => (plc, .ok tag)
  | none =>
    Registry.obtainTag values plc (sharedConnection values route group.parent 1 group.master)

/-- The pass after one more group. -/
def mergeGroup (route : String) (pass : MergePass) (group : Group) : MergePass :=
  let waiting := update pass.values group.members fun v => v.withState .pending
  match groupTag waiting pass.plc route group with
  | (plc, .ok tag) =>
    { values := update waiting group.members fun v => v.joinGroup group.master tag
      plc := plc
      report := { pass.report with
        groups := pass.report.groups + 1
        values := pass.report.values + (group.members.length - 1) }
      shared := pass.shared ++ [some tag] }
  | (plc, .error cause) =>
    { values := update waiting group.members fun v => v.withState .failed
      plc := plc
      report := { pass.report with
        failures := pass.report.failures ++ [.sharedTag group.poller group.parent cause] }
      shared := pass.shared ++ [none] }

/-- The elements of a family whose groups have a tag. -/
def usable (shared : List (Option TagRef)) (family : Family) : Family :=
  { family with
    elements := family.elements.filter fun element => (shared[element.2]?.join).isSome }

/-- The size of the elements of a family: the buffer of its first one. -/
def elementSize? (pass : MergePass) (family : Family) : Option Nat := do
  let first ← family.elements.head?
  let tag ← pass.shared[first.2]?.join
  match pass.plc.bufferOf tag.handle with
  | .ok buffer => some buffer.length
  | .error _ => none

/-- The members of a group by its number. -/
def membersOf (groups : List Group) (number : Nat) : List ValueId :=
  (groups[number]?.map Group.members).getD []

/-- The offset in a slice of one value of an element. -/
def rebasedOffset? (values : List Registered) (slice : Slice) (elementSize index : Nat)
    (id : ValueId) : Option (ValueId × Nat) := do
  let v ← values.find? fun v => v.id == id
  let offset ← slice.rebase? index elementSize v.descriptor.offset v.descriptor.bitAddressed
  pure (id, offset)

/-- The offsets in a slice of all values of its elements, if none leaves the address range. -/
def rebased? (values : List Registered) (groups : List Group) (slice : Slice) (elementSize : Nat) :
    Option (List (ValueId × Nat)) :=
  (slice.elements.flatMap fun element =>
    (membersOf groups element.2).map fun id => (element.1, id)).mapM fun placed =>
      rebasedOffset? values slice elementSize placed.1 placed.2

/-- The values with those of a slice moved to its tag. -/
def moveToSlice (values : List Registered) (master : ValueId) (tag : TagRef)
    (offsets : List (ValueId × Nat)) : List Registered :=
  values.map fun v => match Keyed.find? v.id offsets with
    | some offset => v.joinSlice master tag offset
    | none => v

/-- The value that reads a slice: the master of its first element. -/
def sliceMaster? (groups : List Group) (slice : Slice) : Option ValueId := do
  let first ← slice.elements.head?
  let group ← groups[first.2]?
  pure group.master

/-- The pass after one more slice. -/
def mergeSlice (route : String) (groups : List Group) (family : Family) (elementSize : Nat)
    (pass : MergePass) (slice : Slice) : MergePass :=
  match sliceMaster? groups slice, rebased? pass.values groups slice elementSize with
  | some master, some offsets =>
    let name := s!"{family.array}[{slice.start}]"
    match pass.plc.create (sharedConnection pass.values route name slice.count master) with
    | (plc, .ok tag) =>
      { pass with
        values := moveToSlice pass.values master tag offsets
        plc := plc
        report := { pass.report with
          slices := pass.report.slices + 1
          values := pass.report.values + (slice.elements.length - 1) } }
    | (plc, .error cause) =>
      { pass with
        plc := plc
        report := { pass.report with
          failures := pass.report.failures ++ [.sharedTag family.poller name cause] } }
  | _, _ => pass

/-- The pass after one more family. -/
def mergeFamily (route : String) (groups : List Group) (pass : MergePass) (family : Family) :
    MergePass :=
  let usableFamily := usable pass.shared family
  match elementSize? pass usableFamily with
  | none => pass
  | some size =>
    (usableFamily.slices size).foldl (mergeSlice route groups usableFamily size) pass

end MergePass

namespace Registry

/-- The plan for the values that no pass has seen. -/
def plan (r : Registry) (threshold : Nat) : Plan :=
  Plan.ofValues ((r.values.filter fun v => v.state == .notRequested).map fun v =>
    (v.id, v.descriptor)) threshold

/-- The pass before its first group: values outside the plan's groups are left alone for good. -/
def startMerge (r : Registry) (plc : Plc) (plan : Plan) : MergePass where
  values := MergePass.update r.values plan.notMerged fun v => v.withState .doNotOptimise
  plc := plc
  report := { notMerged := plan.notMerged.length }

/-- The registry and the controller after a merge pass, and what it did. -/
def merge (r : Registry) (plc : Plc) (route : String) (threshold : Nat) :
    Registry × Plc × MergeReport :=
  let plan := r.plan threshold
  let grouped := plan.groups.foldl (MergePass.mergeGroup route) (r.startMerge plc plan)
  let sliced := (Family.ofGroups plan.groups).foldl (MergePass.mergeFamily route plan.groups) grouped
  ({ r with values := sliced.values, optimised := true },
    sliced.plc.keepOnly (handles sliced.values), sliced.report)

end Registry

end PlcTags

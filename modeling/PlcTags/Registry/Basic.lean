import PlcTags.Descriptor.Parser
import PlcTags.Plan.Slices
import PlcTags.Transport.Plc

/-!
# The registry

The registered values in their order, each with the tag that it is read from, and an index that has
the position of each value under its identifier. Values with one creation text share one tag. A value
whose tag cannot be created is registered without one.

* `Registry.register` adds a value or refuses its text.
* `Registry.find?` looks a value up through the index.
* `Registry.snapshot` is what pollers work on.
-/

namespace PlcTags

/-- How merging has treated a value. -/
inductive MergeState
  | notRequested
  | doNotOptimise
  | pending
  | optimised
  | master
  | failed
  deriving DecidableEq, Repr

/-- Does the value read a buffer that serves several values? -/
def MergeState.sharesBuffer : MergeState → Bool
  | .optimised | .master => true
  | _ => false

/-- A registered value. `connection` creates its own tag, `tag` is the one it is read from; the read
flag tells whether it starts reads itself; `elementOffset` is its offset in its own tag once the
descriptor's offset counts in a slice. -/
structure Registered where
  id : ValueId
  descriptor : Descriptor
  connection : String
  state : MergeState
  tag : Option TagRef
  readFlag : Bool
  creationError : Option TransportError
  elementOffset : Option Nat
  deriving DecidableEq, Repr

namespace Registered

/-- The poller that reads the value. -/
def poller (v : Registered) : String :=
  v.descriptor.pollerName

/-- The handle of the tag that the value is read from. -/
def handle? (v : Registered) : Option Nat :=
  v.tag.map TagRef.handle

/-- The creation text of the tag that the value is read from, or of its own if it has none. -/
def currentConnection (v : Registered) : String :=
  (v.tag.map TagRef.connection).getD v.connection

end Registered

/-- The values as pollers see them. -/
structure Snapshot where
  values : List Registered
  deriving DecidableEq, Repr

namespace Snapshot

/-- The values of a poller. -/
def group (s : Snapshot) (poller : String) : List Registered :=
  s.values.filter fun v => v.poller == poller

/-- The value of an identifier. -/
def find? (s : Snapshot) (id : ValueId) : Option Registered :=
  s.values.find? fun v => v.id == id

end Snapshot

/-- The registered values with their positions by identifier, the supply that further identifiers are
drawn from, the pollers that values may name, the structures they may refer to, and whether values
were merged. -/
structure Registry where
  ids : ValueId.Supply
  values : List Registered := []
  index : List (ValueId × Nat) := []
  pollers : List String := []
  structs : Layout.Table := .empty
  optimised : Bool := false

namespace Registry

/-- The registry with a poller, and whether it is new. -/
def addPoller (r : Registry) (name : String) : Registry × Bool :=
  if r.pollers.contains name then (r, false)
  else ({ r with pollers := r.pollers ++ [name] }, true)

/-- The registry with other structures. -/
def setStructs (r : Registry) (structs : Layout.Table) : Registry :=
  { r with structs := structs }

/-- What descriptors are read against. -/
def scope (r : Registry) : Scope :=
  ⟨r.pollers, r.structs⟩

/-- The position of the value of an identifier. -/
def position? (r : Registry) (id : ValueId) : Option Nat :=
  Keyed.find? id r.index

/-- The value of an identifier. -/
def find? (r : Registry) (id : ValueId) : Option Registered :=
  (r.position? id).bind fun i => r.values[i]?

/-- The tag among values that a creation text made. -/
def tagAmong? (values : List Registered) (connection : String) : Option TagRef :=
  (values.filterMap Registered.tag).find? fun tag => tag.connection == connection

/-- The handles that values refer to. -/
def handles (values : List Registered) : List Nat :=
  values.filterMap Registered.handle?

/-- Do other values refer to the tag of a value? -/
def sharesTag (r : Registry) (id : ValueId) : Bool :=
  match (r.find? id).bind Registered.handle? with
  | none => false
  | some handle => 1 < (handles r.values).count handle

/-- A tag for a creation text: the one that a value holds, else a new one. -/
def obtainTag (values : List Registered) (plc : Plc) (connection : String) :
    Plc × Except TransportError TagRef :=
  match tagAmong? values connection with
  | some tag => (plc, .ok tag)
  | none => plc.create connection

/-- The value of a descriptor with the outcome of creating its tag, under the next identifier. -/
def newValue (r : Registry) (route : String) (d : Descriptor)
    (outcome : Except TransportError TagRef) : Registered where
  id := r.ids.draw r.values.length
  descriptor := d
  connection := d.connection route
  state := if r.optimised then .doNotOptimise else .notRequested
  tag := outcome.toOption
  readFlag := true
  creationError := match outcome with
    | .ok _ => none
    | .error cause => some cause
  elementOffset := none

/-- The registry with a value at its end, and the position of it in the index. -/
def append (r : Registry) (v : Registered) : Registry :=
  { r with
    values := r.values ++ [v]
    index := Keyed.assign v.id r.values.length r.index }

@[simp] theorem values_append (r : Registry) (v : Registered) :
    (r.append v).values = r.values ++ [v] :=
  rfl

@[simp] theorem optimised_append (r : Registry) (v : Registered) :
    (r.append v).optimised = r.optimised :=
  rfl

/-- The registry and the controller with one more value. A text that is no descriptor is refused. -/
def register (r : Registry) (plc : Plc) (route text : String) :
    Except DescriptorError (Registry × Plc × Registered) :=
  (Descriptor.parse r.scope text).map fun d =>
    let (after, outcome) := obtainTag r.values plc (d.connection route)
    let value := r.newValue route d outcome
    (r.append value, after, value)

/-- The values as pollers see them. -/
def snapshot (r : Registry) : Snapshot :=
  ⟨r.values⟩

end Registry

end PlcTags

import PlcTags.Descriptor.Basic
import PlcTags.ValueId

/-!
# Merge groups

Which values can be read together. Values of one poller whose tags belong to one parent tag form a
group, if there are enough of them; one of the group reads for all.

* `Plan.ofValues` is the partition of the values by poller and parent.
-/

namespace PlcTags

/-- Values of one poller that are read through one parent tag. -/
structure Group where
  poller : String
  parent : String
  master : ValueId
  members : List ValueId
  masterIsParent : Bool
  deriving DecidableEq, Repr

/-- The groups to merge, and the values that stay alone. -/
structure Plan where
  groups : List Group
  notMerged : List ValueId
  deriving DecidableEq, Repr

/-- The parent tag of a value that may be merged. A string in a shared buffer is read by its
capacity, so it needs one. -/
def Descriptor.mergeParent? (d : Descriptor) : Option String :=
  if d.type = .string ∧ d.attributes.maxCapacity = none then none else d.parent?

/-- A value that may be merged, with its parent tag. -/
structure Candidate where
  id : ValueId
  descriptor : Descriptor
  parent : String
  deriving DecidableEq, Repr

namespace Candidate

/-- A value as a candidate. -/
def ofValue? (value : ValueId × Descriptor) : Option Candidate :=
  value.2.mergeParent?.map fun parent => ⟨value.1, value.2, parent⟩

/-- What the values of a group have in common: poller and parent. -/
def key (c : Candidate) : String × String :=
  (c.descriptor.pollerName, c.parent)

/-- Is its own tag the parent tag? -/
def isParent (c : Candidate) : Bool :=
  c.descriptor.tag == c.parent && c.descriptor.elementCount == 1

end Candidate

namespace Group

/-- The group of candidates with a key. The first one whose tag is the parent reads for all, else the
first one. -/
def ofMembers (key : String × String) (first : Candidate) (members : List Candidate) : Group :=
  let parent? := members.find? Candidate.isParent
  { poller := key.1
    parent := key.2
    master := (parent?.getD first).id
    members := members.map Candidate.id
    masterIsParent := parent?.isSome }

end Group

namespace Plan

/-- The candidates with a key, in their order. -/
def withKey (candidates : List Candidate) (key : String × String) : List Candidate :=
  candidates.filter fun c => c.key == key

/-- The keys in the order in which they first come. -/
def keys (candidates : List Candidate) : List (String × String) :=
  (candidates.map Candidate.key).eraseDups

/-- A key has enough candidates; one is always needed. -/
def isLarge (threshold : Nat) (members : List Candidate) : Bool :=
  max threshold 1 ≤ members.length

/-- The group of a key, if it has enough candidates. -/
def group? (threshold : Nat) (candidates : List Candidate) (key : String × String) :
    Option Group :=
  let members := withKey candidates key
  match members with
  | [] => none
  | first :: _ =>
    if isLarge threshold members then some (Group.ofMembers key first members) else none

/-- The values of a key with too few candidates. -/
def leftovers (threshold : Nat) (candidates : List Candidate) (key : String × String) :
    List ValueId :=
  let members := withKey candidates key
  if isLarge threshold members then [] else members.map Candidate.id

/-- The partition of values by poller and parent. -/
def ofValues (values : List (ValueId × Descriptor)) (threshold : Nat) : Plan :=
  let candidates := values.filterMap Candidate.ofValue?
  let ineligible := values.filter fun value => value.2.mergeParent?.isNone
  { groups := (keys candidates).filterMap (group? threshold candidates)
    notMerged := ineligible.map Prod.fst ++
      (keys candidates).flatMap (leftovers threshold candidates) }

end Plan

end PlcTags

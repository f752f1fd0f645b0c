import PlcTags.Layout.Error
import PlcTags.Layout.Offsets

/-!
# Index paths

A leaf is named by a path of indices counted from one: `[2, 1]` is the first member of the second
member. A path that stops at an array or a structure means its first leaf. The lookup reads the flat
tokens: it walks over the members of one level, steps into the one that the index names, and counts
the leaves it passes.

* `nth?` finds a member of a level; a level is the first `room` tokens.
* `leaf?` gives the number of leaves before the one that a path names.
-/

namespace PlcTags.Layout

/-- Why an index path names no leaf. -/
inductive LookupError
  | unknownStructure (name : String)
  | invalidStructure (name : String) (cause : DefinitionError)
  | invalidIndex (name : String) (path : List Nat)
  deriving DecidableEq, Repr

/-- A path in brackets, its indices between commas. -/
def pathText (path : List Nat) : String :=
  "[" ++ String.intercalate ", " (path.map toString) ++ "]"

namespace LookupError

/-- The text of an error. -/
def message : LookupError → String
  | .unknownStructure name => s!"structure '{name}' is not defined"
  | .invalidStructure name cause => s!"structure '{name}' failed to compile: " ++ cause.message
  | .invalidIndex name path =>
    "index path " ++ pathText path ++ s!" is not valid for structure '{name}'"

end LookupError

/-- How many tokens there are up to and with the end of the outermost of `depth + 1` open regions. -/
def closing? : (depth : Nat) → List Token → Option Nat
  | _, [] => none
  | depth, .primitive _ :: rest => (closing? depth rest).map (· + 1)
  | depth, .enter _ :: rest => (closing? (depth + 1) rest).map (· + 1)
  | 0, .leave _ :: _ => some 1
  | depth + 1, .leave _ :: rest => (closing? depth rest).map (· + 1)

/-- How many tokens the first member takes. -/
def memberLength? : List Token → Option Nat
  | [] => none
  | .primitive _ :: _ => some 1
  | .enter _ :: rest => (closing? 0 rest).map (· + 1)
  | .leave _ :: _ => none

/-- The member with `n` others before it on a level of `room` tokens: how many tokens stand before
it, and how many it takes. -/
def nth? (tokens : List Token) (room : Nat) : (n : Nat) → Option (Nat × Nat)
  | 0 => if room = 0 then none else (memberLength? tokens).map fun length => (0, length)
  | n + 1 =>
    if room = 0 then none
    else (memberLength? tokens).bind fun length =>
      (nth? (tokens.drop length) (room - length) n).map fun found => (length + found.1, found.2)

/-- How many leaves stand before the leaf that a path names on a level of `room` tokens. -/
def leaf? : (path : List Nat) → (tokens : List Token) → (room : Nat) → Option Nat
  | [], _, _ => none
  | 0 :: _, _, _ => none
  | (index + 1) :: deeper, tokens, room =>
    (nth? tokens room index).bind fun found =>
      let passed := primitiveCount (tokens.take found.1)
      let member := (tokens.drop found.1).take found.2
      match tokens.drop found.1, deeper with
      | .primitive _ :: _, [] => some passed
      | .enter _ :: _, [] => if member.any Token.isPrimitive then some passed else none
      | .enter _ :: inner, _ :: _ => (leaf? deeper inner (found.2 - 2)).map (passed + ·)
      | _, _ => none

/-- The offset that a path names in an expanded structure. -/
def resolve (name : String) (tokens : List Token) (table : List LeafOffset) (path : List Nat) :
    Except LookupError LeafOffset :=
  match (leaf? path tokens tokens.length).bind fun leaf => table[leaf]? with
  | some offset => .ok offset
  | none => .error (.invalidIndex name path)

end PlcTags.Layout

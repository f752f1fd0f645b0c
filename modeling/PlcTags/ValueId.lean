import PlcTags.Text.Hex

/-!
# Value identifiers

An identifier is a number, written as thirty-two hexadecimal digits. Registered values draw theirs
from a supply. How a supply makes identifiers is left open, and all that is asked of it is that it
makes none twice.
-/

namespace PlcTags

/-- The identifier of a registered value. -/
structure ValueId where
  number : Nat
  deriving DecidableEq, Repr

namespace ValueId

/-- The identifier zero. -/
def nil : ValueId :=
  ⟨0⟩

/-- Thirty-two hexadecimal digits in groups of eight, four, four, four and twelve. -/
def text (id : ValueId) : String :=
  let digits := Text.Hex.padded 32 id.number
  let group (start length : Nat) := (digits.drop start).take length
  String.ofList <| List.intercalate ['-']
    [group 0 8, group 8 4, group 12 4, group 16 4, group 20 12]

/-- Where identifiers come from: what is drawn first, second and so on. Nothing is drawn twice. -/
structure Supply where
  draw : Nat → ValueId
  fresh : ∀ {i j : Nat}, draw i = draw j → i = j

/-- The supply of the identifiers one, two, three and so on. -/
def Supply.counting : Supply where
  draw n := ⟨n + 1⟩
  fresh h := by simpa using h

end ValueId

end PlcTags

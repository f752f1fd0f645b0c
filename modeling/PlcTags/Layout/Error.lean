/-!
# Definition errors

Why a structure cannot be laid out.
-/

namespace PlcTags.Layout

/-- What is wrong with an array member. -/
inductive ArrayFault
  | unclosed
  | noBounds
  | badLow
  | badHigh
  | reversed
  | noElement
  | nested
  deriving DecidableEq, Repr

namespace ArrayFault

/-- The words for a fault. -/
def reason : ArrayFault → String
  | .unclosed => "missing ']'"
  | .noBounds => "bounds must look like low..high"
  | .badLow => "lower bound is not a non-negative integer"
  | .badHigh => "upper bound is not a non-negative integer"
  | .reversed => "upper bound is below lower bound"
  | .noElement => "expected 'OF <type>' after bounds"
  | .nested => "nested ARRAY element types are not supported"

end ArrayFault

/-- Why a structure cannot be laid out. -/
inductive DefinitionError
  | unknownStructure (name : String)
  | malformedArray (owner member : String) (fault : ArrayFault)
  | malformedString (owner member : String)
  | emptyMember (owner : String)
  | cyclic (name : String) (chain : List String)
  | alignmentFailure (owner : String) (position : Nat)
  deriving DecidableEq, Repr

namespace DefinitionError

/-- The text of an error. -/
def message : DefinitionError → String
  | .unknownStructure name => s!"definition error: unknown structure '{name}'"
  | .malformedArray owner member fault =>
    s!"definition error: malformed array '{member}' in '{owner}': " ++ fault.reason
  | .malformedString owner member =>
    s!"definition error: STRING member '{member}' in '{owner}' must specify a capacity like STRING[n]"
  | .emptyMember owner => s!"definition error: empty member in '{owner}'"
  | .cyclic name chain =>
    s!"definition error: structure '{name}' contains itself (" ++
      String.intercalate " -> " chain ++ ")"
  | .alignmentFailure owner position =>
    s!"definition error: could not align member {position} of '{owner}'"

end DefinitionError

end PlcTags.Layout

import PlcTags.Buffer

/-!
# Transport errors

Why a tag cannot be created, read or written.
-/

namespace PlcTags

/-- Why a tag cannot be created, read or written; codes are those of the tag library. -/
inductive TransportError
  | createFailed (connection : String) (code : Int)
  | status (handle : Nat) (code : Int)
  | timeout (handle millis : Nat)
  | noTag
  deriving DecidableEq, Repr

namespace TransportError

/-- The text of an error. -/
def message : TransportError → String
  | .createFailed connection code =>
    s!"transport error: could not create tag '{connection}' ({code}): " ++ TagFault.codeText code
  | .status handle code =>
    s!"transport error: tag {handle} failed ({code}): " ++ TagFault.codeText code
  | .timeout handle millis =>
    s!"transport error: tag {handle} did not complete within {millis} ms"
  | .noTag => "transport error: value has no physical tag"

end TransportError

end PlcTags

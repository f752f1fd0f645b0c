import PlcTags.DataType
import PlcTags.Layout.Lookup

/-!
# Descriptor errors

Why the text of a value is refused.
-/

namespace PlcTags

/-- What is wrong with an option. -/
inductive ExtraFault
  | notPair
  | notFlag
  | notCount
  deriving DecidableEq, Repr

/-- The words for a fault. -/
def ExtraFault.reason : ExtraFault → String
  | .notPair => "expected key=value"
  | .notFlag => "expected 0 or 1"
  | .notCount => "expected a non-negative integer"

/-- What is wrong with an offset. -/
inductive OffsetFault
  | notLiteral
  | noIndex
  | noName
  | notBracketed
  | notInteger
  deriving DecidableEq, Repr

/-- The words for a fault. -/
def OffsetFault.reason : OffsetFault → String
  | .notLiteral => "expected a non-negative 32-bit integer"
  | .noIndex => "structure offsets need at least one index, e.g. name[1]"
  | .noName => "missing structure name"
  | .notBracketed => "indices must look like [n][m]..."
  | .notInteger => "indices must be integers"

/-- Why the text of a value is refused. -/
inductive DescriptorError
  | empty
  | unclosedEscape
  | wrongFieldCount (expected got : Nat)
  | reservedPoller (name : String)
  | unknownPoller (name : String)
  | unclosedIndex (tag : String)
  | invalidStartIndex (tag raw : String)
  | unknownDataType (keyword : String)
  | invalidSliceCount (raw : String)
  | sliceWithoutIndex (count : Nat)
  | sliceNotSupported (type : DataType) (count : Nat)
  | sliceTooLarge (type : DataType) (count limit : Nat)
  | invalidOffset (raw : String) (fault : OffsetFault)
  | offset (cause : Layout.LookupError)
  | invalidExtra (segment : String) (fault : ExtraFault)
  deriving DecidableEq, Repr

namespace DescriptorError

/-- The text of an error. -/
def message : DescriptorError → String
  | .empty => "descriptor error: empty descriptor"
  | .unclosedEscape => "descriptor error: unterminated escape sequence"
  | .wrongFieldCount expected got => s!"descriptor error: expected {expected} fields, got {got}"
  | .reservedPoller name => s!"descriptor error: poller '{name}' is reserved"
  | .unknownPoller name => s!"descriptor error: poller '{name}' does not exist"
  | .unclosedIndex tag => s!"descriptor error: tag '{tag}' has an unclosed '['"
  | .invalidStartIndex tag raw =>
    s!"descriptor error: start index '{raw}' of tag '{tag}' must be an integer >= 1"
  | .unknownDataType keyword => s!"descriptor error: unknown data type '{keyword}'"
  | .invalidSliceCount raw => s!"descriptor error: invalid slice count '{raw}'"
  | .sliceWithoutIndex count =>
    s!"descriptor error: slice count {count} requires an indexed tag name like tag[1]"
  | .sliceNotSupported type count =>
    "descriptor error: " ++ type.keyword ++ s!" does not support slices (count {count})"
  | .sliceTooLarge type count limit =>
    s!"descriptor error: slice of {count} " ++ type.keyword ++
      s!" exceeds one CIP message (at most {limit})"
  | .invalidOffset raw fault => s!"descriptor error: invalid offset '{raw}': " ++ fault.reason
  | .offset cause => "descriptor error: " ++ cause.message
  | .invalidExtra segment fault =>
    s!"descriptor error: invalid extra '{segment}': " ++ fault.reason

end DescriptorError

end PlcTags

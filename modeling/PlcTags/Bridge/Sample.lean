import PlcTags.Value.Basic
import PlcTags.ValueId

/-!
# Samples

What a poll tells of a value: the value itself, or why there is none.
-/

namespace PlcTags

/-- How good a sample is. -/
inductive Quality
  | ok
  | timeout
  | commError
  | decodeError
  | configError
  deriving DecidableEq, Repr

/-- The name of a quality. -/
def Quality.name : Quality → String
  | .ok => "Ok"
  | .timeout => "Timeout"
  | .commError => "CommError"
  | .decodeError => "DecodeError"
  | .configError => "ConfigError"

/-- The outcome of reading one value. -/
structure Sample where
  id : ValueId
  quality : Quality
  value : Option Value
  display : String
  message : String

namespace Sample

/-- A sample without a value. -/
def failure (id : ValueId) (quality : Quality) (message : String) : Sample :=
  ⟨id, quality, none, "", message⟩

/-- A sample of a value. -/
def success (id : ValueId) (value : Value) : Sample :=
  ⟨id, .ok, some value, value.display, ""⟩

end Sample

/-- How many samples there are of each quality. -/
structure PollStats where
  total : Nat
  ok : Nat
  timeout : Nat
  commError : Nat
  decodeError : Nat
  configError : Nat
  deriving DecidableEq, Repr

namespace PollStats

/-- The counts of samples. -/
def ofSamples (samples : List Sample) : PollStats :=
  let count (quality : Quality) := samples.countP fun sample => sample.quality = quality
  ⟨samples.length, count .ok, count .timeout, count .commError, count .decodeError,
    count .configError⟩

end PollStats

end PlcTags

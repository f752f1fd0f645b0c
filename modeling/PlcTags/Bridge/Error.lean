import PlcTags.Bridge.Sample
import PlcTags.Codec
import PlcTags.Config
import PlcTags.Registry.Merge

/-!
# Bridge errors

All that can go wrong, and the quality of the samples that it gives.
-/

namespace PlcTags

/-- Why the bridge refuses or fails. -/
inductive BridgeError
  | definition (cause : Layout.DefinitionError)
  | descriptor (cause : DescriptorError)
  | transport (cause : TransportError)
  | merge (cause : MergeError)
  | decode (cause : DecodeError)
  | config (cause : ConfigError)
  | unknownValue (id : ValueId)
  | unknownPoller (name : String)
  | notInitialised
  deriving DecidableEq, Repr

/-- A transport that did not answer in time is a timeout, every other trouble with it a
communication error. -/
def TransportError.quality : TransportError → Quality
  | .timeout _ _ => .timeout
  | _ => .commError

namespace BridgeError

/-- The text of an error is that of its cause. -/
def message : BridgeError → String
  | .definition cause => cause.message
  | .descriptor cause => cause.message
  | .transport cause => cause.message
  | .merge cause => cause.message
  | .decode cause => cause.message
  | .config cause => cause.message
  | .unknownValue id => "unknown value id: " ++ id.text
  | .unknownPoller name => "unknown poller: " ++ name
  | .notInitialised => "driver is not initialised: optimisation pass has not run yet"

/-- The quality that an error gives. -/
def quality : BridgeError → Quality
  | .transport cause => cause.quality
  | .merge _ => .commError
  | .decode _ => .decodeError
  | _ => .configError

end BridgeError

end PlcTags

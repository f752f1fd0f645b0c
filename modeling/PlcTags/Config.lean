import PlcTags.Descriptor.Basic
import PlcTags.Json.Reader
import PlcTags.Text.Blank

/-!
# Configuration

What a bridge has to know: the controller and the way to it, time limits, and the pollers.

* `Config.ofJson?` reads a configuration; fields with a default may be missing.
* `Config.validate` refuses one that cannot be used, with the first reason.
-/

namespace PlcTags

open PlcTags.Text (wordLimit halfWordLimit)

/-- A group of values that is read again and again. Requests may be spread over the period. -/
structure PollerConfig where
  name : String
  rateMs : Nat
  spread : Bool := false
  deriving DecidableEq, Repr

/-- A configuration. The zone is how many hours the controller clock is ahead, in double
precision. -/
structure Config where
  schemaVersion : Nat
  gateway : String
  path : String
  plcType : String := "omron-njnx"
  createTimeoutMs : Nat := 1000
  readTimeoutMs : Nat := 1000
  mergeThreshold : Nat := 2
  zone : BitVec 64 := 0
  structFile : Option String := none
  pollers : List PollerConfig := []
  deriving DecidableEq, Repr

/-- Why a configuration cannot be used. -/
inductive ConfigError
  | unsupportedSchemaVersion (version : Nat)
  | emptyGateway
  | emptyPollerName
  | duplicatePoller (name : String)
  | reservedPoller (name : String)
  | zeroUpdateRate (name : String)
  deriving DecidableEq, Repr

namespace ConfigError

/-- The text of an error. -/
def message : ConfigError → String
  | .unsupportedSchemaVersion version => s!"config error: unsupported schemaVersion {version}"
  | .emptyGateway => "config error: gateway must not be empty"
  | .emptyPollerName => "config error: poller name must not be empty"
  | .duplicatePoller name => s!"config error: duplicate poller '{name}'"
  | .reservedPoller name => s!"config error: poller name '{name}' is reserved"
  | .zeroUpdateRate name => s!"config error: poller '{name}' needs an update rate above 0 ms"

end ConfigError

/-! ## Reading -/

/-- A field that must be there. -/
def required? {α : Type} (read : Json → Option α) (field : Option Json) : Option α :=
  field.bind read

/-- A field with a default. -/
def defaulted? {α : Type} (default : α) (read : Json → Option α) (field : Option Json) : Option α :=
  match field with
  | none => some default
  | some value => read value

/-- The word of a number in double precision. -/
def doubleOfJson? : Json → Option (BitVec 64)
  | .number n => n.double?.map (BitVec.ofNat 64)
  | _ => none

/-- A text, or null for none. -/
def textOrNull? : Json → Option (Option String)
  | .null => some none
  | .string value => some (some value)
  | _ => none

namespace PollerConfig

/-- The fields of a poller in their order. -/
def fieldNames : List String :=
  ["name", "updateRateMs", "spreadRequests"]

/-- The poller of a JSON form. -/
def ofJson? (json : Json) : Option PollerConfig := do
  match ← json.fields? fieldNames with
  | [name, rate, spread] =>
    let name ← required? Json.toText? name
    let rateMs ← required? (Json.toNatBelow? wordLimit) rate
    let spread ← defaulted? false Json.toBool? spread
    pure ⟨name, rateMs, spread⟩
  | _ => none

/-- A poller that can be used: a name that is not blank and not reserved, and a period. -/
def validate (poller : PollerConfig) : Except ConfigError Unit :=
  if (Text.trim poller.name.toList).isEmpty then .error .emptyPollerName
  else if poller.name = initPoller then .error (.reservedPoller poller.name)
  else if poller.rateMs = 0 then .error (.zeroUpdateRate poller.name)
  else .ok ()

end PollerConfig

namespace Config

/-- The schema version that is understood. -/
def currentVersion : Nat := 1

/-- The fields of a configuration in their order. -/
def fieldNames : List String :=
  ["schemaVersion", "gateway", "path", "plcType", "createTagTimeoutMs", "readTimeoutMs",
   "optimiseThreshold", "timezoneOffsetHours", "structFile", "pollers"]

/-- The pollers of a JSON form. -/
def pollersOfJson? (json : Json) : Option (List PollerConfig) := do
  (← json.toItems?).mapM PollerConfig.ofJson?

/-- The configuration of a JSON form. -/
def ofJson? (json : Json) : Option Config := do
  match ← json.fields? fieldNames with
  | [version, gateway, path, plcType, createTimeout, readTimeout, threshold, zone, structFile,
      pollers] =>
    let schemaVersion ← required? (Json.toNatBelow? halfWordLimit) version
    let gateway ← required? Json.toText? gateway
    let path ← required? Json.toText? path
    let plcType ← defaulted? "omron-njnx" Json.toText? plcType
    let createTimeoutMs ← defaulted? 1000 (Json.toNatBelow? wordLimit) createTimeout
    let readTimeoutMs ← defaulted? 1000 (Json.toNatBelow? wordLimit) readTimeout
    let mergeThreshold ← defaulted? 2 (Json.toNatBelow? wordLimit) threshold
    let zone ← defaulted? 0 doubleOfJson? zone
    let structFile ← defaulted? none textOrNull? structFile
    let pollers ← defaulted? [] pollersOfJson? pollers
    pure ⟨schemaVersion, gateway, path, plcType, createTimeoutMs, readTimeoutMs, mergeThreshold,
      zone, structFile, pollers⟩
  | _ => none

/-- The configuration that a text writes. -/
def ofText? (text : String) : Option Config :=
  (Json.parse? text).bind ofJson?

/-- Usable pollers with names that are distinct and not among those seen. -/
def validatePollers (seen : List String) : List PollerConfig → Except ConfigError Unit
  | [] => .ok ()
  | poller :: rest =>
    match poller.validate with
    | .error cause => .error cause
    | .ok () =>
      if poller.name ∈ seen then .error (.duplicatePoller poller.name)
      else validatePollers (poller.name :: seen) rest

/-- A configuration that can be used. -/
def validate (config : Config) : Except ConfigError Unit :=
  if config.schemaVersion ≠ currentVersion then
    .error (.unsupportedSchemaVersion config.schemaVersion)
  else if (Text.trim config.gateway.toList).isEmpty then .error .emptyGateway
  else validatePollers [] config.pollers

/-- The way to the controller, which every creation text begins with. -/
def route (config : Config) : String :=
  s!"protocol=ab-eip&gateway={config.gateway}&path={config.path}&plc={config.plcType}"

end Config

end PlcTags

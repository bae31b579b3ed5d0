import LightClient.Config

/-! Settings from environment variables. -/

namespace LightClient

/-- The variables that are set. -/
abbrev Environment := List (String × String)

namespace Environment

/-- Reads a decimal number below a bound: ASCII digits after at most one plus. -/
def number? (bound : Nat) (text : String) : Option Nat :=
  let digits := match text.toList with
    | '+' :: rest => rest
    | cs => cs
  if digits ≠ [] ∧ digits.all Char.isDigit then
    let n := Nat.ofDigitChars 10 digits 0
    if n < bound then some n else none
  else none

/-- A numeric setting, if the variable is set. -/
def number (env : Environment) (name : String) (bound : Nat) : Except ConfigFault (Option Nat) :=
  match env.lookup name with
  | none => .ok none
  | some value =>
    match number? bound value with
    | some n => .ok (some n)
    | none => .error (.variable name value)

/-- The standard settings, changed by what is set. -/
def config (env : Environment) : Except ConfigFault Config := do
  let standard := Config.standard
  let maxAttempts ← env.number "LC_MAX_ATTEMPTS" UInt32.size
  let pollInterval ← env.number "LC_POLL_INTERVAL_MS" UInt64.size
  let serviceId ← env.number "LC_SERVICE_ID" UInt16.size
  let config := { standard with
    nodeUrl := (env.lookup "LC_NODE_URL").getD standard.nodeUrl
    maxAttempts := (maxAttempts.map UInt32.ofNat).getD standard.maxAttempts
    pollInterval := (pollInterval.map UInt64.ofNat).getD standard.pollInterval
    schema := { standard.schema with
      serviceId := (serviceId.map UInt16.ofNat).getD standard.schema.serviceId } }
  config.validate
  return config

end Environment

/-- How a client logs. -/
structure LogSettings where
  serviceName : String
  level : String
  asJson : Bool
  deriving DecidableEq

namespace Environment

def logSettings (env : Environment) : LogSettings where
  serviceName := (env.lookup "LC_SERVICE_NAME").getD "light-client"
  level := ((env.lookup "LC_LOG_LEVEL").or (env.lookup "RUST_LOG")).getD "info"
  asJson :=
    match env.lookup "LC_JSON_LOGS" with
    | some value => value.toLower == "true" || value == "1"
    | none => false

end Environment

end LightClient

import LightClient.Error
import LightClient.Transaction.Body

/-! Settings of a client: the network it talks to, the service that holds the
accounts, and how long it waits for a transaction. -/

namespace LightClient

structure Config where
  networkId : UInt8
  protocolVersion : UInt8
  schema : Schema
  /-- The table of accounts within the service. -/
  tableIndex : UInt16
  /-- How often a transaction is asked after. -/
  maxAttempts : UInt32
  /-- The pause between two questions, in milliseconds. -/
  pollInterval : UInt64
  nodeUrl : String
  /-- In milliseconds. -/
  requestTimeout : UInt64
  deriving DecidableEq

namespace Config

def defaultSchema : Schema where
  serviceId := 128
  serviceName := "cryptocurrency"
  createAccountId := 2
  transferId := 0
  issueId := 1

/-- What a setting is when it is not given. -/
def standard : Config where
  networkId := 0
  protocolVersion := 0
  schema := defaultSchema
  tableIndex := 0
  maxAttempts := 10
  pollInterval := 500
  nodeUrl := "http://127.0.0.1:8080"
  requestTimeout := 5000

/-- Settings with short waits. -/
def quick : Config := { standard with pollInterval := 10, requestTimeout := 1000 }

/-- The first message id that stands again later in the list. -/
def firstShared : List UInt16 → Option UInt16
  | [] => none
  | id :: rest => if id ∈ rest then some id else firstShared rest

def messageIds (config : Config) : List UInt16 :=
  [config.schema.createAccountId, config.schema.transferId, config.schema.issueId]

/-- At least one attempt, and a message id of its own for each kind. -/
def validate (config : Config) : Except ConfigFault Unit :=
  if config.maxAttempts = 0 then .error .noAttempts
  else
    match firstShared config.messageIds with
    | some id => .error (.sharedMessageId id)
    | none => .ok ()

/-- A span of time as whole seconds and nanoseconds; the seconds fit 64 bits. -/
structure Span where
  seconds : UInt64
  nanoseconds : Nat

/-- All pauses together, unless they are too long for a span. -/
def maxPollDuration (config : Config) : Option Span :=
  let milliseconds := config.pollInterval.toNat * config.maxAttempts.toNat
  if milliseconds / 1000 < UInt64.size then
    some ⟨UInt64.ofNat (milliseconds / 1000), milliseconds % 1000 * 1000000⟩
  else none

end Config

end LightClient

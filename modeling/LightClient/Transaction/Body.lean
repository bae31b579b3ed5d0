import LightClient.Key

/-! What a transaction asks for, and the schema that numbers the kinds. -/

namespace LightClient

structure CreateAccount where
  owner : PublicKey
  initialBalance : UInt64
  deriving DecidableEq

structure Transfer where
  /-- Tells otherwise equal transfers apart. -/
  seed : UInt64
  sender : PublicKey
  recipient : PublicKey
  amount : UInt64
  deriving DecidableEq

/-- Credits the owner's own account. -/
structure Issue where
  owner : PublicKey
  amount : UInt64
  seed : UInt64
  deriving DecidableEq

inductive Body
  | createAccount (tx : CreateAccount)
  | transfer (tx : Transfer)
  | issue (tx : Issue)
  deriving DecidableEq

inductive BodyKind
  | createAccount
  | transfer
  | issue
  deriving DecidableEq

def BodyKind.name : BodyKind → String
  | .createAccount => "CreateAccount"
  | .transfer => "Transfer"
  | .issue => "Issue"

namespace Body

/-- The key that must sign. -/
def owner : Body → PublicKey
  | .createAccount tx => tx.owner
  | .transfer tx => tx.sender
  | .issue tx => tx.owner

def kind : Body → BodyKind
  | .createAccount _ => .createAccount
  | .transfer _ => .transfer
  | .issue _ => .issue

end Body

/-- The service that holds the accounts and the message ids of its transactions. -/
structure Schema where
  serviceId : UInt16
  serviceName : String
  createAccountId : UInt16
  transferId : UInt16
  issueId : UInt16
  deriving DecidableEq

namespace Schema

def messageId (schema : Schema) : BodyKind → UInt16
  | .createAccount => schema.createAccountId
  | .transfer => schema.transferId
  | .issue => schema.issueId

/-- The kind of a message of the service; of kinds with one id, the first. -/
def kind? (schema : Schema) (service message : UInt16) : Option BodyKind :=
  if service = schema.serviceId then
    [BodyKind.createAccount, .transfer, .issue].find? fun kind => schema.messageId kind = message
  else none

end Schema

end LightClient

import LightClient.Query

/-! What a client can ask of a node. A node is any machine that answers these
requests and may change with each; nothing it says is trusted. -/

namespace LightClient

inductive TransactionStatus
  /-- The node has not seen the transaction. -/
  | unknown
  /-- Waiting for a block. -/
  | pending
  | committed
  | rejected (reason : String)
  deriving DecidableEq

/-- The answer to a submission: the hash of the transaction, if the node says it. -/
structure SubmitAck where
  txHash : Option Digest
  deriving DecidableEq

/-- A request to a machine with states `σ`. The machine moves on whether or not
the request succeeds. -/
abbrev Request (σ α : Type) := ExceptT ClientError (StateM σ) α

namespace Request
variable {σ α : Type}

/-- An answer that changes nothing. -/
def ofState (answer : σ → Except ClientError α) : Request σ α := fun s => (answer s, s)

def ofExcept (result : Except ClientError α) : Request σ α := ofState fun _ => result

end Request

structure Node (σ : Type) where
  validators : Request σ ValidatorSet
  account : PublicKey → Request σ AccountResponse
  block : UInt64 → Request σ BlockProof
  submit : Bytes → Request σ SubmitAck
  status : Digest → Request σ TransactionStatus

end LightClient

import LightClient.Node

/-! A node that plays a script: the answers to status questions come from a
list, and the same one ever after. -/

namespace LightClient

structure ScriptedNode where
  validators : ValidatorSet
  account : Option AccountResponse
  block : Option BlockProof
  ack : SubmitAck
  /-- The status after the script. -/
  fallback : TransactionStatus
  /-- Whether every request fails. -/
  failing : Bool

namespace ScriptedNode

structure State where
  script : List (Except ClientError TransactionStatus)
  /-- What was submitted, in order. -/
  submitted : List Bytes
  /-- The number of status questions. -/
  statusCalls : Nat

def State.initial (script : List (Except ClientError TransactionStatus)) : State :=
  ⟨script, [], 0⟩

variable (n : ScriptedNode)

def checkFailing : Request State Unit :=
  Request.ofExcept (if n.failing then .error (.network .refused) else .ok ())

def fixedAnswer {α : Type} (answer : Except NetworkFault α) : Request State α := do
  n.checkFailing
  Request.ofExcept (answer.mapError .network)

def submit (bytes : Bytes) : Request State SubmitAck := do
  n.checkFailing
  modify fun s => { s with submitted := s.submitted ++ [bytes] }
  return n.ack

def status : Request State TransactionStatus := do
  modify fun s => { s with statusCalls := s.statusCalls + 1 }
  n.checkFailing
  let s ← get
  match s.script with
  | [] => return n.fallback
  | answer :: rest =>
    set { s with script := rest }
    Request.ofExcept answer

def node : Node State where
  validators := n.fixedAnswer (.ok n.validators)
  account key := n.fixedAnswer (n.account.elim (.error (.noAccount key)) .ok)
  block height := n.fixedAnswer (n.block.elim (.error (.noBlock height)) .ok)
  submit bytes := n.submit bytes
  status _ := n.status

end ScriptedNode

end LightClient

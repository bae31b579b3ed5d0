import LightClient.Client.Polling
import LightClient.Json.Form

/-! JSON forms of transactions and of what nodes and clients say about them. -/

namespace LightClient

open Json

def Transaction.form : Form Transaction where
  toJson t := record
    [("network_id", Form.u8.toJson t.networkId),
      ("protocol_version", Form.u8.toJson t.protocolVersion),
      ("message_id", Form.u16.toJson t.messageId), ("service_id", Form.u16.toJson t.serviceId),
      ("body", Form.bytes.toJson t.body), ("signature", Form.signature.toJson t.signature)]
  ofJson? json := do
    let r ← record?
      ["network_id", "protocol_version", "message_id", "service_id", "body", "signature"] json
    return ⟨← r.get .u8 "network_id", ← r.get .u8 "protocol_version", ← r.get .u16 "message_id",
      ← r.get .u16 "service_id", ← r.get .bytes "body", ← r.get .signature "signature"⟩

/-! ## Bodies -/

def CreateAccount.fields (tx : CreateAccount) : Record :=
  [("owner", Form.publicKey.toJson tx.owner),
    ("initial_balance", Form.u64.toJson tx.initialBalance)]

def CreateAccount.ofJson? (json : Json) : Option CreateAccount := do
  let r ← record? ["owner", "initial_balance"] json
  return ⟨← r.get .publicKey "owner", ← r.get .u64 "initial_balance"⟩

def Transfer.fields (tx : Transfer) : Record :=
  [("seed", Form.u64.toJson tx.seed), ("from", Form.publicKey.toJson tx.sender),
    ("to", Form.publicKey.toJson tx.recipient), ("amount", Form.u64.toJson tx.amount)]

def Transfer.ofJson? (json : Json) : Option Transfer := do
  let r ← record? ["seed", "from", "to", "amount"] json
  return ⟨← r.get .u64 "seed", ← r.get .publicKey "from", ← r.get .publicKey "to",
    ← r.get .u64 "amount"⟩

def Issue.fields (tx : Issue) : Record :=
  [("owner", Form.publicKey.toJson tx.owner), ("amount", Form.u64.toJson tx.amount),
    ("seed", Form.u64.toJson tx.seed)]

def Issue.ofJson? (json : Json) : Option Issue := do
  let r ← record? ["owner", "amount", "seed"] json
  return ⟨← r.get .publicKey "owner", ← r.get .u64 "amount", ← r.get .u64 "seed"⟩

def Body.form : Form Body where
  toJson
    | .createAccount tx => choice "type" "create_account" tx.fields
    | .transfer tx => choice "type" "transfer" tx.fields
    | .issue tx => choice "type" "issue" tx.fields
  ofJson? json := do
    match ← choice? "type" json with
    | ("create_account", fields) => (CreateAccount.ofJson? fields).map .createAccount
    | ("transfer", fields) => (Transfer.ofJson? fields).map .transfer
    | ("issue", fields) => (Issue.ofJson? fields).map .issue
    | _ => none

/-! ## Answers -/

def TransactionStatus.form : Form TransactionStatus where
  toJson
    | .unknown => choice "status" "unknown" []
    | .pending => choice "status" "pending" []
    | .committed => choice "status" "committed" []
    | .rejected reason => choice "status" "rejected" [("reason", Form.string.toJson reason)]
  ofJson? json := do
    match ← choice? "status" json with
    | ("unknown", fields) => (record? [] fields).map fun _ => .unknown
    | ("pending", fields) => (record? [] fields).map fun _ => .pending
    | ("committed", fields) => (record? [] fields).map fun _ => .committed
    | ("rejected", fields) => do
      let r ← record? ["reason"] fields
      return .rejected (← r.getD .string "reason" "")
    | _ => none

def SubmitAck.form : Form SubmitAck where
  toJson ack := record [("tx_hash", Form.fixed.option.toJson ack.txHash)]
  ofJson? json := do
    let r ← record? ["tx_hash"] json
    return ⟨← r.getD Form.fixed.option "tx_hash" none⟩

/-- The outcome of a wait, under its name. -/
def Client.CommitResult.toJson : CommitResult → Json
  | .committed hash attempts => record
    [("Committed", record
      [("tx_hash", Form.fixed.toJson hash), ("attempts", Form.natural.toJson attempts)])]
  | .rejected hash reason => record
    [("Rejected", record
      [("tx_hash", Form.fixed.toJson hash), ("reason", Form.string.toJson reason)])]

end LightClient

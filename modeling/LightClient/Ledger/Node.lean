import LightClient.Ledger.Chain
import LightClient.MerkleList.Builder
import LightClient.Trie.Builder

/-! The ledger as a node: it takes transactions, reports their status and proves
its accounts, tampering with what it serves as its faults say. -/

namespace LightClient

namespace Faults
variable (faults : Faults)

def tamperBlock (proof : BlockProof) : BlockProof :=
  match faults.keepPrecommits with
  | some count => { proof with precommits := proof.precommits.take count }
  | none => proof

def tamperTable (proof : Trie.MapProof) : Trie.MapProof :=
  if faults.corruptTableProof then
    { proof with nodes := proof.nodes.modifyHead fun n => { n with hash := n.hash.xorHead 1 } }
  else proof

def tamperTransactions (transactions : List Bytes) : List Bytes :=
  if faults.dropHistoryTransaction then transactions.dropLast else transactions

def tamper (response : AccountResponse) : AccountResponse :=
  { response with
    blockProof := faults.tamperBlock response.blockProof
    tableProof := faults.tamperTable response.tableProof
    transactions := faults.tamperTransactions response.transactions }

end Faults

namespace Ledger

namespace State
variable (s : State)

/-- The history of an account. -/
def historyOf (key : PublicKey) : List HistoryEntry :=
  if key.bytes ∈ s.books.accounts then s.books.histories.getD key.bytes [] else []

def balance (key : PublicKey) : Option UInt64 := s.books.accounts[key.bytes]?.map Account.balance

def height : UInt64 := s.latest.header.height

end State

variable {S : SignatureScheme} (ledger : Ledger S)

def honestAccount (key : PublicKey) (s : State) : Except ClientError AccountResponse := do
  let table ← accountTable s.books.accounts
  let history := s.historyOf key
  let encoded := history.map HistoryEntry.encode
  let historyProof ← (MerkleList.buildProof encoded 0 encoded.length).mapError .ofListFault
  return {
    blockProof := s.latest
    tableProof := Trie.buildProof (ledger.stateMap table) [ledger.accountsKey]
    accountProof := Trie.buildProof table [key.bytes]
    historyProof
    transactions := history.filterMap fun entry => s.committed[entry.txHash]? }

def account (key : PublicKey) : Request State AccountResponse :=
  .ofState fun s => (ledger.honestAccount key s).map s.faults.tamper

def block (height : UInt64) : Request State BlockProof :=
  .ofState fun s =>
    match s.blocks[height.toNat]? with
    | some proof => .ok (s.faults.tamperBlock proof)
    | none => .error (.network (.noBlockAt height))

/-- The body of a transaction that its owner signed. -/
def checkedBody (transaction : Transaction) : Except ClientError Body := do
  let body ← (transaction.decodeBody ledger.config.schema).mapError .encoding
  let signed ← (transaction.signedByOwner S body).mapError .encoding
  if signed then return body else throw (.invalidSignature 0)

/-- Pools a transaction or records why it is refused. -/
def submit (bytes : Bytes) : Request State SubmitAck := do
  let transaction ← Request.ofExcept ((Transaction.ofBytes bytes).mapError .encoding)
  let hash := sha256 bytes
  match ledger.checkedBody transaction with
  | .ok body =>
    modify fun s =>
      { s with
        statuses := s.statuses.insert hash .pending
        pool := s.pool ++ [⟨hash, transaction, body⟩] }
  | .error error =>
    modify fun s => { s with statuses := s.statuses.insert hash (.rejected error.message) }
  return ⟨some hash⟩

/-- Counts a status question and commits the pool when it is due. -/
def countPoll : Request State Unit := do
  let s ← get
  if !s.pool.isEmpty && !s.faults.stallCommits then
    set { s with polls := s.polls + 1 }
    if ledger.commitAfter ≤ s.polls + 1 then ledger.commit

def status (hash : Digest) : Request State TransactionStatus := do
  ledger.countPoll
  return (← get).statuses.getD hash .unknown

def node : Node State where
  validators := return ledger.validatorSet
  account := ledger.account
  block := Ledger.block
  submit := ledger.submit
  status := ledger.status

end Ledger

end LightClient

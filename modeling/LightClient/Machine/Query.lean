import LightClient.Machine.MerkleList
import LightClient.Machine.Records
import LightClient.Machine.Trie
import LightClient.Query

/-! Checking what a node says, as `Query` does, with every step of the checks guarded. -/

namespace LightClient.Machine
variable (S : SignatureScheme)

/-! ## Blocks -/

namespace BlockProof

def quorum (validators : ValidatorSet) : Step Nat := do
  add 64 ((← mul 64 validators.keys.length 2) / 3) 1

/-- The number of signers; `seen` are the signers so far. A signer is entered before its
signature is checked, and left out of the count when the signature is bad. -/
def countSigners (validators : ValidatorSet) (message : Bytes) :
    List Precommit → List PublicKey → Guarded Nat Nat
  | [], seen => return seen.length
  | p :: rest, seen => do
    if p.validator ∉ validators.keys then .fail seen.length
    else if p.validator ∈ seen then .fail seen.length
    else
      let seen := p.validator :: seen
      if S.verify p.validator message p.signature then countSigners validators message rest seen
      else .fail (← sub seen.length 1)

def verify (proof : BlockProof) (validators : ValidatorSet) : Guarded Untrusted Digest := do
  let total := validators.keys.length
  let required ← quorum validators
  let untrusted (signed : Nat) : Untrusted := ⟨signed, required, total⟩
  if total = 0 then .fail (untrusted 0)
  else
    let signed ←
      (countSigners S validators proof.header.encode proof.precommits []).mapError untrusted
    if (← mul 64 3 signed) ≤ (← mul 64 2 total) then .fail (untrusted signed)
    else return proof.header.hash

end BlockProof

/-! ## Accounts -/

def verifyBlockProof (proof : BlockProof) (validators : ValidatorSet) :
    Guarded ClientError Digest :=
  (BlockProof.verify S proof validators).mapError .untrustedBlock

/-- What a map proof says about a key. -/
def lookUp (proof : Trie.MapProof) (root : Digest) (key : Trie.MapKey) :
    Guarded ClientError (Option Bytes) := do
  let checked ← (MapProof.check proof root).mapError .ofTrieFault
  .of ((checked.get key).mapError .ofTrieFault)

/-- The root of the account table. -/
def tableRoot (config : Config) (proof : Trie.MapProof) (stateHash : Digest) :
    Guarded ClientError Digest := do
  let service := config.schema.serviceId
  match ← lookUp proof stateHash (tableKey service config.tableIndex) with
  | none => .fail (.tableNotFound service config.tableIndex)
  | some value =>
    match FixedBytes.ofList? 32 value with
    | some root => return root
    | none => .fail (.proofCorrupted (.rootLength value.length))

def account (key : PublicKey) (proof : Trie.MapProof) (root : Digest) :
    Guarded ClientError LightClient.Account := do
  match ← lookUp proof root key.bytes with
  | none => .fail (.accountNotFound key)
  | some value =>
    let account ← (Account.decode value).mapError .encoding
    if account.publicKey = key then return account
    else .fail (.proofCorrupted (.foreignRecord key account.publicKey))

def history (account : LightClient.Account) (proof : MerkleList.ListProof) :
    Guarded ClientError (List LightClient.HistoryEntry) := do
  if proof.length = account.historyLength then
    let elements ←
      (ListProof.verify proof account.historyHash 0 account.historyLength.toNat).mapError
        .ofListFault
    elements.mapM fun (_, bytes) => (HistoryEntry.decode bytes).mapError .encoding
  else .fail (.historyCorrupted (.otherLength proof.length account.historyLength))

/-- The transaction at an index of the history. -/
def transaction (schema : Schema) (index : Nat) (entry : LightClient.HistoryEntry)
    (bytes : Bytes) : Guarded ClientError VerifiedTransaction := do
  let transaction ← (Transaction.ofBytes bytes).mapError .encoding
  let hash ← (Transaction.hash transaction).mapError .encoding
  if hash = entry.txHash then
    -- the fields of the body are cut out by the protobuf reader, which fails where they end early
    let body ← .of ((transaction.decodeBody schema).mapError .encoding)
    let signed ← (Transaction.signedByOwner S transaction body).mapError .encoding
    if signed then return ⟨hash, entry.succeeded, transaction, body⟩
    else .fail (.invalidSignature index)
  else .fail (.hashMismatch index)

/-- The transactions from an index on. -/
def transactionsFrom (schema : Schema) (index : Nat) :
    List (LightClient.HistoryEntry × Bytes) → Guarded ClientError (List VerifiedTransaction)
  | [] => return []
  | (entry, bytes) :: rest => do
    let first ← transaction S schema index entry bytes
    let others ← transactionsFrom schema (← add 64 index 1) rest
    return first :: others

def transactions (schema : Schema) (entries : List LightClient.HistoryEntry) (raw : List Bytes) :
    Guarded ClientError (List VerifiedTransaction) :=
  if raw.length = entries.length then transactionsFrom S schema 0 (entries.zip raw)
  else .fail (.historyLength raw.length entries.length)

def verifyAccount (config : Config) (validators : ValidatorSet) (key : PublicKey)
    (response : AccountResponse) : Guarded ClientError VerifiedAccount := do
  let block := response.blockProof.header
  let blockHash ← verifyBlockProof S response.blockProof validators
  let root ← tableRoot config response.tableProof block.stateHash
  let account ← account key response.accountProof root
  let entries ← history account response.historyProof
  let transactions ← transactions S config.schema entries response.transactions
  return ⟨block, blockHash, account, transactions⟩

def verifyBlock (validators : ValidatorSet) (height : UInt64) (proof : BlockProof) :
    Guarded ClientError VerifiedBlock := do
  if proof.header.height = height then
    let blockHash ← verifyBlockProof S proof validators
    return ⟨proof.header, blockHash, proof.precommits.length⟩
  else .fail (.proofCorrupted (.otherBlock height proof.header.height))

end LightClient.Machine

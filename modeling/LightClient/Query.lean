import LightClient.Account
import LightClient.Config
import LightClient.Transaction.Envelope

/-! Checking what a node says about an account or a block.

An answer about an account is followed link by link: the validators sign the
block, its state hash fixes the root of the account table, that root fixes the
account, the account fixes its history, and the history fixes the transactions.
The first link that fails is the error, and nothing of the answer is kept. -/

namespace LightClient

/-- What a node serves for an account. Nothing in it is trusted. -/
structure AccountResponse where
  blockProof : BlockProof
  tableProof : Trie.MapProof
  accountProof : Trie.MapProof
  historyProof : MerkleList.ListProof
  transactions : List Bytes
  deriving DecidableEq

structure VerifiedTransaction where
  hash : Digest
  /-- Whether execution succeeded. -/
  succeeded : Bool
  transaction : Transaction
  body : Body
  deriving DecidableEq

structure VerifiedAccount where
  block : BlockHeader
  blockHash : Digest
  account : Account
  transactions : List VerifiedTransaction
  deriving DecidableEq

structure VerifiedBlock where
  block : BlockHeader
  blockHash : Digest
  /-- The number of precommits. -/
  precommits : Nat
  deriving DecidableEq

def VerifiedAccount.findTransaction (account : VerifiedAccount) (hash : Digest) :
    Option VerifiedTransaction :=
  account.transactions.find? (·.hash = hash)

namespace Query
variable (S : SignatureScheme)

def verifyBlockProof (proof : BlockProof) (validators : ValidatorSet) : Except ClientError Digest :=
  (proof.verify S validators).mapError .untrustedBlock

/-- What a map proof says about a key. -/
def lookUp (proof : Trie.MapProof) (root : Digest) (key : Trie.MapKey) :
    Except ClientError (Option Bytes) := do
  let checked ← (proof.check root).mapError .ofTrieFault
  (checked.get key).mapError .ofTrieFault

/-- The root of the account table. -/
def tableRoot (config : Config) (proof : Trie.MapProof) (stateHash : Digest) :
    Except ClientError Digest := do
  let service := config.schema.serviceId
  match ← lookUp proof stateHash (tableKey service config.tableIndex) with
  | none => throw (.tableNotFound service config.tableIndex)
  | some value =>
    match FixedBytes.ofList? 32 value with
    | some root => return root
    | none => throw (.proofCorrupted (.rootLength value.length))

def account (key : PublicKey) (proof : Trie.MapProof) (root : Digest) :
    Except ClientError Account := do
  match ← lookUp proof root key.bytes with
  | none => throw (.accountNotFound key)
  | some value =>
    let account ← (Account.decode value).mapError .encoding
    if account.publicKey = key then return account
    else throw (.proofCorrupted (.foreignRecord key account.publicKey))

def history (account : Account) (proof : MerkleList.ListProof) :
    Except ClientError (List HistoryEntry) := do
  if proof.length = account.historyLength then
    let elements ←
      (proof.verify account.historyHash 0 account.historyLength.toNat).mapError .ofListFault
    elements.mapM fun (_, bytes) => (HistoryEntry.decode bytes).mapError .encoding
  else throw (.historyCorrupted (.otherLength proof.length account.historyLength))

/-- The transaction at an index of the history. -/
def transaction (schema : Schema) (index : Nat) (entry : HistoryEntry) (bytes : Bytes) :
    Except ClientError VerifiedTransaction := do
  let transaction ← (Transaction.ofBytes bytes).mapError .encoding
  let hash ← transaction.hash.mapError .encoding
  if hash = entry.txHash then
    let body ← (transaction.decodeBody schema).mapError .encoding
    let signed ← (transaction.signedByOwner S body).mapError .encoding
    if signed then return ⟨hash, entry.succeeded, transaction, body⟩
    else throw (.invalidSignature index)
  else throw (.hashMismatch index)

/-- The transactions from an index on. -/
def transactionsFrom (schema : Schema) (index : Nat) :
    List (HistoryEntry × Bytes) → Except ClientError (List VerifiedTransaction)
  | [] => .ok []
  | (entry, bytes) :: rest => do
    let first ← transaction S schema index entry bytes
    let others ← transactionsFrom schema (index + 1) rest
    return first :: others

def transactions (schema : Schema) (entries : List HistoryEntry) (raw : List Bytes) :
    Except ClientError (List VerifiedTransaction) :=
  if raw.length = entries.length then transactionsFrom S schema 0 (entries.zip raw)
  else .error (.historyLength raw.length entries.length)

def verifyAccount (config : Config) (validators : ValidatorSet) (key : PublicKey)
    (response : AccountResponse) : Except ClientError VerifiedAccount := do
  let block := response.blockProof.header
  let blockHash ← verifyBlockProof S response.blockProof validators
  let root ← tableRoot config response.tableProof block.stateHash
  let account ← account key response.accountProof root
  let entries ← history account response.historyProof
  let transactions ← transactions S config.schema entries response.transactions
  return ⟨block, blockHash, account, transactions⟩

def verifyBlock (validators : ValidatorSet) (height : UInt64) (proof : BlockProof) :
    Except ClientError VerifiedBlock := do
  if proof.header.height = height then
    let blockHash ← verifyBlockProof S proof validators
    return ⟨proof.header, blockHash, proof.precommits.length⟩
  else throw (.proofCorrupted (.otherBlock height proof.header.height))

end Query

end LightClient

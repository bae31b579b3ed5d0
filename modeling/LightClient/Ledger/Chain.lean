import LightClient.Ledger.Books
import LightClient.Node

/-! A ledger that runs by itself: it pools transactions, executes the pool into
blocks that its own validators sign, and remembers what became of each.

The state map of a block holds the root of the account table and, at service 0
and table 0, the root of the list of validators. -/

namespace LightClient

/-- How a ledger may misbehave on purpose. -/
structure Faults where
  /-- Serve only this many precommits. -/
  keepPrecommits : Option Nat
  /-- Flip a bit in the proof of the account table. -/
  corruptTableProof : Bool
  /-- Leave out the last transaction of a history. -/
  dropHistoryTransaction : Bool
  /-- Never commit the pool by itself. -/
  stallCommits : Bool
  deriving DecidableEq

def Faults.off : Faults := ⟨none, false, false, false⟩

structure Ledger (S : SignatureScheme) where
  config : Config
  validators : List (KeyPair S)
  /-- The pool is committed once its status was asked for this often. -/
  commitAfter : Nat

namespace Ledger

/-- A transaction that waits for the next block. -/
structure Pooled where
  hash : Digest
  transaction : Transaction
  body : Body
  deriving DecidableEq

structure State where
  books : Books
  /-- The bytes of the executed transactions. -/
  committed : Std.ExtTreeMap Digest Bytes
  statuses : Std.ExtTreeMap Digest TransactionStatus
  pool : List Pooled
  latest : BlockProof
  /-- All blocks, by height. -/
  blocks : List BlockProof
  /-- Status questions since the last block. -/
  polls : Nat
  faults : Faults

variable {S : SignatureScheme} (ledger : Ledger S)

/-- The seed of a validator of the standard set. -/
def validatorSeed (i : UInt8) : FixedBytes 32 := .replicate 32 (0xA0 ^^^ i)

def standardValidators (S : SignatureScheme) (count : Nat) : List (KeyPair S) :=
  (List.range count).map fun i => S.keyPair (validatorSeed (UInt8.ofNat i))

def validatorSet : ValidatorSet := ⟨ledger.validators.map KeyPair.publicKey⟩

/-- Where the account table lies in the state map. -/
def accountsKey : FixedBytes 32 := tableKey ledger.config.schema.serviceId ledger.config.tableIndex

def stateMap (table : Trie.Entries) : Trie.Entries :=
  let validatorRoot := MerkleList.root (ledger.validatorSet.keys.map (·.bytes.toList))
  ((∅ : Trie.Entries).insert (tableKey 0 0) validatorRoot.toList).insert
    ledger.accountsKey (Trie.root table).toList

def stateHash (accounts : Accounts) : Except ClientError Digest := do
  return Trie.root (ledger.stateMap (← accountTable accounts))

/-- A block with the signatures of all validators. -/
def signBlock (header : BlockHeader) : BlockProof :=
  ⟨header, ledger.validators.map fun pair => ⟨pair.publicKey, pair.sign header.encode⟩⟩

def genesis : BlockHeader where
  height := 0
  prevHash := .zero 32
  txHash := MerkleList.root []
  stateHash := Trie.root (ledger.stateMap ∅)
  txCount := 0

/-- A ledger with its first block. -/
def initial (faults : Faults) : State :=
  let block := ledger.signBlock ledger.genesis
  { books := .empty
    committed := ∅
    statuses := ∅
    pool := []
    latest := block
    blocks := [block]
    polls := 0
    faults }

/-! ## Blocks -/

/-- Executes a pooled transaction and returns its hash. -/
def executePooled (p : Pooled) : Request State Digest := do
  modify fun s => { s with books := (s.books.execute p.hash p.body).1 }
  let bytes ← Request.ofExcept (p.transaction.toBytes.mapError .encoding)
  modify fun s =>
    { s with
      committed := s.committed.insert p.hash bytes
      statuses := s.statuses.insert p.hash .committed }
  return p.hash

/-- The header of the next block, which executed these transactions. -/
def nextHeader (previous : BlockHeader) (hashes : List Digest) (stateHash : Digest) :
    BlockHeader where
  height := previous.height + 1
  prevHash := previous.hash
  txHash := MerkleList.root (hashes.map FixedBytes.toList)
  stateHash
  txCount := UInt32.ofNat hashes.length

/-- Executes the pool into a block. -/
def commit : Request State Unit := do
  let pool := (← get).pool
  modify fun s => { s with pool := [] }
  let hashes ← pool.mapM executePooled
  let s ← get
  let stateHash ← Request.ofExcept (ledger.stateHash s.books.accounts)
  let block := ledger.signBlock (nextHeader s.latest.header hashes stateHash)
  set { s with latest := block, blocks := s.blocks ++ [block], polls := 0 }

end Ledger

end LightClient

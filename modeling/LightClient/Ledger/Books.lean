import LightClient.Account
import LightClient.Error
import LightClient.MerkleList.Tree
import LightClient.Transaction.Body
import LightClient.Trie.Node

/-! The books of a ledger, accounts and their histories, and what a transaction
does to them. A transaction that fails moves no money; whoever signed it gets an
entry in the history either way, if there is an account to keep it. -/

namespace LightClient.Ledger

abbrev Accounts := Std.ExtTreeMap (FixedBytes 32) Account

structure Books where
  accounts : Accounts
  histories : Std.ExtTreeMap (FixedBytes 32) (List HistoryEntry)

def historyRoot (history : List HistoryEntry) : Digest :=
  MerkleList.root (history.map HistoryEntry.encode)

/-- The account table as it is hashed. -/
def accountTable (accounts : Accounts) : Except ClientError Trie.Entries := do
  let rows ← accounts.toList.mapM fun (key, account) => do
    return (key, ← account.encode.mapError .encoding)
  return .ofList rows

namespace Books

def empty : Books := ⟨∅, ∅⟩

def openAccount (books : Books) (tx : CreateAccount) : Books :=
  { books with
    accounts := books.accounts.insert tx.owner.bytes
      { publicKey := tx.owner
        name := ""
        balance := tx.initialBalance
        historyLength := 0
        historyHash := historyRoot [] } }

def changeBalance (books : Books) (key : PublicKey) (change : UInt64 → UInt64) : Books :=
  { books with
    accounts := books.accounts.modify key.bytes fun a => { a with balance := change a.balance } }

/-- Moves an amount from one account to another. -/
def move (books : Books) (tx : Transfer) : Books :=
  (books.changeBalance tx.sender (· - tx.amount)).changeBalance tx.recipient (· + tx.amount)

/-- Adds an entry to a history, and records its new length and root in the account. -/
def append (books : Books) (owner : PublicKey) (entry : HistoryEntry) : Books :=
  let history := books.histories.getD owner.bytes [] ++ [entry]
  { accounts := books.accounts.modify owner.bytes fun a =>
      { a with
        historyLength := UInt64.ofNat history.length
        historyHash := historyRoot history }
    histories := books.histories.insert owner.bytes history }

/-- Whether a balance can take an amount. -/
def fits (balance amount : UInt64) : Bool := balance.toNat + amount.toNat < UInt64.size

/-- Whether there is a recipient, and its balance can take the amount. -/
def canReceive (books : Books) (tx : Transfer) : Bool :=
  match books.accounts[tx.recipient.bytes]? with
  | some account => tx.sender = tx.recipient || fits account.balance tx.amount
  | none => false

def createAccount (books : Books) (hash : Digest) (tx : CreateAccount) : Books × Bool :=
  if tx.owner.bytes ∈ books.accounts then (books.append tx.owner ⟨hash, false⟩, false)
  else ((books.openAccount tx).append tx.owner ⟨hash, true⟩, true)

/-- A transfer to oneself needs the money but moves none. -/
def transfer (books : Books) (hash : Digest) (tx : Transfer) : Books × Bool :=
  match books.accounts[tx.sender.bytes]? with
  | none => (books, false)
  | some sender =>
    if books.canReceive tx && tx.amount ≤ sender.balance then
      let entry : HistoryEntry := ⟨hash, true⟩
      if tx.sender = tx.recipient then (books.append tx.sender entry, true)
      else (((books.move tx).append tx.sender entry).append tx.recipient entry, true)
    else (books.append tx.sender ⟨hash, false⟩, false)

def issue (books : Books) (hash : Digest) (tx : Issue) : Books × Bool :=
  match books.accounts[tx.owner.bytes]? with
  | none => (books, false)
  | some account =>
    if fits account.balance tx.amount then
      ((books.changeBalance tx.owner (· + tx.amount)).append tx.owner ⟨hash, true⟩, true)
    else (books.append tx.owner ⟨hash, false⟩, false)

/-- Applies the transaction with a hash and says whether it succeeded. -/
def execute (books : Books) (hash : Digest) : Body → Books × Bool
  | .createAccount tx => books.createAccount hash tx
  | .transfer tx => books.transfer hash tx
  | .issue tx => books.issue hash tx

end Books

end LightClient.Ledger

import LightClient.Json.Blocks
import LightClient.Json.Proofs
import LightClient.Json.Transactions

/-! JSON forms of accounts, of the answers about them and of what is verified. -/

namespace LightClient

open Json

def Account.form : Form Account where
  toJson a := record
    [("public_key", Form.publicKey.toJson a.publicKey), ("name", Form.string.toJson a.name),
      ("balance", Form.u64.toJson a.balance), ("history_len", Form.u64.toJson a.historyLength),
      ("history_hash", Form.fixed.toJson a.historyHash)]
  ofJson? json := do
    let r ← record? ["public_key", "name", "balance", "history_len", "history_hash"] json
    return ⟨← r.get .publicKey "public_key", ← r.get .string "name", ← r.get .u64 "balance",
      ← r.get .u64 "history_len", ← r.get .fixed "history_hash"⟩

def HistoryEntry.form : Form HistoryEntry where
  toJson e := record
    [("tx_hash", Form.fixed.toJson e.txHash), ("execution_status", Form.bool.toJson e.succeeded)]
  ofJson? json := do
    let r ← record? ["tx_hash", "execution_status"] json
    return ⟨← r.get .fixed "tx_hash", ← r.get .bool "execution_status"⟩

def AccountResponse.form : Form AccountResponse where
  toJson a := record
    [("block_proof", BlockProof.form.toJson a.blockProof),
      ("table_proof", Trie.MapProof.form.toJson a.tableProof),
      ("account_proof", Trie.MapProof.form.toJson a.accountProof),
      ("history_proof", MerkleList.ListProof.form.toJson a.historyProof),
      ("transactions", Form.bytes.list.toJson a.transactions)]
  ofJson? json := do
    let r ← record?
      ["block_proof", "table_proof", "account_proof", "history_proof", "transactions"] json
    return ⟨← r.get BlockProof.form "block_proof", ← r.get Trie.MapProof.form "table_proof",
      ← r.get Trie.MapProof.form "account_proof",
      ← r.get MerkleList.ListProof.form "history_proof", ← r.get Form.bytes.list "transactions"⟩

/-! ## What is verified -/

def VerifiedTransaction.toJson (t : VerifiedTransaction) : Json := record
  [("hash", Form.fixed.toJson t.hash), ("execution_status", Form.bool.toJson t.succeeded),
    ("transaction", Transaction.form.toJson t.transaction), ("body", Body.form.toJson t.body)]

def VerifiedAccount.toJson (a : VerifiedAccount) : Json := record
  [("block", BlockHeader.form.toJson a.block), ("block_hash", Form.fixed.toJson a.blockHash),
    ("account", Account.form.toJson a.account),
    ("transactions", .array (a.transactions.map VerifiedTransaction.toJson))]

def VerifiedBlock.toJson (b : VerifiedBlock) : Json := record
  [("block", BlockHeader.form.toJson b.block), ("block_hash", Form.fixed.toJson b.blockHash),
    ("precommits", Form.natural.toJson b.precommits)]

end LightClient

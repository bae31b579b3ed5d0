import LightClient.Json.Accounts
import LightClient.Json.Settings
import LightClient.Proofs.Json.Form
import LightClient.Proofs.Trie.Path

/-! What a node serves survives being written and read. Each record has a faithful form,
so does each choice, and so the whole answer about an account; a client that is given the
answer in writing comes to the same verdict. -/

namespace LightClient

open Json

/-! ## Blocks -/

instance : BlockHeader.form.Faithful := by
  constructor
  intro h
  simp [BlockHeader.form, record?_record]

instance : Precommit.form.Faithful := by
  constructor
  intro p
  simp [Precommit.form, record?_record]

instance : BlockProof.form.Faithful := by
  constructor
  intro p
  simp [BlockProof.form, record?_record]

instance : ValidatorSet.form.Faithful := by
  constructor
  intro v
  simp [ValidatorSet.form, record?_record]

/-! ## Proofs -/

instance : Trie.Path.form.Faithful := by
  refine Form.faithful_ofText fun path => ?_
  rw [Hex.decode_encode]
  show (Trie.Path.ofRaw path.toRaw).toOption = some path
  rw [Trie.Path.ofRaw_toRaw]
  rfl

instance : Trie.Node.form.Faithful := by
  constructor
  intro n
  simp [Trie.Node.form, record?_record]

instance : Trie.Entry.form.Faithful := by
  constructor
  intro e
  simp [Trie.Entry.form, record?_record]

instance : Trie.MapProof.form.Faithful := by
  constructor
  intro p
  simp [Trie.MapProof.form, record?_record]

instance : MerkleList.ProofNode.form.Faithful := by
  constructor
  intro n
  simp [MerkleList.ProofNode.form, record?_record]

instance : MerkleList.Element.form.Faithful := by
  constructor
  intro e
  simp [MerkleList.Element.form, record?_record]

instance : MerkleList.ListProof.form.Faithful := by
  constructor
  intro p
  simp [MerkleList.ListProof.form, record?_record]

/-! ## Accounts -/

instance : Account.form.Faithful := by
  constructor
  intro a
  simp [Account.form, record?_record]

instance : HistoryEntry.form.Faithful := by
  constructor
  intro e
  simp [HistoryEntry.form, record?_record]

instance : AccountResponse.form.Faithful := by
  constructor
  intro a
  simp [AccountResponse.form, record?_record]

instance : Schema.form.Faithful := by
  constructor
  intro s
  simp [Schema.form, record?_record]

/-! ## Transactions -/

instance : Transaction.form.Faithful := by
  constructor
  intro t
  simp [Transaction.form, record?_record]

theorem CreateAccount.ofJson?_fields (tx : CreateAccount) :
    CreateAccount.ofJson? (record tx.fields) = some tx := by
  simp [CreateAccount.ofJson?, CreateAccount.fields, record?_record]

theorem Transfer.ofJson?_fields (tx : Transfer) : Transfer.ofJson? (record tx.fields) = some tx := by
  simp [Transfer.ofJson?, Transfer.fields, record?_record]

theorem Issue.ofJson?_fields (tx : Issue) : Issue.ofJson? (record tx.fields) = some tx := by
  simp [Issue.ofJson?, Issue.fields, record?_record]

theorem canHold_publicKey (depth : Nat) (key : PublicKey) :
    canHold depth (Form.publicKey.toJson key) = true :=
  canHold_ofText depth key

instance : Body.form.Faithful := by
  constructor
  intro body
  cases body with
  | createAccount tx =>
    have hchoice : choice? "type" (choice "type" "create_account" tx.fields) =
        some ("create_account", record tx.fields) :=
      choice?_choice (by simp [CreateAccount.fields])
        (by simp [CreateAccount.fields, canHold_publicKey, canHold_u64])
    simp [Body.form, hchoice, CreateAccount.ofJson?_fields]
  | transfer tx =>
    have hchoice : choice? "type" (choice "type" "transfer" tx.fields) =
        some ("transfer", record tx.fields) :=
      choice?_choice (by simp [Transfer.fields])
        (by simp [Transfer.fields, canHold_publicKey, canHold_u64])
    simp [Body.form, hchoice, Transfer.ofJson?_fields]
  | issue tx =>
    have hchoice : choice? "type" (choice "type" "issue" tx.fields) =
        some ("issue", record tx.fields) :=
      choice?_choice (by simp [Issue.fields])
        (by simp [Issue.fields, canHold_publicKey, canHold_u64])
    simp [Body.form, hchoice, Issue.ofJson?_fields]

/-! ## What a node says about a transaction -/

instance : TransactionStatus.form.Faithful := by
  constructor
  intro status
  have hbare (case : String) : choice? "status" (choice "status" case []) =
      some (case, record []) :=
    choice?_choice (by simp) (by simp)
  cases status with
  | unknown => simp [TransactionStatus.form, hbare, record?_record]
  | pending => simp [TransactionStatus.form, hbare, record?_record]
  | committed => simp [TransactionStatus.form, hbare, record?_record]
  | rejected reason =>
    have hchoice : choice? "status"
        (choice "status" "rejected" [("reason", Form.string.toJson reason)]) =
          some ("rejected", record [("reason", Form.string.toJson reason)]) :=
      choice?_choice (by simp) (by simp [Form.string, canHold_ofText])
    simp [TransactionStatus.form, hchoice, record?_record]

instance : SubmitAck.form.Faithful := by
  constructor
  intro ack
  simp [SubmitAck.form, record?_record]

/-! ## In writing -/

/-- Whatever a node serves is read back from its document as it was, numbers of 64 bits
included, and any document that is read is written as one that is its own spelling. So the
verdict on an answer is the verdict on what is read from its document. -/
theorem served_answers_survive_writing :
    AccountResponse.form.Survives ∧ BlockProof.form.Survives ∧ ValidatorSet.form.Survives ∧
      Transaction.form.Survives ∧ Body.form.Survives ∧ Account.form.Survives ∧
      HistoryEntry.form.Survives ∧ TransactionStatus.form.Survives ∧ SubmitAck.form.Survives ∧
      Schema.form.Survives ∧
      ∀ (S : SignatureScheme) (config : Config) (validators : ValidatorSet) (key : PublicKey)
        (response : AccountResponse),
        (AccountResponse.form.read (AccountResponse.form.write response)).map
            (Query.verifyAccount S config validators key) =
          some (Query.verifyAccount S config validators key response) := by
  refine ⟨Form.survives, Form.survives, Form.survives, Form.survives, Form.survives,
    Form.survives, Form.survives, Form.survives, Form.survives, Form.survives, ?_⟩
  intro S config validators key response
  rw [Form.read_write]
  rfl

end LightClient

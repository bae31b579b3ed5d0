import LightClient.Proofs.Ledger.Answer

/-! The histories of a ledger. Accounts and histories are kept apart, but under the same
keys: each account has a history that is not empty, records its length and root, and every
entry stands for a transaction whose bytes were kept. An execution enters itself once with
its signer and once with whom it paid, and nowhere else. -/

namespace LightClient.Ledger

namespace Books

/-! ## Accounts and histories -/

theorem mem_histories_append {books : Books} {owner : PublicKey} {entry : HistoryEntry}
    {key : FixedBytes 32} :
    key ∈ (books.append owner entry).histories ↔ owner.bytes = key ∨ key ∈ books.histories := by
  simp only [append, Std.ExtTreeMap.mem_insert, Std.LawfulEqCmp.compare_eq_iff_eq]

/-- Exactly the accounts have a history, and no history is empty. -/
structure Paired (books : Books) : Prop where
  mem_iff : ∀ key, key ∈ books.histories ↔ key ∈ books.accounts
  ne_nil : ∀ key, key ∈ books.histories → books.history key ≠ []

theorem paired_empty : Paired empty where
  mem_iff key := by simp [empty]
  ne_nil key h := by simp [empty] at h

section
variable {books : Books}

/-- An entry pairs the account that it is for, which may have had no history yet. -/
theorem paired_append {owner : PublicKey} {entry : HistoryEntry}
    (hmem : ∀ key, key ∈ books.accounts ↔ owner.bytes = key ∨ key ∈ books.histories)
    (hne : ∀ key, key ∈ books.histories → books.history key ≠ []) :
    (books.append owner entry).Paired where
  mem_iff key := by rw [mem_histories_append, mem_append, hmem]
  ne_nil key hkey := by
    rw [history_append]
    split
    · exact List.concat_ne_nil _ _
    · rename_i hother
      exact hne key ((mem_histories_append.mp hkey).resolve_left hother)

theorem Paired.append (h : books.Paired) {owner : PublicKey}
    (howner : owner.bytes ∈ books.accounts) (entry : HistoryEntry) :
    (books.append owner entry).Paired := by
  refine paired_append ?_ h.ne_nil
  intro key
  rw [h.mem_iff]
  constructor
  · exact Or.inr
  · rintro (rfl | hmem)
    · exact howner
    · exact hmem

/-- A new account gets its history with its first entry. -/
theorem Paired.openAccount_append (h : books.Paired) (tx : CreateAccount) (entry : HistoryEntry) :
    ((books.openAccount tx).append tx.owner entry).Paired := by
  refine paired_append ?_ h.ne_nil
  intro key
  rw [mem_openAccount, ← h.mem_iff]
  rfl

theorem Paired.changeBalance (h : books.Paired) (owner : PublicKey) (change : UInt64 → UInt64) :
    (books.changeBalance owner change).Paired where
  mem_iff key := by
    rw [mem_changeBalance, ← h.mem_iff]
    rfl
  ne_nil := h.ne_nil

/-- An execution keeps accounts and histories together. -/
theorem Paired.execute (h : books.Paired) (hash : Digest) (body : Body) :
    (books.execute hash body).1.Paired := by
  refine execute_keeps ?_ ?_ ?_ h hash body
  · intro books tx entry h _
    exact h.openAccount_append tx entry
  · intro books owner change h
    exact h.changeBalance owner change
  · intro books owner entry h hmem
    exact h.append hmem entry

end

/-! ## The law of an entry -/

/-- Whose history gets an entry: that of the signer, if there is an account for it after
the execution, and that of somebody else whom a successful transfer paid. -/
def EnteredFor (after : Accounts) (succeeded : Bool) (key : FixedBytes 32) (body : Body) : Prop :=
  (body.owner.bytes = key ∧ key ∈ after) ∨
    ∃ tx, body = .transfer tx ∧ tx.recipient.bytes = key ∧ tx.sender ≠ tx.recipient ∧
      succeeded = true

/-- The execution is entered once where it belongs, at the end, with its hash and outcome,
and no other history changes. -/
structure Enters (before : Books) (hash : Digest) (body : Body) (after : Books)
    (succeeded : Bool) : Prop where
  entered : ∀ key, EnteredFor after.accounts succeeded key body →
    after.histories[key]? = some (before.history key ++ [⟨hash, succeeded⟩])
  unchanged : ∀ key, ¬ EnteredFor after.accounts succeeded key body →
    after.histories[key]? = before.histories[key]?

section
variable {before books : Books} {hash : Digest} {body : Body} {succeeded : Bool}

theorem enteredFor_iff_of_mem {after : Accounts} {key : FixedBytes 32}
    (howner : body.owner.bytes ∈ after)
    (hunpaid : ∀ tx, body = .transfer tx → tx.sender ≠ tx.recipient → succeeded = false) :
    EnteredFor after succeeded key body ↔ body.owner.bytes = key := by
  constructor
  · rintro (⟨hkey, -⟩ | ⟨tx, hbody, -, hother, hok⟩)
    · exact hkey
    · rw [hunpaid tx hbody hother] at hok
      cases hok
  · rintro rfl
    exact Or.inl ⟨rfl, howner⟩

/-- An execution that pays nobody else enters itself with its signer. -/
theorem enters_append (hsame : books.histories = before.histories)
    (howner : body.owner.bytes ∈ books.accounts)
    (hunpaid : ∀ tx, body = .transfer tx → tx.sender ≠ tx.recipient → succeeded = false) :
    Enters before hash body (books.append body.owner ⟨hash, succeeded⟩) succeeded where
  entered key hkey := by
    rw [enteredFor_iff_of_mem (mem_append.mpr howner) hunpaid] at hkey
    rw [getElem?_histories_append, if_pos hkey, history, history, hsame]
  unchanged key hkey := by
    rw [enteredFor_iff_of_mem (mem_append.mpr howner) hunpaid] at hkey
    rw [getElem?_histories_append, if_neg hkey, hsame]

theorem enters_ignored (howner : body.owner.bytes ∉ books.accounts) :
    Enters books hash body books false where
  entered key hkey := by
    rcases hkey with ⟨rfl, hmem⟩ | ⟨tx, -, -, -, hok⟩
    · exact absurd hmem howner
    · cases hok
  unchanged _ _ := rfl

/-- A transfer to somebody else is entered on both sides. -/
theorem enters_moved {tx : Transfer} (hsender : tx.sender.bytes ∈ books.accounts)
    (hother : tx.sender ≠ tx.recipient) :
    Enters books hash (.transfer tx)
      (((books.move tx).append tx.sender ⟨hash, true⟩).append tx.recipient ⟨hash, true⟩) true := by
  have hne : tx.sender.bytes ≠ tx.recipient.bytes := PublicKey.bytes_ne hother
  have hmem : ∀ entry entry', tx.sender.bytes ∈
      (((books.move tx).append tx.sender entry).append tx.recipient entry').accounts := by
    intro entry entry'
    rw [mem_append, mem_append, move, mem_changeBalance, mem_changeBalance]
    exact hsender
  have hhistory : ∀ key, (books.move tx).history key = books.history key := fun _ => rfl
  refine ⟨?_, ?_⟩
  · rintro key (⟨rfl, -⟩ | ⟨tx', heq, rfl, -⟩)
    · have howner : (Body.transfer tx).owner = tx.sender := rfl
      rw [howner, getElem?_histories_append, if_neg hne.symm, getElem?_histories_append,
        if_pos rfl, hhistory]
    · obtain rfl := Body.transfer.inj heq
      rw [getElem?_histories_append, if_pos rfl, history_append, if_neg hne, hhistory]
  · intro key hkey
    have hfrom : tx.sender.bytes ≠ key := by
      rintro rfl
      exact hkey (Or.inl ⟨rfl, hmem _ _⟩)
    have hto : tx.recipient.bytes ≠ key := fun heq =>
      hkey (Or.inr ⟨tx, rfl, heq, hother, rfl⟩)
    rw [getElem?_histories_append, if_neg hto, getElem?_histories_append, if_neg hfrom]
    rfl

/-- Whatever the books and the transaction, an execution obeys the law. -/
theorem enters_execute (books : Books) (hash : Digest) (body : Body) :
    Enters books hash body (books.execute hash body).1 (books.execute hash body).2 := by
  have hcases := executes books hash body
  generalize books.execute hash body = result at hcases
  cases hcases with
  | ignored howner => exact enters_ignored howner
  | failed howner => exact enters_append rfl howner fun _ _ _ => rfl
  | created => exact enters_append rfl (mem_openAccount.mpr (Or.inl rfl)) nofun
  | returned hsender hself =>
    refine enters_append rfl (mem_of_getElem? hsender) ?_
    rintro tx heq hother
    obtain rfl := Body.transfer.inj heq
    exact absurd hself hother
  | moved hsender _ hother => exact enters_moved (mem_of_getElem? hsender) hother
  | issued howner =>
    exact enters_append rfl (mem_changeBalance.mpr (mem_of_getElem? howner)) nofun

end

end Books

/-! ## Histories of a run -/

/-- The account is the one under its key, and its history is what the account records,
entry by entry backed by the bytes of a transaction. -/
structure Intact (s : State) (key : FixedBytes 32) (account : Account) : Prop
    extends Records key (s.books.history key) account where
  ne_nil : s.books.history key ≠ []
  toNat_length : (s.books.history key).length < UInt64.size →
    account.historyLength.toNat = (s.books.history key).length
  backed : ∀ entry ∈ s.books.history key, ∃ bytes transaction,
    s.committed[entry.txHash]? = some bytes ∧ sha256 bytes = entry.txHash ∧
      Transaction.ofBytes bytes = .ok transaction

variable {S : SignatureScheme} (ledger : Ledger S)

section
variable {ledger} {s : State}

/-- The bytes under a hash have that hash and are a transaction. -/
theorem Backed.exists_transaction (h : ledger.Backed s) {hash : Digest}
    (hmem : hash ∈ s.committed) :
    ∃ bytes transaction, s.committed[hash]? = some bytes ∧ sha256 bytes = hash ∧
      Transaction.ofBytes bytes = .ok transaction := by
  have hbytes := Std.ExtTreeMap.getElem?_eq_some_getElem hmem
  obtain ⟨p, hp, hhash, hmessage⟩ := h.stored _ _ hbytes
  refine ⟨_, p.transaction, hbytes, ?_, ?_⟩
  · rw [← hmessage, ← hp.hash_eq, hhash]
  · rw [← hmessage]
    exact Transaction.ofBytes_of_toBytes hp.toBytes_eq

theorem Backed.intact (h : ledger.Backed s) (hpaired : s.books.Paired) {key : FixedBytes 32}
    {account : Account} (haccount : s.books.accounts[key]? = some account) :
    Intact s key account where
  toRecords := h.kept.records key account haccount
  ne_nil := hpaired.ne_nil key ((hpaired.mem_iff key).mpr (Books.mem_of_getElem? haccount))
  toNat_length hlength := by
    rw [(h.kept.records key account haccount).length]
    exact UInt64.toNat_ofNat_of_lt' hlength
  backed entry hentry := h.exists_transaction (h.covered key entry hentry)

end

theorem paired_run (faults : Faults) (ops : List Operation) :
    (ledger.run faults ops).books.Paired := by
  have hpaired := Books.executeAll_keeps (fun _ hash body h => h.execute hash body)
    Books.paired_empty (executedOf (ledger.log faults ops))
  rwa [executeAll_log] at hpaired

/-- At any time of a run exactly the accounts have a history, and each is intact. The books
are what the executions that the blocks list make of empty ones, one after the other, and
each of these enters itself where it belongs, whatever the books. -/
theorem histories_run {S : SignatureScheme} (ledger : Ledger S) (faults : Faults)
    (ops : List Operation) :
    (∀ key, key ∈ (ledger.run faults ops).books.histories ↔
      key ∈ (ledger.run faults ops).books.accounts) ∧
    (∀ key account, (ledger.run faults ops).books.accounts[key]? = some account →
      Intact (ledger.run faults ops) key account) ∧
    Books.empty.executeAll (executedOf (ledger.log faults ops)) =
      ((ledger.run faults ops).books, (ledger.log faults ops).flatten) ∧
    List.Forall₂ Lists (ledger.run faults ops).blocks.tail (ledger.log faults ops) ∧
    ∀ (books : Books) (hash : Digest) (body : Body),
      books.Enters hash body (books.execute hash body).1 (books.execute hash body).2 := by
  have hpaired := ledger.paired_run faults ops
  have hbacked := (ledger.sound_run faults ops).toBacked
  exact ⟨hpaired.mem_iff, fun key account => hbacked.intact hpaired,
    executeAll_log ledger faults ops, lists_log ledger faults ops, Books.enters_execute⟩

open Query (numberedKey)

/-- The account that was created twice has a history of two, and the second creation
entered itself as a failure. -/
theorem histories_run_openedTwice :
    (numberedKey 7).bytes ∈ (stampLedger.run .off openedTwice).books.histories ∧
      ∃ account, (stampLedger.run .off openedTwice).books.accounts[(numberedKey 7).bytes]? =
          some account ∧
        Intact (stampLedger.run .off openedTwice) (numberedKey 7).bytes account ∧
        account.historyLength = 2 ∧
        openedOnce.Enters openedEntry.hash openedEntry.body
          (stampLedger.run .off openedTwice).books false := by
  obtain ⟨hmem, hintact, -, -, henters⟩ := histories_run stampLedger .off openedTwice
  have haccount := Std.ExtTreeMap.getElem?_eq_some_getElem mem_openedTwice
  have hrecorded := hintact _ _ haccount
  have hexecute : openedOnce.execute openedEntry.hash openedEntry.body =
      ((stampLedger.run .off openedTwice).books, false) := by
    rw [books_openedTwice]
    exact Books.execute_create_of_mem mem_openedOnce _
  have hexecuted := henters openedOnce openedEntry.hash openedEntry.body
  simp only [hexecute] at hexecuted
  refine ⟨(hmem _).mpr mem_openedTwice, _, haccount, hrecorded, ?_, hexecuted⟩
  rw [hrecorded.length, history_openedTwice]
  rfl

end LightClient.Ledger

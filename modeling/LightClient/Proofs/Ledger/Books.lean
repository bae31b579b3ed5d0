import LightClient.Ledger.Books

/-! What a transaction does to the books. `executes` says it once, outcome by
outcome; what an execution keeps follows from what the single entries keep. -/

namespace LightClient

theorem PublicKey.eq_of_bytes_eq {a b : PublicKey} (h : a.bytes = b.bytes) : a = b := by
  rw [← PublicKey.mk.injEq] at h
  exact h

theorem PublicKey.bytes_ne {a b : PublicKey} (h : a ≠ b) : a.bytes ≠ b.bytes :=
  fun heq => h (PublicKey.eq_of_bytes_eq heq)

namespace Ledger

namespace Books

/-- The history under a key. -/
def history (books : Books) (key : FixedBytes 32) : List HistoryEntry :=
  books.histories.getD key []

/-! ## Single changes -/

theorem getElem?_openAccount (books : Books) (tx : CreateAccount) (key : FixedBytes 32) :
    (books.openAccount tx).accounts[key]? =
      if tx.owner.bytes = key then
        some ⟨tx.owner, "", tx.initialBalance, 0, historyRoot []⟩
      else books.accounts[key]? := by
  simp [openAccount, Std.ExtTreeMap.getElem?_insert, Std.LawfulEqCmp.compare_eq_iff_eq]

theorem getElem?_changeBalance (books : Books) (owner : PublicKey) (change : UInt64 → UInt64)
    (key : FixedBytes 32) :
    (books.changeBalance owner change).accounts[key]? =
      if owner.bytes = key then
        books.accounts[key]?.map fun a => { a with balance := change a.balance }
      else books.accounts[key]? := by
  simp only [changeBalance, Std.ExtTreeMap.getElem?_modify, Std.LawfulEqCmp.compare_eq_iff_eq]
  split
  · rename_i h
    rw [h]
  · rfl

theorem getElem?_append (books : Books) (owner : PublicKey) (entry : HistoryEntry)
    (key : FixedBytes 32) :
    (books.append owner entry).accounts[key]? =
      if owner.bytes = key then
        books.accounts[key]?.map fun a =>
          { a with
            historyLength := UInt64.ofNat (books.history key ++ [entry]).length
            historyHash := historyRoot (books.history key ++ [entry]) }
      else books.accounts[key]? := by
  simp only [append, Std.ExtTreeMap.getElem?_modify, Std.LawfulEqCmp.compare_eq_iff_eq]
  split
  · rename_i h
    rw [h]
    rfl
  · rfl

theorem history_append (books : Books) (owner : PublicKey) (entry : HistoryEntry)
    (key : FixedBytes 32) :
    (books.append owner entry).history key =
      if owner.bytes = key then books.history key ++ [entry] else books.history key := by
  simp only [append, history, Std.ExtTreeMap.getD_insert, Std.LawfulEqCmp.compare_eq_iff_eq]
  split
  · rename_i h
    rw [h]
  · rfl

theorem getElem?_histories_append (books : Books) (owner : PublicKey) (entry : HistoryEntry)
    (key : FixedBytes 32) :
    (books.append owner entry).histories[key]? =
      if owner.bytes = key then some (books.history key ++ [entry])
      else books.histories[key]? := by
  simp only [append, Std.ExtTreeMap.getElem?_insert, Std.LawfulEqCmp.compare_eq_iff_eq]
  split
  · rename_i h
    rw [h]
    rfl
  · rfl

@[simp] theorem history_openAccount (books : Books) (tx : CreateAccount) (key : FixedBytes 32) :
    (books.openAccount tx).history key = books.history key := rfl

theorem fits_iff {balance amount : UInt64} :
    fits balance amount = true ↔ balance.toNat + amount.toNat < UInt64.size :=
  decide_eq_true_iff

/-! ## Outcomes -/

/-- How an execution changes the books, and whether it reports success. -/
inductive Executes (books : Books) (hash : Digest) : Body → Books × Bool → Prop
  /-- Nobody's account is touched if the signer has none. -/
  | ignored {body : Body} :
    body.owner.bytes ∉ books.accounts → Executes books hash body (books, false)
  | failed {body : Body} :
    body.owner.bytes ∈ books.accounts →
    Executes books hash body (books.append body.owner ⟨hash, false⟩, false)
  | created {tx : CreateAccount} :
    tx.owner.bytes ∉ books.accounts →
    Executes books hash (.createAccount tx)
      ((books.openAccount tx).append tx.owner ⟨hash, true⟩, true)
  /-- A transfer to oneself. -/
  | returned {tx : Transfer} {sender : Account} :
    books.accounts[tx.sender.bytes]? = some sender → tx.sender = tx.recipient →
    tx.amount ≤ sender.balance →
    Executes books hash (.transfer tx) (books.append tx.sender ⟨hash, true⟩, true)
  | moved {tx : Transfer} {sender recipient : Account} :
    books.accounts[tx.sender.bytes]? = some sender →
    books.accounts[tx.recipient.bytes]? = some recipient → tx.sender ≠ tx.recipient →
    tx.amount ≤ sender.balance → fits recipient.balance tx.amount = true →
    Executes books hash (.transfer tx)
      (((books.move tx).append tx.sender ⟨hash, true⟩).append tx.recipient ⟨hash, true⟩, true)
  | issued {tx : Issue} {account : Account} :
    books.accounts[tx.owner.bytes]? = some account → fits account.balance tx.amount = true →
    Executes books hash (.issue tx)
      ((books.changeBalance tx.owner (· + tx.amount)).append tx.owner ⟨hash, true⟩, true)

theorem mem_of_getElem? {books : Books} {key : FixedBytes 32} {account : Account}
    (h : books.accounts[key]? = some account) : key ∈ books.accounts :=
  (Std.ExtTreeMap.getElem?_eq_some_iff.mp h).1

theorem not_mem_of_getElem? {books : Books} {key : FixedBytes 32}
    (h : books.accounts[key]? = none) : key ∉ books.accounts := by
  simpa using h

theorem executes_transfer (books : Books) (hash : Digest) (tx : Transfer) :
    Executes books hash (.transfer tx) (books.transfer hash tx) := by
  unfold transfer
  cases hsender : books.accounts[tx.sender.bytes]? with
  | none => exact .ignored (not_mem_of_getElem? hsender)
  | some sender =>
    have hmem : tx.sender.bytes ∈ books.accounts := mem_of_getElem? hsender
    simp only
    split
    · rename_i hok
      rw [Bool.and_eq_true, decide_eq_true_iff] at hok
      obtain ⟨hreceive, henough⟩ := hok
      split
      · rename_i hself
        exact .returned hsender hself henough
      · rename_i hother
        unfold canReceive at hreceive
        cases hrecipient : books.accounts[tx.recipient.bytes]? with
        | none => simp [hrecipient] at hreceive
        | some recipient =>
          simp only [hrecipient, hother, decide_false, Bool.false_or] at hreceive
          exact .moved hsender hrecipient hother henough hreceive
    · exact .failed hmem

/-- The outcomes are all that an execution can end in. -/
theorem executes (books : Books) (hash : Digest) (body : Body) :
    Executes books hash body (books.execute hash body) := by
  cases body with
  | createAccount tx =>
    simp only [execute, createAccount]
    split
    · rename_i h
      exact .failed h
    · rename_i h
      exact .created h
  | transfer tx => exact executes_transfer books hash tx
  | issue tx =>
    simp only [execute, issue]
    cases howner : books.accounts[tx.owner.bytes]? with
    | none => exact .ignored (not_mem_of_getElem? howner)
    | some account =>
      simp only
      split
      · rename_i hfits
        exact .issued howner hfits
      · exact .failed (mem_of_getElem? howner)

theorem execute_create_of_not_mem {books : Books} {tx : CreateAccount}
    (h : tx.owner.bytes ∉ books.accounts) (hash : Digest) :
    books.execute hash (.createAccount tx) =
      ((books.openAccount tx).append tx.owner ⟨hash, true⟩, true) :=
  if_neg h

theorem execute_create_of_mem {books : Books} {tx : CreateAccount}
    (h : tx.owner.bytes ∈ books.accounts) (hash : Digest) :
    books.execute hash (.createAccount tx) = (books.append tx.owner ⟨hash, false⟩, false) :=
  if_pos h

/-- An issue that fits credits the account. -/
theorem execute_issue_of_fits {books : Books} {account : Account} (tx : Issue)
    (h : books.accounts[tx.owner.bytes]? = some account)
    (hfits : fits account.balance tx.amount = true) (hash : Digest) :
    (books.execute hash (.issue tx)).2 = true ∧ ∃ account',
      (books.execute hash (.issue tx)).1.accounts[tx.owner.bytes]? = some account' ∧
        account'.balance = account.balance + tx.amount := by
  simp only [execute, issue, h, if_pos hfits]
  rw [getElem?_append, getElem?_changeBalance, h]
  simp

end Books

/-! ## What the books keep -/

/-- The account belongs to the key, has no name, and holds the length and the root of
the history. -/
structure Records (key : FixedBytes 32) (history : List HistoryEntry) (account : Account) :
    Prop where
  owner : account.publicKey.bytes = key
  unnamed : account.name = ""
  length : account.historyLength = UInt64.ofNat history.length
  root : account.historyHash = historyRoot history

namespace Books

/-- Every account is in order, and only accounts have a history. -/
structure Kept (books : Books) : Prop where
  owned : ∀ key, key ∉ books.accounts → books.history key = []
  records : ∀ key account, books.accounts[key]? = some account →
    Records key (books.history key) account

theorem kept_empty : Kept empty where
  owned key _ := by simp [history, empty]
  records key account h := by simp [empty] at h

section
variable {books : Books}

theorem mem_openAccount {tx : CreateAccount} {key : FixedBytes 32} :
    key ∈ (books.openAccount tx).accounts ↔ tx.owner.bytes = key ∨ key ∈ books.accounts := by
  simp only [openAccount, Std.ExtTreeMap.mem_insert, Std.LawfulEqCmp.compare_eq_iff_eq]

theorem Kept.openAccount (h : books.Kept) {tx : CreateAccount}
    (hnew : tx.owner.bytes ∉ books.accounts) : (books.openAccount tx).Kept where
  owned key hkey := by
    apply h.owned
    intro hmem
    exact hkey (mem_openAccount.mpr (Or.inr hmem))
  records key account haccount := by
    rw [getElem?_openAccount] at haccount
    split at haccount
    · rename_i howner
      obtain rfl := Option.some.inj haccount
      subst howner
      rw [history_openAccount, h.owned _ hnew]
      exact ⟨rfl, rfl, rfl, rfl⟩
    · exact h.records key account haccount

theorem mem_changeBalance {owner : PublicKey} {change : UInt64 → UInt64} {key : FixedBytes 32} :
    key ∈ (books.changeBalance owner change).accounts ↔ key ∈ books.accounts :=
  Std.ExtTreeMap.mem_modify

theorem Kept.changeBalance (h : books.Kept) (owner : PublicKey) (change : UInt64 → UInt64) :
    (books.changeBalance owner change).Kept where
  owned key hkey := h.owned key fun hmem => hkey (mem_changeBalance.mpr hmem)
  records key account haccount := by
    rw [getElem?_changeBalance] at haccount
    split at haccount
    · obtain ⟨old, hold, rfl⟩ := Option.map_eq_some_iff.mp haccount
      obtain ⟨howner, hname, hlength, hroot⟩ := h.records key old hold
      exact ⟨howner, hname, hlength, hroot⟩
    · exact h.records key account haccount

theorem mem_append {owner : PublicKey} {entry : HistoryEntry} {key : FixedBytes 32} :
    key ∈ (books.append owner entry).accounts ↔ key ∈ books.accounts :=
  Std.ExtTreeMap.mem_modify

theorem Kept.append (h : books.Kept) {owner : PublicKey} (hmem : owner.bytes ∈ books.accounts)
    (entry : HistoryEntry) : (books.append owner entry).Kept where
  owned key hkey := by
    have hout : key ∉ books.accounts := fun hin => hkey (mem_append.mpr hin)
    have hne : owner.bytes ≠ key := fun heq => hout (heq ▸ hmem)
    rw [history_append, if_neg hne]
    exact h.owned key hout
  records key account haccount := by
    rw [getElem?_append] at haccount
    rw [history_append]
    split at haccount
    · rename_i howner
      rw [if_pos howner]
      obtain ⟨old, hold, rfl⟩ := Option.map_eq_some_iff.mp haccount
      obtain ⟨howner', hname, -, -⟩ := h.records key old hold
      exact ⟨howner', hname, rfl, rfl⟩
    · rename_i howner
      rw [if_neg howner]
      exact h.records key account haccount

/-- An execution keeps what new accounts with their first entry, changes of balances and
entries for accounts keep. -/
theorem execute_keeps {P : Books → Prop}
    (hopen : ∀ (books : Books) (tx : CreateAccount) (entry : HistoryEntry), P books →
      tx.owner.bytes ∉ books.accounts → P ((books.openAccount tx).append tx.owner entry))
    (hchange : ∀ (books : Books) (owner : PublicKey) (change : UInt64 → UInt64), P books →
      P (books.changeBalance owner change))
    (happend : ∀ (books : Books) (owner : PublicKey) (entry : HistoryEntry), P books →
      owner.bytes ∈ books.accounts → P (books.append owner entry))
    (h : P books) (hash : Digest) (body : Body) : P (books.execute hash body).1 := by
  have hcases := executes books hash body
  generalize books.execute hash body = result at hcases
  cases hcases with
  | ignored => exact h
  | failed hmem => exact happend _ _ _ h hmem
  | created hnew => exact hopen _ _ _ h hnew
  | returned hsender => exact happend _ _ _ h (mem_of_getElem? hsender)
  | moved hsender hrecipient =>
    refine happend _ _ _ (happend _ _ _ (hchange _ _ _ (hchange _ _ _ h)) ?_) ?_
    · exact mem_changeBalance.mpr (mem_changeBalance.mpr (mem_of_getElem? hsender))
    · exact mem_append.mpr
        (mem_changeBalance.mpr (mem_changeBalance.mpr (mem_of_getElem? hrecipient)))
  | issued howner =>
    exact happend _ _ _ (hchange _ _ _ h) (mem_changeBalance.mpr (mem_of_getElem? howner))

/-- An execution keeps the books in order. -/
theorem Kept.execute (h : books.Kept) (hash : Digest) (body : Body) :
    (books.execute hash body).1.Kept := by
  refine execute_keeps ?_ ?_ ?_ h hash body
  · intro books tx entry h hnew
    exact (h.openAccount hnew).append (mem_openAccount.mpr (Or.inl rfl)) entry
  · intro books owner change h
    exact h.changeBalance owner change
  · intro books owner entry h hmem
    exact h.append hmem entry

theorem mem_history_append {owner : PublicKey} {added entry : HistoryEntry} {key : FixedBytes 32}
    (h : entry ∈ (books.append owner added).history key) :
    entry ∈ books.history key ∨ entry.txHash = added.txHash := by
  rw [history_append] at h
  split at h
  · rcases List.mem_append.mp h with h | h
    · exact Or.inl h
    · rw [List.mem_singleton.mp h]
      exact Or.inr rfl
  · exact Or.inl h

/-- An execution adds no entries but its own. -/
theorem mem_history_execute {hash : Digest} {body : Body} {key : FixedBytes 32}
    {entry : HistoryEntry} (h : entry ∈ (books.execute hash body).1.history key) :
    entry ∈ books.history key ∨ entry.txHash = hash := by
  have hcases := executes books hash body
  generalize books.execute hash body = result at hcases h
  cases hcases with
  | ignored => exact Or.inl h
  | failed => exact mem_history_append h
  | created => exact mem_history_append h
  | returned => exact mem_history_append h
  | moved =>
    rcases mem_history_append h with h | h
    · exact mem_history_append h
    · exact Or.inr h
  | issued => exact mem_history_append h

end

end Books

end Ledger

end LightClient

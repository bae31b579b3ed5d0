import LightClient.Proofs.Ledger.Independence
import LightClient.Proofs.Ledger.Supply

/-! What comes of a transaction. Whether it succeeds is decided by the accounts that it names,
as they were before. A failure leaves nothing behind but an entry in the signer's history; a
success moves the amount, and is entered for each account that is named. -/

namespace LightClient

/-- The keys under which a body opens an account. -/
def Body.opens : Body → List (FixedBytes 32)
  | .createAccount tx => [tx.owner.bytes]
  | _ => []

namespace Ledger

namespace Books

/-! ## When it succeeds -/

/-- What a transaction needs of the books. Nobody pays for an issue, and a transfer to
oneself needs no room for the amount. -/
def Allows (books : Books) : Body → Prop
  | .createAccount tx => tx.owner.bytes ∉ books.accounts
  | .transfer tx =>
    ∃ sender recipient, books.accounts[tx.sender.bytes]? = some sender ∧
      books.accounts[tx.recipient.bytes]? = some recipient ∧
      tx.amount.toNat ≤ sender.balance.toNat ∧
      (tx.sender = tx.recipient ∨
        recipient.balance.toNat + tx.amount.toNat < UInt64.size)
  | .issue tx =>
    ∃ account, books.accounts[tx.owner.bytes]? = some account ∧
      account.balance.toNat + tx.amount.toNat < UInt64.size

theorem canReceive_iff {books : Books} {tx : Transfer} :
    books.canReceive tx = true ↔
      ∃ recipient, books.accounts[tx.recipient.bytes]? = some recipient ∧
        (tx.sender = tx.recipient ∨
          recipient.balance.toNat + tx.amount.toNat < UInt64.size) := by
  unfold canReceive
  cases books.accounts[tx.recipient.bytes]? with
  | none => simp
  | some recipient => simp [fits_iff]

theorem transfer_succeeds_iff (books : Books) (hash : Digest) (tx : Transfer) :
    (books.transfer hash tx).2 = true ↔ books.Allows (.transfer tx) := by
  unfold transfer
  cases hsender : books.accounts[tx.sender.bytes]? with
  | none => simp [Allows, hsender]
  | some sender =>
    have hallows : books.Allows (.transfer tx) ↔
        (books.canReceive tx && decide (tx.amount ≤ sender.balance)) = true := by
      rw [Bool.and_eq_true, canReceive_iff, decide_eq_true_iff]
      constructor
      · rintro ⟨sender', recipient, hsender', hrecipient, henough, hroom⟩
        obtain rfl := Option.some.inj (hsender.symm.trans hsender')
        exact ⟨⟨recipient, hrecipient, hroom⟩, henough⟩
      · rintro ⟨⟨recipient, hrecipient, hroom⟩, henough⟩
        exact ⟨sender, recipient, hsender, hrecipient, henough, hroom⟩
    rw [hallows]
    simp only
    split
    · rename_i hok
      split
      · simp [hok]
      · simp [hok]
    · rename_i hok
      simp [hok]

theorem execute_succeeds_iff (books : Books) (hash : Digest) (body : Body) :
    (books.execute hash body).2 = true ↔ books.Allows body := by
  cases body with
  | createAccount tx =>
    simp only [execute, createAccount, Allows]
    split
    · rename_i h
      simp [h]
    · rename_i h
      simp [h]
  | transfer tx => exact transfer_succeeds_iff books hash tx
  | issue tx =>
    simp only [execute, issue, Allows]
    cases howner : books.accounts[tx.owner.bytes]? with
    | none => simp
    | some account =>
      simp only [Option.some.injEq, exists_eq_left', ← fits_iff]
      split
      · rename_i hfits
        simp [hfits]
      · rename_i hfits
        simp [hfits]

/-! ## What a failure leaves -/

/-- The books afterwards differ by an entry for the owner, and only if there is an account to
keep it. -/
structure OnlyEntered (before : Books) (owner : PublicKey) (entry : HistoryEntry)
    (after : Books) : Prop where
  mem_iff : ∀ key, key ∈ after.accounts ↔ key ∈ before.accounts
  other : ∀ key, owner.bytes ≠ key → after.page key = before.page key
  missing : owner.bytes ∉ before.accounts → after = before
  history_eq : owner.bytes ∈ before.accounts →
    after.history owner.bytes = before.history owner.bytes ++ [entry]
  /-- The key, the name and the balance are as they were. -/
  account_eq : ∀ account, before.accounts[owner.bytes]? = some account →
    after.accounts[owner.bytes]? = some
      { account with
        historyLength := UInt64.ofNat (after.history owner.bytes).length
        historyHash := historyRoot (after.history owner.bytes) }

section
variable {books : Books} {owner : PublicKey}

theorem onlyEntered_of_not_mem (h : owner.bytes ∉ books.accounts) (entry : HistoryEntry) :
    books.OnlyEntered owner entry books where
  mem_iff _ := Iff.rfl
  other _ _ := rfl
  missing _ := rfl
  history_eq hmem := absurd hmem h
  account_eq _ haccount := absurd (mem_of_getElem? haccount) h

theorem onlyEntered_append (h : owner.bytes ∈ books.accounts) (entry : HistoryEntry) :
    books.OnlyEntered owner entry (books.append owner entry) where
  mem_iff _ := mem_append
  other key hne := by rw [page_append, if_neg hne]
  missing hout := absurd h hout
  history_eq _ := by rw [history_append, if_pos rfl]
  account_eq account haccount := by
    rw [getElem?_append, if_pos rfl, haccount, history_append, if_pos rfl]
    rfl

theorem onlyEntered_execute {hash : Digest} {body : Body}
    (h : (books.execute hash body).2 = false) :
    books.OnlyEntered body.owner ⟨hash, false⟩ (books.execute hash body).1 := by
  have hcases := books.executes hash body
  generalize books.execute hash body = result at hcases h
  cases hcases with
  | ignored hout => exact onlyEntered_of_not_mem hout _
  | failed hmem => exact onlyEntered_append hmem _
  | created => exact nomatch h
  | returned => exact nomatch h
  | moved => exact nomatch h
  | issued => exact nomatch h

end

/-! ## What a success does -/

/-- The balances under the keys that a body names, before and after it succeeds. -/
def Settles (before after : Accounts) : Body → Prop
  | .createAccount tx => balanceAt after tx.owner.bytes = tx.initialBalance.toNat
  | .transfer tx =>
    if tx.sender = tx.recipient then
      balanceAt after tx.sender.bytes = balanceAt before tx.sender.bytes
    else
      balanceAt after tx.sender.bytes + tx.amount.toNat = balanceAt before tx.sender.bytes ∧
        balanceAt after tx.recipient.bytes =
          balanceAt before tx.recipient.bytes + tx.amount.toNat
  | .issue tx =>
    balanceAt after tx.owner.bytes = balanceAt before tx.owner.bytes + tx.amount.toNat

theorem settles_of_conserves {before after : Accounts} {body : Body}
    (h : Conserves before body after true)
    (hnew : ∀ key ∈ body.opens, key ∉ before) : Settles before after body := by
  have hbalance := h.balance_eq rfl
  cases body with
  | createAccount tx =>
    have howner := hbalance tx.owner.bytes
    rw [balanceAt_of_not_mem (hnew _ List.mem_cons_self)] at howner
    simpa [Settles, debited, credited] using howner
  | transfer tx =>
    have hsender := hbalance tx.sender.bytes
    have hrecipient := hbalance tx.recipient.bytes
    simp only [debited, credited, if_true] at hsender hrecipient
    simp only [Settles]
    split
    · rename_i hself
      rw [hself, if_pos rfl] at hsender
      rw [hself]
      omega
    · rename_i hother
      have hne : tx.sender.bytes ≠ tx.recipient.bytes := PublicKey.bytes_ne hother
      rw [if_neg hne.symm] at hsender
      rw [if_neg hne] at hrecipient
      exact ⟨hsender, hrecipient⟩
  | issue tx =>
    have howner := hbalance tx.owner.bytes
    simpa [Settles, debited, credited] using howner

/-- The accounts that a body names have moved as it says, with an entry for each; the others
are as they were. -/
structure Settled (before : Books) (entry : HistoryEntry) (body : Body) (after : Books) :
    Prop where
  mem_iff : ∀ key, key ∈ after.accounts ↔ key ∈ body.opens ∨ key ∈ before.accounts
  other : ∀ key ∉ body.touched, after.page key = before.page key
  settles : Settles before.accounts after.accounts body
  history_eq : ∀ key ∈ body.touched, after.history key = before.history key ++ [entry]

section
variable {books : Books} {hash : Digest} {body : Body}

theorem mem_execute_iff (h : (books.execute hash body).2 = true) (key : FixedBytes 32) :
    key ∈ (books.execute hash body).1.accounts ↔ key ∈ body.opens ∨ key ∈ books.accounts := by
  have hcases := books.executes hash body
  generalize books.execute hash body = result at hcases h
  cases hcases with
  | ignored => exact nomatch h
  | failed => exact nomatch h
  | created => simp [mem_append, mem_openAccount, Body.opens, eq_comm]
  | returned => simp [mem_append, Body.opens]
  | moved => simp [mem_append, move, mem_changeBalance, Body.opens]
  | issued => simp [mem_append, mem_changeBalance, Body.opens]

theorem history_execute (h : (books.execute hash body).2 = true) {key : FixedBytes 32}
    (hkey : key ∈ body.touched) :
    (books.execute hash body).1.history key = books.history key ++ [⟨hash, true⟩] := by
  have hcases := books.executes hash body
  generalize books.execute hash body = result at hcases h
  cases hcases with
  | ignored => exact nomatch h
  | failed => exact nomatch h
  | created =>
    obtain rfl := List.mem_singleton.mp hkey
    rw [history_append, if_pos rfl, history_openAccount]
  | @returned tx _ _ hself =>
    have hkey : key = tx.sender.bytes := by simpa [Body.touched, hself] using hkey
    rw [hkey, history_append, if_pos rfl]
  | @moved tx _ _ _ _ hother =>
    have hne : tx.sender.bytes ≠ tx.recipient.bytes := PublicKey.bytes_ne hother
    -- one entry for each, as the parties are two
    rcases List.mem_cons.mp hkey with rfl | hkey
    · rw [history_append, if_neg hne.symm, history_append, if_pos rfl]
      rfl
    · obtain rfl := List.mem_singleton.mp hkey
      rw [history_append, if_pos rfl, history_append, if_neg hne]
      rfl
  | issued =>
    obtain rfl := List.mem_singleton.mp hkey
    rw [history_append, if_pos rfl]
    rfl

theorem settled_execute (h : (books.execute hash body).2 = true) :
    books.Settled ⟨hash, true⟩ body (books.execute hash body).1 where
  mem_iff := mem_execute_iff h
  other key hkey := page_execute hkey books hash
  settles := by
    have hallows := (execute_succeeds_iff books hash body).mp h
    have hconserves := conserves_execute books hash body
    rw [h] at hconserves
    refine settles_of_conserves hconserves ?_
    intro key hkey
    cases body with
    | createAccount tx =>
      obtain rfl := List.mem_singleton.mp hkey
      exact hallows
    | transfer tx => exact absurd hkey List.not_mem_nil
    | issue tx => exact absurd hkey List.not_mem_nil
  history_eq key hkey := history_execute h hkey

end

end Books

/-- An execution succeeds exactly if the books allow it. A failure leaves all keys, names and
balances as they were, and is entered for the signer if there is an account; a success
changes the balances that the body names by its amount, those of a transfer to oneself not at
all, and no others. -/
theorem execution_exact (books : Books) (hash : Digest) (body : Body) :
    ((books.execute hash body).2 = true ↔ books.Allows body) ∧
      ((books.execute hash body).2 = false →
        books.OnlyEntered body.owner ⟨hash, false⟩ (books.execute hash body).1) ∧
      ((books.execute hash body).2 = true →
        books.Settled ⟨hash, true⟩ body (books.execute hash body).1) :=
  ⟨books.execute_succeeds_iff hash body, Books.onlyEntered_execute, Books.settled_execute⟩

open Query (numberedKey)

/-- One can transfer all one has to oneself, but not be credited beyond 64 bits. -/
theorem execution_exact_openedOnce :
    (openedOnce.execute (.zero 32) (.transfer ⟨0, numberedKey 7, numberedKey 7, 30⟩)).2 = true ∧
      openedOnce.Settled ⟨.zero 32, true⟩ (.transfer ⟨0, numberedKey 7, numberedKey 7, 30⟩)
        (openedOnce.execute (.zero 32) (.transfer ⟨0, numberedKey 7, numberedKey 7, 30⟩)).1 ∧
      (openedOnce.execute (.zero 32) (.issue ⟨numberedKey 7, -1, 0⟩)).2 = false ∧
      openedOnce.OnlyEntered (numberedKey 7) ⟨.zero 32, false⟩
        (openedOnce.execute (.zero 32) (.issue ⟨numberedKey 7, -1, 0⟩)).1 := by
  obtain ⟨account, haccount, hbalance⟩ : ∃ account,
      openedOnce.accounts[(numberedKey 7).bytes]? = some account ∧ account.balance = 30 := by
    rw [openedOnce, Books.getElem?_append, if_pos rfl, Books.getElem?_openAccount, if_pos rfl]
    exact ⟨_, rfl, rfl⟩
  obtain ⟨hreturns, -, hsettled⟩ := execution_exact openedOnce (.zero 32)
    (.transfer ⟨0, numberedKey 7, numberedKey 7, 30⟩)
  obtain ⟨hissues, hentered, -⟩ := execution_exact openedOnce (.zero 32)
    (.issue ⟨numberedKey 7, -1, 0⟩)
  have hreturned : openedOnce.Allows (.transfer ⟨0, numberedKey 7, numberedKey 7, 30⟩) := by
    refine ⟨account, account, haccount, haccount, ?_, Or.inl rfl⟩
    rw [hbalance]
  have hrefused : ¬ openedOnce.Allows (.issue ⟨numberedKey 7, -1, 0⟩) := by
    rintro ⟨account', haccount', hroom⟩
    obtain rfl := Option.some.inj (haccount.symm.trans haccount')
    rw [hbalance] at hroom
    exact absurd hroom (by decide)
  have hok := hreturns.mpr hreturned
  have hfailed := Bool.eq_false_iff.mpr fun hok => hrefused (hissues.mp hok)
  exact ⟨hok, hsettled hok, hfailed, hentered hfailed⟩

end Ledger

end LightClient

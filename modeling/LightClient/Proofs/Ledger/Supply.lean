import LightClient.Proofs.Ledger.Run
import Mathlib.Algebra.BigOperators.Group.List.Basic
import Mathlib.Algebra.GroupWithZero.Nat

/-! The money in the books. An execution changes the balance of one account, or of
two in opposite ways, so the total moves by what the execution mints, and over a run
by what all its executions mint. -/

namespace LightClient.Ledger

/-! ## The total -/

/-- All balances together. -/
def total (accounts : Accounts) : Nat :=
  (accounts.toList.map fun entry => entry.2.balance.toNat).sum

/-- The balance under a key, nothing without an account. -/
def balanceAt (accounts : Accounts) (key : FixedBytes 32) : Nat :=
  (accounts[key]?.map fun account => account.balance.toNat).getD 0

theorem total_empty : total ∅ = 0 := rfl

theorem nodup_toList (accounts : Accounts) : accounts.toList.Nodup := by
  refine accounts.distinct_keys_toList.imp ?_
  rintro a b hne rfl
  exact hne Std.ReflCmp.compare_self

theorem getElem?_erase (accounts : Accounts) (key other : FixedBytes 32) :
    (accounts.erase key)[other]? = if key = other then none else accounts[other]? := by
  simp only [Std.ExtTreeMap.getElem?_erase, Std.LawfulEqCmp.compare_eq_iff_eq]

theorem erase_of_getElem?_eq_none {accounts : Accounts} {key : FixedBytes 32}
    (h : accounts[key]? = none) : accounts.erase key = accounts := by
  apply Std.ExtTreeMap.ext_getElem?
  intro other
  rw [getElem?_erase]
  split
  · rename_i heq
    rw [← heq, h]
  · rfl

/-- An account and those under other keys are all the accounts. -/
theorem toList_perm_erase {accounts : Accounts} {key : FixedBytes 32} {account : Account}
    (h : accounts[key]? = some account) :
    accounts.toList.Perm ((key, account) :: (accounts.erase key).toList) := by
  have hout : (key, account) ∉ (accounts.erase key).toList := by
    rw [Std.ExtTreeMap.mem_toList_iff_getElem?_eq_some, getElem?_erase, if_pos rfl]
    exact nofun
  refine (List.perm_ext_iff_of_nodup (nodup_toList _)
    (List.nodup_cons.mpr ⟨hout, nodup_toList _⟩)).mpr ?_
  rintro ⟨other, found⟩
  rw [List.mem_cons, Std.ExtTreeMap.mem_toList_iff_getElem?_eq_some,
    Std.ExtTreeMap.mem_toList_iff_getElem?_eq_some, getElem?_erase]
  by_cases heq : key = other
  · subst heq
    simp [h, eq_comm]
  · simp [heq, Ne.symm heq]

theorem total_eq_add_erase (accounts : Accounts) (key : FixedBytes 32) :
    total accounts = balanceAt accounts key + total (accounts.erase key) := by
  unfold balanceAt
  cases h : accounts[key]? with
  | none =>
    rw [erase_of_getElem?_eq_none h]
    simp
  | some account =>
    unfold total
    rw [((toList_perm_erase h).map _).sum_eq]
    simp

/-- The total moves as the only balance that changes. -/
theorem total_of_change {before after : Accounts} {key : FixedBytes 32}
    (h : ∀ other, key ≠ other → after[other]? = before[other]?) :
    total after + balanceAt before key = total before + balanceAt after key := by
  have herase : after.erase key = before.erase key := by
    apply Std.ExtTreeMap.ext_getElem?
    intro other
    rw [getElem?_erase, getElem?_erase]
    split
    · rfl
    · rename_i hne
      exact h other hne
  rw [total_eq_add_erase before key, total_eq_add_erase after key, herase]
  omega

theorem balanceAt_of_getElem? {accounts : Accounts} {key : FixedBytes 32} {account : Account}
    (h : accounts[key]? = some account) : balanceAt accounts key = account.balance.toNat := by
  rw [balanceAt, h]
  rfl

theorem balanceAt_of_not_mem {accounts : Accounts} {key : FixedBytes 32} (h : key ∉ accounts) :
    balanceAt accounts key = 0 := by
  rw [balanceAt, Std.ExtTreeMap.getElem?_eq_none h]
  rfl

theorem balanceAt_lt (accounts : Accounts) (key : FixedBytes 32) :
    balanceAt accounts key < UInt64.size := by
  unfold balanceAt
  cases accounts[key]? with
  | none => decide
  | some account => exact account.balance.toNat_lt

/-! ## Single changes -/

namespace Books

section
variable {books : Books}

theorem balanceAt_append (owner : PublicKey) (entry : HistoryEntry) (key : FixedBytes 32) :
    balanceAt (books.append owner entry).accounts key = balanceAt books.accounts key := by
  unfold balanceAt
  rw [getElem?_append]
  split
  · rw [Option.map_map]
    rfl
  · rfl

/-- A history entry moves no money. -/
theorem total_append (owner : PublicKey) (entry : HistoryEntry) :
    total (books.append owner entry).accounts = total books.accounts := by
  have hframe : ∀ other, owner.bytes ≠ other →
      (books.append owner entry).accounts[other]? = books.accounts[other]? := by
    intro other hne
    rw [getElem?_append, if_neg hne]
  have hchange := total_of_change hframe
  rw [balanceAt_append] at hchange
  omega

theorem balanceAt_openAccount (tx : CreateAccount) (key : FixedBytes 32) :
    balanceAt (books.openAccount tx).accounts key =
      if tx.owner.bytes = key then tx.initialBalance.toNat else balanceAt books.accounts key := by
  unfold balanceAt
  rw [getElem?_openAccount]
  split
  · rfl
  · rfl

theorem total_openAccount {tx : CreateAccount} (hnew : tx.owner.bytes ∉ books.accounts) :
    total (books.openAccount tx).accounts = total books.accounts + tx.initialBalance.toNat := by
  have hframe : ∀ other, tx.owner.bytes ≠ other →
      (books.openAccount tx).accounts[other]? = books.accounts[other]? := by
    intro other hne
    rw [getElem?_openAccount, if_neg hne]
  have hchange := total_of_change hframe
  rw [balanceAt_of_not_mem hnew, balanceAt_openAccount, if_pos rfl] at hchange
  omega

theorem balanceAt_changeBalance {owner : PublicKey} {change : UInt64 → UInt64} {account : Account}
    (h : books.accounts[owner.bytes]? = some account) (key : FixedBytes 32) :
    balanceAt (books.changeBalance owner change).accounts key =
      if owner.bytes = key then (change account.balance).toNat
      else balanceAt books.accounts key := by
  unfold balanceAt
  rw [getElem?_changeBalance]
  split
  · rename_i howner
    subst howner
    rw [h]
    rfl
  · rfl

theorem total_changeBalance {owner : PublicKey} {account : Account}
    (h : books.accounts[owner.bytes]? = some account) (change : UInt64 → UInt64) :
    total (books.changeBalance owner change).accounts + account.balance.toNat =
      total books.accounts + (change account.balance).toNat := by
  have hframe : ∀ other, owner.bytes ≠ other →
      (books.changeBalance owner change).accounts[other]? = books.accounts[other]? := by
    intro other hne
    rw [getElem?_changeBalance, if_neg hne]
  have hchange := total_of_change hframe
  rwa [balanceAt_changeBalance h, if_pos rfl, balanceAt_of_getElem? h] at hchange

end

end Books

/-! ## The law of an execution -/

/-- What a body adds to the total when it succeeds. -/
def minted : Body → Nat
  | .createAccount tx => tx.initialBalance.toNat
  | .transfer _ => 0
  | .issue tx => tx.amount.toNat

/-- What a body takes from the balance under a key when it succeeds. -/
def debited (key : FixedBytes 32) : Body → Nat
  | .transfer tx => if tx.sender.bytes = key then tx.amount.toNat else 0
  | _ => 0

/-- What a body adds to the balance under a key when it succeeds. -/
def credited (key : FixedBytes 32) : Body → Nat
  | .createAccount tx => if tx.owner.bytes = key then tx.initialBalance.toNat else 0
  | .transfer tx => if tx.recipient.bytes = key then tx.amount.toNat else 0
  | .issue tx => if tx.owner.bytes = key then tx.amount.toNat else 0

/-- The balances of an execution are those of unbounded numbers: a success changes each
by what is credited and debited, which never goes below zero nor beyond 64 bits, and a
failure changes none. -/
structure Conserves (before : Accounts) (body : Body) (after : Accounts) (succeeded : Bool) :
    Prop where
  total_eq : total after = total before + if succeeded then minted body else 0
  unchanged : succeeded = false → ∀ key, balanceAt after key = balanceAt before key
  balance_eq : succeeded = true → ∀ key,
    balanceAt after key + debited key body = balanceAt before key + credited key body
  covered : succeeded = true → ∀ key, debited key body ≤ balanceAt before key
  /-- A transfer to oneself is debited first. -/
  bounded : succeeded = true → ∀ key, debited key body = 0 →
    balanceAt before key + credited key body < UInt64.size

section
variable {books : Books} {body : Body}

/-- A history entry moves no money. -/
theorem Conserves.append {before : Accounts} {succeeded : Bool}
    (h : Conserves before body books.accounts succeeded) (owner : PublicKey)
    (entry : HistoryEntry) :
    Conserves before body (books.append owner entry).accounts succeeded where
  total_eq := by
    rw [Books.total_append]
    exact h.total_eq
  unchanged hfailed key := by
    rw [Books.balanceAt_append]
    exact h.unchanged hfailed key
  balance_eq hok key := by
    rw [Books.balanceAt_append]
    exact h.balance_eq hok key
  covered := h.covered
  bounded := h.bounded

theorem conserves_failure (accounts : Accounts) (body : Body) :
    Conserves accounts body accounts false where
  total_eq := rfl
  unchanged _ _ := rfl
  balance_eq := nofun
  covered := nofun
  bounded := nofun

theorem conserves_openAccount {tx : CreateAccount} (hnew : tx.owner.bytes ∉ books.accounts) :
    Conserves books.accounts (.createAccount tx) (books.openAccount tx).accounts true where
  total_eq := Books.total_openAccount hnew
  unchanged := nofun
  balance_eq _ key := by
    rw [Books.balanceAt_openAccount]
    simp only [credited, debited]
    split
    · rename_i howner
      rw [← howner, balanceAt_of_not_mem hnew]
      omega
    · rfl
  covered _ _ := Nat.zero_le _
  bounded _ key _ := by
    have hbalance := balanceAt_lt books.accounts key
    have hinitial : tx.initialBalance.toNat < UInt64.size := tx.initialBalance.toNat_lt
    simp only [credited]
    split
    · rename_i howner
      rw [← howner, balanceAt_of_not_mem hnew]
      omega
    · exact hbalance

/-- A transfer to oneself gives back what it takes. -/
theorem conserves_return {tx : Transfer} {sender : Account}
    (hsender : books.accounts[tx.sender.bytes]? = some sender) (hself : tx.sender = tx.recipient)
    (henough : tx.amount ≤ sender.balance) :
    Conserves books.accounts (.transfer tx) books.accounts true where
  total_eq := rfl
  unchanged := nofun
  balance_eq _ key := by
    simp only [credited, debited, hself]
  covered _ key := by
    simp only [debited]
    split
    · rename_i hkey
      rw [← hkey, balanceAt_of_getElem? hsender]
      exact henough
    · exact Nat.zero_le _
  bounded _ key hdebited := by
    have hnone : credited key (.transfer tx) = 0 := by
      simpa only [credited, debited, hself] using hdebited
    rw [hnone]
    exact balanceAt_lt _ _

theorem toNat_add_of_fits {balance amount : UInt64} (h : Books.fits balance amount = true) :
    (balance + amount).toNat = balance.toNat + amount.toNat := by
  rw [UInt64.toNat_add]
  exact Nat.mod_eq_of_lt (Books.fits_iff.mp h)

theorem conserves_issue {tx : Issue} {account : Account}
    (howner : books.accounts[tx.owner.bytes]? = some account)
    (hfits : Books.fits account.balance tx.amount = true) :
    Conserves books.accounts (.issue tx)
      (books.changeBalance tx.owner (· + tx.amount)).accounts true where
  total_eq := by
    have htotal := Books.total_changeBalance howner (· + tx.amount)
    rw [toNat_add_of_fits hfits] at htotal
    simp only [if_true, minted]
    omega
  unchanged := nofun
  balance_eq _ key := by
    rw [Books.balanceAt_changeBalance howner]
    simp only [credited, debited]
    split
    · rename_i hkey
      rw [← hkey, balanceAt_of_getElem? howner, toNat_add_of_fits hfits]
      rfl
    · rfl
  covered _ _ := Nat.zero_le _
  bounded _ key _ := by
    simp only [credited]
    split
    · rename_i hkey
      rw [← hkey, balanceAt_of_getElem? howner]
      exact Books.fits_iff.mp hfits
    · exact balanceAt_lt _ _

theorem conserves_move {tx : Transfer} {sender recipient : Account}
    (hsender : books.accounts[tx.sender.bytes]? = some sender)
    (hrecipient : books.accounts[tx.recipient.bytes]? = some recipient)
    (hother : tx.sender ≠ tx.recipient) (henough : tx.amount ≤ sender.balance)
    (hfits : Books.fits recipient.balance tx.amount = true) :
    Conserves books.accounts (.transfer tx) (books.move tx).accounts true := by
  have hne : tx.sender.bytes ≠ tx.recipient.bytes := PublicKey.bytes_ne hother
  have hsub : (sender.balance - tx.amount).toNat = sender.balance.toNat - tx.amount.toNat :=
    UInt64.toNat_sub_of_le _ _ henough
  have hle : tx.amount.toNat ≤ sender.balance.toNat := henough
  -- the recipient is still there after the sender has paid
  have hmiddle : (books.changeBalance tx.sender (· - tx.amount)).accounts[tx.recipient.bytes]? =
      some recipient := by
    rw [Books.getElem?_changeBalance, if_neg hne, hrecipient]
  have htotal := Books.total_changeBalance hsender (· - tx.amount)
  have htotal' := Books.total_changeBalance hmiddle (· + tx.amount)
  rw [toNat_add_of_fits hfits] at htotal'
  rw [hsub] at htotal
  refine ⟨?_, nofun, ?_, ?_, ?_⟩
  · simp only [Books.move, if_true, minted]
    omega
  · intro _ key
    rw [Books.move, Books.balanceAt_changeBalance hmiddle, Books.balanceAt_changeBalance hsender]
    simp only [credited, debited]
    by_cases hfrom : tx.sender.bytes = key
    · subst hfrom
      rw [if_neg hne.symm, if_pos rfl, if_pos rfl, if_neg hne.symm, balanceAt_of_getElem? hsender,
        hsub]
      omega
    · rw [if_neg hfrom, if_neg hfrom]
      split
      · rename_i hto
        rw [← hto, balanceAt_of_getElem? hrecipient, toNat_add_of_fits hfits]
        rfl
      · rfl
  · intro _ key
    simp only [debited]
    split
    · rename_i hfrom
      rw [← hfrom, balanceAt_of_getElem? hsender]
      exact hle
    · exact Nat.zero_le _
  · intro _ key _
    simp only [credited]
    split
    · rename_i hto
      rw [← hto, balanceAt_of_getElem? hrecipient]
      exact Books.fits_iff.mp hfits
    · exact balanceAt_lt _ _

/-- Whatever the books and the transaction, an execution obeys the law. -/
theorem conserves_execute (books : Books) (hash : Digest) (body : Body) :
    Conserves books.accounts body (books.execute hash body).1.accounts
      (books.execute hash body).2 := by
  have hcases := books.executes hash body
  generalize books.execute hash body = result at hcases
  cases hcases with
  | ignored => exact conserves_failure _ _
  | failed => exact (conserves_failure _ _).append _ _
  | created hnew => exact (conserves_openAccount hnew).append _ _
  | returned hsender hself henough => exact (conserves_return hsender hself henough).append _ _
  | moved hsender hrecipient hother henough hfits =>
    exact ((conserves_move hsender hrecipient hother henough hfits).append _ _).append _ _
  | issued howner hfits => exact (conserves_issue howner hfits).append _ _

end

/-! ## Runs -/

/-- What an execution added to the total. -/
def Execution.minted (e : Execution) : Nat := if e.succeeded then Ledger.minted e.pooled.body else 0

theorem total_executeAll (books : Books) (pool : List Pooled) :
    total (books.executeAll pool).1.accounts =
      total books.accounts + ((books.executeAll pool).2.map Execution.minted).sum := by
  induction pool generalizing books with
  | nil => rfl
  | cons p rest ih =>
    have hfirst := (conserves_execute books p.hash p.body).total_eq
    simp only [Books.executeAll, List.map_cons, List.sum_cons, ih, hfirst, Execution.minted]
    omega

/-- At any time of a run all balances together are what its executions have minted: the
initial balances of the accounts that were created and the amounts that were issued. The
executions are those that the blocks list, and they make the books out of empty ones; each
of them obeys the law, whatever the books. -/
theorem total_run {S : SignatureScheme} (ledger : Ledger S) (faults : Faults)
    (ops : List Operation) :
    total (ledger.run faults ops).books.accounts =
        ((ledger.log faults ops).flatten.map Execution.minted).sum ∧
      List.Forall₂ Lists (ledger.run faults ops).blocks.tail (ledger.log faults ops) ∧
      Books.empty.executeAll (executedOf (ledger.log faults ops)) =
        ((ledger.run faults ops).books, (ledger.log faults ops).flatten) ∧
      ∀ (books : Books) (hash : Digest) (body : Body),
        Conserves books.accounts body (books.execute hash body).1.accounts
          (books.execute hash body).2 := by
  have hlog := executeAll_log ledger faults ops
  refine ⟨?_, lists_log ledger faults ops, hlog, conserves_execute⟩
  have htotal := total_executeAll Books.empty (executedOf (ledger.log faults ops))
  have hempty : total Books.empty.accounts = 0 := total_empty
  rwa [hlog, hempty, Nat.zero_add] at htotal

end LightClient.Ledger

import LightClient.Proofs.Ledger.Answer

/-! What an execution depends on. It reads and changes nothing but the pages of the accounts
that the body names, so executions that name different accounts can be made in either order:
each finds its pages as they were, and leaves those of the other alone. -/

namespace LightClient

/-- The keys of the accounts that a body names. -/
def Body.touched : Body → List (FixedBytes 32)
  | .createAccount tx => [tx.owner.bytes]
  | .transfer tx => [tx.sender.bytes, tx.recipient.bytes]
  | .issue tx => [tx.owner.bytes]

theorem Body.owner_mem_touched (body : Body) : body.owner.bytes ∈ body.touched := by
  cases body with
  | createAccount tx => exact List.mem_cons_self
  | transfer tx => exact List.mem_cons_self
  | issue tx => exact List.mem_cons_self

/-- Two bodies that name no account in common. -/
def Body.Independent (body body' : Body) : Prop := ∀ key ∈ body.touched, key ∉ body'.touched

instance (body body' : Body) : Decidable (body.Independent body') :=
  inferInstanceAs (Decidable (∀ key ∈ body.touched, key ∉ body'.touched))

theorem Body.Independent.symm {body body' : Body} (h : body.Independent body') :
    body'.Independent body := fun key hkey' hkey => h key hkey hkey'

namespace Ledger

namespace Books

/-! ## Pages -/

/-- What the books hold under a key. -/
structure Page where
  account : Option Account
  history : Option (List HistoryEntry)

namespace Page

def openAccount (page : Page) (tx : CreateAccount) : Page :=
  { page with account := some ⟨tx.owner, "", tx.initialBalance, 0, historyRoot []⟩ }

def changeBalance (page : Page) (change : UInt64 → UInt64) : Page :=
  { page with account := page.account.map fun a => { a with balance := change a.balance } }

def append (page : Page) (entry : HistoryEntry) : Page :=
  let history := page.history.getD [] ++ [entry]
  { account := page.account.map fun a =>
      { a with
        historyLength := UInt64.ofNat history.length
        historyHash := historyRoot history }
    history := some history }

end Page

def page (books : Books) (key : FixedBytes 32) : Page :=
  ⟨books.accounts[key]?, books.histories[key]?⟩

/-- The books are their pages. -/
theorem ext_page {books books' : Books} (h : ∀ key, books.page key = books'.page key) :
    books = books' := by
  obtain ⟨accounts, histories⟩ := books
  obtain ⟨accounts', histories'⟩ := books'
  rw [Books.mk.injEq]
  exact ⟨Std.ExtTreeMap.ext_getElem? fun key => congrArg Page.account (h key),
    Std.ExtTreeMap.ext_getElem? fun key => congrArg Page.history (h key)⟩

section
variable (books : Books)

theorem page_openAccount (tx : CreateAccount) (key : FixedBytes 32) :
    (books.openAccount tx).page key =
      if tx.owner.bytes = key then (books.page key).openAccount tx else books.page key := by
  rw [page, getElem?_openAccount]
  split
  · rfl
  · rfl

theorem page_changeBalance (owner : PublicKey) (change : UInt64 → UInt64) (key : FixedBytes 32) :
    (books.changeBalance owner change).page key =
      if owner.bytes = key then (books.page key).changeBalance change else books.page key := by
  rw [page, getElem?_changeBalance]
  split
  · rfl
  · rfl

theorem page_append (owner : PublicKey) (entry : HistoryEntry) (key : FixedBytes 32) :
    (books.append owner entry).page key =
      if owner.bytes = key then (books.page key).append entry else books.page key := by
  rw [page, getElem?_append, getElem?_histories_append]
  split
  · rw [history, Std.ExtTreeMap.getD_eq_getD_getElem?]
    rfl
  · rfl

end

/-! ## Books that agree -/

/-- The books hold the same under these keys. -/
def Agree (keys : List (FixedBytes 32)) (books books' : Books) : Prop :=
  ∀ key ∈ keys, books.page key = books'.page key

namespace Agree

variable {keys : List (FixedBytes 32)} {books books' : Books}

theorem getElem?_eq (h : Agree keys books books') {key : FixedBytes 32} (hkey : key ∈ keys) :
    books.accounts[key]? = books'.accounts[key]? :=
  congrArg Page.account (h key hkey)

theorem mem_iff (h : Agree keys books books') {key : FixedBytes 32} (hkey : key ∈ keys) :
    key ∈ books.accounts ↔ key ∈ books'.accounts := by
  rw [← Std.ExtTreeMap.isSome_getElem?_iff_mem, h.getElem?_eq hkey,
    Std.ExtTreeMap.isSome_getElem?_iff_mem]

theorem openAccount (h : Agree keys books books') (tx : CreateAccount) :
    Agree keys (books.openAccount tx) (books'.openAccount tx) := by
  intro key hkey
  rw [page_openAccount, page_openAccount, h key hkey]

theorem changeBalance (h : Agree keys books books') (owner : PublicKey)
    (change : UInt64 → UInt64) :
    Agree keys (books.changeBalance owner change) (books'.changeBalance owner change) := by
  intro key hkey
  rw [page_changeBalance, page_changeBalance, h key hkey]

theorem append (h : Agree keys books books') (owner : PublicKey) (entry : HistoryEntry) :
    Agree keys (books.append owner entry) (books'.append owner entry) := by
  intro key hkey
  rw [page_append, page_append, h key hkey]

end Agree

/-- **Locality.** On books that agree on the accounts that a body names its execution has the
same outcome, and they agree on these accounts afterwards. -/
theorem Agree.execute {books books' : Books} {body : Body} (h : Agree body.touched books books')
    (hash : Digest) :
    (books.execute hash body).2 = (books'.execute hash body).2 ∧
      Agree body.touched (books.execute hash body).1 (books'.execute hash body).1 := by
  cases body with
  | createAccount tx =>
    have howner := h.mem_iff (Body.owner_mem_touched (.createAccount tx))
    simp only [Body.owner] at howner
    simp only [Books.execute, createAccount, howner]
    split
    · exact ⟨rfl, h.append _ _⟩
    · exact ⟨rfl, (h.openAccount tx).append _ _⟩
  | transfer tx =>
    have hfrom : tx.sender.bytes ∈ (Body.transfer tx).touched := List.mem_cons_self
    have hto : tx.recipient.bytes ∈ (Body.transfer tx).touched :=
      List.mem_cons_of_mem _ List.mem_cons_self
    have hsender := h.getElem?_eq hfrom
    have hrecipient := h.getElem?_eq hto
    have hreceive : books.canReceive tx = books'.canReceive tx := by
      simp only [canReceive, hrecipient]
    simp only [Books.execute, transfer, hsender, hreceive]
    split
    · exact ⟨rfl, h⟩
    · split
      · split
        · exact ⟨rfl, h.append _ _⟩
        · have hmoved := (h.changeBalance tx.sender (· - tx.amount)).changeBalance tx.recipient
            (· + tx.amount)
          exact ⟨rfl, (hmoved.append _ _).append _ _⟩
      · exact ⟨rfl, h.append _ _⟩
  | issue tx =>
    have howner := h.getElem?_eq (Body.owner_mem_touched (.issue tx))
    simp only [Body.owner] at howner
    simp only [Books.execute, issue, howner]
    split
    · exact ⟨rfl, h⟩
    · split
      · exact ⟨rfl, (h.changeBalance _ _).append _ _⟩
      · exact ⟨rfl, h.append _ _⟩

/-- **Frame.** An execution leaves alone what is held under other keys. -/
theorem page_execute {body : Body} {key : FixedBytes 32} (hkey : key ∉ body.touched)
    (books : Books) (hash : Digest) :
    (books.execute hash body).1.page key = books.page key := by
  have howner : body.owner.bytes ≠ key := fun heq => hkey (heq ▸ body.owner_mem_touched)
  have hcases := executes books hash body
  generalize books.execute hash body = result at hcases
  cases hcases with
  | ignored => rfl
  | failed => rw [page_append, if_neg howner]
  | @created tx =>
    have hother : tx.owner.bytes ≠ key := howner
    rw [page_append, if_neg hother, page_openAccount, if_neg hother]
  | @returned tx =>
    have hother : tx.sender.bytes ≠ key := howner
    rw [page_append, if_neg hother]
  | @moved tx =>
    have hsender : tx.sender.bytes ≠ key := howner
    have hrecipient : tx.recipient.bytes ≠ key := by
      rintro rfl
      exact hkey (by simp [Body.touched])
    rw [page_append, if_neg hrecipient, page_append, if_neg hsender, move, page_changeBalance,
      if_neg hrecipient, page_changeBalance, if_neg hsender]
  | @issued tx =>
    have hother : tx.owner.bytes ≠ key := howner
    rw [page_append, if_neg hother, page_changeBalance, if_neg hother]

theorem agree_execute {body body' : Body} (h : body.Independent body') (books : Books)
    (hash : Digest) : Agree body'.touched (books.execute hash body).1 books :=
  fun key hkey => page_execute (fun hmem => h key hmem hkey) books hash

/-! ## Either order -/

/-- Two executions have the same outcomes and lead to the same books in either order. -/
structure Commute (books : Books) (hash : Digest) (body : Body) (hash' : Digest) (body' : Body) :
    Prop where
  first_eq : ((books.execute hash' body').1.execute hash body).2 = (books.execute hash body).2
  second_eq : ((books.execute hash body).1.execute hash' body').2 = (books.execute hash' body').2
  accounts_eq : ((books.execute hash body).1.execute hash' body').1.accounts =
    ((books.execute hash' body').1.execute hash body).1.accounts
  histories_eq : ((books.execute hash body).1.execute hash' body').1.histories =
    ((books.execute hash' body').1.execute hash body).1.histories

theorem execute_execute {body body' : Body} (h : body.Independent body') (books : Books)
    (hash hash' : Digest) :
    ((books.execute hash body).1.execute hash' body').1 =
      ((books.execute hash' body').1.execute hash body).1 := by
  have hfirst := ((agree_execute h.symm books hash').execute hash).2
  have hsecond := ((agree_execute h books hash).execute hash').2
  apply ext_page
  intro key
  by_cases hkey : key ∈ body.touched
  · rw [hfirst key hkey, page_execute (h key hkey)]
  · rw [page_execute hkey]
    by_cases hkey' : key ∈ body'.touched
    · exact hsecond key hkey'
    · rw [page_execute hkey', page_execute hkey, page_execute hkey']

theorem commute_of_independent {body body' : Body} (h : body.Independent body') (books : Books)
    (hash hash' : Digest) : Commute books hash body hash' body' where
  first_eq := ((agree_execute h.symm books hash').execute hash).1
  second_eq := ((agree_execute h books hash).execute hash').1
  accounts_eq := congrArg Books.accounts (execute_execute h books hash hash')
  histories_eq := congrArg Books.histories (execute_execute h books hash hash')

/-- A pool of which no two transactions name an account in common leads to the same books in
any order, and each transaction has the same outcome. -/
theorem executeAll_perm {pool pool' : List Pooled} (hperm : pool.Perm pool')
    (h : pool.Pairwise fun p q => p.body.Independent q.body) (books : Books) :
    (books.executeAll pool).1 = (books.executeAll pool').1 ∧
      (books.executeAll pool).2.Perm (books.executeAll pool').2 := by
  induction hperm generalizing books with
  | nil => exact ⟨rfl, .refl _⟩
  | cons p _ ih =>
    obtain ⟨hbooks, houtcomes⟩ := ih (List.pairwise_cons.mp h).2 (books.execute p.hash p.body).1
    exact ⟨hbooks, houtcomes.cons _⟩
  | swap p q rest =>
    have hpair : q.body.Independent p.body := (List.pairwise_cons.mp h).1 p List.mem_cons_self
    have hcommute := commute_of_independent hpair books q.hash p.hash
    have hbooks := execute_execute hpair books q.hash p.hash
    simp only [executeAll, hcommute.first_eq, hcommute.second_eq, hbooks]
    exact ⟨trivial, .swap _ _ _⟩
  | trans hperm _ ih ih' =>
    have h' := (hperm.pairwise_iff fun hpair => hpair.symm).mp h
    exact ⟨(ih h books).1.trans (ih' h' books).1, (ih h books).2.trans (ih' h' books).2⟩

end Books

/-- Transactions that name no account in common can be executed in either order: whatever the
books, both have the outcomes they have alone or first, and the accounts and histories are the
same in the end. At any time of a run so is the root of the state, and there is one. The same
holds of the order of a whole pool. -/
theorem independent_executions_commute {S : SignatureScheme} (ledger : Ledger S) (faults : Faults)
    (ops : List Operation) {body body' : Body} (h : body.Independent body')
    (hash hash' : Digest) :
    (∀ books : Books, books.Commute hash body hash' body') ∧
    (∃ root,
      ledger.stateHash
        (((ledger.run faults ops).books.execute hash body).1.execute hash' body').1.accounts =
          .ok root ∧
      ledger.stateHash
        (((ledger.run faults ops).books.execute hash' body').1.execute hash body).1.accounts =
          .ok root) ∧
    ∀ (books : Books) (pool pool' : List Pooled), pool.Perm pool' →
      (pool.Pairwise fun p q => p.body.Independent q.body) →
      (books.executeAll pool).1 = (books.executeAll pool').1 ∧
        (books.executeAll pool).2.Perm (books.executeAll pool').2 := by
  refine ⟨fun books => Books.commute_of_independent h books hash hash', ?_,
    fun books _ _ hperm hpool => Books.executeAll_perm hperm hpool books⟩
  have hkept := (ledger.sound_run faults ops).kept
  obtain ⟨root, hroot⟩ := ((hkept.execute hash body).execute hash' body').exists_stateHash ledger
  refine ⟨root, hroot, ?_⟩
  rw [← Books.execute_execute h]
  exact hroot

open Query (numberedKey)

/-- An issue for the account that was opened, and the opening of another. -/
def otherTwo : List Pooled :=
  [⟨.zero 32, opened, .issue ⟨numberedKey 7, 5, 0⟩⟩,
    ⟨sha256 openedBytes, opened, .createAccount ⟨numberedKey 8, 40⟩⟩]

theorem independent_executions_commute_otherTwo :
    (Body.issue ⟨numberedKey 7, 5, 0⟩).Independent (.createAccount ⟨numberedKey 8, 40⟩) ∧
      (stampLedger.run .off openedTwice).books.Commute (.zero 32) (.issue ⟨numberedKey 7, 5, 0⟩)
        (sha256 openedBytes) (.createAccount ⟨numberedKey 8, 40⟩) ∧
      otherTwo.Perm otherTwo.reverse ∧
      (otherTwo.Pairwise fun p q => p.body.Independent q.body) ∧
      ((stampLedger.run .off openedTwice).books.executeAll otherTwo).1 =
        ((stampLedger.run .off openedTwice).books.executeAll otherTwo.reverse).1 := by
  have hpair : (Body.issue ⟨numberedKey 7, 5, 0⟩).Independent
      (.createAccount ⟨numberedKey 8, 40⟩) := by decide
  have hperm : otherTwo.Perm otherTwo.reverse := (List.reverse_perm _).symm
  have hpool : otherTwo.Pairwise fun p q => p.body.Independent q.body := by
    simpa [otherTwo] using hpair
  obtain ⟨hcommute, -, hany⟩ := independent_executions_commute stampLedger .off openedTwice hpair
    (.zero 32) (sha256 openedBytes)
  exact ⟨hpair, hcommute _, hperm, hpool, (hany _ _ _ hperm hpool).1⟩

end Ledger

end LightClient

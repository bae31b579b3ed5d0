import LightClient.Proofs.Ledger.Books
import LightClient.Proofs.Ledger.Step
import LightClient.Proofs.Ledger.Table
import Mathlib.Data.List.Forall2

/-! Runs of a ledger. Every state of a run is sound: its accounts, histories and bytes
belong together and the latest block is signed for them. So no commit of a run fails,
and each step is one of `Steps`. -/

namespace LightClient.Ledger

/-! ## Accounts that can be hashed -/

namespace Books

/-- An account without a name has a stored form. -/
theorem exists_encode {account : Account} (h : account.name = "") :
    ∃ record, account.encode = .ok record := by
  unfold Account.encode
  rw [h]
  exact ⟨_, if_neg (by decide)⟩

theorem Kept.exists_accountTable {books : Books} (h : books.Kept) :
    ∃ table, accountTable books.accounts = .ok table :=
  Ledger.exists_accountTable fun key account haccount =>
    exists_encode (h.records key account haccount).unnamed

theorem Kept.executeAll {books : Books} (h : books.Kept) (pool : List Pooled) :
    (books.executeAll pool).1.Kept :=
  executeAll_keeps (fun _ hash body h => h.execute hash body) h pool

end Books

variable {S : SignatureScheme} (ledger : Ledger S)

theorem stateHash_eq_ok {accounts : Accounts} {root : Digest} :
    ledger.stateHash accounts = .ok root ↔
      ∃ table, accountTable accounts = .ok table ∧ Trie.root (ledger.stateMap table) = root := by
  simp only [stateHash, bind_eq_ok, pure, Except.pure, Except.ok.injEq]

theorem Books.Kept.exists_stateHash {books : Books} (h : books.Kept) :
    ∃ root, ledger.stateHash books.accounts = .ok root := by
  obtain ⟨table, htable⟩ := h.exists_accountTable
  exact ⟨_, (stateHash_eq_ok ledger).mpr ⟨table, htable, rfl⟩⟩

/-! ## Sound states -/

/-- The histories list admitted transactions whose bytes were kept. -/
structure Backed (s : State) : Prop where
  kept : s.books.Kept
  stored : ∀ hash bytes, s.committed[hash]? = some bytes →
    ∃ p, ledger.Admitted p ∧ p.hash = hash ∧ p.transaction.message = bytes
  covered : ∀ key, ∀ entry ∈ s.books.history key, entry.txHash ∈ s.committed

/-- The latest block is signed for the accounts as they are. -/
structure Sound (s : State) : Prop extends Backed ledger s where
  admitted : ∀ p ∈ s.pool, ledger.Admitted p
  hashed : ledger.stateHash s.books.accounts = .ok s.latest.header.stateHash
  signed : s.latest = ledger.signBlock s.latest.header

section
variable {ledger} {s : State}

theorem sound_initial (ledger : Ledger S) (faults : Faults) :
    ledger.Sound (ledger.initial faults) where
  kept := Books.kept_empty
  stored hash bytes h := by simp [initial] at h
  covered key entry h := by simp [initial, Books.history, Books.empty] at h
  admitted := nofun
  hashed := rfl
  signed := rfl

/-- An execution keeps the bytes of what it enters in the histories. -/
theorem Backed.record (h : ledger.Backed s) {p : Pooled} (hp : ledger.Admitted p) :
    ledger.Backed (s.record p) where
  kept := h.kept.execute p.hash p.body
  stored hash bytes hbytes := by
    simp only [State.record, Std.ExtTreeMap.getElem?_insert,
      Std.LawfulEqCmp.compare_eq_iff_eq] at hbytes
    split at hbytes
    · rename_i hhash
      exact ⟨p, hp, hhash, Option.some.inj hbytes⟩
    · exact h.stored hash bytes hbytes
  covered key entry hentry := by
    simp only [State.record, Std.ExtTreeMap.mem_insert, Std.LawfulEqCmp.compare_eq_iff_eq]
    rcases Books.mem_history_execute hentry with hold | hnew
    · exact Or.inr (h.covered key entry hold)
    · exact Or.inl hnew.symm

theorem Backed.foldl_record {pool : List Pooled} (h : ledger.Backed s)
    (hpool : ∀ p ∈ pool, ledger.Admitted p) : ledger.Backed (pool.foldl State.record s) := by
  induction pool generalizing s with
  | nil => exact h
  | cons p rest ih =>
    rw [List.forall_mem_cons] at hpool
    exact ih (h.record hpool.1) hpool.2

theorem Sound.steps (h : ledger.Sound s) (op : Operation) :
    Steps ledger s op (ledger.after s op) :=
  Ledger.steps h.admitted ((h.kept.executeAll s.pool).exists_stateHash ledger) op

theorem Sound.of_sameChain (h : ledger.Sound s) {s' : State} (hsame : SameChain s s')
    (hpool : ∀ p ∈ s'.pool, ledger.Admitted p) : ledger.Sound s' := by
  obtain ⟨hbooks, hcommitted, hlatest, -⟩ := hsame
  obtain ⟨⟨hkept, hstored, hcovered⟩, -, hhashed, hsigned⟩ := h
  rw [← hbooks] at hkept hcovered hhashed
  rw [← hcommitted] at hstored hcovered
  rw [← hlatest] at hhashed hsigned
  exact ⟨⟨hkept, hstored, hcovered⟩, hpool, hhashed, hsigned⟩

/-- The pool holds nothing but what was let in. -/
theorem Steps.admitted {op : Operation} {s' : State} (h : Steps ledger s op s')
    (hpool : ∀ p ∈ s.pool, ledger.Admitted p) : ∀ p ∈ s'.pool, ledger.Admitted p := by
  cases h with
  | unread => exact hpool
  | refused => exact hpool
  | pooled hparsed hbody =>
    intro p hp
    rcases List.mem_append.mp hp with hold | hnew
    · exact hpool p hold
    · rw [List.mem_singleton.mp hnew]
      exact ledger.admitted_of_ofBytes hparsed hbody
  | waited => exact hpool
  | executed => simp [extend]
  | faulted => exact hpool
  | asked => exact hpool

/-- Every operation keeps the state sound. -/
theorem Sound.after (h : ledger.Sound s) (op : Operation) : ledger.Sound (ledger.after s op) := by
  have hstep := h.steps op
  generalize ledger.after s op = s' at hstep
  have hpool := hstep.admitted h.admitted
  rcases hstep.same_or_executed with ⟨-, hsame⟩ | ⟨-, root, hroot, rfl⟩
  · exact h.of_sameChain hsame hpool
  · -- the pool is taken before it is executed, which the books do not see
    have hcleared : ledger.Backed { s with pool := [] } := ⟨h.kept, h.stored, h.covered⟩
    obtain ⟨hkept, hstored, hcovered⟩ : ledger.Backed s.executed := hcleared.foldl_record h.admitted
    rw [← State.executed_books] at hroot
    exact ⟨⟨hkept, hstored, hcovered⟩, hpool, hroot, rfl⟩

theorem Sound.foldl_after (h : ledger.Sound s) (ops : List Operation) :
    ledger.Sound (ops.foldl ledger.after s) := by
  induction ops generalizing s with
  | nil => exact h
  | cons op ops ih => exact ih (h.after op)

end

/-! ## Runs -/

/-- The state after the operations, from the first block on. -/
def run (faults : Faults) (ops : List Operation) : State :=
  ops.foldl ledger.after (ledger.initial faults)

theorem sound_run (faults : Faults) (ops : List Operation) : ledger.Sound (ledger.run faults ops) :=
  (sound_initial ledger faults).foldl_after ops

/-- A run keeps what each operation keeps of sound states. -/
theorem run_keeps {P : State → Prop} {faults : Faults} (hinitial : P (ledger.initial faults))
    (hafter : ∀ s op, ledger.Sound s → P s → P (ledger.after s op)) (ops : List Operation) :
    P (ledger.run faults ops) := by
  have hboth : ∀ s, ledger.Sound s → P s → P (ops.foldl ledger.after s) := by
    induction ops with
    | nil => exact fun _ _ h => h
    | cons op ops ih => exact fun s hsound h => ih _ (hsound.after op) (hafter s op hsound h)
  exact hboth _ (sound_initial ledger faults) hinitial

theorem run_append (faults : Faults) (ops ops' : List Operation) :
    ledger.run faults (ops ++ ops') = ops'.foldl ledger.after (ledger.run faults ops) := by
  rw [run, List.foldl_append, run]

/-- The block that an operation adds, if any, as its executions. -/
def executedBy (s : State) (op : Operation) : List (List Execution) :=
  if ledger.commits s op then [(s.books.executeAll s.pool).2] else []

/-- The executions of a run, block by block. -/
def logFrom (s : State) : List Operation → List (List Execution)
  | [] => []
  | op :: ops => ledger.executedBy s op ++ logFrom (ledger.after s op) ops

def log (faults : Faults) (ops : List Operation) : List (List Execution) :=
  ledger.logFrom (ledger.initial faults) ops

/-- All that was executed, in order. -/
def executedOf (blocks : List (List Execution)) : List Pooled :=
  blocks.flatten.map Execution.pooled

/-- The block commits to the executions. -/
structure Lists (block : BlockProof) (executions : List Execution) : Prop where
  txHash_eq : block.header.txHash = MerkleList.root (executions.map fun e => e.pooled.hash.toList)
  txCount_eq : block.header.txCount = UInt32.ofNat executions.length

section
variable {ledger} {s : State}

theorem executedBy_of_not_commits {op : Operation} (h : ledger.commits s op = false) :
    ledger.executedBy s op = [] := by
  rw [executedBy, h]
  rfl

/-- What an operation executes is what the block that it adds commits to. -/
theorem exists_blocks_after (h : ledger.Sound s) (op : Operation) :
    ∃ added, (ledger.after s op).blocks = s.blocks ++ added ∧
      List.Forall₂ Lists added (ledger.executedBy s op) := by
  have hstep := h.steps op
  generalize ledger.after s op = s' at hstep
  rcases hstep.same_or_executed with ⟨hcommits, hsame⟩ | ⟨hcommits, root, -, rfl⟩
  · refine ⟨[], by rw [hsame.blocks, List.append_nil], ?_⟩
    rw [executedBy_of_not_commits hcommits]
    exact .nil
  · refine ⟨_, by rw [extend, State.executed_blocks], ?_⟩
    rw [executedBy, if_pos hcommits]
    have hpooled := s.books.map_pooled_executeAll s.pool
    generalize (s.books.executeAll s.pool).2 = executions at hpooled ⊢
    refine .cons ⟨?_, ?_⟩ .nil
    · show MerkleList.root ((s.pool.map Pooled.hash).map FixedBytes.toList) = _
      rw [← hpooled, List.map_map, List.map_map]
      rfl
    · show UInt32.ofNat (s.pool.map Pooled.hash).length = _
      rw [← hpooled, List.length_map, List.length_map]

/-- The log of a run lists its blocks. -/
theorem exists_blocks_foldl_after (h : ledger.Sound s) (ops : List Operation) :
    ∃ added, (ops.foldl ledger.after s).blocks = s.blocks ++ added ∧
      List.Forall₂ Lists added (ledger.logFrom s ops) := by
  induction ops generalizing s with
  | nil => exact ⟨[], (List.append_nil _).symm, .nil⟩
  | cons op ops ih =>
    obtain ⟨first, hfirst, hlists⟩ := exists_blocks_after h op
    obtain ⟨rest, hrest, hlists'⟩ := ih (h.after op)
    refine ⟨first ++ rest, ?_, List.rel_append hlists hlists'⟩
    rw [List.foldl_cons, hrest, hfirst, List.append_assoc]

/-- The log of a run has an entry for each block after the first one. -/
theorem lists_log (ledger : Ledger S) (faults : Faults) (ops : List Operation) :
    List.Forall₂ Lists (ledger.run faults ops).blocks.tail (ledger.log faults ops) := by
  obtain ⟨added, hblocks, hlists⟩ := exists_blocks_foldl_after (sound_initial ledger faults) ops
  rw [run, hblocks]
  exact hlists

/-! ## The books of a run -/

theorem executeAll_executedBy (h : ledger.Sound s) (op : Operation) :
    s.books.executeAll (executedOf (ledger.executedBy s op)) =
      ((ledger.after s op).books, (ledger.executedBy s op).flatten) := by
  have hstep := h.steps op
  generalize ledger.after s op = s' at hstep
  rcases hstep.same_or_executed with ⟨hcommits, hsame⟩ | ⟨hcommits, root, -, rfl⟩
  · rw [executedBy_of_not_commits hcommits, hsame.books]
    rfl
  · rw [executedOf, executedBy, if_pos hcommits, List.flatten_singleton,
      Books.map_pooled_executeAll, extend, State.executed_books]

theorem executeAll_logFrom (h : ledger.Sound s) (ops : List Operation) :
    s.books.executeAll (executedOf (ledger.logFrom s ops)) =
      ((ops.foldl ledger.after s).books, (ledger.logFrom s ops).flatten) := by
  induction ops generalizing s with
  | nil => rfl
  | cons op ops ih =>
    rw [logFrom, executedOf, List.flatten_append, List.map_append, Books.executeAll_append]
    have hfirst := executeAll_executedBy h op
    have hrest := ih (h.after op)
    rw [executedOf] at hfirst hrest
    rw [hfirst, hrest]
    rfl

/-- The books of a run are what its executions make of empty books. -/
theorem executeAll_log (ledger : Ledger S) (faults : Faults) (ops : List Operation) :
    Books.empty.executeAll (executedOf (ledger.log faults ops)) =
      ((ledger.run faults ops).books, (ledger.log faults ops).flatten) :=
  executeAll_logFrom (sound_initial ledger faults) ops

end

end LightClient.Ledger

import LightClient.Ledger.Node
import LightClient.Proofs.Request
import LightClient.Proofs.Transaction.Envelope

/-! What a ledger does on each request. `steps` says it once; every invariant of a run
follows from it. The pool holds only transactions that were admitted, so a commit gets
through it, and a block comes of it if the accounts can be hashed. -/

namespace LightClient

/-- The message that a transaction is written as, if it is not too long. -/
def Transaction.message (t : Transaction) : Bytes :=
  t.header.encode ++ t.body ++ t.signature.bytes.toList

theorem Transaction.eq_message_of_toBytes {t : Transaction} {bytes : Bytes}
    (h : t.toBytes = .ok bytes) : bytes = t.message :=
  (toBytes_eq_ok.mp h).2.symm

namespace Ledger

/-! ## Operations -/

/-- What anybody may do with a ledger. -/
inductive Operation
  | submit (bytes : Bytes)
  | status (hash : Digest)
  | commit
  | setFaults (faults : Faults)
  | account (key : PublicKey)
  | block (height : UInt64)
  | validators

/-- The operation only asks. -/
def Operation.isQuery : Operation → Bool
  | .account _ | .block _ | .validators => true
  | _ => false

variable {S : SignatureScheme} (ledger : Ledger S)

/-- The state that an operation leaves behind, whether or not it succeeds. -/
def after (s : State) : Operation → State
  | .submit bytes => (ledger.submit bytes s).2
  | .status hash => (ledger.status hash s).2
  | .commit => (ledger.commit s).2
  | .setFaults faults => { s with faults }
  | .account key => (ledger.account key s).2
  | .block height => (Ledger.block height s).2
  | .validators => (ledger.node.validators s).2

/-- Whether an operation executes the pool. -/
def commits (s : State) : Operation → Bool
  | .commit => true
  | .status _ => !s.pool.isEmpty && !s.faults.stallCommits && ledger.commitAfter ≤ s.polls + 1
  | _ => false

/-- A body is let in when it is read from the transaction and its owner signed that. -/
theorem checkedBody_eq_ok {t : Transaction} {body : Body} :
    ledger.checkedBody t = .ok body ↔
      t.decodeBody ledger.config.schema = .ok body ∧ ∃ signed,
        t.signedBytes = .ok signed ∧ S.verify body.owner signed t.signature = true := by
  simp only [checkedBody, bind_eq_ok, mapError_eq_ok, Transaction.signedByOwner]
  constructor
  · rintro ⟨body', hbody, valid, ⟨signed, hsigned, hverify⟩, h⟩
    obtain rfl := Except.ok.inj hverify
    split at h
    · rename_i hvalid
      cases h
      exact ⟨hbody, signed, hsigned, hvalid⟩
    · cases h
  · rintro ⟨hbody, signed, hsigned, hverify⟩
    exact ⟨body, hbody, true, ⟨signed, hsigned, congrArg _ hverify⟩, rfl⟩

/-- The transaction came in as a message with its hash, and its owner signed it. -/
structure Admitted (p : Pooled) : Prop where
  toBytes_eq : p.transaction.toBytes = .ok p.transaction.message
  hash_eq : p.hash = sha256 p.transaction.message
  body_eq : ledger.checkedBody p.transaction = .ok p.body

theorem admitted_of_ofBytes {bytes : Bytes} {transaction : Transaction} {body : Body}
    (hparsed : Transaction.ofBytes bytes = .ok transaction)
    (hbody : ledger.checkedBody transaction = .ok body) :
    ledger.Admitted ⟨sha256 bytes, transaction, body⟩ := by
  have hbytes := Transaction.toBytes_of_ofBytes hparsed
  obtain rfl := Transaction.eq_message_of_toBytes hbytes
  exact ⟨hbytes, rfl, hbody⟩

/-! ## Executing the pool -/

/-- An executed transaction. -/
structure Execution where
  pooled : Pooled
  /-- What the execution returned. -/
  succeeded : Bool

/-- Executes transactions one after the other. -/
def Books.executeAll (books : Books) : List Pooled → Books × List Execution
  | [] => (books, [])
  | p :: rest =>
    let result := books.execute p.hash p.body
    let others := result.1.executeAll rest
    (others.1, ⟨p, result.2⟩ :: others.2)

theorem Books.map_pooled_executeAll (books : Books) (pool : List Pooled) :
    (books.executeAll pool).2.map Execution.pooled = pool := by
  induction pool generalizing books with
  | nil => rfl
  | cons p rest ih =>
    rw [executeAll, List.map_cons, ih]

theorem Books.executeAll_append (books : Books) (pool pool' : List Pooled) :
    books.executeAll (pool ++ pool') =
      (((books.executeAll pool).1.executeAll pool').1,
        (books.executeAll pool).2 ++ ((books.executeAll pool).1.executeAll pool').2) := by
  induction pool generalizing books with
  | nil => rfl
  | cons p rest ih =>
    rw [List.cons_append, executeAll, executeAll, ih]
    rfl

/-- A list of executions keeps what each of them keeps. -/
theorem Books.executeAll_keeps {P : Books → Prop}
    (hexecute : ∀ books hash body, P books → P (books.execute hash body).1) {books : Books}
    (h : P books) (pool : List Pooled) : P (books.executeAll pool).1 := by
  induction pool generalizing books with
  | nil => exact h
  | cons p rest ih => exact ih (hexecute _ _ _ h)

namespace State

/-- The state after the execution of a transaction. -/
def record (s : State) (p : Pooled) : State :=
  { s with
    books := (s.books.execute p.hash p.body).1
    committed := s.committed.insert p.hash p.transaction.message
    statuses := s.statuses.insert p.hash .committed }

/-- The state after the execution of the pool. -/
def executed (s : State) : State := s.pool.foldl record { s with pool := [] }

/-- The executions touch the books, the bytes and the statuses, and nothing else. -/
theorem foldl_record (pool : List Pooled) (s : State) :
    pool.foldl record s =
      { s with
        books := (s.books.executeAll pool).1
        committed := pool.foldl (fun kept p => kept.insert p.hash p.transaction.message) s.committed
        statuses := pool.foldl (fun kept p => kept.insert p.hash .committed) s.statuses } := by
  induction pool generalizing s with
  | nil => rfl
  | cons p rest ih =>
    rw [List.foldl_cons, ih]
    rfl

@[simp] theorem executed_books (s : State) :
    s.executed.books = (s.books.executeAll s.pool).1 := by
  rw [executed, foldl_record]

@[simp] theorem executed_pool (s : State) : s.executed.pool = [] := by
  rw [executed, foldl_record]

@[simp] theorem executed_blocks (s : State) : s.executed.blocks = s.blocks := by
  rw [executed, foldl_record]

@[simp] theorem executed_latest (s : State) : s.executed.latest = s.latest := by
  rw [executed, foldl_record]

theorem getElem?_foldl_insert {α : Type} (pool : List Pooled) (a : α)
    (kept : Std.ExtTreeMap Digest α) (hash : Digest) :
    (pool.foldl (fun kept p => kept.insert p.hash a) kept)[hash]? =
      if hash ∈ pool.map Pooled.hash then some a else kept[hash]? := by
  induction pool generalizing kept with
  | nil => rfl
  | cons p rest ih =>
    rw [List.foldl_cons, ih, Std.ExtTreeMap.getElem?_insert]
    simp only [Std.LawfulEqCmp.compare_eq_iff_eq, List.map_cons, List.mem_cons]
    by_cases hrest : hash ∈ rest.map Pooled.hash
    · simp [hrest]
    · simp [hrest, eq_comm]

/-- What was executed is committed, and no other status changes. -/
theorem getElem?_executed_statuses (s : State) (hash : Digest) :
    s.executed.statuses[hash]? =
      if hash ∈ s.pool.map Pooled.hash then some .committed else s.statuses[hash]? := by
  rw [executed, foldl_record]
  exact getElem?_foldl_insert _ _ _ _

end State

/-- The state with a block for what was executed. -/
def extend (s : State) (hashes : List Digest) (root : Digest) : State :=
  let block := ledger.signBlock (nextHeader s.latest.header hashes root)
  { s with latest := block, blocks := s.blocks ++ [block], polls := 0 }

section
variable {ledger} {s : State}

theorem executePooled_of_admitted {p : Pooled} (h : ledger.Admitted p) :
    executePooled p s = (.ok p.hash, s.record p) := by
  simp only [executePooled, Request.bind_apply, Request.modify_apply, Request.ofExcept_apply,
    h.toBytes_eq, Request.pure_apply]
  rfl

/-- The executions get through the pool. -/
theorem mapM_executePooled {pool : List Pooled} (h : ∀ p ∈ pool, ledger.Admitted p) :
    pool.mapM executePooled s = (.ok (pool.map Pooled.hash), pool.foldl State.record s) := by
  induction pool generalizing s with
  | nil => rfl
  | cons p rest ih =>
    rw [List.forall_mem_cons] at h
    rw [List.mapM_cons, Request.bind_of_ok (executePooled_of_admitted h.1),
      Request.bind_of_ok (ih h.2)]
    rfl

/-- A commit succeeds if the accounts can be hashed. -/
theorem commit_of_admitted {root : Digest} (hpool : ∀ p ∈ s.pool, ledger.Admitted p)
    (hroot : ledger.stateHash (s.books.executeAll s.pool).1.accounts = .ok root) :
    ledger.commit s = (.ok (), ledger.extend s.executed (s.pool.map Pooled.hash) root) := by
  have hexecuted : s.pool.mapM executePooled { s with pool := [] } =
      (.ok (s.pool.map Pooled.hash), s.executed) := mapM_executePooled hpool
  rw [← State.executed_books] at hroot
  simp only [commit, Request.bind_apply, Request.get_apply, Request.modify_apply, hexecuted,
    Request.ofExcept_apply, hroot, Request.set_apply]
  rfl

end

/-! ## Steps -/

/-- What an operation does. -/
inductive Steps (s : State) : Operation → State → Prop
  /-- The bytes are no transaction. -/
  | unread {bytes : Bytes} {fault : EncodingFault} :
    Transaction.ofBytes bytes = .error fault → Steps s (.submit bytes) s
  | refused {bytes : Bytes} {transaction : Transaction} {error : ClientError} :
    Transaction.ofBytes bytes = .ok transaction →
    ledger.checkedBody transaction = .error error →
    Steps s (.submit bytes)
      { s with statuses := s.statuses.insert (sha256 bytes) (.rejected error.message) }
  | pooled {bytes : Bytes} {transaction : Transaction} {body : Body} :
    Transaction.ofBytes bytes = .ok transaction →
    ledger.checkedBody transaction = .ok body →
    Steps s (.submit bytes)
      { s with
        statuses := s.statuses.insert (sha256 bytes) .pending
        pool := s.pool ++ [⟨sha256 bytes, transaction, body⟩] }
  /-- The question is counted if there is anything to commit. -/
  | waited {hash : Digest} :
    ledger.commits s (.status hash) = false →
    Steps s (.status hash)
      { s with
        polls := if !s.pool.isEmpty && !s.faults.stallCommits then s.polls + 1 else s.polls }
  | executed {op : Operation} {root : Digest} :
    ledger.commits s op = true →
    ledger.stateHash (s.books.executeAll s.pool).1.accounts = .ok root →
    Steps s op (ledger.extend s.executed (s.pool.map Pooled.hash) root)
  | faulted {faults : Faults} : Steps s (.setFaults faults) { s with faults }
  | asked {op : Operation} : op.isQuery = true → Steps s op s

/-- The books and the blocks are the same. -/
structure SameChain (s s' : State) : Prop where
  books : s'.books = s.books
  committed : s'.committed = s.committed
  latest : s'.latest = s.latest
  blocks : s'.blocks = s.blocks

section
variable {ledger} {s : State}

theorem not_commits_of_isQuery {op : Operation} (h : op.isQuery = true) :
    ledger.commits s op = false := by
  cases op <;> first | rfl | cases h

/-- An operation that does not execute the pool leaves the chain as it is. -/
theorem Steps.same_or_executed {op : Operation} {s' : State} (h : Steps ledger s op s') :
    (ledger.commits s op = false ∧ SameChain s s') ∨
      (ledger.commits s op = true ∧ ∃ root,
        ledger.stateHash (s.books.executeAll s.pool).1.accounts = .ok root ∧
          s' = ledger.extend s.executed (s.pool.map Pooled.hash) root) := by
  cases h with
  | unread => exact Or.inl ⟨rfl, rfl, rfl, rfl, rfl⟩
  | refused => exact Or.inl ⟨rfl, rfl, rfl, rfl, rfl⟩
  | pooled => exact Or.inl ⟨rfl, rfl, rfl, rfl, rfl⟩
  | waited hwait => exact Or.inl ⟨hwait, rfl, rfl, rfl, rfl⟩
  | executed hcommits hroot => exact Or.inr ⟨hcommits, _, hroot, rfl⟩
  | faulted => exact Or.inl ⟨rfl, rfl, rfl, rfl, rfl⟩
  | asked hquery => exact Or.inl ⟨not_commits_of_isQuery hquery, rfl, rfl, rfl, rfl⟩

theorem Steps.same {op : Operation} {s' : State} (h : Steps ledger s op s')
    (hcommits : ledger.commits s op = false) : SameChain s s' := by
  rcases h.same_or_executed with ⟨-, hsame⟩ | ⟨hcommits', -⟩
  · exact hsame
  · rw [hcommits] at hcommits'
    cases hcommits'

theorem Steps.exists_extend {op : Operation} {s' : State} (h : Steps ledger s op s')
    (hcommits : ledger.commits s op = true) :
    ∃ root, s' = ledger.extend s.executed (s.pool.map Pooled.hash) root := by
  rcases h.same_or_executed with ⟨hcommits', -⟩ | ⟨-, root, -, heq⟩
  · rw [hcommits] at hcommits'
    cases hcommits'
  · exact ⟨root, heq⟩

theorem submit_of_unread {bytes : Bytes} {fault : EncodingFault}
    (h : Transaction.ofBytes bytes = .error fault) :
    ledger.submit bytes s = (.error (.encoding fault), s) := by
  unfold submit
  rw [h]
  exact Request.bind_of_error rfl

theorem submit_of_refused {bytes : Bytes} {transaction : Transaction} {error : ClientError}
    (hparsed : Transaction.ofBytes bytes = .ok transaction)
    (hbody : ledger.checkedBody transaction = .error error) :
    ledger.submit bytes s =
      (.ok ⟨some (sha256 bytes)⟩,
        { s with statuses := s.statuses.insert (sha256 bytes) (.rejected error.message) }) := by
  unfold submit
  rw [hparsed]
  refine (Request.bind_of_ok rfl).trans ?_
  simp only [hbody]
  rfl

theorem submit_of_pooled {bytes : Bytes} {transaction : Transaction} {body : Body}
    (hparsed : Transaction.ofBytes bytes = .ok transaction)
    (hbody : ledger.checkedBody transaction = .ok body) :
    ledger.submit bytes s =
      (.ok ⟨some (sha256 bytes)⟩,
        { s with
          statuses := s.statuses.insert (sha256 bytes) .pending
          pool := s.pool ++ [⟨sha256 bytes, transaction, body⟩] }) := by
  unfold submit
  rw [hparsed]
  refine (Request.bind_of_ok rfl).trans ?_
  simp only [hbody]
  rfl

theorem steps_submit (bytes : Bytes) :
    Steps ledger s (.submit bytes) (ledger.after s (.submit bytes)) := by
  simp only [after]
  cases hparsed : Transaction.ofBytes bytes with
  | error fault =>
    rw [submit_of_unread hparsed]
    exact .unread hparsed
  | ok transaction =>
    cases hbody : ledger.checkedBody transaction with
    | error error =>
      rw [submit_of_refused hparsed hbody]
      exact .refused hparsed hbody
    | ok body =>
      rw [submit_of_pooled hparsed hbody]
      exact .pooled hparsed hbody

/-- The status is read in the state that the count leaves. -/
theorem status_of_countPoll {s' : State} (h : ledger.countPoll s = (.ok (), s')) (hash : Digest) :
    ledger.status hash s = (.ok (s'.statuses.getD hash .unknown), s') := by
  unfold status
  exact Request.bind_of_ok h

theorem countPoll_of_not_commits {hash : Digest} (h : ledger.commits s (.status hash) = false) :
    ledger.countPoll s =
      (.ok (), { s with
        polls := if !s.pool.isEmpty && !s.faults.stallCommits then s.polls + 1 else s.polls }) := by
  simp only [commits] at h
  unfold countPoll
  refine (Request.bind_of_ok (Request.get_apply s)).trans ?_
  by_cases hcount : (!s.pool.isEmpty && !s.faults.stallCommits) = true
  · rw [hcount, Bool.true_and, decide_eq_false_iff_not] at h
    rw [if_pos hcount, if_pos hcount, if_neg h]
    rfl
  · rw [if_neg hcount, if_neg hcount]
    rfl

theorem countPoll_of_commits {hash : Digest} (h : ledger.commits s (.status hash) = true) :
    ledger.countPoll s = ledger.commit { s with polls := s.polls + 1 } := by
  simp only [commits, Bool.and_eq_true, decide_eq_true_iff] at h
  unfold countPoll
  refine (Request.bind_of_ok (Request.get_apply s)).trans ?_
  rw [if_pos (by simpa using h.1)]
  refine (Request.bind_of_ok (Request.set_apply s _)).trans ?_
  rw [if_pos h.2]

/-- The count of questions is forgotten with the commit. -/
theorem extend_executed_polls (polls : Nat) (hashes : List Digest) (root : Digest) :
    ledger.extend { s with polls }.executed hashes root =
      ledger.extend s.executed hashes root := by
  simp only [State.executed, State.foldl_record]
  rfl

/-- Nothing else happens than the steps, as long as the pool was admitted and the
accounts can be hashed. -/
theorem steps (hpool : ∀ p ∈ s.pool, ledger.Admitted p)
    (hroot : ∃ root, ledger.stateHash (s.books.executeAll s.pool).1.accounts = .ok root)
    (op : Operation) : Steps ledger s op (ledger.after s op) := by
  obtain ⟨root, hroot⟩ := hroot
  cases op with
  | submit bytes => exact steps_submit bytes
  | status hash =>
    simp only [after]
    cases hcommits : ledger.commits s (.status hash) with
    | false =>
      rw [status_of_countPoll (countPoll_of_not_commits hcommits)]
      exact .waited hcommits
    | true =>
      have hcount := countPoll_of_commits hcommits
      have hcommit : ledger.commit { s with polls := s.polls + 1 } = _ :=
        commit_of_admitted hpool hroot
      rw [extend_executed_polls] at hcommit
      rw [status_of_countPoll (hcount.trans hcommit)]
      exact .executed hcommits hroot
  | commit =>
    simp only [after]
    rw [commit_of_admitted hpool hroot]
    exact .executed rfl hroot
  | setFaults faults => exact .faulted
  | account key => exact .asked rfl
  | block height => exact .asked rfl
  | validators => exact .asked rfl

end

end Ledger

end LightClient

import LightClient.Proofs.Ledger.Run
import LightClient.Proofs.Query.Soundness

/-! What becomes of submissions. The ledger does not know bytes again that it has seen:
each submission that it lets in is executed once, in the order they came, and sets the
status of its hash back. So bytes that are submitted twice are executed twice. -/

namespace LightClient.Ledger

open Query (neutralKey neutralSignature neutralScheme)

variable {S : SignatureScheme} (ledger : Ledger S)

/-! ## The order of execution -/

/-- What an operation adds to the pool. -/
def admitted? : Operation → Option Pooled
  | .submit bytes =>
    match Transaction.ofBytes bytes with
    | .error _ => none
    | .ok transaction =>
      match ledger.checkedBody transaction with
      | .error _ => none
      | .ok body => some ⟨sha256 bytes, transaction, body⟩
  | _ => none

section
variable {ledger} {s : State}

theorem admitted?_of_unread {bytes : Bytes} {fault : EncodingFault}
    (h : Transaction.ofBytes bytes = .error fault) : ledger.admitted? (.submit bytes) = none := by
  simp only [admitted?, h]

theorem admitted?_of_refused {bytes : Bytes} {transaction : Transaction} {error : ClientError}
    (hparsed : Transaction.ofBytes bytes = .ok transaction)
    (hbody : ledger.checkedBody transaction = .error error) :
    ledger.admitted? (.submit bytes) = none := by
  simp only [admitted?, hparsed, hbody]

theorem admitted?_of_pooled {bytes : Bytes} {transaction : Transaction} {body : Body}
    (hparsed : Transaction.ofBytes bytes = .ok transaction)
    (hbody : ledger.checkedBody transaction = .ok body) :
    ledger.admitted? (.submit bytes) = some ⟨sha256 bytes, transaction, body⟩ := by
  simp only [admitted?, hparsed, hbody]

theorem admitted?_of_commits {op : Operation} (h : ledger.commits s op = true) :
    ledger.admitted? op = none := by
  cases op <;> first | rfl | cases h

theorem admitted?_of_isQuery {op : Operation} (h : op.isQuery = true) :
    ledger.admitted? op = none := by
  cases op <;> first | rfl | cases h

/-- An operation executes the whole pool or nothing of it. -/
theorem executedBy_append_pool (h : ledger.Sound s) (op : Operation) :
    executedOf (ledger.executedBy s op) ++ (ledger.after s op).pool =
      s.pool ++ (ledger.admitted? op).toList := by
  have hquiet : ledger.commits s op = false → ledger.admitted? op = none →
      executedOf (ledger.executedBy s op) ++ s.pool = s.pool ++ (ledger.admitted? op).toList := by
    intro hcommits hnone
    rw [executedBy_of_not_commits hcommits, hnone]
    exact (List.append_nil _).symm
  have hstep := h.steps op
  generalize ledger.after s op = s' at hstep
  cases hstep with
  | unread hparsed => exact hquiet rfl (admitted?_of_unread hparsed)
  | refused hparsed hbody => exact hquiet rfl (admitted?_of_refused hparsed hbody)
  | pooled hparsed hbody =>
    rw [admitted?_of_pooled hparsed hbody, executedBy_of_not_commits rfl]
    rfl
  | waited hwait => exact hquiet hwait rfl
  | executed hcommits =>
    rw [admitted?_of_commits hcommits, executedOf, executedBy, if_pos hcommits,
      List.flatten_singleton, Books.map_pooled_executeAll]
    simp [extend]
  | faulted => exact hquiet rfl rfl
  | asked hquery =>
    exact hquiet (not_commits_of_isQuery hquery) (admitted?_of_isQuery hquery)

theorem logFrom_append_pool (h : ledger.Sound s) (ops : List Operation) :
    executedOf (ledger.logFrom s ops) ++ (ops.foldl ledger.after s).pool =
      s.pool ++ ops.filterMap ledger.admitted? := by
  induction ops generalizing s with
  | nil => simp [executedOf, logFrom]
  | cons op ops ih =>
    have hrest := ih (h.after op)
    have hfirst := executedBy_append_pool h op
    simp only [executedOf, logFrom, List.flatten_append, List.map_append, List.foldl_cons,
      List.append_assoc] at hrest hfirst ⊢
    rw [hrest, ← List.append_assoc, hfirst, List.append_assoc]
    congr 1
    cases hadmitted : ledger.admitted? op with
    | none => simp [hadmitted]
    | some p => simp [hadmitted]

end

/-- What was executed and what still waits is what was let in, in order. -/
theorem executed_append_pool (faults : Faults) (ops : List Operation) :
    executedOf (ledger.log faults ops) ++ (ledger.run faults ops).pool =
      ops.filterMap ledger.admitted? :=
  logFrom_append_pool (sound_initial ledger faults) ops

/-! ## Statuses -/

/-- The operation submits a transaction with the hash, good or bad. -/
def Operation.Submits (hash : Digest) (op : Operation) : Prop :=
  ∃ bytes transaction,
    op = .submit bytes ∧ Transaction.ofBytes bytes = .ok transaction ∧ sha256 bytes = hash

section
variable {ledger} {s : State} {hash : Digest}

/-- A question reports the status as it is after the question. -/
theorem status_eq (h : ledger.Sound s) (hash : Digest) :
    (ledger.status hash s).1 =
      .ok ((ledger.after s (.status hash)).statuses.getD hash .unknown) := by
  have hcount : ∃ s', ledger.countPoll s = (.ok (), s') := by
    cases hcommits : ledger.commits s (.status hash) with
    | false => exact ⟨_, countPoll_of_not_commits hcommits⟩
    | true =>
      obtain ⟨root, hroot⟩ := (h.kept.executeAll s.pool).exists_stateHash ledger
      have hcommit : ledger.commit { s with polls := s.polls + 1 } = _ :=
        commit_of_admitted h.admitted hroot
      exact ⟨_, (countPoll_of_commits hcommits).trans hcommit⟩
  obtain ⟨s', hcount⟩ := hcount
  simp only [Ledger.after]
  rw [status_of_countPoll hcount]

/-- What a submission says of its transaction, whatever became of the same bytes before. -/
def verdict (ledger : Ledger S) (transaction : Transaction) : TransactionStatus :=
  match ledger.checkedBody transaction with
  | .ok _ => .pending
  | .error error => .rejected error.message

theorem getElem?_after_submit {bytes : Bytes} {transaction : Transaction}
    (h : Transaction.ofBytes bytes = .ok transaction) :
    (ledger.after s (.submit bytes)).statuses[sha256 bytes]? =
      some (ledger.verdict transaction) := by
  unfold verdict
  simp only [Ledger.after]
  cases hbody : ledger.checkedBody transaction with
  | error error =>
    rw [submit_of_refused h hbody]
    exact Std.ExtTreeMap.getElem?_insert_self
  | ok body =>
    rw [submit_of_pooled h hbody]
    exact Std.ExtTreeMap.getElem?_insert_self

theorem polls_after_submit (ledger : Ledger S) (s : State) (bytes : Bytes) :
    (ledger.after s (.submit bytes)).polls = s.polls := by
  have hstep : Steps ledger s (.submit bytes) (ledger.after s (.submit bytes)) :=
    steps_submit bytes
  generalize ledger.after s (.submit bytes) = s' at hstep
  cases hstep with
  | unread => rfl
  | refused => rfl
  | pooled => rfl
  | executed hcommits => cases hcommits
  | asked hquery => cases hquery

theorem status_of_not_commits (hwait : ledger.commits s (.status hash) = false) :
    (ledger.status hash s).1 = .ok (s.statuses.getD hash .unknown) := by
  rw [status_of_countPoll (countPoll_of_not_commits hwait)]

theorem status_eq_committed (h : ledger.Sound s) :
    (ledger.status hash s).1 = .ok .committed ↔
      (ledger.after s (.status hash)).statuses[hash]? = some .committed := by
  rw [status_eq h, Except.ok.injEq, Std.ExtTreeMap.getD_eq_getD_getElem?]
  cases (ledger.after s (.status hash)).statuses[hash]? with
  | none => simp
  | some found => simp

theorem getElem?_insert_status {statuses : Std.ExtTreeMap Digest TransactionStatus}
    {other : Digest} (h : other ≠ hash) (status : TransactionStatus) :
    (statuses.insert other status)[hash]? = statuses[hash]? := by
  rw [Std.ExtTreeMap.getElem?_insert, if_neg]
  rwa [Std.LawfulEqCmp.compare_eq_iff_eq]

/-- A hash stays committed as long as no transaction with it is submitted. -/
theorem committed_after (h : ledger.Sound s) (hstatus : s.statuses[hash]? = some .committed)
    {op : Operation} (hop : ¬ op.Submits hash) :
    (ledger.after s op).statuses[hash]? = some .committed := by
  have hother : ∀ {bytes : Bytes} {transaction : Transaction} (status : TransactionStatus),
      op = .submit bytes → Transaction.ofBytes bytes = .ok transaction →
        (s.statuses.insert (sha256 bytes) status)[hash]? = some .committed := by
    intro bytes transaction status hsubmit hparsed
    have hne : sha256 bytes ≠ hash := fun heq => hop ⟨bytes, transaction, hsubmit, hparsed, heq⟩
    rw [getElem?_insert_status hne, hstatus]
  have hstep := h.steps op
  generalize ledger.after s op = s' at hstep
  cases hstep with
  | unread => exact hstatus
  | refused hparsed => exact hother _ rfl hparsed
  | pooled hparsed => exact hother _ rfl hparsed
  | waited => exact hstatus
  | executed =>
    show s.executed.statuses[hash]? = _
    rw [State.getElem?_executed_statuses, hstatus, ite_self]
  | faulted => exact hstatus
  | asked => exact hstatus

theorem committed_foldl_after (h : ledger.Sound s) (hstatus : s.statuses[hash]? = some .committed)
    {ops : List Operation} (hops : ∀ op ∈ ops, ¬ op.Submits hash) :
    (ops.foldl ledger.after s).statuses[hash]? = some .committed := by
  induction ops generalizing s with
  | nil => exact hstatus
  | cons op ops ih =>
    rw [List.forall_mem_cons] at hops
    exact ih (h.after op) (committed_after h hstatus hops.1) hops.2

/-- After the commit of the pool there is none, no question was asked, and what was
in the pool is committed. -/
theorem after_of_commits (h : ledger.Sound s) {op : Operation}
    (hcommits : ledger.commits s op = true) :
    (ledger.after s op).pool = [] ∧ (ledger.after s op).polls = 0 ∧
      ∀ p ∈ s.pool, (ledger.after s op).statuses[p.hash]? = some .committed := by
  obtain ⟨root, heq⟩ := (h.steps op).exists_extend hcommits
  rw [heq]
  refine ⟨State.executed_pool s, rfl, ?_⟩
  intro p hp
  show s.executed.statuses[p.hash]? = _
  rw [State.getElem?_executed_statuses, if_pos (List.mem_map_of_mem hp)]

/-- Without a pool a question changes nothing. -/
theorem after_status_of_nil (h : s.pool = []) : ledger.after s (.status hash) = s := by
  have hidle : (!s.pool.isEmpty && !s.faults.stallCommits) = false := by
    rw [h]
    rfl
  have hwait : ledger.commits s (.status hash) = false := by
    rw [commits, hidle]
    rfl
  rw [Ledger.after, status_of_countPoll (countPoll_of_not_commits hwait), hidle]
  rfl

end

theorem run_commit (ledger : Ledger S) (faults : Faults) (ops : List Operation) :
    (ledger.run faults (ops ++ [.commit])).pool = [] ∧
      (ledger.run faults (ops ++ [.commit])).polls = 0 ∧
      ∀ p ∈ (ledger.run faults ops).pool,
        (ledger.run faults (ops ++ [.commit])).statuses[p.hash]? = some .committed := by
  rw [run_append, List.foldl_cons, List.foldl_nil]
  exact after_of_commits (ledger.sound_run faults ops) rfl

/-! ## Submissions -/

/-- The submissions that are let in are executed once each, in order, however often and
whenever their bytes come. A hash that was reported as committed is reported so until a
transaction with it is submitted again; then it is as if it had never been there. -/
theorem submissions_executed {S : SignatureScheme} (ledger : Ledger S) (faults : Faults)
    (ops : List Operation) :
    (executedOf (ledger.log faults ops) ++ (ledger.run faults ops).pool =
        ops.filterMap ledger.admitted? ∧
      List.Forall₂ Lists (ledger.run faults ops).blocks.tail (ledger.log faults ops)) ∧
    (∀ hash later, (ledger.status hash (ledger.run faults ops)).1 = .ok .committed →
      (∀ op ∈ later, ¬ op.Submits hash) →
      (ledger.status hash (ledger.run faults (ops ++ .status hash :: later))).1 =
        .ok .committed) ∧
    (∀ bytes transaction, Transaction.ofBytes bytes = .ok transaction →
      ledger.commits (ledger.run faults (ops ++ [.submit bytes])) (.status (sha256 bytes)) = false →
      (ledger.status (sha256 bytes) (ledger.run faults (ops ++ [.submit bytes]))).1 =
        .ok (ledger.verdict transaction)) := by
  have hsound := ledger.sound_run faults ops
  refine ⟨⟨ledger.executed_append_pool faults ops, lists_log ledger faults ops⟩, ?_, ?_⟩
  · intro hash later hreported hlater
    have hquestion : ∀ hash' : Digest, ¬ (Operation.status hash').Submits hash := by
      rintro hash' ⟨bytes, transaction, h, -⟩
      cases h
    have hthen := hsound.after (.status hash)
    have hstatus := (status_eq_committed hsound).mp hreported
    have hfinal := committed_foldl_after hthen hstatus hlater
    have hlast := hthen.foldl_after later
    rw [run_append, List.foldl_cons]
    exact (status_eq_committed hlast).mpr (committed_after hlast hfinal (hquestion hash))
  · intro bytes transaction hparsed hwait
    rw [status_of_not_commits hwait, run_append, List.foldl_cons, List.foldl_nil,
      Std.ExtTreeMap.getD_eq_getD_getElem?, getElem?_after_submit hparsed]
    rfl

/-- What was let in before a commit is executed. -/
theorem executedOf_log_commit (ledger : Ledger S) (faults : Faults) (ops : List Operation) :
    executedOf (ledger.log faults (ops ++ [.commit])) = ops.filterMap ledger.admitted? := by
  have horder := ledger.executed_append_pool faults (ops ++ [.commit])
  rw [(ledger.run_commit faults ops).1, List.append_nil, List.filterMap_append] at horder
  exact horder.trans (List.append_nil _)

/-! ## One issue, twice -/

/-- Creates the account of the neutral key with 10. -/
def funded : Transaction :=
  ⟨0, 0, 2, 128, [10, 32] ++ neutralKey.bytes.toList ++ [16, 10], neutralSignature⟩

def fundedBytes : Bytes :=
  [0, 0, 2, 0, 128, 0, 110, 0, 0, 0] ++ funded.body ++ neutralSignature.bytes.toList

/-- Issues 50 to the neutral key. -/
def issued : Transaction :=
  ⟨0, 0, 1, 128, [10, 32] ++ neutralKey.bytes.toList ++ [16, 50], neutralSignature⟩

def issuedBytes : Bytes :=
  [0, 0, 1, 0, 128, 0, 110, 0, 0, 0] ++ issued.body ++ neutralSignature.bytes.toList

/-- A ledger with four validators that commits at the third question. -/
def neutralLedger : Ledger neutralScheme := ⟨.standard, standardValidators neutralScheme 4, 3⟩

/-- The account is created and credited, in a block each. -/
def creditedOnce : List Operation :=
  [.submit fundedBytes, .commit, .submit issuedBytes] ++ [.commit]

/-- The credit is asked about, and its bytes come again. -/
def creditedTwice : List Operation :=
  creditedOnce ++ [.status (sha256 issuedBytes), .submit issuedBytes]

/-- The credit is asked about again, and committed. -/
def replayed : List Operation := creditedTwice ++ [.status (sha256 issuedBytes)] ++ [.commit]

def fundedEntry : Pooled := ⟨sha256 fundedBytes, funded, .createAccount ⟨neutralKey, 10⟩⟩

def issuedEntry : Pooled := ⟨sha256 issuedBytes, issued, .issue ⟨neutralKey, 50, 0⟩⟩

theorem checkedBody_funded :
    neutralLedger.checkedBody funded = .ok (.createAccount ⟨neutralKey, 10⟩) := by
  have hbody : funded.decodeBody Config.standard.schema =
      .ok (.createAccount ⟨neutralKey, 10⟩) := by decide +kernel
  exact neutralLedger.checkedBody_eq_ok.mpr ⟨hbody, _, rfl, by decide⟩

theorem checkedBody_issued :
    neutralLedger.checkedBody issued = .ok (.issue ⟨neutralKey, 50, 0⟩) := by
  have hbody : issued.decodeBody Config.standard.schema = .ok (.issue ⟨neutralKey, 50, 0⟩) := by
    decide +kernel
  exact neutralLedger.checkedBody_eq_ok.mpr ⟨hbody, _, rfl, by decide⟩

theorem ofBytes_issued : Transaction.ofBytes issuedBytes = .ok issued :=
  Transaction.ofBytes_of_toBytes rfl

theorem admitted?_funded : neutralLedger.admitted? (.submit fundedBytes) = some fundedEntry :=
  admitted?_of_pooled (Transaction.ofBytes_of_toBytes rfl) checkedBody_funded

theorem admitted?_issued : neutralLedger.admitted? (.submit issuedBytes) = some issuedEntry :=
  admitted?_of_pooled ofBytes_issued checkedBody_issued

theorem executedOf_creditedOnce :
    executedOf (neutralLedger.log .off creditedOnce) = [fundedEntry, issuedEntry] := by
  rw [creditedOnce, executedOf_log_commit]
  simp only [List.filterMap_cons, admitted?_funded, admitted?_issued, List.filterMap_nil]
  rfl

theorem executedOf_replayed :
    executedOf (neutralLedger.log .off replayed) = [fundedEntry, issuedEntry, issuedEntry] := by
  rw [replayed, executedOf_log_commit]
  simp only [creditedTwice, creditedOnce, List.cons_append, List.nil_append, List.filterMap_cons,
    admitted?_funded, admitted?_issued, List.filterMap_nil]
  rfl

/-! ### Balances -/

/-- What the accounts hold for the neutral key. -/
def neutralBalance (books : Books) : Option UInt64 :=
  books.accounts[neutralKey.bytes]?.map Account.balance

theorem balance_funded :
    neutralBalance (Books.empty.execute fundedEntry.hash fundedEntry.body).1 = some 10 := by
  have hnew : neutralKey.bytes ∉ Books.empty.accounts := by simp [Books.empty]
  rw [neutralBalance, fundedEntry, Books.execute_create_of_not_mem hnew, Books.getElem?_append,
    Books.getElem?_openAccount]
  simp

theorem balance_issued {books : Books} {balance : UInt64} (h : neutralBalance books = some balance)
    (hfits : Books.fits balance 50 = true) :
    neutralBalance (books.execute issuedEntry.hash issuedEntry.body).1 = some (balance + 50) := by
  obtain ⟨account, haccount, rfl⟩ := Option.map_eq_some_iff.mp h
  obtain ⟨-, account', haccount', hbalance⟩ :=
    Books.execute_issue_of_fits ⟨neutralKey, 50, 0⟩ haccount hfits (sha256 issuedBytes)
  exact Option.map_eq_some_iff.mpr ⟨account', haccount', hbalance⟩

theorem balance_run (ops : List Operation) : (neutralLedger.run .off ops).balance neutralKey =
    neutralBalance (Books.empty.executeAll (executedOf (neutralLedger.log .off ops))).1 := by
  rw [executeAll_log]
  rfl

theorem balance_creditedOnce :
    (neutralLedger.run .off creditedOnce).balance neutralKey = some 60 := by
  rw [balance_run, executedOf_creditedOnce]
  exact balance_issued balance_funded rfl

theorem balance_replayed :
    (neutralLedger.run .off replayed).balance neutralKey = some 110 := by
  rw [balance_run, executedOf_replayed]
  exact balance_issued (balance_issued balance_funded rfl) rfl

/-! ### Statuses of the issue -/

theorem pool_before_credit : (neutralLedger.run .off
    [.submit fundedBytes, .commit, .submit issuedBytes]).pool = [issuedEntry] := by
  have hempty := (neutralLedger.run_commit .off [.submit fundedBytes]).1
  have hpooled := neutralLedger.run_append .off ([.submit fundedBytes] ++ [.commit])
    [.submit issuedBytes]
  rw [List.foldl_cons, List.foldl_nil, Ledger.after,
    submit_of_pooled ofBytes_issued checkedBody_issued, hempty] at hpooled
  exact congrArg State.pool hpooled

/-- The credit is committed, and nothing waits. -/
theorem after_creditedOnce :
    (neutralLedger.run .off creditedOnce).pool = [] ∧
      (neutralLedger.run .off creditedOnce).polls = 0 ∧
      (neutralLedger.run .off creditedOnce).statuses[sha256 issuedBytes]? = some .committed := by
  obtain ⟨hpool, hpolls, hcommitted⟩ :=
    neutralLedger.run_commit .off [.submit fundedBytes, .commit, .submit issuedBytes]
  exact ⟨hpool, hpolls, hcommitted issuedEntry (by rw [pool_before_credit]; exact .head _)⟩

theorem status_creditedOnce :
    (neutralLedger.status (sha256 issuedBytes) (neutralLedger.run .off creditedOnce)).1 =
      .ok .committed := by
  obtain ⟨hpool, -, hstatus⟩ := after_creditedOnce
  rw [status_eq_committed (neutralLedger.sound_run .off creditedOnce), after_status_of_nil hpool]
  exact hstatus

/-- The question before the bytes come again changes nothing. -/
theorem run_creditedTwice : neutralLedger.run .off creditedTwice =
    neutralLedger.run .off (creditedOnce ++ [.submit issuedBytes]) := by
  rw [creditedTwice, run_append, run_append, List.foldl_cons,
    after_status_of_nil after_creditedOnce.1]

theorem not_commits_creditedTwice :
    neutralLedger.commits (neutralLedger.run .off (creditedOnce ++ [.submit issuedBytes]))
      (.status (sha256 issuedBytes)) = false := by
  have hpolls : (neutralLedger.run .off (creditedOnce ++ [.submit issuedBytes])).polls = 0 := by
    rw [run_append, List.foldl_cons, List.foldl_nil, polls_after_submit, after_creditedOnce.2.1]
  rw [commits, hpolls]
  simp [neutralLedger]

/-- The committed issue stays committed over a question and an empty block, and its bytes
are pending when they come again. -/
theorem submissions_executed_credited :
    (neutralLedger.status (sha256 issuedBytes) (neutralLedger.run .off creditedOnce)).1 =
        .ok .committed ∧
      (∀ op ∈ [Operation.commit], ¬ op.Submits (sha256 issuedBytes)) ∧
      (neutralLedger.status (sha256 issuedBytes) (neutralLedger.run .off
          (creditedOnce ++ [.status (sha256 issuedBytes), .commit]))).1 = .ok .committed ∧
      Transaction.ofBytes issuedBytes = .ok issued ∧
      neutralLedger.commits (neutralLedger.run .off (creditedOnce ++ [.submit issuedBytes]))
        (.status (sha256 issuedBytes)) = false ∧
      (neutralLedger.status (sha256 issuedBytes) (neutralLedger.run .off
          (creditedOnce ++ [.submit issuedBytes]))).1 = .ok (neutralLedger.verdict issued) := by
  have hquiet : ∀ op ∈ [Operation.commit], ¬ op.Submits (sha256 issuedBytes) := by
    intro op hop
    rw [List.mem_singleton.mp hop]
    rintro ⟨bytes, transaction, h, -⟩
    cases h
  obtain ⟨-, hcommitted, hpending⟩ := submissions_executed neutralLedger .off creditedOnce
  exact ⟨status_creditedOnce, hquiet, hcommitted _ _ status_creditedOnce hquiet, ofBytes_issued,
    not_commits_creditedTwice, hpending _ _ ofBytes_issued not_commits_creditedTwice⟩

/-- An issue of 50 to an account with 10 is executed again when its bytes come again after
the commit: the account holds 60 and then 110, and in between the committed hash is
pending. -/
theorem issue_executed_twice :
    1 < ((executedOf (neutralLedger.log .off replayed)).map Pooled.hash).count
        (sha256 issuedBytes) ∧
      (neutralLedger.run .off creditedOnce).balance neutralKey = some 60 ∧
      (neutralLedger.run .off replayed).balance neutralKey = some 110 ∧
      (neutralLedger.status (sha256 issuedBytes) (neutralLedger.run .off creditedOnce)).1 =
        .ok .committed ∧
      (neutralLedger.status (sha256 issuedBytes) (neutralLedger.run .off creditedTwice)).1 =
        .ok .pending := by
  refine ⟨?_, balance_creditedOnce, balance_replayed, status_creditedOnce, ?_⟩
  · rw [executedOf_replayed]
    show 1 < [sha256 fundedBytes, sha256 issuedBytes, sha256 issuedBytes].count _
    rw [List.count_cons, List.count_cons_self, List.count_cons_self, List.count_nil]
    omega
  · rw [run_creditedTwice, status_of_not_commits not_commits_creditedTwice, run_append,
      List.foldl_cons, List.foldl_nil, Std.ExtTreeMap.getD_eq_getD_getElem?,
      getElem?_after_submit ofBytes_issued, verdict, checkedBody_issued]
    rfl

end LightClient.Ledger

import LightClient.Proofs.Ledger.Blocks
import LightClient.Proofs.Ledger.Status

/-! A ledger that several clients share. It answers one request at a time, and before each
request of a client the others may do what they like. What waits in the pool is committed
at the latest when its owner has asked often enough: the questions of the others only
bring the commit forward, and the count starts again with a commit. -/

namespace LightClient.Ledger

structure Shared where
  state : State
  /-- What the others do before each of the requests to come. -/
  others : List (List Operation)

variable {S : SignatureScheme} (ledger : Ledger S)

/-- The state that the next request meets. -/
def met (m : Shared) : State := (m.others.headD []).foldl ledger.after m.state

/-- A request that the others come before. -/
def amid {α : Type} (request : Request State α) : Request Shared α := fun m =>
  let (answer, state) := request (ledger.met m)
  (answer, ⟨state, m.others.tail⟩)

/-- The ledger as one of its clients sees it. -/
def shared : Node Shared where
  validators := ledger.amid ledger.node.validators
  account key := ledger.amid (ledger.node.account key)
  block height := ledger.amid (ledger.node.block height)
  submit bytes := ledger.amid (ledger.node.submit bytes)
  status hash := ledger.amid (ledger.node.status hash)

/-- The operation does not keep the pool from being committed. -/
def Operation.Runs (op : Operation) : Prop :=
  ∀ faults, op = .setFaults faults → faults.stallCommits = false

/-- The operation neither submits a transaction with the hash nor stalls the ledger. -/
structure Operation.Spares (hash : Digest) (op : Operation) : Prop where
  not_submits : ¬ op.Submits hash
  runs : op.Runs

/-- A sound state of a ledger that commits its pool. -/
structure Live (s : State) : Prop extends ledger.Sound s where
  running : s.faults.stallCommits = false

/-- A transaction with the hash waits and at least so many questions were counted since, or
it is committed. -/
inductive Stage (hash : Digest) (asked : Nat) (s : State) : Prop
  | waits : s.statuses[hash]? = some .pending → s.Waits hash → asked ≤ s.polls → Stage hash asked s
  | done : s.statuses[hash]? = some .committed → Stage hash asked s

structure Underway (hash : Digest) (asked : Nat) (s : State) : Prop extends ledger.Live s where
  stage : Stage hash asked s

section
variable {ledger} {s : State} {hash : Digest} {asked : Nat}

namespace Operation

theorem not_submits_of_bytes? {op : Operation} (h : op.bytes? = none) : ¬ op.Submits hash := by
  rintro ⟨bytes, transaction, rfl, -⟩
  cases h

theorem Spares.submit {bytes : Bytes} (h : sha256 bytes ≠ hash) :
    (Operation.submit bytes).Spares hash := by
  refine ⟨?_, nofun⟩
  rintro ⟨bytes', transaction, hsubmit, -, hhash⟩
  cases hsubmit
  exact h hhash

theorem Spares.status (hash' : Digest) : (Operation.status hash').Spares hash :=
  ⟨not_submits_of_bytes? rfl, nofun⟩

theorem Spares.commit : Operation.commit.Spares hash := ⟨not_submits_of_bytes? rfl, nofun⟩

theorem Spares.of_isQuery {op : Operation} (h : op.isQuery = true) : op.Spares hash := by
  refine ⟨not_submits_of_bytes? (bytes?_of_isQuery h), ?_⟩
  rintro faults rfl
  cases h

end Operation

/-! ## The operations of the others -/

theorem Live.after (h : ledger.Live s) {op : Operation} (hop : op.Runs) :
    ledger.Live (ledger.after s op) := by
  refine ⟨h.toSound.after op, ?_⟩
  have hstep := h.steps op
  generalize ledger.after s op = s' at hstep
  cases hstep with
  | executed =>
    simp only [extend, State.executed, State.foldl_record]
    exact h.running
  | faulted => exact hop _ rfl
  | unread | refused | pooled | waited | asked => exact h.running

theorem Live.foldl_after (h : ledger.Live s) {ops : List Operation}
    (hops : ∀ op ∈ ops, op.Runs) : ledger.Live (ops.foldl ledger.after s) := by
  induction ops generalizing s with
  | nil => exact h
  | cons op ops ih =>
    rw [List.forall_mem_cons] at hops
    exact ih (h.after hops.1) hops.2

/-- Without a commit the status of a hash changes with its submissions only. -/
theorem getElem?_statuses_after (h : ledger.Sound s) {op : Operation}
    (hcommits : ledger.commits s op = false) (hop : ¬ op.Submits hash) :
    (ledger.after s op).statuses[hash]? = s.statuses[hash]? := by
  have hother : ∀ {bytes : Bytes} {t : Transaction}, op = .submit bytes →
      Transaction.ofBytes bytes = .ok t → sha256 bytes ≠ hash :=
    fun hsubmit hparsed hhash => hop ⟨_, _, hsubmit, hparsed, hhash⟩
  have hstep := h.steps op
  generalize ledger.after s op = s' at hstep
  cases hstep with
  | refused hparsed => exact getElem?_insert_status (hother rfl hparsed) _
  | pooled hparsed => exact getElem?_insert_status (hother rfl hparsed) _
  | executed hcommits' =>
    rw [hcommits] at hcommits'
    cases hcommits'
  | unread | waited | faulted | asked => rfl

theorem polls_le_after (h : ledger.Sound s) {op : Operation}
    (hcommits : ledger.commits s op = false) : s.polls ≤ (ledger.after s op).polls := by
  have hstep := h.steps op
  generalize ledger.after s op = s' at hstep
  cases hstep with
  | waited =>
    show s.polls ≤ if _ then s.polls + 1 else s.polls
    split
    · exact Nat.le_succ _
    · exact Nat.le_refl _
  | executed hcommits' =>
    rw [hcommits] at hcommits'
    cases hcommits'
  | unread | refused | pooled | faulted | asked => exact Nat.le_refl _

theorem State.Waits.committed (h : s.Waits hash) (hsound : ledger.Sound s) {op : Operation}
    (hcommits : ledger.commits s op = true) :
    (ledger.after s op).statuses[hash]? = some .committed := by
  obtain ⟨p, hp, rfl⟩ := List.mem_map.mp h
  exact (after_of_commits hsound hcommits).2.2 p hp

theorem State.Waits.after (h : s.Waits hash) (hsound : ledger.Sound s) {op : Operation}
    (hcommits : ledger.commits s op = false) : (ledger.after s op).Waits hash := by
  obtain ⟨p, hp, rfl⟩ := List.mem_map.mp h
  exact List.mem_map_of_mem ((pool_prefix_after hsound hcommits).1.subset hp)

/-- What others do keeps a transaction on its way. -/
theorem Underway.after (h : ledger.Underway hash asked s) {op : Operation} (hop : op.Spares hash) :
    ledger.Underway hash asked (ledger.after s op) := by
  refine ⟨h.toLive.after hop.runs, ?_⟩
  cases h.stage with
  | done hstatus => exact .done (committed_after h.toSound hstatus hop.not_submits)
  | waits hstatus hwaits hle =>
    cases hcommits : ledger.commits s op with
    | true => exact .done (hwaits.committed h.toSound hcommits)
    | false =>
      have hkept := getElem?_statuses_after h.toSound hcommits hop.not_submits
      exact .waits (hkept.trans hstatus) (hwaits.after h.toSound hcommits)
        (hle.trans (polls_le_after h.toSound hcommits))

theorem Underway.foldl_after (h : ledger.Underway hash asked s) {ops : List Operation}
    (hops : ∀ op ∈ ops, op.Spares hash) :
    ledger.Underway hash asked (ops.foldl ledger.after s) := by
  induction ops generalizing s with
  | nil => exact h
  | cons op ops ih =>
    rw [List.forall_mem_cons] at hops
    exact ih (h.after hops.1) hops.2

/-! ## The questions of the owner -/

theorem State.Waits.isEmpty_pool (h : s.Waits hash) : s.pool.isEmpty = false := by
  obtain ⟨p, hp, -⟩ := List.mem_map.mp h
  exact List.isEmpty_eq_false_iff_exists_mem.mpr ⟨p, hp⟩

/-- What waits is committed by a question if enough of them were counted. -/
theorem Live.commits_status (h : ledger.Live s) (hwaits : s.Waits hash) :
    ledger.commits s (.status hash) = decide (ledger.commitAfter ≤ s.polls + 1) := by
  rw [commits, hwaits.isEmpty_pool, h.running]
  rfl

theorem Live.status_of_due (h : ledger.Live s) (hwaits : s.Waits hash)
    (hdue : ledger.commitAfter ≤ s.polls + 1) : (ledger.status hash s).1 = .ok .committed := by
  have hcommits : ledger.commits s (.status hash) = true := by
    rw [h.commits_status hwaits]
    exact decide_eq_true hdue
  exact (status_eq_committed h.toSound).mpr (hwaits.committed h.toSound hcommits)

/-- The state after so many questions that were counted. -/
def State.counted (s : State) (count : Nat) : State := { s with polls := s.polls + count }

theorem Live.counted (h : ledger.Live s) (count : Nat) : ledger.Live (s.counted count) :=
  ⟨h.toSound.of_sameChain ⟨rfl, rfl, rfl, rfl⟩ h.admitted, h.running⟩

/-- Any other question is counted, and nothing else happens. -/
theorem Live.status_of_early (h : ledger.Live s) (hwaits : s.Waits hash)
    (hstatus : s.statuses[hash]? = some .pending) (hearly : s.polls + 1 < ledger.commitAfter) :
    ledger.status hash s = (.ok .pending, s.counted 1) := by
  have hcommits : ledger.commits s (.status hash) = false := by
    rw [h.commits_status hwaits]
    exact decide_eq_false (Nat.not_le.mpr hearly)
  rw [status_of_countPoll (countPoll_of_not_commits hcommits), hwaits.isEmpty_pool, h.running,
    Std.ExtTreeMap.getD_eq_getD_getElem?, hstatus]
  rfl

/-- A question of the owner finds the transaction committed, or is counted. -/
theorem Underway.status (h : ledger.Underway hash asked s) :
    ledger.Underway hash (asked + 1) (ledger.status hash s).2 ∧
      ((ledger.status hash s).1 = .ok .committed ∨
        (ledger.status hash s).1 = .ok .pending ∧ asked + 1 < ledger.commitAfter) := by
  have hspares : (Operation.status hash).Spares hash := .status hash
  have hlive : ledger.Live (ledger.status hash s).2 := h.toLive.after hspares.runs
  have hfound : (ledger.status hash s).2.statuses[hash]? = some .committed →
      ledger.Underway hash (asked + 1) (ledger.status hash s).2 ∧
        (ledger.status hash s).1 = .ok .committed :=
    fun hstatus => ⟨⟨hlive, .done hstatus⟩, (status_eq_committed h.toSound).mpr hstatus⟩
  cases h.stage with
  | done hstatus =>
    obtain ⟨hunderway, hanswer⟩ :=
      hfound (committed_after h.toSound hstatus hspares.not_submits)
    exact ⟨hunderway, Or.inl hanswer⟩
  | waits hstatus hwaits hle =>
    by_cases hdue : ledger.commitAfter ≤ s.polls + 1
    · obtain ⟨hunderway, hanswer⟩ :=
        hfound ((status_eq_committed h.toSound).mp (h.status_of_due hwaits hdue))
      exact ⟨hunderway, Or.inl hanswer⟩
    · have hearly := Nat.not_le.mp hdue
      rw [h.status_of_early hwaits hstatus hearly] at hlive ⊢
      exact ⟨⟨hlive, .waits hstatus hwaits (Nat.succ_le_succ hle)⟩,
        Or.inr ⟨rfl, Nat.lt_of_le_of_lt (Nat.succ_le_succ hle) hearly⟩⟩

end

end LightClient.Ledger

import LightClient.Client
import LightClient.Proofs.Client.Polling
import LightClient.Proofs.Client.Submission
import LightClient.Proofs.Ledger.Shared

/-! Transfers and issues on a ledger that others use as well. Once the ledger has taken the
transaction of a client in, one of the questions that the client asks finds it committed,
at the latest when they alone are enough for a commit. -/

namespace LightClient.Client

open Ledger (Operation Shared State openedBytes stampLedger)
open Query (numberedKey stampScheme)

variable {S : SignatureScheme} {ledger : Ledger S} {hash : Digest}

/-! ## Waiting among others -/

/-- The transaction is on its way, and the others will spare it. -/
structure Tracked (ledger : Ledger S) (hash : Digest) (count : Nat) (m : Shared) : Prop where
  underway : ledger.Underway hash count m.state
  spared : ∀ ops ∈ m.others, ∀ op ∈ ops, op.Spares hash

section
variable {m : Shared} {count total : Nat}

theorem spared_head {others : List (List Operation)} {P : Operation → Prop}
    (h : ∀ ops ∈ others, ∀ op ∈ ops, P op) : ∀ op ∈ others.headD [], P op := by
  cases others with
  | nil => exact nofun
  | cons ops rest => exact h ops List.mem_cons_self

/-- A question keeps the transaction on its way, and finds it committed unless the count
is too low. -/
theorem Tracked.status (h : Tracked ledger hash count m) :
    Tracked ledger hash (count + 1) (ledger.shared.status hash m).2 ∧
      ((ledger.shared.status hash m).1 = .ok .committed ∨
        (ledger.shared.status hash m).1 = .ok .pending ∧ count + 1 < ledger.commitAfter) := by
  obtain ⟨hunderway, hanswer⟩ := (h.underway.foldl_after (spared_head h.spared)).status
  exact ⟨⟨hunderway, fun ops hops => h.spared ops (List.mem_of_mem_tail hops)⟩, hanswer⟩

theorem Tracked.asked (h : Tracked ledger hash 0 m) (count : Nat) :
    Tracked ledger hash count (asked ledger.shared hash m count) := by
  induction count with
  | zero => exact h
  | succ count ih =>
    rw [asked_succ]
    exact ih.status.1

/-- An answer that leaves the wait open comes before the client has asked often enough. -/
theorem Tracked.lt_of_undecided (h : Tracked ledger hash 0 m)
    (hopen : Undecided (answerAfter ledger.shared hash m count)) :
    count + 1 < ledger.commitAfter := by
  rcases (h.asked count).status.2 with hanswer | ⟨-, hlt⟩
  · rw [answerAfter, hanswer] at hopen
    cases hopen
  · exact hlt

theorem Tracked.eq_committed (h : Tracked ledger hash 0 m) {attempts : Nat}
    {result : Except ClientError CommitResult}
    (hdecides : Decides hash attempts (answerAfter ledger.shared hash m count) result) :
    result = .ok (.committed hash attempts) := by
  rcases (h.asked count).status.2 with hanswer | ⟨hanswer, -⟩
  · rw [answerAfter, hanswer] at hdecides
    cases hdecides
    rfl
  · rw [answerAfter, hanswer] at hdecides
    cases hdecides

/-- The wait ends with the commit. -/
theorem Tracked.exists_outcome (h : Tracked ledger hash 0 m) (hle : ledger.commitAfter ≤ total)
    (htotal : total ≠ 0) :
    ∃ attempts, 1 ≤ attempts ∧ attempts ≤ max 1 ledger.commitAfter ∧
      Outcome hash total (answerAfter ledger.shared hash m) attempts
        (.ok (.committed hash attempts)) := by
  obtain ⟨polls, result, houtcome⟩ :=
    Client.exists_outcome hash total (answerAfter ledger.shared hash m)
  have hlast : ¬ ∀ j < total, Undecided (answerAfter ledger.shared hash m j) := by
    intro hopen
    have hlt := h.lt_of_undecided (hopen (total - 1) (by omega))
    omega
  cases houtcome with
  | @decided i _ hlt hopen hdecides =>
    obtain rfl := h.eq_committed hdecides
    refine ⟨i + 1, Nat.le_add_left 1 i, ?_, .decided hlt hopen hdecides⟩
    cases i with
    | zero => exact Nat.le_max_left 1 _
    | succ j =>
      have hearlier := h.lt_of_undecided (hopen j (Nat.lt_succ_self j))
      exact Nat.le_trans hearlier (Nat.le_max_right 1 _)
  | unreachable hopen => exact absurd hopen hlast
  | timedOut hopen => exact absurd hopen hlast

end

/-! ## Waiting alone -/

section
variable {s : State} {count total : Nat}

/-- Without others the ledger only counts, until the question that is due. -/
theorem asked_alone (h : ledger.Live s) (hwaits : s.Waits hash)
    (hstatus : s.statuses[hash]? = some .pending)
    (hearly : count = 0 ∨ s.polls + count < ledger.commitAfter) :
    asked ledger.shared hash ⟨s, []⟩ count = ⟨s.counted count, []⟩ := by
  induction count with
  | zero => rfl
  | succ count ih =>
    have hlt : s.polls + count + 1 < ledger.commitAfter := by omega
    have hquestion : ledger.status hash (s.counted count) = (.ok .pending, s.counted (count + 1)) :=
      (h.counted count).status_of_early hwaits hstatus hlt
    rw [asked_succ, ih (by omega)]
    show Shared.mk (ledger.status hash (s.counted count)).2 [] = _
    rw [hquestion]

/-- The wait ends with the question that the ledger lacks for a commit. -/
theorem outcome_alone (h : ledger.Live s) (hwaits : s.Waits hash)
    (hstatus : s.statuses[hash]? = some .pending) (hle : ledger.commitAfter ≤ total)
    (htotal : total ≠ 0) :
    Outcome hash total (answerAfter ledger.shared hash ⟨s, []⟩)
      (max 1 (ledger.commitAfter - s.polls))
      (.ok (.committed hash (max 1 (ledger.commitAfter - s.polls)))) := by
  obtain ⟨i, hi⟩ : ∃ i, max 1 (ledger.commitAfter - s.polls) = i + 1 :=
    ⟨max 1 (ledger.commitAfter - s.polls) - 1, by omega⟩
  have hanswer : ∀ j ≤ i, answerAfter ledger.shared hash ⟨s, []⟩ j =
      (ledger.status hash (s.counted j)).1 := by
    intro j hj
    rw [answerAfter, asked_alone h hwaits hstatus (by omega)]
    rfl
  rw [hi]
  refine .decided (by omega) (fun j hj => ?_) ?_
  · have hearly : s.polls + j + 1 < ledger.commitAfter := by omega
    rw [hanswer j (Nat.le_of_lt hj), (h.counted j).status_of_early hwaits hstatus hearly]
    exact .pending
  · have hdue : ledger.commitAfter ≤ s.polls + i + 1 := by omega
    rw [hanswer i (Nat.le_refl i), (h.counted i).status_of_due hwaits hdue]
    exact .committed

end

/-! ## Calls -/

/-- A client with the settings of the ledger. -/
def sharing (ledger : Ledger S) (hvalid : ledger.config.validate = .ok ()) : Client Shared :=
  ⟨ledger.config, ledger.shared, hvalid⟩

/-- Whatever the others do that spares the transaction, the call reports its commit, after
no more questions than the ledger waits for. Alone it takes as many as the ledger lacks.
Whether the transaction succeeds does not matter. -/
structure Commits (ledger : Ledger S) (start : State) (bytes : Bytes)
    (call : Act Shared CommitResult) : Prop where
  amid : ∀ others now, (∀ ops ∈ others, ∀ op ∈ ops, op.Spares (sha256 bytes)) →
    ∃ attempts, 1 ≤ attempts ∧ attempts ≤ max 1 ledger.commitAfter ∧
      (call ⟨⟨start, others⟩, now⟩).1 = .ok (.committed (sha256 bytes) attempts)
  alone : ∀ now, (call ⟨⟨start, []⟩, now⟩).1 =
    .ok (.committed (sha256 bytes) (max 1 (ledger.commitAfter - start.polls)))

section
variable {start : State} {signer : KeyPair S} {body : Body} {t : Transaction} {m : Shared}

/-- The message is taken in, and its hash comes back. -/
theorem submit_shared (hbuilt : buildTransaction ledger.config signer body = .ok t)
    (h : Accepted S ledger.config body t t.message) :
    submit ledger.shared ledger.config signer body m =
      (.ok (sha256 t.message),
        ⟨ledger.after (ledger.met m) (.submit t.message), m.others.tail⟩) := by
  have hbytes : (Request.ofExcept (t.toBytes.mapError .encoding) : Request Shared Bytes) m =
      (.ok t.message, m) := by
    rw [h.toBytes_eq]
    rfl
  have hack : ledger.shared.submit t.message m =
      (.ok ⟨some (sha256 t.message)⟩,
        ⟨ledger.after (ledger.met m) (.submit t.message), m.others.tail⟩) := by
    show ((ledger.submit t.message (ledger.met m)).1,
      Shared.mk (ledger.submit t.message (ledger.met m)).2 m.others.tail) = _
    rw [h.pooled ledger _ rfl, Ledger.after, h.pooled ledger _ rfl]
  unfold submit
  rw [hbuilt]
  exact (Request.bind_of_ok rfl).trans
    ((Request.bind_of_ok hbytes).trans (Request.bind_of_ok hack))

/-- A transaction that was just taken in waits. -/
theorem Accepted.waits_after (h : Accepted S ledger.config body t t.message) (s : State) :
    (ledger.after s (.submit t.message)).Waits (sha256 t.message) ∧
      (ledger.after s (.submit t.message)).statuses[sha256 t.message]? = some .pending := by
  rw [Ledger.after, h.pooled ledger s rfl]
  refine ⟨?_, Std.ExtTreeMap.getElem?_insert_self⟩
  simp [State.Waits]

/-- The call of a client submits the body and waits for the hash. -/
theorem submitAndWait_eq (hvalid : ledger.config.validate = .ok ())
    (hbuilt : buildTransaction ledger.config signer body = .ok t)
    (h : Accepted S ledger.config body t t.message) (now : Nat) :
    (sharing ledger hvalid).submitAndWait signer body none ⟨m, now⟩ =
      awaitCommitment ledger.shared ledger.config (sha256 t.message) none
        ⟨⟨ledger.after (ledger.met m) (.submit t.message), m.others.tail⟩, now⟩ := by
  have hsubmit : instantly (submit ledger.shared ledger.config signer body) ⟨m, now⟩ =
      (.ok (sha256 t.message),
        ⟨⟨ledger.after (ledger.met m) (.submit t.message), m.others.tail⟩, now⟩) := by
    rw [instantly, submit_shared hbuilt h]
  exact Request.bind_of_ok hsubmit

/-- A client whose transaction is taken in learns of its commit. -/
theorem Accepted.commits (h : Accepted S ledger.config body t t.message)
    (hbuilt : buildTransaction ledger.config signer body = .ok t)
    (hvalid : ledger.config.validate = .ok ())
    (hattempts : ledger.commitAfter ≤ ledger.config.maxAttempts.toNat)
    (hlive : ledger.Live start) :
    Commits ledger start t.message ((sharing ledger hvalid).submitAndWait signer body none) := by
  have htotal : ledger.config.maxAttempts.toNat ≠ 0 := by
    intro hzero
    exact (Config.validate_eq_ok.mp hvalid).1 (UInt32.toNat_inj.mp hzero)
  have htaken : ∀ s : State, ledger.Live s → ledger.Live (ledger.after s (.submit t.message)) :=
    fun s hs => hs.after nofun
  refine ⟨?_, ?_⟩
  · intro others now hspared
    have hmet : ledger.Live (ledger.met ⟨start, others⟩) :=
      hlive.foldl_after fun op hop => (spared_head hspared op hop).runs
    obtain ⟨hwaits, hstatus⟩ := h.waits_after (ledger.met ⟨start, others⟩)
    have htracked : Tracked ledger (sha256 t.message) 0
        ⟨ledger.after (ledger.met ⟨start, others⟩) (.submit t.message), others.tail⟩ :=
      ⟨⟨htaken _ hmet, .waits hstatus hwaits (Nat.zero_le _)⟩,
        fun ops hops => hspared ops (List.mem_of_mem_tail hops)⟩
    obtain ⟨attempts, hpos, hle, houtcome⟩ := htracked.exists_outcome hattempts htotal
    refine ⟨attempts, hpos, hle, ?_⟩
    rw [submitAndWait_eq hvalid hbuilt h]
    refine congrArg Prod.fst (Ends.of_outcome htotal houtcome ?_).run
    exact nofun
  · intro now
    obtain ⟨hwaits, hstatus⟩ := h.waits_after start
    have houtcome := outcome_alone (htaken start hlive) hwaits hstatus hattempts htotal
    rw [Ledger.polls_after_submit] at houtcome
    rw [submitAndWait_eq hvalid hbuilt h]
    refine congrArg Prod.fst (Ends.of_outcome htotal houtcome ?_).run
    exact nofun

theorem exists_commits (lawful : S.Lawful) (hvalid : ledger.config.validate = .ok ())
    (hattempts : ledger.commitAfter ≤ ledger.config.maxAttempts.toNat)
    (hlive : ledger.Live start) (howner : body.owner = signer.publicKey)
    (hamount : body.amount.toNat < UInt64.size / 2) :
    ∃ t bytes, buildTransaction ledger.config signer body = .ok t ∧ t.toBytes = .ok bytes ∧
      Commits ledger start bytes ((sharing ledger hvalid).submitAndWait signer body none) := by
  obtain ⟨t, hbuilt⟩ := exists_buildTransaction ledger.config signer hamount
  have haccepted := (buildTransaction_eq_ok.mp hbuilt).accepted lawful hvalid howner
  exact ⟨t, t.message, hbuilt, haccepted.toBytes_eq,
    haccepted.commits hbuilt hvalid hattempts hlive⟩

end

/-- At any time of a run of a ledger that does not stall, a transfer or an issue of a client
with its settings is committed, if the client asks often enough. Others may submit, ask
and commit meanwhile, as long as they do not submit a transaction with the same hash or
stall the ledger. -/
theorem transfer_and_issue_commit (ledger : Ledger S) (faults : Faults) (before : List Operation)
    (signer : KeyPair S) (recipient : PublicKey) (amount seed : UInt64) (lawful : S.Lawful)
    (hvalid : ledger.config.validate = .ok ())
    (hattempts : ledger.commitAfter ≤ ledger.config.maxAttempts.toNat)
    (hrunning : (ledger.run faults before).faults.stallCommits = false)
    (hamount : amount.toNat < UInt64.size / 2) :
    (∃ t bytes, buildTransaction ledger.config signer
        (.transfer ⟨seed, signer.publicKey, recipient, amount⟩) = .ok t ∧
      t.toBytes = .ok bytes ∧
      Commits ledger (ledger.run faults before) bytes
        ((sharing ledger hvalid).transfer signer recipient amount seed none)) ∧
    ∃ t bytes, buildTransaction ledger.config signer
        (.issue ⟨signer.publicKey, amount, seed⟩) = .ok t ∧
      t.toBytes = .ok bytes ∧
      Commits ledger (ledger.run faults before) bytes
        ((sharing ledger hvalid).issue signer amount seed none) := by
  have hlive : ledger.Live (ledger.run faults before) := ⟨ledger.sound_run faults before, hrunning⟩
  exact ⟨exists_commits lawful hvalid hattempts hlive rfl hamount,
    exists_commits lawful hvalid hattempts hlive rfl hamount⟩

/-! ## An issue in company -/

/-- Somebody else opens an account. -/
def busy : State := stampLedger.run .off [.submit openedBytes]

/-- The other submits again, asks, and commits. -/
def company : List (List Operation) :=
  [[.submit openedBytes], [.status (sha256 openedBytes), .validators], [.commit]]

def stampClient : Client Shared := sharing stampLedger rfl

def ninthIssue : Body := .issue ⟨ninth.publicKey, 5, 0⟩

theorem ninthIssue_ne_opened :
    (buildTransaction stampLedger.config ninth ninthIssue).map
      (fun t => decide (sha256 openedBytes = sha256 t.message)) = .ok false := by
  decide +kernel

theorem spares_company {t : Transaction}
    (h : buildTransaction stampLedger.config ninth ninthIssue = .ok t) :
    ∀ ops ∈ company, ∀ op ∈ ops, op.Spares (sha256 t.message) := by
  have hne : sha256 openedBytes ≠ sha256 t.message := by
    have hdecided := ninthIssue_ne_opened
    rw [h] at hdecided
    exact of_decide_eq_false (Except.ok.inj hdecided)
  simp only [company, List.forall_mem_cons]
  exact ⟨⟨.submit hne, nofun⟩, ⟨.status _, .of_isQuery rfl, nofun⟩, ⟨.commit, nofun⟩, nofun⟩

/-- Neither of the two has an account. The issue is committed whatever the other does, and
without the other by the second question. -/
theorem transfer_and_issue_commit_stamped :
    stampScheme.Lawful ∧ stampLedger.config.validate = .ok () ∧
      stampLedger.commitAfter ≤ stampLedger.config.maxAttempts.toNat ∧
      busy.faults.stallCommits = false ∧ (5 : UInt64).toNat < UInt64.size / 2 ∧
      (∃ t bytes, buildTransaction stampLedger.config ninth ninthIssue = .ok t ∧
        t.toBytes = .ok bytes ∧
        (∃ attempts, 1 ≤ attempts ∧ attempts ≤ 2 ∧
          (stampClient.issue ninth 5 0 none ⟨⟨busy, company⟩, 0⟩).1 =
            .ok (.committed (sha256 bytes) attempts)) ∧
        (stampClient.issue ninth 5 0 none ⟨⟨busy, []⟩, 0⟩).1 =
          .ok (.committed (sha256 bytes) 2)) ∧
      ∃ hash, (stampClient.transfer ninth (numberedKey 7) 5 0 none ⟨⟨busy, []⟩, 0⟩).1 =
        .ok (.committed hash 2) := by
  have hvalid : stampLedger.config.validate = .ok () := rfl
  have hattempts : stampLedger.commitAfter ≤ stampLedger.config.maxAttempts.toNat := by decide
  have hstart : stampLedger.Live (stampLedger.initial .off) :=
    ⟨Ledger.sound_initial stampLedger .off, rfl⟩
  have hlive : stampLedger.Live (stampLedger.after (stampLedger.initial .off)
      (.submit openedBytes)) := hstart.after nofun
  have hrunning : busy.faults.stallCommits = false := hlive.running
  have hpolls : busy.polls = 0 := stampLedger.polls_after_submit (stampLedger.initial .off) _
  have hamount : (5 : UInt64).toNat < UInt64.size / 2 := by decide
  have htwo : max 1 (stampLedger.commitAfter - busy.polls) = 2 := by
    rw [hpolls]
    rfl
  obtain ⟨⟨_, transfer, -, -, htransfer⟩, t, bytes, hbuilt, hbytes, hissue⟩ :=
    transfer_and_issue_commit stampLedger .off [.submit openedBytes] ninth (numberedKey 7) 5 0
      Ledger.lawful_stampScheme hvalid hattempts hrunning hamount
  have halone := hissue.alone 0
  have halone' := htransfer.alone 0
  change _ = Except.ok (CommitResult.committed _ (max 1 (_ - busy.polls))) at halone halone'
  rw [htwo] at halone halone'
  refine ⟨Ledger.lawful_stampScheme, hvalid, hattempts, hrunning, hamount,
    ⟨t, bytes, hbuilt, hbytes, ?_, halone⟩, _, halone'⟩
  obtain rfl := Transaction.eq_message_of_toBytes hbytes
  exact hissue.amid company 0 (spares_company hbuilt)

end LightClient.Client

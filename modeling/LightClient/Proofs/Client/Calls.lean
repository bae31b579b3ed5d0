import LightClient.Client
import LightClient.Proofs.Client.Polling
import LightClient.Proofs.Client.Submission

/-! The calls that a client makes. They are recorded as they reach the node. A transfer or
an issue submits once, and then only asks about one hash, whatever the node answers.

An answer may be an error of any kind. A question that is cancelled while it is under way is
one that is answered by `cancelled`. -/

namespace LightClient

/-! ## Recording -/

/-- What is asked of a node. -/
inductive Call
  | validators
  | account (key : PublicKey)
  | block (height : UInt64)
  | submit (bytes : Bytes)
  | status (hash : Digest)
  deriving DecidableEq

variable {σ τ α : Type}

/-- The node behind a recorder. -/
def Node.recorded (node : Node σ) : Node (Recorded Call σ) where
  validators := .recording .validators node.validators
  account key := .recording (.account key) (node.account key)
  block height := .recording (.block height) (node.block height)
  submit bytes := .recording (.submit bytes) (node.submit bytes)
  status hash := .recording (.status hash) (node.status hash)

/-- The client of a node behind a recorder. -/
def Client.recorded (client : Client σ) : Client (Recorded Call σ) :=
  ⟨client.config, client.node.recorded, client.valid⟩

namespace Client

/-- The same time on another machine. -/
def Timed.map (f : σ → τ) (s : Timed σ) : Timed τ := ⟨f s.machine, s.now⟩

/-- Nothing is recorded yet. -/
def Timed.unrecorded (s : Timed σ) : Timed (Recorded Call σ) := s.map fun machine => ⟨machine, []⟩

/-! ## The recorder changes nothing -/

open Request (Mirrors mirrors_ofExcept mirrors_recording)

section
variable {f : σ → τ}

theorem mirrors_instantly {x : Request σ α} {y : Request τ α} (h : Mirrors f x y) :
    Mirrors (Timed.map f) (instantly x) (instantly y) := by
  intro s
  simp only [instantly, Timed.map, h s.machine]
  rfl

theorem mirrors_pause (length : Nat) (cancelAt : Option Nat) :
    Mirrors (Timed.map f) (pause length cancelAt) (pause length cancelAt) := by
  intro s
  show pause length cancelAt ⟨f s.machine, s.now⟩ = _
  cases hstop : cancelAt.filter (· ≤ s.now + length) with
  | none => simp only [pause, Timed.map, hstop]
  | some time => simp only [pause, Timed.map, hstop]

end

section
variable (node : Node σ)

/-- Waiting is the same with the recorder and without it. -/
theorem mirrors_waiting (hash : Digest) (cancelAt : Option Nat) :
    Wait.Mirrors (Timed.map Recorded.machine) (waiting node.recorded hash cancelAt)
      (waiting node hash cancelAt) where
  ask := mirrors_instantly (mirrors_recording _ _)
  sleep _ := mirrors_pause _ _
  proceed := mirrors_pause _ _

theorem mirrors_submit {S : SignatureScheme} (config : Config) (signer : KeyPair S)
    (body : Body) :
    Mirrors Recorded.machine (submit node.recorded config signer body)
      (submit node config signer body) :=
  (mirrors_ofExcept _).bind fun _ => (mirrors_ofExcept _).bind fun _ =>
    (mirrors_recording _ _).bind fun _ => fun _ => rfl

theorem mirrors_submitAndWait {S : SignatureScheme} (client : Client σ) (signer : KeyPair S)
    (body : Body) (cancelAt : Option Nat) :
    Mirrors (Timed.map Recorded.machine) (client.recorded.submitAndWait signer body cancelAt)
      (client.submitAndWait signer body cancelAt) :=
  (mirrors_instantly (mirrors_submit client.node _ _ _)).bind fun hash =>
    (mirrors_waiting client.node hash cancelAt).await client.config hash

end

/-! ## The questions of a wait -/

/-- A result is about the hash that was asked about. -/
theorem hash_of_settle {hash : Digest} {attempts : Nat}
    {answer : Except ClientError TransactionStatus} {result : CommitResult}
    (h : settle hash attempts answer = .inl (.ok result)) : result.hash = hash := by
  rcases undecided_or_decides hash attempts answer with hopen | ⟨decided, hdecides⟩
  · rw [settle_of_undecided hopen] at h
    cases h
  · rw [settle_of_decides hdecides] at h
    cases h
    cases hdecides with
    | committed => rfl
    | rejected => rfl

theorem machine_pause (length : Nat) (cancelAt : Option Nat) (s : Timed σ) :
    (pause length cancelAt s).2.machine = s.machine := by
  simp only [pause]
  split <;> rfl

/-- However it ends, a wait has asked about one hash, at most as often as it may. -/
theorem exists_asked (node : Node σ) (interval : Nat) (hash : Digest) (cancelAt : Option Nat)
    (left made : Nat) (last : Option NetworkFault) (s : Timed σ) :
    ∃ polls ≤ left,
      ((waiting node hash cancelAt).poll interval hash left made last s).2.machine =
          asked node hash s.machine polls ∧
      ∀ result, ((waiting node hash cancelAt).poll interval hash left made last s).1 = .ok result →
        result.hash = hash := by
  induction left generalizing made last s with
  | zero =>
    rw [Wait.poll_of_exhausted]
    refine ⟨0, Nat.le_refl 0, rfl, ?_⟩
    intro result h
    cases last <;> cases h
  | succ left ih =>
    have hwaited : (pause (delay interval made) cancelAt s).2.machine = s.machine :=
      machine_pause _ _ _
    rw [Wait.poll, lead_waiting]
    rcases hpause : pause (delay interval made) cancelAt s with ⟨e | ⟨⟩, machine, now⟩
    · rw [hpause] at hwaited
      rw [Request.bind_of_error hpause]
      refine ⟨0, Nat.zero_le _, hwaited, ?_⟩
      rintro result ⟨⟩
    · rw [hpause] at hwaited
      obtain rfl : machine = s.machine := hwaited
      have hask : (observing (waiting node hash cancelAt).ask : Act σ _) ⟨s.machine, now⟩ =
          (.ok (node.status hash s.machine).1, ⟨(node.status hash s.machine).2, now⟩) :=
        Request.observing_apply _ _
      rw [Request.bind_of_ok hpause, Request.bind_of_ok hask]
      cases hsettle : settle hash (made + 1) (node.status hash s.machine).1 with
      | inl result =>
        refine ⟨1, Nat.succ_le_succ (Nat.zero_le left), rfl, ?_⟩
        rintro decided rfl
        exact hash_of_settle hsettle
      | inr last =>
        obtain ⟨polls, hle, hmachine, hhash⟩ :=
          ih (made + 1) last ⟨(node.status hash s.machine).2, now⟩
        exact ⟨polls + 1, Nat.succ_le_succ hle, hmachine, hhash⟩

/-- The recorder has noted the questions down. -/
theorem asked_recorded (node : Node σ) (hash : Digest) (s : Recorded Call σ) (polls : Nat) :
    asked node.recorded hash s polls =
      ⟨asked node hash s.machine polls, s.notes ++ List.replicate polls (.status hash)⟩ := by
  induction polls with
  | zero =>
    rw [List.replicate_zero, List.append_nil]
    rfl
  | succ polls ih =>
    rw [asked_succ, ih, asked_succ, List.replicate_succ', ← List.append_assoc]
    rfl

/-- What was built is handed over once. -/
theorem submit_of_built {S : SignatureScheme} {config : Config} {signer : KeyPair S} {body : Body}
    {t : Transaction} {bytes : Bytes} (node : Node σ)
    (hbuilt : buildTransaction config signer body = .ok t) (hbytes : t.toBytes = .ok bytes)
    (machine : σ) :
    submit node config signer body machine =
      ((node.submit bytes machine).1.map fun ack => ack.txHash.getD (sha256 bytes),
        (node.submit bytes machine).2) := by
  have hbuild : Request.ofExcept (buildTransaction config signer body) machine =
      (.ok t, machine) := by
    rw [hbuilt]
    rfl
  have hread : Request.ofExcept (t.toBytes.mapError .encoding) machine = (.ok bytes, machine) := by
    rw [hbytes]
    rfl
  rw [submit, Request.bind_of_ok hbuild, Request.bind_of_ok hread, Request.bind_apply]
  rcases node.submit bytes machine with ⟨e | ack, machine'⟩
  · rfl
  · rfl

/-! ## One submission -/

/-- What a client asks of its node while a body is submitted and waited for, from the state `s`
on. The run is given without and with a recorder that has noted nothing yet. -/
structure SubmitsOnce {S : SignatureScheme} (client : Client σ) (signer : KeyPair S) (body : Body)
    (cancelAt : Option Nat) (s : Timed σ) (run : Except ClientError CommitResult × Timed σ)
    (recorded : Except ClientError CommitResult × Timed (Recorded Call σ)) : Prop where
  /-- The recorder changes nothing. -/
  same : run = (recorded.1, recorded.2.map Recorded.machine)
  /-- An amount that does not fit is refused before anything is asked. -/
  tooLarge : UInt64.size / 2 ≤ body.amount.toNat →
    run = (.error (.encoding (.amountTooLarge body.amountName body.amount)), s) ∧
      recorded.2.machine.notes = []
  /-- Any other amount is submitted once, as it was built. -/
  submitted : body.amount.toNat < UInt64.size / 2 →
    ∃ t bytes, buildTransaction client.config signer body = .ok t ∧ t.toBytes = .ok bytes ∧
      (∀ e, (client.node.submit bytes s.machine).1 = .error e →
        run.1 = .error e ∧ recorded.2.machine.notes = [.submit bytes]) ∧
      ∀ ack, (client.node.submit bytes s.machine).1 = .ok ack →
        let hash := ack.txHash.getD (sha256 bytes)
        ∃ polls ≤ client.config.maxAttempts.toNat,
          recorded.2.machine.notes = .submit bytes :: List.replicate polls (.status hash) ∧
          (∀ c, cancelAt = some c → c ≤ s.now → polls = 0) ∧
          ∀ result, run.1 = .ok result → result.hash = hash

section
variable {S : SignatureScheme} (client : Client σ) (signer : KeyPair S) {body : Body}
  (cancelAt : Option Nat) (s : Timed σ)

theorem submitAndWait_of_le (h : UInt64.size / 2 ≤ body.amount.toNat) :
    client.submitAndWait signer body cancelAt s =
      (.error (.encoding (.amountTooLarge body.amountName body.amount)), s) := by
  have hrefused : client.submitBody signer body s =
      (.error (.encoding (.amountTooLarge body.amountName body.amount)), s) := by
    have hbuild : submit client.node client.config signer body s.machine =
        (.error (.encoding (.amountTooLarge body.amountName body.amount)), s.machine) := by
      rw [submit, buildTransaction_of_le client.config signer h]
      exact Request.bind_of_error rfl
    rw [submitBody, instantly, hbuild]
  exact Request.bind_of_error hrefused

/-- What was built is submitted, and what was acknowledged is waited for. -/
theorem submitAndWait_of_built {t : Transaction} {bytes : Bytes}
    (hbuilt : buildTransaction client.config signer body = .ok t)
    (hbytes : t.toBytes = .ok bytes) :
    client.submitAndWait signer body cancelAt s =
      match client.node.submit bytes s.machine with
      | (.error e, machine) => (.error e, ⟨machine, s.now⟩)
      | (.ok ack, machine) =>
        client.awaitHash (ack.txHash.getD (sha256 bytes)) cancelAt ⟨machine, s.now⟩ := by
  have hsubmit : client.submitBody signer body s =
      ((client.node.submit bytes s.machine).1.map fun ack => ack.txHash.getD (sha256 bytes),
        ⟨(client.node.submit bytes s.machine).2, s.now⟩) := by
    rw [submitBody, instantly, submit_of_built client.node hbuilt hbytes]
  rw [submitAndWait, Request.bind_apply, hsubmit]
  rcases client.node.submit bytes s.machine with ⟨e | ack, machine⟩
  · rfl
  · rfl

/-- The questions of a wait are put down after what was asked before. -/
theorem exists_calls_awaitHash (hash : Digest) (s : Timed (Recorded Call σ)) :
    ∃ polls ≤ client.config.maxAttempts.toNat,
      (client.recorded.awaitHash hash cancelAt s).2.machine.notes =
          s.machine.notes ++ List.replicate polls (.status hash) ∧
        (∀ c, cancelAt = some c → c ≤ s.now → polls = 0) ∧
        ∀ result, (client.recorded.awaitHash hash cancelAt s).1 = .ok result →
          result.hash = hash := by
  obtain ⟨polls, hle, hmachine, hhash⟩ := exists_asked client.node.recorded
    client.config.pollInterval.toNat hash cancelAt client.config.maxAttempts.toNat 0 none s
  rw [asked_recorded] at hmachine
  by_cases hcancelled : ∃ c, cancelAt = some c ∧ c ≤ s.now
  · obtain ⟨c, rfl, hc⟩ := hcancelled
    have htotal : client.config.maxAttempts.toNat ≠ 0 := fun hzero =>
      (Config.validate_eq_ok.mp client.valid).1 (UInt32.toNat_inj.mp hzero)
    have hstop : client.recorded.awaitHash hash (some c) s = (.error .cancelled, s) :=
      (Ends.of_cancelled_before htotal hc).run
    rw [hstop]
    refine ⟨0, Nat.zero_le _, (List.append_nil _).symm, fun _ _ _ => rfl, nofun⟩
  · refine ⟨polls, hle, congrArg Recorded.notes hmachine, ?_, hhash⟩
    intro c hc hle
    exact absurd ⟨c, hc, hle⟩ hcancelled

theorem submitsOnce (body : Body) :
    SubmitsOnce client signer body cancelAt s (client.submitAndWait signer body cancelAt s)
      (client.recorded.submitAndWait signer body cancelAt s.unrecorded) where
  same := mirrors_submitAndWait client signer body cancelAt s.unrecorded
  tooLarge h := by
    refine ⟨submitAndWait_of_le client signer cancelAt s h, ?_⟩
    rw [submitAndWait_of_le client.recorded signer cancelAt s.unrecorded h]
    rfl
  submitted h := by
    obtain ⟨t, hbuilt⟩ := exists_buildTransaction client.config signer h
    have hbytes := (buildTransaction_eq_ok.mp hbuilt).toBytes_eq
    have hsame := mirrors_submitAndWait client signer body cancelAt s.unrecorded
    have hrun := submitAndWait_of_built client.recorded signer cancelAt s.unrecorded hbuilt hbytes
    have hsubmit : client.recorded.node.submit t.message s.unrecorded.machine =
        ((client.node.submit t.message s.machine).1,
          ⟨(client.node.submit t.message s.machine).2, [.submit t.message]⟩) := rfl
    rw [hsubmit] at hrun
    refine ⟨t, t.message, hbuilt, hbytes, ?_, ?_⟩
    · intro e he
      rw [he] at hrun
      rw [hrun] at hsame ⊢
      exact ⟨congrArg Prod.fst hsame, rfl⟩
    · intro ack hack hash
      rw [hack] at hrun
      obtain ⟨polls, hle, hcalls, hcancel, hhash⟩ := client.exists_calls_awaitHash cancelAt hash
        ⟨⟨(client.node.submit t.message s.machine).2, [.submit t.message]⟩, s.now⟩
      rw [hrun] at hsame ⊢
      refine ⟨polls, hle, hcalls, hcancel, ?_⟩
      intro result hresult
      exact hhash result ((congrArg Prod.fst hsame).symm.trans hresult)

end

/-- Whatever the node does, a transfer and an issue make no call at all for an amount that does
not fit a signed number, and otherwise submit the transaction that is built, once. If that
fails its error is all there is; else every further call asks about the hash that the node
acknowledged, or that of the message if it named none. There are no more of these than the
settings allow, none if the caller had cancelled before, and a result is about this hash. -/
theorem transfer_and_issue_submit_once {S : SignatureScheme} (client : Client σ)
    (signer : KeyPair S) (recipient : PublicKey) (amount seed : UInt64) (cancelAt : Option Nat)
    (s : Timed σ) :
    SubmitsOnce client signer (.transfer ⟨seed, signer.publicKey, recipient, amount⟩) cancelAt s
        (client.transfer signer recipient amount seed cancelAt s)
        (client.recorded.transfer signer recipient amount seed cancelAt s.unrecorded) ∧
      SubmitsOnce client signer (.issue ⟨signer.publicKey, amount, seed⟩) cancelAt s
        (client.issue signer amount seed cancelAt s)
        (client.recorded.issue signer amount seed cancelAt s.unrecorded) :=
  ⟨client.submitsOnce signer cancelAt s _, client.submitsOnce signer cancelAt s _⟩

theorem validate_standard : Config.standard.validate = .ok () := rfl

/-- A client of the node that cannot always be reached. -/
def flakyClient : Client ScriptedNode.State := ⟨.standard, flaky.node, validate_standard⟩

open Query (numberedKey)

/-- The same node with a hash of its own for what is submitted. -/
def naming : ScriptedNode := { flaky with ack := ⟨some (.zero 32)⟩ }

def namingClient : Client ScriptedNode.State := ⟨.standard, naming.node, validate_standard⟩

theorem undecided_naming (bytes : Bytes) :
    ∀ i < 3, Undecided (answerAfter naming.node.recorded (.zero 32)
      ⟨{ flakyScript with submitted := [bytes] }, [.submit bytes]⟩ i)
  | 0, _ => .unknown
  | 1, _ => .unreachable .refused
  | 2, _ => .pending

/-- The fourth question finds the transfer committed. -/
theorem recorded_transfer_naming :
    ∃ bytes, namingClient.recorded.transfer ninth (numberedKey 2) 5 0 none
        (Timed.unrecorded ⟨flakyScript, 0⟩) =
      (.ok (.committed (.zero 32) 4),
        ⟨⟨⟨[], [bytes], 4⟩, .submit bytes :: List.replicate 4 (.status (.zero 32))⟩, 1500⟩) := by
  have hfits : (Body.transfer ⟨0, ninth.publicKey, numberedKey 2, 5⟩).amount.toNat <
      UInt64.size / 2 := by decide
  obtain ⟨t, hbuilt⟩ := exists_buildTransaction namingClient.config ninth hfits
  have hbytes := (buildTransaction_eq_ok.mp hbuilt).toBytes_eq
  have hwait : Ends naming.node.recorded .standard (.zero 32) none
      ⟨⟨{ flakyScript with submitted := [t.message] }, [.submit t.message]⟩, 0⟩ _
      (.ok (.committed (.zero 32) 4)) _ :=
    .of_outcome (by decide) (.decided (by decide) (undecided_naming t.message) .committed) nofun
  exact ⟨t.message, (submitAndWait_of_built namingClient.recorded ninth none
    (Timed.unrecorded ⟨flakyScript, 0⟩) hbuilt hbytes).trans hwait.run⟩

/-- A transfer that is cancelled from the start is submitted and never asked about, and one of
an amount that does not fit is not even submitted. One that nobody cancels is asked about by
the hash that the node named, until it is committed. -/
theorem transfer_and_issue_submit_once_flaky :
    (∃ bytes, (flakyClient.recorded.transfer ninth (numberedKey 2) 5 0 (some 0)
        (Timed.unrecorded ⟨flakyScript, 0⟩)).2.machine.notes = [.submit bytes]) ∧
      (flakyClient.recorded.transfer ninth (numberedKey 2) 9223372036854775808 0 none
        (Timed.unrecorded ⟨flakyScript, 0⟩)).2.machine.notes = [] ∧
      (∃ bytes, (namingClient.recorded.transfer ninth (numberedKey 2) 5 0 none
        (Timed.unrecorded ⟨flakyScript, 0⟩)).2.machine.notes =
          .submit bytes :: List.replicate 4 (.status (.zero 32))) ∧
      (namingClient.transfer ninth (numberedKey 2) 5 0 none ⟨flakyScript, 0⟩).1 =
        .ok (.committed (.zero 32) 4) := by
  obtain ⟨hsmall, -⟩ := transfer_and_issue_submit_once flakyClient ninth (numberedKey 2) 5 0
    (some 0) ⟨flakyScript, 0⟩
  obtain ⟨hlarge, -⟩ := transfer_and_issue_submit_once flakyClient ninth (numberedKey 2)
    9223372036854775808 0 none ⟨flakyScript, 0⟩
  obtain ⟨hnamed, -⟩ := transfer_and_issue_submit_once namingClient ninth (numberedKey 2) 5 0
    none ⟨flakyScript, 0⟩
  have hfits : (5 : UInt64).toNat < UInt64.size / 2 := by decide
  have hover : UInt64.size / 2 ≤ (9223372036854775808 : UInt64).toNat := by decide
  obtain ⟨bytes, hrecorded⟩ := recorded_transfer_naming
  refine ⟨?_, (hlarge.tooLarge hover).2, ⟨bytes, ?_⟩, ?_⟩
  · obtain ⟨t, bytes, -, -, -, hacknowledged⟩ := hsmall.submitted hfits
    obtain ⟨polls, -, hcalls, hcancelled, -⟩ := hacknowledged ⟨none⟩ rfl
    rw [hcancelled 0 rfl (Nat.le_refl 0)] at hcalls
    exact ⟨bytes, hcalls⟩
  · rw [hrecorded]
  · rw [hnamed.same, hrecorded]

end Client

end LightClient

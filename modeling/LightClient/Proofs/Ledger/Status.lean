import LightClient.Proofs.Ledger.Replay
import Mathlib.Data.List.Nodup

/-! The table of statuses, the pool and the table of committed bytes agree. `Filed` says for
one hash in which of four ways: never seen, waiting, committed or refused. A submission
may set a hash back, but as long as no two submissions collide it is the same bytes that
come again, and the ledger judges them as it did before. -/

namespace LightClient.Ledger

open Query (created createdBytes neutralKey)

/-! ## Submissions -/

def Operation.bytes? : Operation → Option Bytes
  | .submit bytes => some bytes
  | _ => none

/-- The bytes of the submissions, in order. -/
def submitted (ops : List Operation) : List Bytes := ops.filterMap Operation.bytes?

variable {S : SignatureScheme} (ledger : Ledger S)

/-- What a ledger has against a transaction: its body cannot be read, or its owner has not
signed it. -/
inductive Objects (t : Transaction) : ClientError → Prop
  | unreadable {fault : EncodingFault} :
    t.decodeBody ledger.config.schema = .error fault → Objects t (.encoding fault)
  | unsigned {body : Body} {signed : Bytes} :
    t.decodeBody ledger.config.schema = .ok body → t.signedBytes = .ok signed →
    S.verify body.owner signed t.signature = false → Objects t (.invalidSignature 0)

/-- One of the bytes is a transaction with the hash, and this is said of it. -/
def Judged (seen : List Bytes) (hash : Digest) (status : TransactionStatus) : Prop :=
  ∃ bytes ∈ seen, ∃ transaction,
    Transaction.ofBytes bytes = .ok transaction ∧ sha256 bytes = hash ∧
      ledger.verdict transaction = status

/-- A transaction with the hash is in the pool. -/
def State.Waits (s : State) (hash : Digest) : Prop := hash ∈ s.pool.map Pooled.hash

instance (s : State) (hash : Digest) : Decidable (s.Waits hash) :=
  inferInstanceAs (Decidable (hash ∈ s.pool.map Pooled.hash))

/-- Where a hash stands after the bytes were submitted. -/
inductive Filed (seen : List Bytes) (s : State) (hash : Digest) : Prop
  | unseen :
    s.statuses[hash]? = none → ¬ s.Waits hash → hash ∉ s.committed →
    (∀ status, ¬ ledger.Judged seen hash status) → Filed seen s hash
  /-- It may have been committed before. -/
  | pending :
    s.statuses[hash]? = some .pending → s.Waits hash → ledger.Judged seen hash .pending →
    Filed seen s hash
  | committed :
    s.statuses[hash]? = some .committed → ¬ s.Waits hash → hash ∈ s.committed →
    ledger.Judged seen hash .pending → Filed seen s hash
  | rejected {reason : String} :
    s.statuses[hash]? = some (.rejected reason) → ¬ s.Waits hash → hash ∉ s.committed →
    ledger.Judged seen hash (.rejected reason) → Filed seen s hash

section
variable {ledger} {s s' : State} {hash : Digest} {seen : List Bytes}

theorem checkedBody_of_signed {t : Transaction} {body : Body} {signed : Bytes}
    (hbody : t.decodeBody ledger.config.schema = .ok body) (hsigned : t.signedBytes = .ok signed) :
    ledger.checkedBody t =
      if S.verify body.owner signed t.signature then .ok body
      else .error (.invalidSignature 0) := by
  simp only [checkedBody, hbody, Transaction.signedByOwner, hsigned]
  rfl

theorem objects_of_checkedBody {bytes : Bytes} {t : Transaction} {error : ClientError}
    (hparsed : Transaction.ofBytes bytes = .ok t) (h : ledger.checkedBody t = .error error) :
    ledger.Objects t error := by
  obtain ⟨hlt, -⟩ := Transaction.toBytes_eq_ok.mp (Transaction.toBytes_of_ofBytes hparsed)
  have hsigned := Transaction.signedBytes_eq_ok.mpr ⟨hlt, rfl⟩
  cases hbody : t.decodeBody ledger.config.schema with
  | error fault =>
    simp only [checkedBody, hbody] at h
    cases h
    exact .unreadable hbody
  | ok body =>
    rw [checkedBody_of_signed hbody hsigned] at h
    split at h
    · cases h
    · rename_i hverify
      cases h
      exact .unsigned hbody hsigned (Bool.eq_false_iff.mpr hverify)

theorem objects_of_verdict {bytes : Bytes} {t : Transaction} {reason : String}
    (hparsed : Transaction.ofBytes bytes = .ok t) (h : ledger.verdict t = .rejected reason) :
    ∃ error, ledger.Objects t error ∧ reason = error.message := by
  unfold verdict at h
  cases hbody : ledger.checkedBody t with
  | ok body =>
    rw [hbody] at h
    cases h
  | error error =>
    rw [hbody] at h
    cases h
    exact ⟨error, objects_of_checkedBody hparsed hbody, rfl⟩

theorem Admitted.transaction_hash {p : Pooled} (h : ledger.Admitted p) :
    p.transaction.hash = .ok p.hash := by
  rw [Transaction.hash, h.toBytes_eq, h.hash_eq]
  rfl

/-- The bytes of what was executed are stored under their hash. -/
theorem Sound.sha256_stored (h : ledger.Sound s) {bytes : Bytes}
    (hstored : s.committed[hash]? = some bytes) : sha256 bytes = hash := by
  obtain ⟨p, hadmitted, rfl, rfl⟩ := h.stored hash bytes hstored
  exact hadmitted.hash_eq.symm

/-! ## Judgements -/

/-- Without a collision the same is said of all bytes with one hash. -/
theorem Judged.unique (hsafe : ¬ Collision seen) {status status' : TransactionStatus}
    (h : ledger.Judged seen hash status) (h' : ledger.Judged seen hash status') :
    status = status' := by
  obtain ⟨bytes, hmem, t, hparsed, hhash, rfl⟩ := h
  obtain ⟨bytes', hmem', t', hparsed', hhash', rfl⟩ := h'
  obtain rfl := eq_of_sha256_eq hsafe hmem hmem' (hhash.trans hhash'.symm)
  rw [hparsed] at hparsed'
  cases hparsed'
  rfl

theorem Judged.append {status : TransactionStatus} (h : ledger.Judged seen hash status)
    (more : List Bytes) : ledger.Judged (seen ++ more) hash status := by
  obtain ⟨bytes, hmem, hjudged⟩ := h
  exact ⟨bytes, List.mem_append_left _ hmem, hjudged⟩

/-- Bytes that are no transaction with the hash say nothing of it. -/
theorem judged_concat {bytes : Bytes}
    (hother : ∀ t, Transaction.ofBytes bytes = .ok t → sha256 bytes ≠ hash)
    {status : TransactionStatus} :
    ledger.Judged (seen ++ [bytes]) hash status ↔ ledger.Judged seen hash status := by
  constructor
  · rintro ⟨bytes', hmem, t, hparsed, hhash, hverdict⟩
    rcases List.mem_append.mp hmem with hmem | hmem
    · exact ⟨bytes', hmem, t, hparsed, hhash, hverdict⟩
    · obtain rfl := List.mem_singleton.mp hmem
      exact absurd hhash (hother t hparsed)
  · intro h
    exact h.append [bytes]

theorem judged_self {bytes : Bytes} {t : Transaction} {status : TransactionStatus}
    (h : Transaction.ofBytes bytes = .ok t) (hverdict : ledger.verdict t = status) :
    ledger.Judged (seen ++ [bytes]) (sha256 bytes) status :=
  ⟨bytes, List.mem_concat_self, t, h, rfl, hverdict⟩

/-! ## One operation -/

/-- What is filed about a hash depends on its status, on whether it waits and on whether it
was committed. -/
theorem Filed.congr {seen' : List Bytes} (h : ledger.Filed seen s hash)
    (hstatus : s'.statuses[hash]? = s.statuses[hash]?) (hwaits : s'.Waits hash ↔ s.Waits hash)
    (hcommitted : hash ∈ s'.committed ↔ hash ∈ s.committed)
    (hseen : ∀ status, ledger.Judged seen' hash status ↔ ledger.Judged seen hash status) :
    ledger.Filed seen' s' hash := by
  cases h with
  | unseen hold hwait hout hunseen =>
    refine .unseen (hstatus.trans hold) (mt hwaits.mp hwait) (mt hcommitted.mp hout) ?_
    intro status hjudged
    exact hunseen status ((hseen status).mp hjudged)
  | pending hold hwait hjudged =>
    exact .pending (hstatus.trans hold) (hwaits.mpr hwait) ((hseen _).mpr hjudged)
  | committed hold hwait hin hjudged =>
    exact .committed (hstatus.trans hold) (mt hwaits.mp hwait) (hcommitted.mpr hin)
      ((hseen _).mpr hjudged)
  | rejected hold hwait hout hjudged =>
    exact .rejected (hstatus.trans hold) (mt hwaits.mp hwait) (mt hcommitted.mp hout)
      ((hseen _).mpr hjudged)

/-- What is in the pool was executed, and is committed with what was committed before. -/
theorem mem_executed_committed :
    hash ∈ s.executed.committed ↔ s.Waits hash ∨ hash ∈ s.committed := by
  rw [State.executed, State.foldl_record, State.Waits]
  show hash ∈ s.pool.foldl (fun kept p => kept.insert p.hash p.transaction.message) s.committed ↔ _
  generalize s.committed = kept
  induction s.pool generalizing kept with
  | nil => simp
  | cons p rest ih =>
    rw [List.foldl_cons, ih, Std.ExtTreeMap.mem_insert]
    simp only [Std.LawfulEqCmp.compare_eq_iff_eq, List.map_cons, List.mem_cons]
    grind

theorem Filed.executed (h : ledger.Filed seen s hash) (root : Digest) :
    ledger.Filed seen (ledger.extend s.executed (s.pool.map Pooled.hash) root) hash := by
  have hstatus : s.executed.statuses[hash]? =
      if s.Waits hash then some .committed else s.statuses[hash]? :=
    s.getElem?_executed_statuses hash
  have hcommitted : hash ∈ s.executed.committed ↔ s.Waits hash ∨ hash ∈ s.committed :=
    mem_executed_committed
  have hempty : ¬ (ledger.extend s.executed (s.pool.map Pooled.hash) root).Waits hash := by
    simp [State.Waits, extend]
  by_cases hwaits : s.Waits hash
  · -- it is executed now, and the pool only holds what was let in
    rw [if_pos hwaits] at hstatus
    cases h with
    | unseen _ hwait => exact absurd hwaits hwait
    | pending _ _ hjudged =>
      exact .committed hstatus hempty (hcommitted.mpr (Or.inl hwaits)) hjudged
    | committed _ hwait => exact absurd hwaits hwait
    | rejected _ hwait => exact absurd hwaits hwait
  · rw [if_neg hwaits] at hstatus
    refine h.congr hstatus ⟨fun hwait => absurd hwait hempty, fun hwait => absurd hwait hwaits⟩
      (hcommitted.trans ?_) fun _ => Iff.rfl
    exact ⟨fun hor => hor.resolve_left hwaits, Or.inr⟩

/-- A hash that was let in does not come again with bytes that are refused. -/
theorem Filed.not_waits_of_judged (h : ledger.Filed seen s hash) {seen' : List Bytes}
    (hsafe : ¬ Collision (seen ++ seen')) {reason : String}
    (hjudged : ledger.Judged (seen ++ seen') hash (.rejected reason)) :
    ¬ s.Waits hash ∧ hash ∉ s.committed := by
  have hconflict : ¬ ledger.Judged seen hash .pending := by
    intro hpending
    cases (hpending.append seen').unique hsafe hjudged
  cases h with
  | unseen _ hwait hout => exact ⟨hwait, hout⟩
  | pending _ _ hpending => exact absurd hpending hconflict
  | committed _ _ _ hpending => exact absurd hpending hconflict
  | rejected _ hwait hout => exact ⟨hwait, hout⟩

theorem bytes?_of_commits {op : Operation} (h : ledger.commits s op = true) :
    op.bytes? = none := by
  cases op <;> first | rfl | cases h

theorem bytes?_of_isQuery {op : Operation} (h : op.isQuery = true) : op.bytes? = none := by
  cases op <;> first | rfl | cases h

theorem submitted_singleton {op : Operation} (h : op.bytes? = none) : submitted [op] = [] := by
  rw [submitted, List.filterMap_cons_none h, List.filterMap_nil]

theorem submitted_cons (op : Operation) (ops : List Operation) :
    submitted (op :: ops) = submitted [op] ++ submitted ops := by
  rw [submitted, ← List.singleton_append, List.filterMap_append]
  rfl

/-- Every operation keeps the filing of a hash in order. -/
theorem Filed.after (h : ledger.Filed seen s hash) (hsound : ledger.Sound s) (op : Operation)
    (hsafe : ¬ Collision (seen ++ submitted [op])) :
    ledger.Filed (seen ++ submitted [op]) (ledger.after s op) hash := by
  have hstep := hsound.steps op
  generalize ledger.after s op = s' at hstep
  cases hstep with
  | unread hparsed =>
    refine h.congr rfl Iff.rfl Iff.rfl fun _ => judged_concat fun t hok => ?_
    rw [hparsed] at hok
    cases hok
  | @refused bytes t error hparsed hbody =>
    by_cases hhash : sha256 bytes = hash
    · subst hhash
      have hverdict : ledger.verdict t = .rejected error.message := by rw [verdict, hbody]
      obtain ⟨hwait, hout⟩ := h.not_waits_of_judged hsafe (judged_self hparsed hverdict)
      exact .rejected Std.ExtTreeMap.getElem?_insert_self hwait hout (judged_self hparsed hverdict)
    · exact h.congr (getElem?_insert_status hhash _) Iff.rfl Iff.rfl
        fun _ => judged_concat fun _ _ => hhash
  | @pooled bytes t body hparsed hbody =>
    by_cases hhash : sha256 bytes = hash
    · subst hhash
      have hverdict : ledger.verdict t = .pending := by rw [verdict, hbody]
      refine .pending Std.ExtTreeMap.getElem?_insert_self ?_ (judged_self hparsed hverdict)
      simp [State.Waits]
    · refine h.congr (getElem?_insert_status hhash _) ?_ Iff.rfl
        fun _ => judged_concat fun _ _ => hhash
      simp [State.Waits, Ne.symm hhash]
  | waited =>
    rw [submitted_singleton rfl, List.append_nil]
    exact h.congr rfl Iff.rfl Iff.rfl fun _ => Iff.rfl
  | @executed _ root hcommits =>
    rw [submitted_singleton (bytes?_of_commits hcommits), List.append_nil]
    exact h.executed root
  | faulted =>
    rw [submitted_singleton rfl, List.append_nil]
    exact h.congr rfl Iff.rfl Iff.rfl fun _ => Iff.rfl
  | asked hquery =>
    rw [submitted_singleton (bytes?_of_isQuery hquery), List.append_nil]
    exact h

theorem Filed.pending_iff (h : ledger.Filed seen s hash) :
    s.statuses[hash]? = some .pending ↔ s.Waits hash := by
  cases h with
  | unseen hold hwait => simp [hold, hwait]
  | pending hold hwait => simp [hold, hwait]
  | committed hold hwait => simp [hold, hwait]
  | rejected hold hwait => simp [hold, hwait]

theorem Filed.of_committed (h : ledger.Filed seen s hash)
    (hstatus : s.statuses[hash]? = some .committed) : ¬ s.Waits hash ∧ hash ∈ s.committed := by
  cases h with
  | committed _ hwait hin => exact ⟨hwait, hin⟩
  | _ hold => simp [hold] at hstatus

theorem Filed.of_rejected (h : ledger.Filed seen s hash) {reason : String}
    (hstatus : s.statuses[hash]? = some (.rejected reason)) :
    ¬ s.Waits hash ∧ hash ∉ s.committed ∧ ledger.Judged seen hash (.rejected reason) := by
  cases h with
  | rejected hold hwait hout hjudged =>
    rw [hold] at hstatus
    cases hstatus
    exact ⟨hwait, hout, hjudged⟩
  | _ hold => simp [hold] at hstatus

theorem Filed.ne_unknown (h : ledger.Filed seen s hash) : s.statuses[hash]? ≠ some .unknown := by
  cases h with
  | _ hold => simp [hold]

theorem Filed.none_iff (h : ledger.Filed seen s hash) :
    s.statuses[hash]? = none ↔ ∀ status, ¬ ledger.Judged seen hash status := by
  cases h with
  | unseen hold _ _ hunseen => simp [hold, hunseen]
  | pending hold _ hjudged => simpa [hold] using ⟨_, hjudged⟩
  | committed hold _ _ hjudged => simpa [hold] using ⟨_, hjudged⟩
  | rejected hold _ _ hjudged => simpa [hold] using ⟨_, hjudged⟩

theorem Filed.foldl_after (h : ledger.Filed seen s hash) (hsound : ledger.Sound s)
    (ops : List Operation) (hsafe : ¬ Collision (seen ++ submitted ops)) :
    ledger.Filed (seen ++ submitted ops) (ops.foldl ledger.after s) hash := by
  induction ops generalizing s seen with
  | nil => rwa [submitted, List.filterMap_nil, List.append_nil]
  | cons op ops ih =>
    rw [submitted_cons, ← List.append_assoc] at hsafe ⊢
    exact ih (h.after hsound op (not_collision_append hsafe).1) (hsound.after op) hsafe

theorem filed_initial (ledger : Ledger S) (faults : Faults) (hash : Digest) :
    ledger.Filed [] (ledger.initial faults) hash := by
  refine .unseen (by simp [initial]) (by simp [State.Waits, initial]) (by simp [initial]) ?_
  rintro status ⟨bytes, hmem, -⟩
  cases hmem

end

theorem filed_run (faults : Faults) (ops : List Operation) (hash : Digest)
    (hsafe : ¬ Collision (submitted ops)) :
    ledger.Filed (submitted ops) (ledger.run faults ops) hash :=
  (filed_initial ledger faults hash).foldl_after (sound_initial ledger faults) ops hsafe

/-! ## The table of statuses -/

/-- As long as no two submissions collide, the status of a hash is pending while a
transaction with it is in the pool, committed once the bytes are stored and nothing waits,
rejected when its bytes were refused, and missing when no transaction with it was submitted.
Bytes that are no transaction are an error and change nothing. -/
theorem statuses_run (faults : Faults) (ops : List Operation) (hash : Digest)
    (hsafe : ¬ Collision (submitted ops)) :
    let s := ledger.run faults ops
    (s.statuses[hash]? = some .pending ↔ ∃ p ∈ s.pool, p.hash = hash) ∧
    (∀ p ∈ s.pool, p.transaction.hash = .ok p.hash) ∧
    (s.statuses[hash]? = some .committed →
      (∃ bytes, s.committed[hash]? = some bytes ∧ sha256 bytes = hash) ∧
        ∀ p ∈ s.pool, p.hash ≠ hash) ∧
    (∀ reason, s.statuses[hash]? = some (.rejected reason) →
      (∀ p ∈ s.pool, p.hash ≠ hash) ∧ hash ∉ s.committed ∧
        ∃ bytes ∈ submitted ops, ∃ t error, sha256 bytes = hash ∧
          Transaction.ofBytes bytes = .ok t ∧ ledger.Objects t error ∧ reason = error.message) ∧
    s.statuses[hash]? ≠ some .unknown ∧
    (s.statuses[hash]? = none ↔
      ∀ bytes ∈ submitted ops, ∀ t, Transaction.ofBytes bytes = .ok t → sha256 bytes ≠ hash) ∧
    ∀ bytes fault, Transaction.ofBytes bytes = .error fault →
      ledger.submit bytes s = (.error (.encoding fault), s) := by
  intro s
  have hsound : ledger.Sound s := ledger.sound_run faults ops
  have hfiled : ledger.Filed (submitted ops) s hash := ledger.filed_run faults ops hash hsafe
  have hpool : s.Waits hash ↔ ∃ p ∈ s.pool, p.hash = hash := List.mem_map
  have hidle : ¬ s.Waits hash → ∀ p ∈ s.pool, p.hash ≠ hash :=
    fun hwait p hp heq => hwait (hpool.mpr ⟨p, hp, heq⟩)
  refine ⟨hfiled.pending_iff.trans hpool, fun p hp => (hsound.admitted p hp).transaction_hash,
    ?_, ?_, hfiled.ne_unknown, hfiled.none_iff.trans ?_, fun _ _ => submit_of_unread⟩
  · intro hstatus
    obtain ⟨hwait, hin⟩ := hfiled.of_committed hstatus
    obtain ⟨bytes, hbytes⟩ :=
      Option.isSome_iff_exists.mp (Std.ExtTreeMap.mem_iff_isSome_getElem?.mp hin)
    exact ⟨⟨bytes, hbytes, hsound.sha256_stored hbytes⟩, hidle hwait⟩
  · intro reason hstatus
    obtain ⟨hwait, hout, bytes, hmem, t, hparsed, hhash, hverdict⟩ := hfiled.of_rejected hstatus
    obtain ⟨error, hobjects, hreason⟩ := objects_of_verdict hparsed hverdict
    exact ⟨hidle hwait, hout, bytes, hmem, t, error, hhash, hparsed, hobjects, hreason⟩
  · constructor
    · intro hunseen bytes hmem t hparsed hhash
      exact hunseen _ ⟨bytes, hmem, t, hparsed, hhash, rfl⟩
    · rintro hnever status ⟨bytes, hmem, t, hparsed, hhash, -⟩
      exact hnever bytes hmem t hparsed hhash

/-! ## One of each -/

def createdEntry : Pooled := ⟨sha256 createdBytes, created, .createAccount ⟨neutralKey, 0⟩⟩

theorem checkedBody_created :
    neutralLedger.checkedBody created = .ok (.createAccount ⟨neutralKey, 0⟩) := by
  obtain ⟨-, hbody, hsigned⟩ := Query.genuine_verifiedCreated
  exact neutralLedger.checkedBody_eq_ok.mpr ⟨hbody, hsigned⟩

/-- The creation of the account without a signature. -/
def forged : Transaction := { created with signature := .blank }

def forgedBytes : Bytes :=
  [0, 0, 2, 0, 128, 0, 108, 0, 0, 0] ++ created.body ++ Signature.blank.bytes.toList

/-- One submission is executed, one waits, one is refused and one is not read. -/
def mixed : List Operation :=
  [.submit createdBytes] ++ [.commit] ++ [.submit issuedBytes, .submit forgedBytes, .submit [0]]

theorem ofBytes_forged : Transaction.ofBytes forgedBytes = .ok forged :=
  Transaction.ofBytes_of_toBytes rfl

theorem ofBytes_zero : Transaction.ofBytes [0] = .error (.messageTooShort 1) := rfl

theorem checkedBody_forged : neutralLedger.checkedBody forged = .error (.invalidSignature 0) := by
  have hdecoded : forged.decodeBody neutralLedger.config.schema =
      .ok (.createAccount ⟨neutralKey, 0⟩) :=
    (neutralLedger.checkedBody_eq_ok.mp checkedBody_created).1
  exact (checkedBody_of_signed hdecoded rfl).trans (if_neg (by decide))

theorem nodup_mixed : ((submitted mixed).map sha256).Nodup := by
  decide +kernel

theorem not_collision_mixed : ¬ Collision (submitted mixed) := by
  rintro ⟨x, hx, y, hy, hne, heq⟩
  exact hne (List.inj_on_of_nodup_map nodup_mixed hx hy heq)

/-- What the first submission left, with the two that were read after it. -/
theorem run_mixed :
    let s := neutralLedger.run .off ([.submit createdBytes] ++ [.commit])
    neutralLedger.run .off mixed =
      { s with
        statuses := (s.statuses.insert (sha256 issuedBytes) .pending).insert (sha256 forgedBytes)
          (.rejected (ClientError.invalidSignature 0).message)
        pool := [issuedEntry] } := by
  intro s
  have hempty : s.pool = [] := (neutralLedger.run_commit .off [.submit createdBytes]).1
  rw [mixed, run_append]
  simp only [List.foldl_cons, List.foldl_nil, Ledger.after,
    submit_of_pooled ofBytes_issued checkedBody_issued,
    submit_of_refused ofBytes_forged checkedBody_forged, submit_of_unread ofBytes_zero]
  show _ = { s with statuses := _, pool := [] ++ [issuedEntry] }
  rw [← hempty]
  rfl

theorem waits_issued_mixed :
    ∃ p ∈ (neutralLedger.run .off mixed).pool, p.hash = sha256 issuedBytes := by
  rw [run_mixed]
  exact ⟨issuedEntry, List.mem_singleton_self _, rfl⟩

theorem status_forged_mixed :
    (neutralLedger.run .off mixed).statuses[sha256 forgedBytes]? =
      some (.rejected (ClientError.invalidSignature 0).message) := by
  rw [run_mixed]
  exact Std.ExtTreeMap.getElem?_insert_self

theorem status_created_mixed :
    (neutralLedger.run .off mixed).statuses[sha256 createdBytes]? = some .committed := by
  have hnodup := nodup_mixed
  simp only [submitted, mixed, List.cons_append, List.nil_append, List.filterMap_cons,
    Operation.bytes?, List.filterMap_nil, List.map_cons, List.map_nil, List.nodup_cons,
    List.mem_cons, not_or] at hnodup
  obtain ⟨⟨hissued, hforged, -⟩, -⟩ := hnodup
  have hparsed : Transaction.ofBytes createdBytes = .ok created :=
    Transaction.ofBytes_of_toBytes rfl
  have hpool : createdEntry ∈ (neutralLedger.run .off [.submit createdBytes]).pool := by
    rw [run, List.foldl_cons, List.foldl_nil, Ledger.after,
      submit_of_pooled hparsed checkedBody_created]
    exact List.mem_singleton_self _
  rw [run_mixed, getElem?_insert_status (Ne.symm hforged),
    getElem?_insert_status (Ne.symm hissued)]
  exact (neutralLedger.run_commit .off [.submit createdBytes]).2.2 createdEntry hpool

/-- Each of the four stands as it should. -/
theorem statuses_run_mixed :
    let s := neutralLedger.run .off mixed
    ¬ Collision (submitted mixed) ∧
      s.statuses[sha256 issuedBytes]? = some .pending ∧
      (∃ bytes, s.committed[sha256 createdBytes]? = some bytes ∧
        sha256 bytes = sha256 createdBytes) ∧
      (∃ bytes ∈ submitted mixed, ∃ t error, sha256 bytes = sha256 forgedBytes ∧
        Transaction.ofBytes bytes = .ok t ∧ neutralLedger.Objects t error) ∧
      s.statuses[sha256 [0]]? = none := by
  intro s
  have hsafe := not_collision_mixed
  obtain ⟨hpending, -⟩ := neutralLedger.statuses_run .off mixed (sha256 issuedBytes) hsafe
  obtain ⟨-, -, hcommitted, -⟩ := neutralLedger.statuses_run .off mixed (sha256 createdBytes) hsafe
  obtain ⟨-, -, -, hrejected, -⟩ :=
    neutralLedger.statuses_run .off mixed (sha256 forgedBytes) hsafe
  obtain ⟨-, -, -, -, -, hnone, -⟩ := neutralLedger.statuses_run .off mixed (sha256 [0]) hsafe
  refine ⟨hsafe, hpending.mpr waits_issued_mixed, (hcommitted status_created_mixed).1, ?_,
    hnone.mpr ?_⟩
  · obtain ⟨-, -, bytes, hmem, t, error, hhash, hparsed, hobjects, -⟩ :=
      hrejected _ status_forged_mixed
    exact ⟨bytes, hmem, t, error, hhash, hparsed, hobjects⟩
  · intro bytes hmem t hparsed hhash
    rw [eq_of_sha256_eq hsafe hmem (by simp [submitted, mixed, Operation.bytes?]) hhash,
      ofBytes_zero] at hparsed
    cases hparsed

end LightClient.Ledger

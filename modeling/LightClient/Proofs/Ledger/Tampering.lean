import LightClient.Proofs.Ledger.History
import LightClient.Proofs.Query.Refusal
import LightClient.Proofs.Trie.Rehash

/-! Answers that were tampered with. Each fault of a ledger spoils one link of the chain, and a
client that follows the chain stops at that link: at the block if too few precommits are left,
at the table if a hash of its proof was changed, and at the transactions if one is left out. -/

namespace LightClient

/-! ## What the faults change -/

/-- A mask that is not empty changes the first byte. -/
theorem FixedBytes.xorHead_ne {n : Nat} (a : FixedBytes (n + 1)) {mask : UInt8}
    (hmask : mask ≠ 0) : a.xorHead mask ≠ a := by
  intro h
  have hbytes := congrArg FixedBytes.toList h
  match hlist : a.toList, a.length_toList with
  | byte :: rest, _ =>
    simp only [xorHead, hlist, List.modifyHead_cons, List.cons.injEq, and_true] at hbytes
    have hzero := congrArg (byte ^^^ ·) hbytes
    simp only [← UInt8.xor_assoc, UInt8.xor_self, UInt8.zero_xor] at hzero
    exact hmask hzero

namespace Faults

variable {faults : Faults}

theorem tamperBlock_of_none (h : faults.keepPrecommits = none) (proof : BlockProof) :
    faults.tamperBlock proof = proof := by
  simp only [tamperBlock, h]

theorem tamperBlock_of_some {count : Nat} (h : faults.keepPrecommits = some count)
    (proof : BlockProof) :
    faults.tamperBlock proof = ⟨proof.header, proof.precommits.take count⟩ := by
  simp only [tamperBlock, h]

/-- Only the first node gets another hash. -/
theorem rehashed_tamperTable (proof : Trie.MapProof) :
    Trie.MapProof.Rehashed proof (faults.tamperTable proof) := by
  unfold tamperTable
  split
  · refine ⟨?_, rfl, rfl⟩
    cases proof.nodes with
    | nil => rfl
    | cons n rest => rfl
  · exact ⟨rfl, rfl, rfl⟩

/-- A table proof that passed is refused once its first node was changed. -/
theorem check_tamperTable (h : faults.corruptTableProof = true) {proof : Trie.MapProof}
    {root : Digest} {c : Trie.Checked} (hcheck : proof.check root = .ok c)
    (hne : proof.nodes ≠ [])
    (hsafe : ¬ Collision (proof.inputs ++ (faults.tamperTable proof).inputs)) :
    ∃ computed, (faults.tamperTable proof).check root = .error (.wrongRoot computed root) := by
  obtain ⟨n, rest, hnodes⟩ := List.exists_cons_of_ne_nil hne
  have hn : n ∈ proof.nodes := hnodes ▸ List.mem_cons_self
  have hchanged : ⟨n.path, n.hash.xorHead 1⟩ ∈ (faults.tamperTable proof).nodes := by
    simp only [tamperTable, if_pos h, hnodes, List.modifyHead_cons]
    exact List.mem_cons_self
  have hhash : n.hash ≠ n.hash.xorHead 1 := (n.hash.xorHead_ne (by decide)).symm
  exact (rehashed_tamperTable proof).check_eq_error hcheck hn hchanged rfl hhash hsafe

end Faults

namespace BlockProof

/-- Flawless precommits that are too few are all counted. -/
theorem verify_of_flawless {S : SignatureScheme} {proof : BlockProof} {validators : ValidatorSet}
    (hpos : 0 < validators.keys.length)
    (hflawless : Flawless S validators proof.header.encode proof.precommits)
    (hfew : 3 * proof.precommits.length ≤ 2 * validators.keys.length) :
    proof.verify S validators =
      .error ⟨proof.precommits.length, validators.quorum, validators.keys.length⟩ := by
  have hcount := countSigners_eq_ok.mpr ⟨hflawless, rfl⟩
  unfold verify
  simp only [if_neg (Nat.ne_of_gt hpos), hcount, if_neg (Nat.not_lt.mpr hfew)]

end BlockProof

/-! ## Where the chain stops -/

namespace Query

section
variable {S : SignatureScheme} {config : Config} {validators : ValidatorSet} {key : PublicKey}
  {response : AccountResponse} {entries : List HistoryEntry} {e : ClientError}

theorem verifyAccount_of_block
    (h : verifyBlockProof S response.blockProof validators = .error e) :
    verifyAccount S config validators key response = .error e := by
  rw [verifyAccount, h]
  rfl

theorem verifyAccount_of_tableRoot (htrusted : response.blockProof.Trusted S validators)
    (h : tableRoot config response.tableProof response.blockProof.header.stateHash = .error e) :
    verifyAccount S config validators key response = .error e := by
  rw [verifyAccount, verifyBlockProof_eq_ok.mpr ⟨htrusted, rfl⟩]
  simp only [bind, Except.bind, h]

theorem tableRoot_of_check {proof : Trie.MapProof} {stateHash : Digest} {fault : Trie.ProofFault}
    (h : proof.check stateHash = .error fault) :
    tableRoot config proof stateHash = .error (.ofTrieFault fault) := by
  rw [tableRoot, lookUp, h]
  rfl

theorem Established.historyLength (h : Established S config validators key response entries)
    (hcount : response.transactions.length ≠ entries.length) :
    verifyAccount S config validators key response =
      .error (.historyLength response.transactions.length entries.length) := by
  obtain ⟨found, heq⟩ := h.verifyAccount_eq
  rw [heq, transactions_eq_error.mpr (Or.inl ⟨hcount, rfl⟩)]
  rfl

/-- An answer that passes has one message for each of the entries that it establishes. -/
theorem established_of_verifyAccount {v : VerifiedAccount}
    (h : verifyAccount S config validators key response = .ok v) :
    Established S config validators key response (v.transactions.map VerifiedTransaction.entry) ∧
      response.transactions.length = v.transactions.length := by
  obtain ⟨hblock, -, root, entries, hroot, hfound, hentries, hts⟩ := verifyAccount_eq_ok.mp h
  obtain ⟨rfl, hraw, -⟩ := transactions_eq_ok.mp hts
  refine ⟨⟨(verifyBlockProof_eq_ok.mp hblock).1, root, _, hroot, hfound, hentries⟩, ?_⟩
  simpa using congrArg List.length hraw

end

end Query

/-! ## Where the tables lie -/

theorem Trie.size_insert_insert {first second : Trie.MapKey} (h : first ≠ second)
    (value value' : Bytes) :
    (((∅ : Trie.Entries).insert first value).insert second value').size = 2 := by
  rw [Std.ExtTreeMap.size_insert, Std.ExtTreeMap.size_insert]
  simp [h]

/-- The byte string that is hashed for the place of a table. -/
def tableInput (service table : UInt16) : Bytes :=
  [little 2 service.toNat, little 2 table.toNat].flatten

theorem sha256_tableInput (service table : UInt16) :
    sha256 (tableInput service table) = tableKey service table := rfl

theorem little_two_injective {a b : UInt16} (h : little 2 a.toNat = little 2 b.toNat) : a = b := by
  have hvalue := congrArg ofLittle h
  rw [ofLittle_little, ofLittle_little, Nat.mod_eq_of_lt a.toNat_lt, Nat.mod_eq_of_lt b.toNat_lt]
    at hvalue
  exact UInt16.toNat_inj.mp hvalue

theorem tableInput_injective {a b c d : UInt16} (h : tableInput a b = tableInput c d) :
    (a, b) = (c, d) := by
  simp only [tableInput, List.flatten_cons, List.flatten_nil, List.append_nil] at h
  obtain ⟨hservice, htable⟩ := List.append_inj h (by simp)
  rw [little_two_injective hservice, little_two_injective htable]

namespace Ledger

section
variable {S : SignatureScheme} {ledger : Ledger S} {s : State} {key : PublicKey}
  {account : Account}

/-- The state has a table beside that of the accounts. -/
theorem size_stateMap (table : Trie.Entries)
    (hplace : (ledger.config.schema.serviceId, ledger.config.tableIndex) ≠ (0, 0))
    (hsafe : ¬ Collision [tableInput 0 0,
      tableInput ledger.config.schema.serviceId ledger.config.tableIndex]) :
    (ledger.stateMap table).size = 2 := by
  have hkey : tableKey 0 0 ≠ ledger.accountsKey := by
    rw [accountsKey, ← sha256_tableInput, ← sha256_tableInput]
    intro h
    apply hplace
    exact (tableInput_injective (eq_of_sha256_eq hsafe (by simp) (by simp) h)).symm
  exact Trie.size_insert_insert hkey _ _

/-- Too few of the precommits that the validators made are all counted. -/
theorem verifyBlockProof_take (lawful : S.Lawful) (hvalidators : ledger.validators ≠ [])
    (hdistinct : ledger.validatorSet.keys.Nodup) (header : BlockHeader) {count : Nat}
    (hfew : 3 * min count ledger.validators.length ≤ 2 * ledger.validators.length) :
    Query.verifyBlockProof S ⟨header, (ledger.signBlock header).precommits.take count⟩
        ledger.validatorSet =
      .error (.untrustedBlock ⟨min count ledger.validators.length, ledger.validatorSet.quorum,
        ledger.validators.length⟩) := by
  obtain ⟨hpos, hflawless, -⟩ := trusted_signBlock lawful hvalidators hdistinct header
  have htotal : ledger.validatorSet.keys.length = ledger.validators.length := by
    simp [validatorSet]
  have hkept : ((ledger.signBlock header).precommits.take count).length =
      min count ledger.validators.length := by
    simp [signBlock]
  rw [← hkept, ← htotal] at hfew
  have herror : BlockProof.verify S ⟨header, (ledger.signBlock header).precommits.take count⟩
      ledger.validatorSet = .error ⟨_, _, _⟩ :=
    BlockProof.verify_of_flawless hpos (hflawless.sublist (List.take_sublist _ _)) hfew
  rw [hkept, htotal] at herror
  rw [Query.verifyBlockProof, herror]
  rfl

/-- What an honest answer is made of, and that it passes. -/
structure Passing (ledger : Ledger S) (s : State) (key : PublicKey) (account : Account)
    (honest : AccountResponse) : Prop where
  block : honest.blockProof = ledger.signBlock s.latest.header
  table : ∃ table, honest.tableProof = Trie.buildProof (ledger.stateMap table) [ledger.accountsKey]
  verified : ∃ ts, Query.verifyAccount S ledger.config ledger.validatorSet key honest =
      .ok ⟨s.latest.header, s.latest.header.hash, account, ts⟩ ∧
    ts.map VerifiedTransaction.entry = s.historyOf key

theorem Sound.exists_passing (h : ledger.Sound s) (lawful : S.Lawful)
    (hvalidators : ledger.validators ≠ []) (hdistinct : ledger.validatorSet.keys.Nodup)
    (haccount : s.books.accounts[key.bytes]? = some account)
    (hlength : (s.historyOf key).length ≤ MerkleList.maxLength) :
    ∃ honest, ledger.honestAccount key s = .ok honest ∧ Passing ledger s key account honest := by
  obtain ⟨table, htable, -⟩ := (stateHash_eq_ok ledger).mp h.hashed
  obtain ⟨honest, ts, hserved, hverified, hentries⟩ :=
    h.exists_verified lawful hvalidators hdistinct haccount hlength
  refine ⟨honest, hserved, ?_⟩
  rw [honestAccount_eq_ok htable] at hserved
  cases hserved
  exact ⟨h.signed, ⟨table, rfl⟩, ts, hverified, hentries⟩

section
variable {honest : AccountResponse}

theorem Passing.established (h : Passing ledger s key account honest) :
    Query.Established S ledger.config ledger.validatorSet key honest (s.historyOf key) ∧
      honest.transactions.length = (s.historyOf key).length := by
  obtain ⟨ts, hverified, hentries⟩ := h.verified
  obtain ⟨hestablished, hcount⟩ := Query.established_of_verifyAccount hverified
  rw [← hentries, List.length_map]
  exact ⟨hestablished, hcount⟩

/-- With too few precommits the answer stops at the block. -/
theorem Passing.keepPrecommits (h : Passing ledger s key account honest) (lawful : S.Lawful)
    (hvalidators : ledger.validators ≠ []) (hdistinct : ledger.validatorSet.keys.Nodup)
    {faults : Faults} {count : Nat} (hkeep : faults.keepPrecommits = some count)
    (hfew : 3 * min count ledger.validators.length ≤ 2 * ledger.validators.length) :
    Query.verifyAccount S ledger.config ledger.validatorSet key (faults.tamper honest) =
      .error (.untrustedBlock ⟨min count ledger.validators.length, ledger.validatorSet.quorum,
        ledger.validators.length⟩) := by
  apply Query.verifyAccount_of_block
  show Query.verifyBlockProof S (faults.tamperBlock honest.blockProof) _ = _
  rw [Faults.tamperBlock_of_some hkeep, h.block]
  exact verifyBlockProof_take lawful hvalidators hdistinct _ hfew

/-- With a changed hash in the table proof the answer stops at the table. -/
theorem Passing.corruptTableProof (h : Passing ledger s key account honest)
    (hplace : (ledger.config.schema.serviceId, ledger.config.tableIndex) ≠ (0, 0))
    {faults : Faults} (hkeep : faults.keepPrecommits = none)
    (hcorrupt : faults.corruptTableProof = true)
    (hsafe : ¬ Collision ([tableInput 0 0,
      tableInput ledger.config.schema.serviceId ledger.config.tableIndex] ++
      (honest.tableProof.inputs ++ (faults.tamper honest).tableProof.inputs))) :
    ∃ computed, Query.verifyAccount S ledger.config ledger.validatorSet key (faults.tamper honest) =
      .error (.proofCorrupted (.proof (.wrongRoot computed s.latest.header.stateHash))) := by
  obtain ⟨hplaces, hproofs⟩ := not_collision_append hsafe
  obtain ⟨⟨htrusted, root, found, hroot, -⟩, -⟩ := h.established
  obtain ⟨c, hcheck, -⟩ := Query.lookUp_eq_ok.mp (Query.tableRoot_eq_ok.mp hroot)
  have hne : honest.tableProof.nodes ≠ [] := by
    obtain ⟨table, htable⟩ := h.table
    rw [htable]
    refine Trie.nodes_buildProof_ne_nil (Nat.le_of_eq (size_stateMap table hplace hplaces).symm) ?_
    exact Trie.reaches_of_mem Std.ExtTreeMap.mem_insert_self List.mem_cons_self
  obtain ⟨computed, herror⟩ := Faults.check_tamperTable hcorrupt hcheck hne hproofs
  have hblock : (faults.tamper honest).blockProof = honest.blockProof :=
    Faults.tamperBlock_of_none hkeep _
  have hheader : honest.blockProof.header = s.latest.header := by rw [h.block]; rfl
  refine ⟨computed, Query.verifyAccount_of_tableRoot (by rwa [hblock]) ?_⟩
  rw [hblock, ← hheader]
  exact Query.tableRoot_of_check herror

/-- With a message left out the answer stops before the transactions. -/
theorem Passing.dropHistoryTransaction (h : Passing ledger s key account honest)
    (hne : s.historyOf key ≠ []) {faults : Faults} (hkeep : faults.keepPrecommits = none)
    (hcorrupt : faults.corruptTableProof = false) (hdrop : faults.dropHistoryTransaction = true) :
    Query.verifyAccount S ledger.config ledger.validatorSet key (faults.tamper honest) =
      .error (.historyLength ((s.historyOf key).length - 1) (s.historyOf key).length) := by
  obtain ⟨⟨htrusted, hlinked⟩, hcount⟩ := h.established
  have hpos := List.length_pos_iff.mpr hne
  have htampered : faults.tamper honest =
      { honest with transactions := honest.transactions.dropLast } := by
    simp [Faults.tamper, Faults.tamperBlock, Faults.tamperTable, Faults.tamperTransactions, hkeep,
      hcorrupt, hdrop]
  rw [htampered]
  have hestablished : Query.Established S ledger.config ledger.validatorSet key
      { honest with transactions := honest.transactions.dropLast } (s.historyOf key) :=
    ⟨htrusted, hlinked⟩
  have herror := hestablished.historyLength (by simp only [List.length_dropLast]; omega)
  simp only [List.length_dropLast, hcount] at herror
  exact herror

end

/-- What is found out about an answer that was served in a state with faults, where `honest` is
the answer without them. A fault counts for the answer unless one before it spoils an earlier
link. The table is the only link that the hashes have to carry. -/
structure Detected (ledger : Ledger S) (s : State) (key : PublicKey)
    (served honest : AccountResponse) : Prop where
  keepPrecommits : ∀ count, s.faults.keepPrecommits = some count →
    3 * min count ledger.validators.length ≤ 2 * ledger.validators.length →
    Query.verifyAccount S ledger.config ledger.validatorSet key served =
      .error (.untrustedBlock ⟨min count ledger.validators.length, ledger.validatorSet.quorum,
        ledger.validators.length⟩)
  corruptTableProof : s.faults.keepPrecommits = none → s.faults.corruptTableProof = true →
    (∃ computed, Query.verifyAccount S ledger.config ledger.validatorSet key served =
      .error (.proofCorrupted (.proof (.wrongRoot computed s.latest.header.stateHash)))) ∨
    Collision ([tableInput 0 0,
      tableInput ledger.config.schema.serviceId ledger.config.tableIndex] ++
      (honest.tableProof.inputs ++ served.tableProof.inputs))
  dropHistoryTransaction : s.faults.keepPrecommits = none →
    s.faults.corruptTableProof = false → s.faults.dropHistoryTransaction = true →
    0 < (s.historyOf key).length ∧
    Query.verifyAccount S ledger.config ledger.validatorSet key served =
      .error (.historyLength ((s.historyOf key).length - 1) (s.historyOf key).length)

theorem Passing.detected {honest : AccountResponse} (h : Passing ledger s key account honest)
    (lawful : S.Lawful) (hvalidators : ledger.validators ≠ [])
    (hdistinct : ledger.validatorSet.keys.Nodup)
    (hplace : (ledger.config.schema.serviceId, ledger.config.tableIndex) ≠ (0, 0))
    (hne : s.historyOf key ≠ []) : Detected ledger s key (s.faults.tamper honest) honest where
  keepPrecommits count hkeep hfew := h.keepPrecommits lawful hvalidators hdistinct hkeep hfew
  corruptTableProof hkeep hcorrupt := by
    by_cases hsafe : Collision ([tableInput 0 0,
        tableInput ledger.config.schema.serviceId ledger.config.tableIndex] ++
        (honest.tableProof.inputs ++ (s.faults.tamper honest).tableProof.inputs))
    · exact Or.inr hsafe
    · exact Or.inl (h.corruptTableProof hplace hkeep hcorrupt hsafe)
  dropHistoryTransaction hkeep hcorrupt hdrop :=
    ⟨List.length_pos_iff.mpr hne, h.dropHistoryTransaction hne hkeep hcorrupt hdrop⟩

end

/-- An account has a history. -/
theorem historyOf_run_ne_nil {S : SignatureScheme} (ledger : Ledger S) (faults : Faults)
    (ops : List Operation) {key : PublicKey} {account : Account}
    (haccount : (ledger.run faults ops).books.accounts[key.bytes]? = some account) :
    (ledger.run faults ops).historyOf key ≠ [] := by
  have hmem := Books.mem_of_getElem? haccount
  have hpaired := ledger.paired_run faults ops
  rw [State.historyOf_eq hmem]
  exact hpaired.ne_nil _ ((hpaired.mem_iff _).mpr hmem)

/-- At any time of a run each fault of the ledger is found out by whoever verifies its answer
about an account: too few precommits as an untrusted block, with their number, a changed table
proof by its root, and a missing message by the length of the history. Once the faults are
cleared the same question gets an answer that passes. -/
theorem tampering_detected {S : SignatureScheme} (ledger : Ledger S) (faults : Faults)
    (ops : List Operation) (key : PublicKey) (account : Account) (lawful : S.Lawful)
    (hvalidators : ledger.validators ≠ []) (hdistinct : ledger.validatorSet.keys.Nodup)
    (hplace : (ledger.config.schema.serviceId, ledger.config.tableIndex) ≠ (0, 0))
    (haccount : (ledger.run faults ops).books.accounts[key.bytes]? = some account)
    (hlength : ((ledger.run faults ops).historyOf key).length ≤ MerkleList.maxLength) :
    let s := ledger.run faults ops
    ∃ served honest ts, (ledger.account key s).1 = .ok served ∧
      Detected ledger s key served honest ∧
      (ledger.account key (ledger.run faults (ops ++ [.setFaults .off]))).1 = .ok honest ∧
      Query.verifyAccount S ledger.config ledger.validatorSet key honest =
        .ok ⟨s.latest.header, s.latest.header.hash, account, ts⟩ ∧
      ts.map VerifiedTransaction.entry = s.historyOf key := by
  intro s
  obtain ⟨honest, hhonest, hpassing⟩ :=
    (ledger.sound_run faults ops).exists_passing lawful hvalidators hdistinct haccount hlength
  obtain ⟨ts, hverified, hentries⟩ := hpassing.verified
  have hdetected := hpassing.detected lawful hvalidators hdistinct hplace
    (historyOf_run_ne_nil ledger faults ops haccount)
  refine ⟨s.faults.tamper honest, honest, ts, ?_, hdetected, ?_, hverified, hentries⟩
  · show (ledger.honestAccount key s).map s.faults.tamper = _
    rw [hhonest]
    rfl
  · rw [run_append, List.foldl_cons, List.foldl_nil]
    have hcleared : (ledger.after s (.setFaults .off)).faults.Honest := ⟨rfl, rfl, rfl⟩
    exact (account_of_honest hcleared).trans hhonest

/-! ## An account that is created twice, served with faults -/

open Query (numberedKey stampScheme)

/-- The account is created twice, and then the ledger gets the faults. -/
def openedWith (faults : Faults) : State :=
  stampLedger.run .off (openedTwice ++ [.setFaults faults])

theorem openedWith_eq (faults : Faults) :
    openedWith faults = { stampLedger.run .off openedTwice with faults } := by
  rw [openedWith, run_append, List.foldl_cons, List.foldl_nil, after]

theorem books_withFaults (s : State) (faults : Faults) :
    State.books { s with faults } = s.books := rfl

theorem historyOf_withFaults (s : State) (faults : Faults) (key : PublicKey) :
    State.historyOf { s with faults } key = s.historyOf key := rfl

theorem historyOf_openedWith (faults : Faults) :
    (openedWith faults).historyOf (numberedKey 7) =
      [⟨sha256 openedBytes, true⟩, ⟨sha256 openedBytes, false⟩] := by
  rw [openedWith_eq, historyOf_withFaults, State.historyOf_eq mem_openedTwice, history_openedTwice]

theorem exists_account_openedWith (faults : Faults) :
    ∃ account, (openedWith faults).books.accounts[(numberedKey 7).bytes]? = some account := by
  rw [openedWith_eq, books_withFaults]
  exact ⟨_, Std.ExtTreeMap.getElem?_eq_some_getElem mem_openedTwice⟩

/-- Two of four precommits are too few, one of two messages is missing, and a changed table
proof has another root unless something collides. -/
theorem tampering_detected_openedTwice :
    stampScheme.Lawful ∧ stampLedger.validators ≠ [] ∧ stampLedger.validatorSet.keys.Nodup ∧
      (stampLedger.config.schema.serviceId, stampLedger.config.tableIndex) ≠ (0, 0) ∧
      (∃ served,
        (stampLedger.account (numberedKey 7) (openedWith ⟨some 2, false, false, false⟩)).1 =
          .ok served ∧
        Query.verifyAccount stampScheme stampLedger.config stampLedger.validatorSet (numberedKey 7)
          served = .error (.untrustedBlock ⟨2, 3, 4⟩)) ∧
      (∃ served,
        (stampLedger.account (numberedKey 7) (openedWith ⟨none, false, true, false⟩)).1 =
          .ok served ∧
        Query.verifyAccount stampScheme stampLedger.config stampLedger.validatorSet (numberedKey 7)
          served = .error (.historyLength 1 2)) ∧
      ∃ served honest : AccountResponse,
        (stampLedger.account (numberedKey 7) (openedWith ⟨none, true, false, false⟩)).1 =
          .ok served ∧
        ((∃ fault, Query.verifyAccount stampScheme stampLedger.config stampLedger.validatorSet
          (numberedKey 7) served = .error (.proofCorrupted fault)) ∨
        Collision ([tableInput 0 0, tableInput 128 0] ++
          (honest.tableProof.inputs ++ served.tableProof.inputs))) := by
  have hvalidators : stampLedger.validators ≠ [] := by decide
  have hdistinct : stampLedger.validatorSet.keys.Nodup := by decide
  have hplace : (stampLedger.config.schema.serviceId, stampLedger.config.tableIndex) ≠ (0, 0) := by
    decide
  have hserved (faults : Faults) : ∃ served honest,
      (stampLedger.account (numberedKey 7) (openedWith faults)).1 = .ok served ∧
      Detected stampLedger (openedWith faults) (numberedKey 7) served honest := by
    obtain ⟨account, haccount⟩ := exists_account_openedWith faults
    have hlength : ((openedWith faults).historyOf (numberedKey 7)).length ≤
        MerkleList.maxLength := by
      rw [historyOf_openedWith]
      decide
    obtain ⟨served, honest, _, hserved, hdetected, -⟩ :=
      tampering_detected stampLedger .off _ (numberedKey 7) account lawful_stampScheme hvalidators
        hdistinct hplace haccount hlength
    exact ⟨served, honest, hserved, hdetected⟩
  refine ⟨lawful_stampScheme, hvalidators, hdistinct, hplace, ?_, ?_, ?_⟩
  · obtain ⟨served, _, hserved, hdetected⟩ := hserved ⟨some 2, false, false, false⟩
    refine ⟨served, hserved, hdetected.keepPrecommits 2 ?_ (by decide)⟩
    rw [openedWith_eq]
  · obtain ⟨served, _, hserved, hdetected⟩ := hserved ⟨none, false, true, false⟩
    have hdropped := hdetected.dropHistoryTransaction
    rw [historyOf_openedWith, openedWith_eq] at hdropped
    exact ⟨served, hserved, (hdropped rfl rfl rfl).2⟩
  · obtain ⟨served, honest, hserved, hdetected⟩ := hserved ⟨none, true, false, false⟩
    have hcorrupted := hdetected.corruptTableProof
    rw [openedWith_eq] at hcorrupted
    refine ⟨served, honest, hserved, (hcorrupted rfl rfl).imp_left ?_⟩
    rintro ⟨computed, herror⟩
    exact ⟨_, herror⟩

end Ledger

end LightClient

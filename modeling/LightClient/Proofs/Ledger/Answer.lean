import LightClient.Proofs.Block.Acceptance
import LightClient.Proofs.Ledger.Replay
import LightClient.Proofs.MerkleList.Completeness
import LightClient.Proofs.Query.Soundness

/-! An honest ledger gives answers that pass. In a sound state every link of the chain
holds for what the ledger serves, so a client gets the latest block, the account and its
history as the ledger has them. -/

namespace LightClient

/-! ## The proofs of an answer -/

/-- A proof for a key of the contents reaches the stored keys. -/
theorem Trie.reaches_of_mem {entries : Trie.Entries} {key : Trie.MapKey} {keys : List Trie.MapKey}
    (hmem : key ∈ entries) (hkey : key ∈ keys) : Trie.Reaches entries keys :=
  Or.inr ⟨key, hkey, fun _ habove => habove key hmem⟩

theorem Query.lookUp_buildProof_of_getElem? {entries : Trie.Entries} {key : Trie.MapKey}
    {value : Bytes} (h : entries[key]? = some value) :
    Query.lookUp (Trie.buildProof entries [key]) (Trie.root entries) key = .ok (some value) := by
  have hmem : key ∈ entries := (Std.ExtTreeMap.getElem?_eq_some_iff.mp h).1
  rw [Query.lookUp_buildProof (Trie.reaches_of_mem hmem List.mem_cons_self) List.mem_cons_self, h]

/-- A proof for all of a list passes and returns the list. -/
theorem MerkleList.exists_verify_whole (list : List Bytes)
    (h : list.length ≤ MerkleList.maxLength) :
    ∃ elements,
      (MerkleList.builtProof list 0 list.length).verify (MerkleList.root list) 0 list.length =
        .ok elements ∧ elements.map Prod.snd = list := by
  have hle := Nat.le_refl list.length
  refine ⟨_, MerkleList.verify_builtProof h (Nat.zero_le _) hle, ?_⟩
  apply MerkleList.map_snd_eq_of_indices
  · exact MerkleList.ListProof.keys_eq_range' (MerkleList.size_indexed hle)
      fun i hi => (MerkleList.mem_indexed hle).mp hi
  · rintro ⟨i, value⟩ hitem
    exact ((MerkleList.getElem?_indexed hle).mp
      (Std.ExtTreeMap.mem_toList_iff_getElem?_eq_some.mp hitem)).2

/-- The history of an account passes if the account records it. -/
theorem Query.history_builtProof {key : FixedBytes 32} {history : List HistoryEntry}
    {account : Account} (hrecords : Ledger.Records key history account)
    (hlength : history.length ≤ MerkleList.maxLength) :
    Query.history account
      (MerkleList.builtProof (history.map HistoryEntry.encode) 0
        (history.map HistoryEntry.encode).length) = .ok history := by
  have hencoded : (history.map HistoryEntry.encode).length = history.length :=
    List.length_map _
  have hsize : account.historyLength.toNat = (history.map HistoryEntry.encode).length := by
    have hmax : MerkleList.maxLength < UInt64.size := by decide
    rw [hrecords.length, hencoded]
    exact UInt64.toNat_ofNat_of_lt' (by omega)
  obtain ⟨elements, hverify, hvalues⟩ :=
    MerkleList.exists_verify_whole (history.map HistoryEntry.encode) (by omega)
  rw [Query.history_eq_ok, hrecords.root, hsize]
  refine ⟨?_, elements, hverify, hvalues⟩
  rw [hrecords.length, ← hencoded]
  rfl

/-! ## Responses without faults -/

namespace Faults

/-- The faults change no response. They may still keep the pool from being committed. -/
structure Honest (faults : Faults) : Prop where
  keepPrecommits : faults.keepPrecommits = none
  corruptTableProof : faults.corruptTableProof = false
  dropHistoryTransaction : faults.dropHistoryTransaction = false

theorem Honest.tamper_eq {faults : Faults} (h : faults.Honest) (response : AccountResponse) :
    faults.tamper response = response := by
  simp [tamper, tamperBlock, tamperTable, tamperTransactions, h.keepPrecommits,
    h.corruptTableProof, h.dropHistoryTransaction]

end Faults

namespace Ledger

section
variable {S : SignatureScheme} {ledger : Ledger S} {s : State}

/-- The validators vouch for what they sign. -/
theorem trusted_signBlock (lawful : S.Lawful) (hvalidators : ledger.validators ≠ [])
    (hdistinct : ledger.validatorSet.keys.Nodup) (header : BlockHeader) :
    (ledger.signBlock header).Trusted S ledger.validatorSet := by
  have hpos : 0 < ledger.validators.length := List.length_pos_iff.mpr hvalidators
  refine ⟨?_, ⟨?_, ?_, ?_⟩, ?_⟩
  · simpa [validatorSet] using hpos
  · simp only [signBlock, validatorSet, List.forall_mem_map]
    intro pair hpair
    exact List.mem_map_of_mem hpair
  · simp only [signBlock, List.map_map]
    exact hdistinct
  · simp only [signBlock, List.forall_mem_map]
    intro pair _
    exact pair.verify_sign lawful _
  · simp only [signBlock, validatorSet, List.length_map]
    omega

theorem Admitted.genuine {p : Pooled} (h : ledger.Admitted p) (succeeded : Bool) :
    VerifiedTransaction.Genuine S ledger.config.schema
      ⟨p.hash, succeeded, p.transaction, p.body⟩ := by
  obtain ⟨hbody, hsigned⟩ := ledger.checkedBody_eq_ok.mp h.body_eq
  refine ⟨?_, hbody, hsigned⟩
  simp only [Transaction.hash, h.toBytes_eq, h.hash_eq]
  rfl

/-- The bytes kept for a history are genuine transactions, one for each entry. -/
theorem Backed.exists_transactions (h : ledger.Backed s) {history : List HistoryEntry}
    (hkept : ∀ entry ∈ history, entry.txHash ∈ s.committed) :
    ∃ ts, Query.transactions S ledger.config.schema history
      (history.filterMap fun entry => s.committed[entry.txHash]?) = .ok ts := by
  simp only [Query.transactions_eq_ok]
  induction history with
  | nil => exact ⟨[], rfl, rfl, by simp⟩
  | cons entry rest ih =>
    rw [List.forall_mem_cons] at hkept
    obtain ⟨ts, hentries, hraw, hgenuine⟩ := ih hkept.2
    have hbytes := Std.ExtTreeMap.getElem?_eq_some_getElem hkept.1
    obtain ⟨p, hp, hhash, hmessage⟩ := h.stored _ _ hbytes
    rw [← hmessage] at hbytes
    refine ⟨⟨p.hash, entry.succeeded, p.transaction, p.body⟩ :: ts, ?_, ?_, ?_⟩
    · rw [List.map_cons, hentries, VerifiedTransaction.entry, hhash]
    · rw [List.filterMap_cons, hbytes]
      rw [List.map_cons, List.map_cons, hraw, Transaction.ofBytes_of_toBytes hp.toBytes_eq]
    · exact List.forall_mem_cons.mpr ⟨hp.genuine _, hgenuine⟩

/-- The history that is served is the one in the books. -/
theorem State.historyOf_eq {key : PublicKey} (h : key.bytes ∈ s.books.accounts) :
    s.historyOf key = s.books.history key.bytes :=
  if_pos h

/-- What a ledger serves for an account without tampering. -/
theorem honestAccount_eq_ok {key : PublicKey} {table : Trie.Entries}
    (htable : accountTable s.books.accounts = .ok table) :
    ledger.honestAccount key s = .ok
      { blockProof := s.latest
        tableProof := Trie.buildProof (ledger.stateMap table) [ledger.accountsKey]
        accountProof := Trie.buildProof table [key.bytes]
        historyProof := MerkleList.builtProof ((s.historyOf key).map HistoryEntry.encode) 0
          ((s.historyOf key).map HistoryEntry.encode).length
        transactions := (s.historyOf key).filterMap fun entry => s.committed[entry.txHash]? } := by
  simp only [honestAccount, htable,
    MerkleList.buildProof_eq_ok (Nat.zero_le _) (Nat.le_refl _)]
  rfl

/-- In a sound state the answer about an account passes and says what the books say. -/
theorem Sound.exists_verified (h : ledger.Sound s) (lawful : S.Lawful)
    (hvalidators : ledger.validators ≠ []) (hdistinct : ledger.validatorSet.keys.Nodup)
    {key : PublicKey} {account : Account}
    (haccount : s.books.accounts[key.bytes]? = some account)
    (hlength : (s.historyOf key).length ≤ MerkleList.maxLength) :
    ∃ response ts, ledger.honestAccount key s = .ok response ∧
      Query.verifyAccount S ledger.config ledger.validatorSet key response =
        .ok ⟨s.latest.header, s.latest.header.hash, account, ts⟩ ∧
      ts.map VerifiedTransaction.entry = s.historyOf key := by
  have hmem := Books.mem_of_getElem? haccount
  have hrecords := h.kept.records key.bytes account haccount
  obtain ⟨table, htable, hroot⟩ := (stateHash_eq_ok ledger).mp h.hashed
  obtain ⟨record, hencode⟩ := Books.exists_encode hrecords.unnamed
  have hcovered : ∀ entry ∈ s.historyOf key, entry.txHash ∈ s.committed := by
    rw [State.historyOf_eq hmem]
    exact h.covered key.bytes
  obtain ⟨ts, hts⟩ := h.toBacked.exists_transactions hcovered
  refine ⟨_, ts, honestAccount_eq_ok htable, ?_, (Query.transactions_eq_ok.mp hts).1⟩
  rw [Query.verifyAccount_eq_ok]
  refine ⟨?_, rfl, Trie.root table, s.historyOf key, ?_, ?_, ?_, hts⟩
  · rw [Query.verifyBlockProof_eq_ok, h.signed]
    exact ⟨trusted_signBlock lawful hvalidators hdistinct _, rfl⟩
  · rw [← hroot, Query.tableRoot_eq_ok]
    exact Query.lookUp_buildProof_of_getElem? Std.ExtTreeMap.getElem?_insert_self
  · rw [Query.account_eq_ok]
    refine ⟨record, ?_, hencode, PublicKey.eq_of_bytes_eq hrecords.owner⟩
    exact Query.lookUp_buildProof_of_getElem? (getElem?_accountTable htable haccount hencode)
  · rw [← State.historyOf_eq hmem] at hrecords
    exact Query.history_builtProof hrecords hlength

theorem account_of_honest {key : PublicKey} (h : s.faults.Honest) :
    (ledger.account key s).1 = ledger.honestAccount key s := by
  show (ledger.honestAccount key s).map s.faults.tamper = _
  cases ledger.honestAccount key s with
  | error e => rfl
  | ok response => exact congrArg Except.ok (h.tamper_eq response)

end

/-- At any time of a run in which no fault tampers with responses, the answer of the
ledger about an account that it has passes against its own validators. It says the latest
block, the account, and its history, entry by entry, as the ledger has them. -/
theorem account_verified {S : SignatureScheme} (ledger : Ledger S) (faults : Faults)
    (ops : List Operation) (key : PublicKey) (account : Account) (lawful : S.Lawful)
    (hvalidators : ledger.validators ≠ []) (hdistinct : ledger.validatorSet.keys.Nodup)
    (hhonest : (ledger.run faults ops).faults.Honest)
    (haccount : (ledger.run faults ops).books.accounts[key.bytes]? = some account)
    (hlength : ((ledger.run faults ops).historyOf key).length ≤ MerkleList.maxLength) :
    ∃ response ts, (ledger.account key (ledger.run faults ops)).1 = .ok response ∧
      Query.verifyAccount S ledger.config ledger.validatorSet key response =
        .ok ⟨(ledger.run faults ops).latest.header, (ledger.run faults ops).latest.header.hash,
          account, ts⟩ ∧
      ts.map VerifiedTransaction.entry = (ledger.run faults ops).historyOf key := by
  rw [account_of_honest hhonest]
  exact (ledger.sound_run faults ops).exists_verified lawful hvalidators hdistinct haccount hlength

/-! ## An account that is created twice -/

open Query (numberedKey stamp stampScheme)

theorem lawful_stampScheme : stampScheme.Lawful where
  verify_sign seed message := by simp [stampScheme]

def stampLedger : Ledger stampScheme := ⟨.standard, standardValidators stampScheme 4, 2⟩

/-- Creates an account with 30. -/
def opened : Transaction :=
  ⟨0, 0, 2, 128, [10, 32] ++ (numberedKey 7).bytes.toList ++ [16, 30], stamp (numberedKey 7)⟩

def openedBytes : Bytes :=
  [0, 0, 2, 0, 128, 0, 110, 0, 0, 0] ++ opened.body ++ opened.signature.bytes.toList

def openedEntry : Pooled :=
  ⟨sha256 openedBytes, opened, .createAccount ⟨numberedKey 7, 30⟩⟩

/-- Faults that only keep the pool from being committed. -/
def stalled : Faults := ⟨none, false, false, true⟩

/-- The second creation fails. -/
def openedTwice : List Operation :=
  [.submit openedBytes, .submit openedBytes] ++ [.commit] ++ [.setFaults stalled]

theorem checkedBody_opened :
    stampLedger.checkedBody opened = .ok (.createAccount ⟨numberedKey 7, 30⟩) := by
  have hbody : opened.decodeBody Config.standard.schema =
      .ok (.createAccount ⟨numberedKey 7, 30⟩) := by decide +kernel
  exact stampLedger.checkedBody_eq_ok.mpr ⟨hbody, _, rfl, by decide⟩

theorem admitted?_opened : stampLedger.admitted? (.submit openedBytes) = some openedEntry :=
  admitted?_of_pooled (Transaction.ofBytes_of_toBytes rfl) checkedBody_opened

theorem pool_after_setFaults {S : SignatureScheme} (ledger : Ledger S) (s : State)
    (faults : Faults) : (ledger.after s (.setFaults faults)).pool = s.pool := rfl

theorem executedOf_openedTwice :
    executedOf (stampLedger.log .off openedTwice) = [openedEntry, openedEntry] := by
  have horder := stampLedger.executed_append_pool .off openedTwice
  have hbefore :=
    (stampLedger.run_commit .off [.submit openedBytes, .submit openedBytes]).1
  have hpool : (stampLedger.run .off openedTwice).pool = [] := by
    rw [openedTwice, run_append, List.foldl_cons, List.foldl_nil, pool_after_setFaults, hbefore]
  rw [hpool, List.append_nil] at horder
  rw [horder]
  simp only [openedTwice, List.cons_append, List.nil_append, List.filterMap_cons,
    admitted?_opened, List.filterMap_nil]
  rfl

/-- The account with its history of a success. -/
def openedOnce : Books :=
  (Books.empty.openAccount ⟨numberedKey 7, 30⟩).append (numberedKey 7) ⟨sha256 openedBytes, true⟩

theorem mem_openedOnce : (numberedKey 7).bytes ∈ openedOnce.accounts := by
  rw [openedOnce, Books.mem_append, Books.mem_openAccount]
  exact Or.inl rfl

theorem books_openedTwice :
    (stampLedger.run .off openedTwice).books =
      openedOnce.append (numberedKey 7) ⟨sha256 openedBytes, false⟩ := by
  have hlog := executeAll_log stampLedger .off openedTwice
  rw [executedOf_openedTwice] at hlog
  have hbooks : (stampLedger.run .off openedTwice).books =
      (Books.empty.executeAll [openedEntry, openedEntry]).1 := by rw [hlog]
  have hnew : (numberedKey 7).bytes ∉ Books.empty.accounts := by simp [Books.empty]
  have hfirst : Books.empty.execute openedEntry.hash openedEntry.body = (openedOnce, true) :=
    Books.execute_create_of_not_mem hnew _
  have hsecond : openedOnce.execute openedEntry.hash openedEntry.body =
      (openedOnce.append (numberedKey 7) ⟨sha256 openedBytes, false⟩, false) :=
    Books.execute_create_of_mem mem_openedOnce _
  rw [hbooks]
  simp only [Books.executeAll, hfirst, hsecond]

theorem mem_openedTwice :
    (numberedKey 7).bytes ∈ (stampLedger.run .off openedTwice).books.accounts := by
  rw [books_openedTwice, Books.mem_append]
  exact mem_openedOnce

theorem history_openedTwice :
    (stampLedger.run .off openedTwice).books.history (numberedKey 7).bytes =
      [⟨sha256 openedBytes, true⟩, ⟨sha256 openedBytes, false⟩] := by
  rw [books_openedTwice, Books.history_append, if_pos rfl, openedOnce, Books.history_append,
    if_pos rfl, Books.history_openAccount]
  rfl

/-- The history is served with its failure, though the ledger has stopped committing. -/
theorem account_verified_openedTwice :
    stampScheme.Lawful ∧ stampLedger.validators ≠ [] ∧ stampLedger.validatorSet.keys.Nodup ∧
      (stampLedger.run .off openedTwice).faults.Honest ∧
      (stampLedger.run .off openedTwice).historyOf (numberedKey 7) =
        [⟨sha256 openedBytes, true⟩, ⟨sha256 openedBytes, false⟩] ∧
      ∃ account, (stampLedger.run .off openedTwice).books.accounts[(numberedKey 7).bytes]? =
          some account ∧
        ∃ response ts,
          (stampLedger.account (numberedKey 7) (stampLedger.run .off openedTwice)).1 =
            .ok response ∧
          Query.verifyAccount stampScheme stampLedger.config stampLedger.validatorSet
              (numberedKey 7) response =
            .ok ⟨(stampLedger.run .off openedTwice).latest.header,
              (stampLedger.run .off openedTwice).latest.header.hash, account, ts⟩ ∧
          ts.map VerifiedTransaction.entry =
            (stampLedger.run .off openedTwice).historyOf (numberedKey 7) := by
  have hvalidators : stampLedger.validators ≠ [] := by decide
  have hdistinct : stampLedger.validatorSet.keys.Nodup := by decide
  have hhonest : (stampLedger.run .off openedTwice).faults.Honest := by
    rw [openedTwice, run_append, List.foldl_cons, List.foldl_nil]
    exact ⟨rfl, rfl, rfl⟩
  have hhistory : (stampLedger.run .off openedTwice).historyOf (numberedKey 7) =
      [⟨sha256 openedBytes, true⟩, ⟨sha256 openedBytes, false⟩] := by
    rw [State.historyOf_eq mem_openedTwice, history_openedTwice]
  have haccount := Std.ExtTreeMap.getElem?_eq_some_getElem mem_openedTwice
  have hlength : ((stampLedger.run .off openedTwice).historyOf (numberedKey 7)).length ≤
      MerkleList.maxLength := by
    rw [hhistory]
    decide
  exact ⟨lawful_stampScheme, hvalidators, hdistinct, hhonest, hhistory, _, haccount,
    account_verified stampLedger .off openedTwice (numberedKey 7) _ lawful_stampScheme hvalidators
      hdistinct hhonest haccount hlength⟩

end Ledger

end LightClient

import LightClient.Proofs.Account
import LightClient.Proofs.MerkleList.Soundness
import LightClient.Proofs.Trie.Completeness
import LightClient.Proofs.Trie.Soundness
import LightClient.Query

/-! The links of the chain that an answer about an account is followed along:
when each of them holds, and which of them can deny that something is there. -/

namespace LightClient

/-- The errors that deny that something is there. -/
def ClientError.isAbsence : ClientError → Bool
  | .tableNotFound _ _ | .accountNotFound _ => true
  | _ => false

/-- The history entry of a transaction. -/
def VerifiedTransaction.entry (t : VerifiedTransaction) : HistoryEntry := ⟨t.hash, t.succeeded⟩

/-- The transaction has its hash, and the owner named in its body signed it. -/
structure VerifiedTransaction.Genuine (S : SignatureScheme) (schema : Schema)
    (t : VerifiedTransaction) : Prop where
  hash_eq : t.transaction.hash = .ok t.hash
  body_eq : t.transaction.decodeBody schema = .ok t.body
  signed : ∃ signed, t.transaction.signedBytes = .ok signed ∧
    S.verify t.body.owner signed t.transaction.signature = true

namespace Query

/-! ## The map proofs -/

section
variable {proof : Trie.MapProof} {root : Digest}

theorem lookUp_eq_ok {key : Trie.MapKey} {found : Option Bytes} :
    lookUp proof root key = .ok found ↔ ∃ c, proof.check root = .ok c ∧ c.get key = .ok found := by
  simp only [lookUp, bind_eq_ok, mapError_eq_ok]

theorem lookUp_eq_error {key : Trie.MapKey} {e : ClientError}
    (h : lookUp proof root key = .error e) : ∃ fault, e = .ofTrieFault fault := by
  simp only [lookUp, bind_eq_error, mapError_eq_error] at h
  rcases h with ⟨fault, -, rfl⟩ | ⟨c, -, fault, -, rfl⟩
  · exact ⟨fault, rfl⟩
  · exact ⟨fault, rfl⟩

theorem lookUp_ne_absence {key : Trie.MapKey} {e : ClientError} (he : e.isAbsence = true) :
    lookUp proof root key ≠ .error e := by
  intro h
  obtain ⟨fault, rfl⟩ := lookUp_eq_error h
  cases he

/-- Under the root of given contents a key has the value that it has there. -/
theorem lookUp_sound {entries : Trie.Entries} {key : Trie.MapKey} {found : Option Bytes}
    (h : lookUp proof (Trie.root entries) key = .ok found)
    (hsafe : ¬ Collision (proof.inputs ++ Trie.rootInputs entries))
    (hzero : ¬ ZeroHash (proof.inputs ++ Trie.rootInputs entries)) : found = entries[key]? := by
  obtain ⟨c, hcheck, hget⟩ := lookUp_eq_ok.mp h
  cases found with
  | some value =>
    have hmem := Trie.MapProof.mem_entries_of_get hcheck hget
    exact (Trie.MapProof.get?_of_mem_entries hcheck hsafe hzero hmem).symm
  | none =>
    have hmem := Trie.MapProof.mem_missing_of_get hcheck hget
    have habsent := Trie.MapProof.not_mem_of_mem_missing hcheck hsafe hzero hmem
    exact (Std.ExtTreeMap.getElem?_eq_none habsent).symm

/-- A proof that was built for a key finds what the contents hold under it. -/
theorem lookUp_buildProof {entries : Trie.Entries} {keys : List Trie.MapKey}
    (h : Trie.Reaches entries keys) {key : Trie.MapKey} (hkey : key ∈ keys) :
    lookUp (Trie.buildProof entries keys) (Trie.root entries) key = .ok entries[key]? := by
  obtain ⟨c, hcheck, hget⟩ := Trie.exists_check_buildProof h
  exact lookUp_eq_ok.mpr ⟨c, hcheck, hget key hkey⟩

theorem tableRoot_eq_ok {config : Config} {stateHash : Digest} :
    tableRoot config proof stateHash = .ok root ↔
      lookUp proof stateHash (tableKey config.schema.serviceId config.tableIndex) =
        .ok (some root.toList) := by
  simp only [tableRoot, bind_eq_ok]
  constructor
  · rintro ⟨found, hfound, h⟩
    cases found with
    | none => cases h
    | some value =>
      cases hvalue : FixedBytes.ofList? 32 value with
      | none =>
        simp only [hvalue] at h
        cases h
      | some root' =>
        simp only [hvalue] at h
        cases h
        rw [hfound, FixedBytes.toList_of_ofList? hvalue]
  · intro h
    refine ⟨_, h, ?_⟩
    simp only [FixedBytes.ofList?_toList]
    rfl

theorem tableRoot_eq_absence {config : Config} {stateHash : Digest} {e : ClientError}
    (he : e.isAbsence = true) (h : tableRoot config proof stateHash = .error e) :
    lookUp proof stateHash (tableKey config.schema.serviceId config.tableIndex) = .ok none ∧
      e = .tableNotFound config.schema.serviceId config.tableIndex := by
  simp only [tableRoot, bind_eq_error] at h
  rcases h with h | ⟨found, hfound, h⟩
  · exact absurd h (lookUp_ne_absence he)
  · cases found with
    | none =>
      cases h
      exact ⟨hfound, rfl⟩
    | some value =>
      cases hvalue : FixedBytes.ofList? 32 value with
      | none =>
        simp only [hvalue] at h
        cases h
        cases he
      | some root' =>
        simp only [hvalue] at h
        cases h

theorem account_eq_ok {key : PublicKey} {found : Account} :
    account key proof root = .ok found ↔
      ∃ record, lookUp proof root key.bytes = .ok (some record) ∧ found.encode = .ok record ∧
        found.publicKey = key := by
  simp only [account, bind_eq_ok]
  constructor
  · rintro ⟨looked, hlooked, h⟩
    cases looked with
    | none => cases h
    | some record =>
      simp only [bind_eq_ok, mapError_eq_ok, Account.decode_eq_ok] at h
      obtain ⟨account, hencode, h⟩ := h
      split at h
      · rename_i hkey
        cases h
        exact ⟨record, hlooked, hencode, hkey⟩
      · cases h
  · rintro ⟨record, hlooked, hencode, hkey⟩
    refine ⟨some record, hlooked, ?_⟩
    simp only [bind_eq_ok, mapError_eq_ok, Account.decode_eq_ok]
    exact ⟨found, hencode, if_pos hkey⟩

theorem account_eq_absence {key : PublicKey} {e : ClientError} (he : e.isAbsence = true)
    (h : account key proof root = .error e) :
    lookUp proof root key.bytes = .ok none ∧ e = .accountNotFound key := by
  simp only [account, bind_eq_error] at h
  rcases h with h | ⟨looked, hlooked, h⟩
  · exact absurd h (lookUp_ne_absence he)
  · cases looked with
    | none =>
      cases h
      exact ⟨hlooked, rfl⟩
    | some record =>
      simp only [bind_eq_error, mapError_eq_error] at h
      rcases h with ⟨fault, -, rfl⟩ | ⟨account, -, h⟩
      · cases he
      · split at h
        · cases h
        · cases h
          cases he

end

/-! ## The history -/

/-- Elements that are all decoded are the stored forms of the entries. -/
theorem map_decode_eq_iff {elements : List (Nat × Bytes)} {entries : List HistoryEntry} :
    elements.map (fun e => (HistoryEntry.decode e.2).mapError ClientError.encoding) =
        entries.map .ok ↔
      elements.map Prod.snd = entries.map HistoryEntry.encode := by
  induction elements generalizing entries with
  | nil => cases entries <;> simp
  | cons e elements ih =>
    cases entries with
    | nil => simp
    | cons entry entries =>
      simp only [List.map_cons, List.cons.injEq, ih, mapError_eq_ok, HistoryEntry.decode_eq_ok,
        eq_comm (a := e.2)]

theorem history_eq_ok {found : Account} {proof : MerkleList.ListProof}
    {entries : List HistoryEntry} :
    history found proof = .ok entries ↔
      proof.length = found.historyLength ∧ ∃ elements,
        proof.verify found.historyHash 0 found.historyLength.toNat = .ok elements ∧
          elements.map Prod.snd = entries.map HistoryEntry.encode := by
  unfold history
  split
  · rename_i hlength
    simp only [bind_eq_ok, mapError_eq_ok, mapM_eq_ok, map_decode_eq_iff]
    exact (and_iff_right hlength).symm
  · rename_i hlength
    constructor
    · intro h
      cases h
    · rintro ⟨h, -⟩
      exact absurd h hlength

theorem history_ne_absence {found : Account} {proof : MerkleList.ListProof} {e : ClientError}
    (he : e.isAbsence = true) : history found proof ≠ .error e := by
  intro h
  unfold history at h
  split at h
  · simp only [bind_eq_error, mapError_eq_error] at h
    rcases h with ⟨fault, -, rfl⟩ | ⟨elements, -, h⟩
    · cases fault <;> cases he
    · obtain ⟨element, -, h⟩ := exists_of_mapM_eq_error h
      obtain ⟨fault, -, rfl⟩ := mapError_eq_error.mp h
      cases he
  · cases h
    cases he

/-- A history that is proven is the list that its root stands for. -/
theorem history_sound {found : Account} {proof : MerkleList.ListProof}
    {entries : List HistoryEntry} {list : List Bytes} (h : history found proof = .ok entries)
    (hlist : list.length ≤ MerkleList.maxLength)
    (hroot : MerkleList.root list = found.historyHash)
    (hsafe : ¬ Collision (proof.inputs ++ MerkleList.rootInputs list)) :
    list.length = found.historyLength.toNat ∧ list = entries.map HistoryEntry.encode := by
  obtain ⟨hlength, elements, hverify, helements⟩ := history_eq_ok.mp h
  rw [← hroot] at hverify
  obtain ⟨hlen, -, hindices, hvalues⟩ := MerkleList.ListProof.sound_of_verify hlist hverify hsafe
  rw [hlength] at hlen
  refine ⟨hlen.symm, ?_⟩
  rw [← helements]
  apply (MerkleList.map_snd_eq_of_indices _ hvalues).symm
  rw [hindices, ← hlen, Nat.sub_zero]

/-! ## The transactions -/

section
variable {S : SignatureScheme} {schema : Schema}

theorem transaction_eq_ok {index : Nat} {entry : HistoryEntry} {bytes : Bytes}
    {t : VerifiedTransaction} :
    transaction S schema index entry bytes = .ok t ↔
      Transaction.ofBytes bytes = .ok t.transaction ∧ t.entry = entry ∧ t.Genuine S schema := by
  simp only [transaction, bind_eq_ok, mapError_eq_ok]
  constructor
  · rintro ⟨parsed, hparsed, hash, hhash, h⟩
    split at h
    · rename_i hentry
      simp only [bind_eq_ok, mapError_eq_ok] at h
      obtain ⟨body, hbody, signed, hsigned, h⟩ := h
      split at h
      · rename_i hvalid
        cases h
        subst hvalid hentry
        simp only [Transaction.signedByOwner, bind_eq_ok] at hsigned
        obtain ⟨message, hmessage, hverify⟩ := hsigned
        exact ⟨hparsed, rfl, hhash, hbody, message, hmessage, Except.ok.inj hverify⟩
      · cases h
    · cases h
  · rintro ⟨hparsed, rfl, hhash, hbody, message, hmessage, hverify⟩
    refine ⟨_, hparsed, _, hhash, ?_⟩
    have hentry : t.hash = t.entry.txHash := rfl
    rw [if_pos hentry]
    simp only [bind_eq_ok, mapError_eq_ok, Transaction.signedByOwner]
    exact ⟨_, hbody, true, ⟨message, hmessage, congrArg _ hverify⟩, rfl⟩

theorem transactionsFrom_eq_ok {index : Nat} {pairs : List (HistoryEntry × Bytes)}
    {ts : List VerifiedTransaction} :
    transactionsFrom S schema index pairs = .ok ts ↔
      ts.map VerifiedTransaction.entry = pairs.map Prod.fst ∧
        pairs.map (fun pair => Transaction.ofBytes pair.2) = ts.map (fun t => .ok t.transaction) ∧
        ∀ t ∈ ts, t.Genuine S schema := by
  induction pairs generalizing index ts with
  | nil => cases ts <;> simp [transactionsFrom]
  | cons pair pairs ih =>
    obtain ⟨entry, bytes⟩ := pair
    simp only [transactionsFrom, bind_eq_ok, ih, transaction_eq_ok]
    constructor
    · rintro ⟨t, ⟨hparsed, hentry, ht⟩, others, ⟨hentries, hraw, hothers⟩, h⟩
      cases h
      simp only [List.map_cons, hparsed, hentry, hentries, hraw, List.forall_mem_cons]
      exact ⟨trivial, trivial, ht, hothers⟩
    · rintro ⟨hentries, hraw, hgenuine⟩
      cases ts with
      | nil => simp at hentries
      | cons t ts =>
        simp only [List.map_cons, List.cons.injEq] at hentries hraw
        rw [List.forall_mem_cons] at hgenuine
        exact ⟨t, ⟨hraw.1, hentries.1, hgenuine.1⟩, ts, ⟨hentries.2, hraw.2, hgenuine.2⟩, rfl⟩

/-- Transactions pass when they are parsed, belong to the entries of the history
one by one and are genuine. -/
theorem transactions_eq_ok {entries : List HistoryEntry} {raw : List Bytes}
    {ts : List VerifiedTransaction} :
    transactions S schema entries raw = .ok ts ↔
      ts.map VerifiedTransaction.entry = entries ∧
        raw.map Transaction.ofBytes = ts.map (fun t => .ok t.transaction) ∧
        ∀ t ∈ ts, t.Genuine S schema := by
  unfold transactions
  split
  · rename_i hlength
    rw [transactionsFrom_eq_ok, List.map_fst_zip (by omega)]
    have hraw : (entries.zip raw).map (fun pair => Transaction.ofBytes pair.2) =
        raw.map Transaction.ofBytes := by
      have hsnd : (entries.zip raw).map Prod.snd = raw := List.map_snd_zip (by omega)
      conv =>
        rhs
        rw [← hsnd, List.map_map]
      rfl
    rw [hraw]
  · rename_i hlength
    constructor
    · intro h
      cases h
    · rintro ⟨hentries, hraw, -⟩
      have := congrArg List.length hentries
      have := congrArg List.length hraw
      simp only [List.length_map] at *
      omega

theorem transaction_ne_absence {index : Nat} {entry : HistoryEntry} {bytes : Bytes}
    {e : ClientError} (he : e.isAbsence = true) :
    transaction S schema index entry bytes ≠ .error e := by
  intro h
  simp only [transaction, bind_eq_error, mapError_eq_error] at h
  rcases h with ⟨fault, -, rfl⟩ | ⟨parsed, -, ⟨fault, -, rfl⟩ | ⟨hash, -, h⟩⟩
  · cases he
  · cases he
  · split at h
    · simp only [bind_eq_error, mapError_eq_error] at h
      rcases h with ⟨fault, -, rfl⟩ | ⟨body, -, ⟨fault, -, rfl⟩ | ⟨signed, -, h⟩⟩
      · cases he
      · cases he
      · split at h
        · cases h
        · cases h
          cases he
    · cases h
      cases he

theorem transactionsFrom_ne_absence {index : Nat} {pairs : List (HistoryEntry × Bytes)}
    {e : ClientError} (he : e.isAbsence = true) :
    transactionsFrom S schema index pairs ≠ .error e := by
  induction pairs generalizing index with
  | nil => simp [transactionsFrom]
  | cons pair pairs ih =>
    obtain ⟨entry, bytes⟩ := pair
    intro h
    simp only [transactionsFrom, bind_eq_error] at h
    rcases h with h | ⟨t, -, h | ⟨others, -, h⟩⟩
    · exact transaction_ne_absence he h
    · exact ih h
    · cases h

theorem transactions_ne_absence {entries : List HistoryEntry} {raw : List Bytes} {e : ClientError}
    (he : e.isAbsence = true) : transactions S schema entries raw ≠ .error e := by
  intro h
  unfold transactions at h
  split at h
  · exact transactionsFrom_ne_absence he h
  · cases h
    cases he

end

end Query

end LightClient

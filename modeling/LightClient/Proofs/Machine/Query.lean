import LightClient.Machine.Query
import LightClient.Proofs.Block.Acceptance
import LightClient.Proofs.Machine.ListProof
import LightClient.Proofs.Machine.MapProof
import LightClient.Proofs.Machine.Records
import LightClient.Proofs.Query.Soundness
import Mathlib.Data.List.Perm.Subperm

/-! No answer of a node traps its check. Every index, range, shift, sum and difference
of the checks is within its bounds, whatever the answer holds, so the guarded checks
end in what `Query` says: a verified value or an error. -/

namespace LightClient.Machine

/-! ## Blocks -/

namespace BlockProof

/-- Validators whose keys fit into memory are few enough for their count to be tripled. -/
theorem quorum_eq {validators : ValidatorSet} (h : 32 * validators.keys.length < 1 <<< 63) :
    quorum validators = .ok validators.quorum := by
  have hmul : mul 64 validators.keys.length 2 = _ := mul_of_lt (by omega)
  have hadd : add 64 (validators.keys.length * 2 / 3) 1 = _ :=
    add_of_lt (by omega)
  rw [quorum, hmul, ok_bind, hadd]
  rfl

/-- More validators than half of the 64 bits count have no quorum. -/
theorem quorum_of_le {validators : ValidatorSet} (h : 1 <<< 63 ≤ validators.keys.length) :
    quorum validators = .error (.overflow 64) := by
  rw [quorum, mul, if_neg (by omega)]
  rfl

/-- A signer is entered before the count is lowered by one. -/
theorem countSigners_eq (S : SignatureScheme) (validators : ValidatorSet) (message : Bytes)
    (precommits : List Precommit) (seen : List PublicKey) :
    countSigners S validators message precommits seen =
      .of (LightClient.BlockProof.countSigners S validators message precommits seen) := by
  induction precommits generalizing seen with
  | nil => rfl
  | cons p rest ih =>
    have hsub : sub (p.validator :: seen).length 1 = .ok seen.length := sub_of_le (by simp)
    unfold countSigners LightClient.BlockProof.countSigners
    by_cases hmember : p.validator ∈ validators.keys
    · by_cases hseen : p.validator ∈ seen
      · rw [if_neg (not_not_intro hmember), if_pos hseen, if_neg (fun h => h.2.1 hseen)]
        rfl
      · rw [if_neg (not_not_intro hmember), if_neg hseen]
        simp only
        by_cases hvalid : S.verify p.validator message p.signature = true
        · rw [if_pos hvalid, if_pos ⟨hmember, hseen, hvalid⟩]
          exact ih _
        · rw [if_neg hvalid, if_neg (fun h => hvalid h.2.2), Guarded.lift_bind hsub]
          rfl
    · rw [if_pos hmember, if_neg (fun h => hmember h.1)]
      rfl

/-- Different signers out of a set are no more than the set. -/
theorem le_of_countSigners {S : SignatureScheme} {validators : ValidatorSet} {message : Bytes}
    {precommits : List Precommit} {signed : Nat}
    (h : LightClient.BlockProof.countSigners S validators message precommits [] = .ok signed) :
    signed ≤ validators.keys.length := by
  obtain ⟨hflawless, rfl⟩ := countSigners_eq_ok.mp h
  have hsubset : precommits.map Precommit.validator ⊆ validators.keys := by
    intro key hkey
    obtain ⟨p, hp, rfl⟩ := List.mem_map.mp hkey
    exact hflawless.members p hp
  have := (hflawless.distinct.subperm hsubset).length_le
  rwa [List.length_map] at this

theorem verify_eq {S : SignatureScheme} {validators : ValidatorSet}
    (h : 32 * validators.keys.length < 1 <<< 63) (proof : LightClient.BlockProof) :
    verify S proof validators = .of (proof.verify S validators) := by
  unfold verify LightClient.BlockProof.verify
  simp only
  rw [Guarded.lift_bind (quorum_eq h)]
  split
  · rfl
  · rw [countSigners_eq]
    cases hcount : LightClient.BlockProof.countSigners S validators proof.header.encode
        proof.precommits [] with
    | error signed => rfl
    | ok signed =>
      have hle := le_of_countSigners hcount
      have hsigned : mul 64 3 signed = .ok (3 * signed) :=
        mul_of_lt (by omega)
      have htotal : mul 64 2 validators.keys.length = .ok (2 * validators.keys.length) :=
        mul_of_lt (by omega)
      show (liftM (mul 64 3 signed) >>= _ : Guarded Untrusted Digest) = _
      rw [Guarded.lift_bind hsigned, Guarded.lift_bind htotal]
      by_cases hquorum : 2 * validators.keys.length < 3 * signed
      · rw [if_neg (by omega)]
        simp only
        rw [if_pos hquorum]
        rfl
      · rw [if_pos (by omega)]
        simp only
        rw [if_neg hquorum]
        rfl

end BlockProof

/-! ## Accounts -/

theorem verifyBlockProof_eq {S : SignatureScheme} {validators : ValidatorSet}
    (h : 32 * validators.keys.length < 1 <<< 63) (proof : LightClient.BlockProof) :
    verifyBlockProof S proof validators = .of (Query.verifyBlockProof S proof validators) := by
  rw [verifyBlockProof, BlockProof.verify_eq h]
  rfl

theorem lookUp_eq (proof : Trie.MapProof) (root : Digest) (key : Trie.MapKey) :
    lookUp proof root key = .of (Query.lookUp proof root key) := by
  rw [lookUp, MapProof.check_eq]
  exact Guarded.bind_eq_of rfl fun _ _ => rfl

theorem tableRoot_eq (config : Config) (proof : Trie.MapProof) (stateHash : Digest) :
    tableRoot config proof stateHash = .of (Query.tableRoot config proof stateHash) := by
  refine Guarded.bind_eq_of (lookUp_eq _ _ _) fun found _ => ?_
  cases found with
  | none => rfl
  | some value =>
    simp only
    cases FixedBytes.ofList? 32 value <;> rfl

theorem account_eq (key : PublicKey) (proof : Trie.MapProof) (root : Digest) :
    account key proof root = .of (Query.account key proof root) := by
  refine Guarded.bind_eq_of (lookUp_eq _ _ _) fun found _ => ?_
  cases found with
  | none => rfl
  | some value =>
    simp only [Account.decode_eq, Guarded.mapError_of]
    refine Guarded.bind_eq_of rfl fun account _ => ?_
    split <;> rfl

theorem history_eq (account : LightClient.Account) (proof : MerkleList.ListProof) :
    history account proof = .of (Query.history account proof) := by
  unfold history Query.history
  split
  · simp only [ListProof.verify_eq, Guarded.mapError_of]
    refine Guarded.bind_eq_of rfl fun elements _ => ?_
    refine Guarded.mapM_eq_of fun element _ => ?_
    rw [HistoryEntry.decode_eq]
    rfl
  · rfl

/-- A message that was parsed is short. -/
theorem payloadLength_lt {bytes : Bytes} {t : LightClient.Transaction}
    (h : LightClient.Transaction.ofBytes bytes = .ok t) : t.payloadLength < UInt64.size := by
  have hlt := (LightClient.Transaction.toBytes_eq_ok.mp
    (LightClient.Transaction.toBytes_of_ofBytes h)).1
  exact Nat.lt_trans hlt (by decide)

theorem transaction_eq (S : SignatureScheme) (schema : Schema) (index : Nat)
    (entry : LightClient.HistoryEntry) (bytes : Bytes) :
    transaction S schema index entry bytes =
      .of (Query.transaction S schema index entry bytes) := by
  unfold transaction Query.transaction
  rw [Transaction.ofBytes_eq]
  refine Guarded.bind_eq_of rfl fun t ht => ?_
  have hfits := payloadLength_lt (mapError_eq_ok.mp ht)
  rw [Transaction.hash_eq hfits]
  refine Guarded.bind_eq_of rfl fun hash _ => ?_
  split
  · refine Guarded.bind_eq_of rfl fun body _ => ?_
    rw [Transaction.signedByOwner_eq S hfits]
    refine Guarded.bind_eq_of rfl fun signed _ => ?_
    split <;> rfl
  · rfl

/-- **Run.** The index does not outgrow a history of 64-bit length. -/
theorem transactionsFrom_eq (S : SignatureScheme) (schema : Schema) {index : Nat}
    {pairs : List (LightClient.HistoryEntry × Bytes)} (h : index + pairs.length < UInt64.size) :
    transactionsFrom S schema index pairs = .of (Query.transactionsFrom S schema index pairs) := by
  induction pairs generalizing index with
  | nil => rfl
  | cons pair rest ih =>
    rw [List.length_cons] at h
    have hnext : add 64 index 1 = .ok (index + 1) := add_of_lt (Nat.lt_of_le_of_lt (by omega) h)
    refine Guarded.bind_eq_of (transaction_eq S schema index pair.1 pair.2) fun first _ => ?_
    rw [Guarded.lift_bind hnext]
    exact Guarded.bind_eq_of (ih (by omega)) fun others _ => rfl

theorem transactions_eq (S : SignatureScheme) (schema : Schema)
    {entries : List LightClient.HistoryEntry} (h : entries.length < UInt64.size)
    (raw : List Bytes) :
    transactions S schema entries raw = .of (Query.transactions S schema entries raw) := by
  unfold transactions Query.transactions
  split
  · refine transactionsFrom_eq S schema ?_
    rw [List.length_zip]
    omega
  · rfl

section
variable {S : SignatureScheme} {validators : ValidatorSet}

theorem verifyAccount_eq (h : 32 * validators.keys.length < 1 <<< 63) (config : Config)
    (key : PublicKey) (response : AccountResponse) :
    verifyAccount S config validators key response =
      .of (Query.verifyAccount S config validators key response) := by
  refine Guarded.bind_eq_of (verifyBlockProof_eq h _) fun blockHash _ => ?_
  refine Guarded.bind_eq_of (tableRoot_eq _ _ _) fun root _ => ?_
  refine Guarded.bind_eq_of (account_eq _ _ _) fun account _ => ?_
  refine Guarded.bind_eq_of (history_eq _ _) fun entries hentries => ?_
  have hlength : entries.length < UInt64.size := by
    rw [Query.length_of_history hentries]
    exact account.historyLength.toNat_lt
  exact Guarded.bind_eq_of (transactions_eq S _ hlength _) fun transactions _ => rfl

theorem verifyBlock_eq (h : 32 * validators.keys.length < 1 <<< 63) (height : UInt64)
    (proof : LightClient.BlockProof) :
    verifyBlock S validators height proof = .of (Query.verifyBlock S validators height proof) := by
  unfold verifyBlock Query.verifyBlock
  split
  · exact Guarded.bind_eq_of (verifyBlockProof_eq h _) fun blockHash _ => rfl
  · rfl

end

/-- Whatever a node answers, every step of the checks is within its bounds: they end in
the verified account or block of `Query` or in its error, and never in a trap. The
validators are as many as their keys of 32 bytes leave room for in memory. -/
theorem verification_never_traps (S : SignatureScheme) (config : Config)
    (validators : ValidatorSet) (key : PublicKey) (response : AccountResponse) (height : UInt64)
    (proof : LightClient.BlockProof) (hmemory : 32 * validators.keys.length < 1 <<< 63) :
    (verifyAccount S config validators key response).run =
        .ok (Query.verifyAccount S config validators key response) ∧
      (verifyBlock S validators height proof).run =
        .ok (Query.verifyBlock S validators height proof) := by
  refine ⟨?_, ?_⟩
  · rw [verifyAccount_eq hmemory]
    rfl
  · rw [verifyBlock_eq hmemory]
    rfl

/-- The genuine answer about one account, and its block when another height was asked. -/
theorem verification_never_traps_oneAnswer :
    (verifyAccount Query.neutralScheme Config.standard ⟨[Query.neutralKey]⟩ Query.neutralKey
        Query.oneAnswer).run = .ok (.ok Query.oneVerified) ∧
      (verifyBlock Query.neutralScheme ⟨[Query.neutralKey]⟩ 9 Query.oneAnswer.blockProof).run =
        .ok (.error (.proofCorrupted (.otherBlock 9 Query.oneAnswer.blockProof.header.height))) := by
  have h := verification_never_traps Query.neutralScheme Config.standard ⟨[Query.neutralKey]⟩
    Query.neutralKey Query.oneAnswer 9 Query.oneAnswer.blockProof (by decide)
  have hother : Query.verifyBlock Query.neutralScheme ⟨[Query.neutralKey]⟩ 9
      Query.oneAnswer.blockProof =
        .error (.proofCorrupted (.otherBlock 9 Query.oneAnswer.blockProof.header.height)) := rfl
  rwa [Query.verifyAccount_oneAnswer, hother] at h

end LightClient.Machine

import LightClient.Proofs.Ledger.Answer
import LightClient.Proofs.Ledger.Status

/-! What an answer about an account is refused for. Each link of the chain has errors of its
own, and the first link that fails is reported. Two of the errors that the steps could pass
on never come up: the range of a history is inside its proof, because the lengths are
compared before, and the slice of a message that holds the signature has the right length. -/

namespace LightClient

/-! ## Messages -/

namespace Transaction

/-- Reads a message slice by slice. The last slice is taken for a signature, whatever its
length. -/
def ofSlices (bytes : Bytes) : Except ClientError Transaction := do
  if headerSize + signatureSize ≤ bytes.length then
    let header ← (readHeader.whole (bytes.take headerSize)).mapError .encoding
    if header.length.toNat = bytes.length then
      let split := bytes.length - signatureSize
      let signature ← (Signature.ofBytes (bytes.drop split)).mapError .crypto
      return {
        networkId := header.networkId
        protocolVersion := header.protocolVersion
        messageId := header.messageId
        serviceId := header.serviceId
        body := (bytes.take split).drop headerSize
        signature }
    else throw (.encoding (.wrongLength header.length.toNat bytes.length))
  else throw (.encoding (.messageTooShort bytes.length))

/-- No message fails for its signature. -/
theorem ofSlices_eq (bytes : Bytes) : ofSlices bytes = (ofBytes bytes).mapError .encoding := by
  unfold ofSlices ofBytes
  by_cases hsize : headerSize + signatureSize ≤ bytes.length
  · have hslice : (bytes.drop (bytes.length - signatureSize)).length = 64 := by
      simp only [headerSize, signatureSize] at hsize
      rw [List.length_drop, signatureSize]
      omega
    have hsignature : Signature.ofBytes (bytes.drop (bytes.length - signatureSize)) =
        .ok ⟨⟨bytes.drop (bytes.length - signatureSize), hslice⟩⟩ := by
      simp [Signature.ofBytes, FixedBytes.ofList?, hslice]
    rw [if_pos hsize, dif_pos hsize]
    cases readHeader.whole (bytes.take headerSize) with
    | error fault => rfl
    | ok header =>
      by_cases hlength : header.length.toNat = bytes.length
      · simp only [bind, Except.bind, Except.mapError, if_pos hlength, hsignature]
        rfl
      · simp only [bind, Except.bind, Except.mapError, if_neg hlength]
        rfl
  · rw [if_neg hsize, dif_neg hsize]
    rfl

end Transaction

/-! ## List proofs -/

namespace MerkleList

/-- The fault blames the range that was asked for. -/
def ProofFault.isRange : ProofFault → Bool
  | .range _ _ _ => true
  | _ => false

namespace ListProof

variable {fault : ProofFault}

theorem isRange_of_indexElements {length : Nat} {es : List Element}
    {found : Std.ExtTreeMap Nat Bytes} (h : indexElements length es found = .error fault) :
    fault.isRange = false := by
  induction es generalizing found with
  | nil => cases h
  | cons e rest ih =>
    unfold indexElements at h
    split at h
    · cases h
      rfl
    · split at h
      · cases h
        rfl
      · exact ih h

theorem isRange_of_checkNodes {length : Nat} {nodes : List ProofNode}
    {seen : List (UInt8 × UInt64)} (h : checkNodes length nodes seen = .error fault) :
    fault.isRange = false := by
  induction nodes generalizing seen with
  | nil => cases h
  | cons n rest ih =>
    unfold checkNodes at h
    split at h
    · cases h
      rfl
    · split at h
      · cases h
        rfl
      · split at h
        · cases h
          rfl
        · exact ih h

theorem isRange_of_checkLevel {size height : Nat} {computed given : Level}
    (h : Level.check size height computed given = .error fault) : fault.isRange = false := by
  unfold Level.check at h
  split at h
  · cases h
    rfl
  · split at h
    · split at h <;> cases h <;> rfl
    · cases h

theorem isRange_of_climb {length : Nat} {nodes : List ProofNode} {steps height : Nat}
    {computed : Level} (h : climb length nodes steps height computed = .error fault) :
    fault.isRange = false := by
  induction steps generalizing height computed with
  | zero => cases h
  | succ steps ih =>
    rw [climb, bind_eq_error] at h
    rcases h with h | ⟨_, -, h⟩
    · exact isRange_of_checkLevel h
    · exact ih h

theorem isRange_of_computeRoot {proof : ListProof} {elements : Std.ExtTreeMap Nat Bytes}
    (h : proof.computeRoot elements = .error fault) : fault.isRange = false := by
  simp only [computeRoot] at h
  split at h
  · split at h <;> cases h
    rfl
  split at h
  · split at h
    · split at h <;> cases h
      rfl
    · cases h
      rfl
  · rcases bind_eq_error.mp h with h | ⟨_, -, h⟩
    · exact isRange_of_checkNodes h
    rcases bind_eq_error.mp h with h | ⟨top, -, h⟩
    · exact isRange_of_climb h
    split at h <;> cases h
    rfl

/-- A range inside the list is never the fault. -/
theorem isRange_of_verify {proof : ListProof} {expected : Digest} {start stop : Nat}
    (hrange : start ≤ stop ∧ stop ≤ proof.length.toNat)
    (h : proof.verify expected start stop = .error fault) : fault.isRange = false := by
  unfold verify checkRange at h
  simp only [if_pos hrange] at h
  split at h
  · cases h
    rfl
  rcases bind_eq_error.mp h with h | ⟨_, -, h⟩
  · cases h
  rcases bind_eq_error.mp h with h | ⟨elements, -, h⟩
  · exact isRange_of_indexElements h
  split at h
  · rcases bind_eq_error.mp h with h | ⟨root, -, h⟩
    · exact isRange_of_computeRoot h
    · split at h <;> cases h
      rfl
  · cases h
    rfl

end ListProof

end MerkleList

namespace Query

/-! ## The links before the transactions -/

section
variable {S : SignatureScheme} {config : Config} {validators : ValidatorSet} {key : PublicKey}
  {e : ClientError}

/-- What a link before the transactions is refused for. What an error says of the settings, the
validators and the key is so. -/
inductive LinkRefusal (config : Config) (validators : ValidatorSet) (key : PublicKey) :
    ClientError → Prop
  | untrusted {signed : Nat} :
    LinkRefusal config validators key
      (.untrustedBlock ⟨signed, validators.quorum, validators.keys.length⟩)
  | corrupted {fault : StateFault} : LinkRefusal config validators key (.proofCorrupted fault)
  | noTable :
    LinkRefusal config validators key (.tableNotFound config.schema.serviceId config.tableIndex)
  | noAccount : LinkRefusal config validators key (.accountNotFound key)
  | badHistory {fault : HistoryFault} :
    LinkRefusal config validators key (.historyCorrupted fault)
  | unreadable {fault : EncodingFault} : LinkRefusal config validators key (.encoding fault)

theorem refusal_of_block {proof : BlockProof}
    (h : verifyBlockProof S proof validators = .error e) : LinkRefusal config validators key e := by
  by_cases htrusted : proof.Trusted S validators
  · rw [verifyBlockProof, BlockProof.verify_of_trusted htrusted] at h
    cases h
  · obtain ⟨signed, herror, -⟩ := BlockProof.verify_of_not_trusted htrusted
    rw [verifyBlockProof, herror] at h
    cases h
    exact .untrusted

theorem refusal_of_tableRoot {proof : Trie.MapProof} {stateHash : Digest}
    (h : tableRoot config proof stateHash = .error e) :
    LinkRefusal config validators key e := by
  simp only [tableRoot, bind_eq_error] at h
  rcases h with h | ⟨found, -, h⟩
  · obtain ⟨fault, rfl⟩ := lookUp_eq_error h
    exact .corrupted
  · cases found with
    | none =>
      cases h
      exact .noTable
    | some value =>
      cases hvalue : FixedBytes.ofList? 32 value with
      | none =>
        simp only [hvalue] at h
        cases h
        exact .corrupted
      | some root =>
        simp only [hvalue] at h
        cases h

theorem refusal_of_account {proof : Trie.MapProof} {root : Digest}
    (h : account key proof root = .error e) : LinkRefusal config validators key e := by
  simp only [account, bind_eq_error] at h
  rcases h with h | ⟨looked, -, h⟩
  · obtain ⟨fault, rfl⟩ := lookUp_eq_error h
    exact .corrupted
  · cases looked with
    | none =>
      cases h
      exact .noAccount
    | some record =>
      simp only [bind_eq_error, mapError_eq_error] at h
      rcases h with ⟨fault, -, rfl⟩ | ⟨found, -, h⟩
      · exact .unreadable
      · split at h
        · cases h
        · cases h
          exact .corrupted

/-- The whole list is asked for, so the fault is never the range. -/
theorem refusal_of_history {found : Account} {proof : MerkleList.ListProof}
    (h : history found proof = .error e) : LinkRefusal config validators key e := by
  unfold history at h
  split at h
  · rename_i hlength
    rcases bind_eq_error.mp h with h | ⟨elements, -, h⟩
    · obtain ⟨fault, hverify, rfl⟩ := mapError_eq_error.mp h
      have hinside : 0 ≤ found.historyLength.toNat ∧
          found.historyLength.toNat ≤ proof.length.toNat := by
        rw [hlength]
        exact ⟨Nat.zero_le _, Nat.le_refl _⟩
      have hrange := MerkleList.ListProof.isRange_of_verify hinside hverify
      cases fault with
      | range => cases hrange
      | _ => exact .badHistory
    · obtain ⟨element, -, h⟩ := exists_of_mapM_eq_error h
      obtain ⟨fault, -, rfl⟩ := mapError_eq_error.mp h
      exact .unreadable
  · cases h
    exact .badHistory

end

/-! ## The transactions -/

/-- What is wrong with a message that should be the transaction of an entry, in the order in
which it is looked for. -/
inductive Flaw (S : SignatureScheme) (schema : Schema) (index : Nat) (entry : HistoryEntry)
    (bytes : Bytes) : ClientError → Prop
  | unread {fault : EncodingFault} :
    Transaction.ofBytes bytes = .error fault → Flaw S schema index entry bytes (.encoding fault)
  | otherHash {t : Transaction} :
    Transaction.ofBytes bytes = .ok t → t.hash = .ok (sha256 bytes) →
    sha256 bytes ≠ entry.txHash → Flaw S schema index entry bytes (.hashMismatch index)
  | noBody {t : Transaction} {fault : EncodingFault} :
    Transaction.ofBytes bytes = .ok t → t.hash = .ok entry.txHash →
    t.decodeBody schema = .error fault → Flaw S schema index entry bytes (.encoding fault)
  | unsigned {t : Transaction} {body : Body} {signed : Bytes} :
    Transaction.ofBytes bytes = .ok t → t.hash = .ok entry.txHash →
    t.decodeBody schema = .ok body → t.signedBytes = .ok signed →
    S.verify body.owner signed t.signature = false →
    Flaw S schema index entry bytes (.invalidSignature index)

/-- The message is the transaction of the entry, and the owner named in its body signed it. -/
def Passes (S : SignatureScheme) (schema : Schema) (entry : HistoryEntry) (bytes : Bytes) : Prop :=
  ∃ t : VerifiedTransaction,
    Transaction.ofBytes bytes = .ok t.transaction ∧ t.entry = entry ∧ t.Genuine S schema

section
variable {S : SignatureScheme} {schema : Schema} {index : Nat} {entry : HistoryEntry}
  {bytes : Bytes} {e : ClientError}

theorem passes_iff :
    Passes S schema entry bytes ↔ ∃ t, transaction S schema index entry bytes = .ok t := by
  simp only [Passes, transaction_eq_ok]

/-- A message that was parsed can be hashed and was signed as some bytes, so these steps add
no errors. -/
theorem exists_signedBytes {t : Transaction} (h : Transaction.ofBytes bytes = .ok t) :
    t.hash = .ok (sha256 bytes) ∧ ∃ signed, t.signedBytes = .ok signed := by
  refine ⟨Transaction.hash_of_ofBytes h, ?_⟩
  have hbytes := Transaction.toBytes_of_ofBytes h
  rw [Transaction.toBytes, bind_eq_ok] at hbytes
  obtain ⟨signed, hsigned, -⟩ := hbytes
  exact ⟨signed, hsigned⟩

/-- What is left to check of a message that was parsed. -/
theorem transaction_of_ofBytes {t : Transaction} {signed : Bytes}
    (h : Transaction.ofBytes bytes = .ok t) (hsigned : t.signedBytes = .ok signed) :
    transaction S schema index entry bytes =
      if sha256 bytes = entry.txHash then
        match t.decodeBody schema with
        | .error fault => .error (.encoding fault)
        | .ok body =>
          if S.verify body.owner signed t.signature = true then
            .ok ⟨sha256 bytes, entry.succeeded, t, body⟩
          else .error (.invalidSignature index)
      else .error (.hashMismatch index) := by
  have hhash := Transaction.hash_of_ofBytes h
  simp only [transaction, h, hhash, Except.mapError, bind, Except.bind]
  split
  · cases hbody : t.decodeBody schema with
    | error fault => rfl
    | ok body =>
      simp only [Transaction.signedByOwner, hsigned]
      rfl
  · rfl

theorem transaction_eq_error :
    transaction S schema index entry bytes = .error e ↔ Flaw S schema index entry bytes e := by
  constructor
  · intro h
    cases hparsed : Transaction.ofBytes bytes with
    | error fault =>
      rw [transaction, hparsed] at h
      cases h
      exact .unread hparsed
    | ok t =>
      obtain ⟨hhash, signed, hsigned⟩ := exists_signedBytes hparsed
      rw [transaction_of_ofBytes hparsed hsigned] at h
      by_cases hentry : sha256 bytes = entry.txHash
      · rw [if_pos hentry] at h
        rw [hentry] at hhash
        cases hbody : t.decodeBody schema with
        | error fault =>
          simp only [hbody] at h
          cases h
          exact .noBody hparsed hhash hbody
        | ok body =>
          simp only [hbody] at h
          split at h <;> rename_i hverify <;> cases h
          exact .unsigned hparsed hhash hbody hsigned (Bool.not_eq_true _ ▸ hverify)
      · rw [if_neg hentry] at h
        cases h
        exact .otherHash hparsed hhash hentry
  · intro h
    cases h with
    | unread hunread =>
      rw [transaction, hunread]
      rfl
    | otherHash hparsed _ hentry =>
      obtain ⟨-, signed, hsigned⟩ := exists_signedBytes hparsed
      rw [transaction_of_ofBytes hparsed hsigned, if_neg hentry]
    | noBody hparsed hhash hnone =>
      obtain ⟨hhash', signed, hsigned⟩ := exists_signedBytes hparsed
      rw [transaction_of_ofBytes hparsed hsigned, if_pos (Except.ok.inj (hhash'.symm.trans hhash)),
        hnone]
    | unsigned hparsed hhash hbody hsigned hverify =>
      have hhash' := Transaction.hash_of_ofBytes hparsed
      rw [transaction_of_ofBytes hparsed hsigned, if_pos (Except.ok.inj (hhash'.symm.trans hhash)),
        hbody]
      exact if_neg (Bool.eq_false_iff.mp hverify)

/-- The transactions fail at the first one that does not pass. -/
theorem transactionsFrom_eq_error {pairs : List (HistoryEntry × Bytes)} :
    transactionsFrom S schema index pairs = .error e ↔
      ∃ k, (∀ j < k, ∃ pair, pairs[j]? = some pair ∧ Passes S schema pair.1 pair.2) ∧
        ∃ pair, pairs[k]? = some pair ∧ Flaw S schema (index + k) pair.1 pair.2 e := by
  induction pairs generalizing index with
  | nil => simp [transactionsFrom]
  | cons pair rest ih =>
    obtain ⟨entry, bytes⟩ := pair
    simp only [transactionsFrom, bind_eq_error]
    constructor
    · rintro (h | ⟨t, ht, h | ⟨ts, -, h⟩⟩)
      · refine ⟨0, fun j hj => absurd hj (Nat.not_lt_zero j), _, rfl, ?_⟩
        exact transaction_eq_error.mp h
      · obtain ⟨k, hpasses, pair, hpair, hflaw⟩ := ih.mp h
        refine ⟨k + 1, ?_, pair, hpair, by rwa [Nat.add_right_comm] at hflaw⟩
        intro j hj
        cases j with
        | zero => exact ⟨_, rfl, passes_iff.mpr ⟨t, ht⟩⟩
        | succ j => exact hpasses j (Nat.lt_of_succ_lt_succ hj)
      · cases h
    · rintro ⟨k, hpasses, pair, hpair, hflaw⟩
      cases k with
      | zero =>
        cases hpair
        exact Or.inl (transaction_eq_error.mpr hflaw)
      | succ k =>
        obtain ⟨_, hfirst, hpass⟩ := hpasses 0 (Nat.succ_pos k)
        cases hfirst
        obtain ⟨t, ht⟩ := passes_iff.mp hpass
        rw [← Nat.add_assoc, Nat.add_right_comm] at hflaw
        refine Or.inr ⟨t, ht, Or.inl (ih.mpr ⟨k, ?_, pair, hpair, hflaw⟩)⟩
        exact fun j hj => hpasses (j + 1) (Nat.succ_lt_succ hj)

end

/-- The first message that does not pass, and what is wrong with it. There is one message for
each entry. -/
structure FirstFlaw (S : SignatureScheme) (schema : Schema) (entries : List HistoryEntry)
    (raw : List Bytes) (index : Nat) (e : ClientError) : Prop where
  count : raw.length = entries.length
  inside : index < entries.length
  before : ∀ i < index, ∃ entry bytes, entries[i]? = some entry ∧ raw[i]? = some bytes ∧
    Passes S schema entry bytes
  flaw : ∃ entry bytes, entries[index]? = some entry ∧ raw[index]? = some bytes ∧
    Flaw S schema index entry bytes e

section
variable {S : SignatureScheme} {schema : Schema} {entries : List HistoryEntry} {raw : List Bytes}
  {e : ClientError}

theorem transactions_eq_error :
    transactions S schema entries raw = .error e ↔
      (raw.length ≠ entries.length ∧ e = .historyLength raw.length entries.length) ∨
        ∃ index, FirstFlaw S schema entries raw index e := by
  unfold transactions
  split
  · rename_i hcount
    simp only [transactionsFrom_eq_error, Prod.exists, List.getElem?_zip_eq_some, Nat.zero_add]
    constructor
    · rintro ⟨k, hbefore, entry, bytes, hpair, hflaw⟩
      refine Or.inr ⟨k, hcount, (List.getElem?_eq_some_iff.mp hpair.1).1, ?_, ?_⟩
      · intro i hi
        obtain ⟨entry, bytes, hpair, hpass⟩ := hbefore i hi
        exact ⟨entry, bytes, hpair.1, hpair.2, hpass⟩
      · exact ⟨entry, bytes, hpair.1, hpair.2, hflaw⟩
    · rintro (⟨hother, -⟩ | ⟨k, -, -, hbefore, entry, bytes, hentry, hbytes, hflaw⟩)
      · exact absurd hcount hother
      · refine ⟨k, ?_, entry, bytes, ⟨hentry, hbytes⟩, hflaw⟩
        intro i hi
        obtain ⟨entry, bytes, hentry, hbytes, hpass⟩ := hbefore i hi
        exact ⟨entry, bytes, ⟨hentry, hbytes⟩, hpass⟩
  · rename_i hother
    constructor
    · intro h
      cases h
      exact Or.inl ⟨hother, rfl⟩
    · rintro (⟨-, rfl⟩ | ⟨k, hflaw⟩)
      · rfl
      · exact absurd hflaw.count hother

end

/-! ## The chain -/

/-- The checks before the transactions all pass: the block is trusted, its state has the table,
the table has the account, and the account has these entries. -/
structure Established (S : SignatureScheme) (config : Config) (validators : ValidatorSet)
    (key : PublicKey) (response : AccountResponse) (entries : List HistoryEntry) : Prop where
  trusted : response.blockProof.Trusted S validators
  linked : ∃ root found,
    tableRoot config response.tableProof response.blockProof.header.stateHash = .ok root ∧
    account key response.accountProof root = .ok found ∧
    history found response.historyProof = .ok entries

section
variable {S : SignatureScheme} {config : Config} {validators : ValidatorSet} {key : PublicKey}
  {response : AccountResponse} {entries : List HistoryEntry} {e : ClientError}

theorem Established.verifyAccount_eq (h : Established S config validators key response entries) :
    ∃ found, verifyAccount S config validators key response =
      (transactions S config.schema entries response.transactions).map fun ts =>
        ⟨response.blockProof.header, response.blockProof.header.hash, found, ts⟩ := by
  obtain ⟨root, found, hroot, hfound, hentries⟩ := h.linked
  have hblock := verifyBlockProof_eq_ok.mpr ⟨h.trusted, rfl⟩
  refine ⟨found, ?_⟩
  simp only [verifyAccount, hblock, hroot, hfound, hentries, bind, Except.bind]
  cases transactions S config.schema entries response.transactions with
  | error e => rfl
  | ok ts => rfl

/-- What an answer is refused for. -/
inductive Refusal (config : Config) (validators : ValidatorSet) (key : PublicKey)
    (response : AccountResponse) : ClientError → Prop
  | link {e : ClientError} :
    LinkRefusal config validators key e → Refusal config validators key response e
  | otherCount {entries : Nat} :
    response.transactions.length ≠ entries →
    Refusal config validators key response (.historyLength response.transactions.length entries)
  | unread {fault : EncodingFault} : Refusal config validators key response (.encoding fault)
  | otherHash {index : Nat} :
    index < response.transactions.length →
    Refusal config validators key response (.hashMismatch index)
  | unsigned {index : Nat} :
    index < response.transactions.length →
    Refusal config validators key response (.invalidSignature index)

/-- If no link before the transactions is refused, the transactions are. -/
theorem of_verifyAccount_eq_error
    (h : verifyAccount S config validators key response = .error e) :
    LinkRefusal config validators key e ∨
      ∃ entries, Established S config validators key response entries ∧
        transactions S config.schema entries response.transactions = .error e := by
  simp only [verifyAccount, bind_eq_error] at h
  rcases h with h | ⟨hash, hblock, h⟩
  · exact Or.inl (refusal_of_block h)
  obtain ⟨htrusted, -⟩ := verifyBlockProof_eq_ok.mp hblock
  rcases h with h | ⟨root, hroot, h | ⟨found, hfound, h | ⟨entries, hentries, h | h⟩⟩⟩
  · exact Or.inl (refusal_of_tableRoot h)
  · exact Or.inl (refusal_of_account h)
  · exact Or.inl (refusal_of_history h)
  · exact Or.inr ⟨entries, ⟨htrusted, root, found, hroot, hfound, hentries⟩, h⟩
  · obtain ⟨ts, -, h⟩ := h
    cases h

theorem FirstFlaw.refusal {index : Nat}
    (h : FirstFlaw S config.schema entries response.transactions index e) :
    Refusal config validators key response e := by
  obtain ⟨entry, bytes, -, hbytes, hflaw⟩ := h.flaw
  have hinside := (List.getElem?_eq_some_iff.mp hbytes).1
  cases hflaw with
  | unread => exact .unread
  | otherHash => exact .otherHash hinside
  | noBody => exact .unread
  | unsigned => exact .unsigned hinside

theorem refusal_of_verifyAccount
    (h : verifyAccount S config validators key response = .error e) :
    Refusal config validators key response e := by
  rcases of_verifyAccount_eq_error h with hlink | ⟨entries, -, hrefused⟩
  · exact .link hlink
  rcases transactions_eq_error.mp hrefused with ⟨hcount, rfl⟩ | ⟨index, hflaw⟩
  · exact .otherCount hcount
  · exact hflaw.refusal

/-- The transactions are refused for a flaw of theirs when all links before them hold. -/
theorem verifyAccount_eq_error_iff_firstFlaw {index : Nat}
    (hlink : ¬ LinkRefusal config validators key e)
    (hlength : ∀ count entries, e ≠ .historyLength count entries)
    (hindex : ∀ entry bytes other, Flaw S config.schema other entry bytes e → other = index) :
    verifyAccount S config validators key response = .error e ↔
      ∃ entries, Established S config validators key response entries ∧
        FirstFlaw S config.schema entries response.transactions index e := by
  constructor
  · intro h
    obtain hrefused | ⟨entries, hestablished, hrefused⟩ := of_verifyAccount_eq_error h
    · exact absurd hrefused hlink
    rcases transactions_eq_error.mp hrefused with ⟨-, h⟩ | ⟨other, hflaw⟩
    · exact absurd h (hlength _ _)
    obtain ⟨entry, bytes, -, -, hblamed⟩ := hflaw.flaw
    obtain rfl := hindex entry bytes other hblamed
    exact ⟨entries, hestablished, hflaw⟩
  · rintro ⟨entries, hestablished, hflaw⟩
    obtain ⟨found, heq⟩ := hestablished.verifyAccount_eq
    rw [heq, transactions_eq_error.mpr (Or.inr ⟨index, hflaw⟩)]
    rfl

end

/-- The errors that blame the answer of the node, and not the caller, the network or the wait. -/
structure Blames (e : ClientError) : Prop where
  failure : e.isVerificationFailure = true ∨ ∃ fault, e = .encoding fault
  lasting : e.isTransient = false
  range : ∀ start stop length, e ≠ .range start stop length
  crypto : ∀ fault, e ≠ .crypto fault
  cancelled : e ≠ .cancelled
  commitTimeout : ∀ attempts, e ≠ .commitTimeout attempts
  network : ∀ fault, e ≠ .network fault
  invalidConfig : ∀ fault, e ≠ .invalidConfig fault

theorem LinkRefusal.blames {config : Config} {validators : ValidatorSet} {key : PublicKey}
    {e : ClientError} (h : LinkRefusal config validators key e) : Blames e := by
  cases h <;> constructor <;> simp [ClientError.isVerificationFailure, ClientError.isTransient]

theorem Refusal.blames {config : Config} {validators : ValidatorSet} {key : PublicKey}
    {response : AccountResponse} {e : ClientError}
    (h : Refusal config validators key response e) : Blames e := by
  cases h with
  | link hlink => exact hlink.blames
  | _ => constructor <;> simp [ClientError.isVerificationFailure, ClientError.isTransient]

/-- An answer about an account is refused for what one of its links fails by, and the error
blames the answer. A transaction is blamed for its hash or its signature exactly when all links
before the transactions hold, each message before it is the signed transaction of its entry, and
this one is read and has another hash, or has the hash and a body whose owner did not sign it.
Reading a message takes no other errors in: its last slice is always long enough for a
signature. -/
theorem verifyAccount_refusals (S : SignatureScheme) (config : Config)
    (validators : ValidatorSet) (key : PublicKey) (response : AccountResponse) :
    (∀ e, verifyAccount S config validators key response = .error e →
      Refusal config validators key response e ∧ Blames e) ∧
    (∀ index, verifyAccount S config validators key response = .error (.hashMismatch index) ↔
      ∃ entries, Established S config validators key response entries ∧
        FirstFlaw S config.schema entries response.transactions index (.hashMismatch index)) ∧
    (∀ index, verifyAccount S config validators key response = .error (.invalidSignature index) ↔
      ∃ entries, Established S config validators key response entries ∧
        FirstFlaw S config.schema entries response.transactions index
          (.invalidSignature index)) ∧
    ∀ message,
      Transaction.ofSlices message = (Transaction.ofBytes message).mapError .encoding := by
  refine ⟨?_, ?_, ?_, Transaction.ofSlices_eq⟩
  · intro e h
    have hrefusal := refusal_of_verifyAccount h
    exact ⟨hrefusal, hrefusal.blames⟩
  · intro index
    apply verifyAccount_eq_error_iff_firstFlaw
    · intro h
      cases h
    · simp
    · intro entry bytes other hflaw
      cases hflaw
      rfl
  · intro index
    apply verifyAccount_eq_error_iff_firstFlaw
    · intro h
      cases h
    · simp
    · intro entry bytes other hflaw
      cases hflaw
      rfl

/-! ## A history with a message that nobody signed -/

def forgedHistory : List HistoryEntry :=
  [verifiedCreated.entry, ⟨sha256 Ledger.forgedBytes, true⟩]

def forgedAccount : Account := ⟨neutralKey, "", 0, 2, Ledger.historyRoot forgedHistory⟩

def forgedRecord : Bytes :=
  neutralKey.bytes.toList ++ little 4 0 ++ [] ++ little 8 0 ++ little 8 2 ++
    forgedAccount.historyHash.toList

def forgedTable : Trie.Entries := (∅ : Trie.Entries).insert neutralKey.bytes forgedRecord

def forgedState : Trie.Entries :=
  (∅ : Trie.Entries).insert (tableKey 128 0) (Trie.root forgedTable).toList

/-- The account is proven with both entries, and both messages have their hashes. -/
def forgedAnswer : AccountResponse where
  blockProof :=
    ⟨⟨0, .zero 32, .zero 32, Trie.root forgedState, 0⟩, [⟨neutralKey, neutralSignature⟩]⟩
  tableProof := Trie.buildProof forgedState [tableKey 128 0]
  accountProof := Trie.buildProof forgedTable [neutralKey.bytes]
  historyProof := MerkleList.builtProof (forgedHistory.map HistoryEntry.encode) 0
    (forgedHistory.map HistoryEntry.encode).length
  transactions := [createdBytes, Ledger.forgedBytes]

theorem established_forgedAnswer :
    Established neutralScheme Config.standard ⟨[neutralKey]⟩ neutralKey forgedAnswer
      forgedHistory where
  trusted := (verifyBlockProof_eq_ok.mp rfl).1
  linked := by
    refine ⟨Trie.root forgedTable, forgedAccount, ?_, ?_, ?_⟩
    · rw [tableRoot_eq_ok]
      exact lookUp_buildProof_of_getElem? Std.ExtTreeMap.getElem?_insert_self
    · rw [account_eq_ok]
      refine ⟨forgedRecord, ?_, rfl, rfl⟩
      exact lookUp_buildProof_of_getElem? Std.ExtTreeMap.getElem?_insert_self
    · exact history_builtProof ⟨rfl, rfl, rfl, rfl⟩ (by decide)

theorem firstFlaw_forgedAnswer :
    FirstFlaw neutralScheme Config.standard.schema forgedHistory forgedAnswer.transactions 1
      (.invalidSignature 1) where
  count := rfl
  inside := by decide
  before := by
    intro i hi
    obtain rfl : i = 0 := by omega
    refine ⟨_, _, rfl, rfl, verifiedCreated, ?_, rfl, genuine_verifiedCreated⟩
    exact Transaction.ofBytes_of_toBytes rfl
  flaw := by
    have hhash := Transaction.hash_of_ofBytes Ledger.ofBytes_forged
    have hbody : Ledger.forged.decodeBody Config.standard.schema = .ok verifiedCreated.body :=
      genuine_verifiedCreated.body_eq
    exact ⟨_, _, rfl, rfl, .unsigned Ledger.ofBytes_forged hhash hbody rfl (by decide)⟩

/-- The second message is blamed for its signature, and nothing else is wrong. -/
theorem verifyAccount_refusals_forgedAnswer :
    verifyAccount neutralScheme Config.standard ⟨[neutralKey]⟩ neutralKey forgedAnswer =
        .error (.invalidSignature 1) ∧
      Refusal Config.standard ⟨[neutralKey]⟩ neutralKey forgedAnswer (.invalidSignature 1) ∧
      Blames (.invalidSignature 1) := by
  obtain ⟨hblames, -, hsignature, -⟩ :=
    verifyAccount_refusals neutralScheme Config.standard ⟨[neutralKey]⟩ neutralKey forgedAnswer
  have herror :=
    (hsignature 1).mpr ⟨forgedHistory, established_forgedAnswer, firstFlaw_forgedAnswer⟩
  exact ⟨herror, hblames _ herror⟩

end Query

end LightClient

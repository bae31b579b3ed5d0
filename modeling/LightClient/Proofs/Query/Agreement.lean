import LightClient.Proofs.MerkleList.Agreement
import LightClient.Proofs.Query.Soundness
import LightClient.Proofs.Transaction.Envelope
import LightClient.Proofs.Trie.Agreement

/-! Two accepted answers about one account never disagree when their blocks have
one state hash, even if no state was ever built that has this hash. The chain is
followed in both answers at once: each link fixes what the next one starts from. -/

namespace LightClient.Query

/-! ## The links -/

section
variable {first second : Trie.MapProof} {root : Digest}

/-- Values found under one root and key are the same. -/
theorem lookUp_agree {key : Trie.MapKey} {a b : Bytes} (h : lookUp first root key = .ok (some a))
    (h' : lookUp second root key = .ok (some b))
    (hsafe : ¬ Collision (first.inputs ++ second.inputs)) : a = b := by
  obtain ⟨c, hcheck, hget⟩ := lookUp_eq_ok.mp h
  obtain ⟨d, hcheck', hget'⟩ := lookUp_eq_ok.mp h'
  exact Trie.MapProof.get_eq_get hcheck hcheck' hsafe hget hget'

theorem tableRoot_agree {config : Config} {a b : Digest} (h : tableRoot config first root = .ok a)
    (h' : tableRoot config second root = .ok b)
    (hsafe : ¬ Collision (first.inputs ++ second.inputs)) : a = b :=
  FixedBytes.toList_injective (lookUp_agree (tableRoot_eq_ok.mp h) (tableRoot_eq_ok.mp h') hsafe)

/-- Accounts found under one table root are the same, as they have one record. -/
theorem account_agree {key : PublicKey} {a b : Account} (h : account key first root = .ok a)
    (h' : account key second root = .ok b)
    (hsafe : ¬ Collision (first.inputs ++ second.inputs)) : a = b := by
  obtain ⟨record, hrecord, hencode, -⟩ := account_eq_ok.mp h
  obtain ⟨record', hrecord', hencode', -⟩ := account_eq_ok.mp h'
  obtain rfl := lookUp_agree hrecord hrecord' hsafe
  rw [← Account.decode_eq_ok] at hencode hencode'
  exact Except.ok.inj (hencode.symm.trans hencode')

end

/-- Histories of one account are the same. -/
theorem history_agree {found : Account} {first second : MerkleList.ListProof}
    {entries entries' : List HistoryEntry} (h : history found first = .ok entries)
    (h' : history found second = .ok entries')
    (hsafe : ¬ Collision (first.inputs ++ second.inputs)) : entries = entries' := by
  obtain ⟨-, elements, hverify, helements⟩ := history_eq_ok.mp h
  obtain ⟨-, elements', hverify', helements'⟩ := history_eq_ok.mp h'
  obtain ⟨-, rfl⟩ := MerkleList.ListProof.verify_agree hverify hverify' hsafe
  have hencoded := helements.symm.trans helements'
  exact (List.map_inj_right fun _ _ => HistoryEntry.encode_injective).mp hencoded

/-! ## The transactions -/

/-- Lists with one image are the same when their elements can be told apart by it. -/
theorem eq_of_map_eq {α β : Type} {f : α → β} {as bs : List α} (h : as.map f = bs.map f)
    (hinj : ∀ a ∈ as, ∀ b ∈ bs, f a = f b → a = b) : as = bs := by
  induction as generalizing bs with
  | nil => exact (List.map_eq_nil_iff.mp h.symm).symm
  | cons a as ih =>
    cases bs with
    | nil => cases h
    | cons b bs =>
      rw [List.map_cons, List.map_cons, List.cons.injEq] at h
      rw [hinj a List.mem_cons_self b List.mem_cons_self h.1]
      congr 1
      apply ih h.2
      intro a' ha' b' hb'
      exact hinj a' (List.mem_cons_of_mem _ ha') b' (List.mem_cons_of_mem _ hb')

section
variable {S : SignatureScheme} {schema : Schema}

/-- Genuine transactions of one history entry are the same: the entry holds the hash
of the whole message, and the message fixes the rest. -/
theorem eq_of_entry_eq {t u : VerifiedTransaction} {message message' : Bytes}
    (ht : t.Genuine S schema) (hu : u.Genuine S schema)
    (hparsed : Transaction.ofBytes message = .ok t.transaction)
    (hparsed' : Transaction.ofBytes message' = .ok u.transaction) (hentry : t.entry = u.entry)
    {inputs : List Bytes} (hmem : message ∈ inputs) (hmem' : message' ∈ inputs)
    (hsafe : ¬ Collision inputs) : t = u := by
  obtain ⟨hhash, hsucceeded⟩ := (HistoryEntry.mk.injEq ..).mp hentry
  have hmessage : t.hash = sha256 message :=
    Except.ok.inj (ht.hash_eq.symm.trans (Transaction.hash_of_ofBytes hparsed))
  have hmessage' : u.hash = sha256 message' :=
    Except.ok.inj (hu.hash_eq.symm.trans (Transaction.hash_of_ofBytes hparsed'))
  obtain rfl : message = message' := by
    apply eq_of_sha256_eq hsafe hmem hmem'
    rw [← hmessage, ← hmessage', hhash]
  have htransaction : t.transaction = u.transaction :=
    Except.ok.inj (hparsed.symm.trans hparsed')
  have hbody := ht.body_eq
  rw [htransaction, hu.body_eq] at hbody
  cases t
  cases u
  simp only [VerifiedTransaction.mk.injEq]
  exact ⟨hhash, hsucceeded, htransaction, (Except.ok.inj hbody).symm⟩

/-- Every accepted transaction was parsed from one of the messages. -/
theorem exists_message_of_mem {raw : List Bytes} {ts : List VerifiedTransaction}
    (h : raw.map Transaction.ofBytes = ts.map fun t => .ok t.transaction) {t : VerifiedTransaction}
    (ht : t ∈ ts) : ∃ message ∈ raw, Transaction.ofBytes message = .ok t.transaction := by
  rw [← List.mem_map, h]
  exact List.mem_map_of_mem ht

/-- Transactions of one history are the same. -/
theorem transactions_agree {entries : List HistoryEntry} {raw raw' : List Bytes}
    {ts us : List VerifiedTransaction} (h : transactions S schema entries raw = .ok ts)
    (h' : transactions S schema entries raw' = .ok us) (hsafe : ¬ Collision (raw ++ raw')) :
    ts = us := by
  obtain ⟨hentries, hraw, hgenuine⟩ := transactions_eq_ok.mp h
  obtain ⟨hentries', hraw', hgenuine'⟩ := transactions_eq_ok.mp h'
  apply eq_of_map_eq (hentries.trans hentries'.symm)
  intro t ht u hu hentry
  obtain ⟨message, hmem, hparsed⟩ := exists_message_of_mem hraw ht
  obtain ⟨message', hmem', hparsed'⟩ := exists_message_of_mem hraw' hu
  exact eq_of_entry_eq (hgenuine t ht) (hgenuine' u hu) hparsed hparsed' hentry
    (List.mem_append_left _ hmem) (List.mem_append_right _ hmem') hsafe

end

/-! ## The answers -/

/-- The byte strings hashed to follow an answer down from its block. -/
def answerInputs (response : AccountResponse) : List Bytes :=
  response.tableProof.inputs ++ response.accountProof.inputs ++ response.historyProof.inputs ++
    response.transactions

section
variable {S : SignatureScheme} {config : Config} {validators validators' : ValidatorSet}
  {key : PublicKey} {first second : AccountResponse}

/-- What is hashed for a link of an answer is hashed for the answer. -/
theorem not_collision_links (hsafe : ¬ Collision (answerInputs first ++ answerInputs second)) :
    ¬ Collision (first.tableProof.inputs ++ second.tableProof.inputs) ∧
      ¬ Collision (first.accountProof.inputs ++ second.accountProof.inputs) ∧
      ¬ Collision (first.historyProof.inputs ++ second.historyProof.inputs) ∧
      ¬ Collision (first.transactions ++ second.transactions) := by
  refine ⟨?_, ?_, ?_, ?_⟩ <;> apply not_collision_of_subset hsafe <;> intro x hx <;>
    simp [answerInputs, hx]

theorem agree_of_verifyAccount {v w : VerifiedAccount}
    (hstate : first.blockProof.header.stateHash = second.blockProof.header.stateHash)
    (h : verifyAccount S config validators key first = .ok v)
    (h' : verifyAccount S config validators' key second = .ok w)
    (hsafe : ¬ Collision (answerInputs first ++ answerInputs second)) :
    v.account = w.account ∧ v.transactions = w.transactions := by
  obtain ⟨-, -, root, entries, hroot, hfound, hentries, hts⟩ := verifyAccount_eq_ok.mp h
  obtain ⟨-, -, root', entries', hroot', hfound', hentries', hts'⟩ := verifyAccount_eq_ok.mp h'
  obtain ⟨htable, haccount, hhistory, hraw⟩ := not_collision_links hsafe
  rw [hstate] at hroot
  obtain rfl := tableRoot_agree hroot hroot' htable
  have hsame := account_agree hfound hfound' haccount
  rw [← hsame] at hentries'
  obtain rfl := history_agree hentries hentries' hhistory
  exact ⟨hsame, transactions_agree hts hts' hraw⟩

end

/-- Two answers that are accepted about one key, by whatever validators, have the same
account and the same transactions if their blocks have one state hash, unless two
byte strings hashed for the answers collide. -/
theorem verifyAccount_agree (S : SignatureScheme) (config : Config)
    (validators validators' : ValidatorSet) (key : PublicKey) (first second : AccountResponse)
    (hstate : first.blockProof.header.stateHash = second.blockProof.header.stateHash)
    (v w : VerifiedAccount) (h : verifyAccount S config validators key first = .ok v)
    (h' : verifyAccount S config validators' key second = .ok w) :
    (v.account = w.account ∧ v.transactions = w.transactions) ∨
      Collision (answerInputs first ++ answerInputs second) := by
  by_cases hsafe : Collision (answerInputs first ++ answerInputs second)
  · exact Or.inr hsafe
  · exact Or.inl (agree_of_verifyAccount hstate h h' hsafe)

/-- Another answer about the one account: the block is a later one, and the proof of
the account shows a second key to be absent. -/
def laterAnswer : AccountResponse :=
  { oneAnswer with
    blockProof :=
      { oneAnswer.blockProof with header := { oneAnswer.blockProof.header with height := 1 } }
    accountProof := Trie.buildProof oneTable [neutralKey.bytes, Trie.shortKey 2] }

def laterVerified : VerifiedAccount :=
  { oneVerified with
    block := laterAnswer.blockProof.header
    blockHash := laterAnswer.blockProof.header.hash }

theorem verifyAccount_laterAnswer :
    verifyAccount neutralScheme Config.standard ⟨[neutralKey]⟩ neutralKey laterAnswer =
      .ok laterVerified := by
  obtain ⟨-, -, -, entries, -, -, hentries, hts⟩ := verifyAccount_eq_ok.mp verifyAccount_oneAnswer
  exact verifyAccount_eq_ok.mpr ⟨rfl, rfl, Trie.root oneTable, entries, tableRoot_oneAnswer,
    account_oneTable List.mem_cons_self, hentries, hts⟩

/-- The two answers about the one account agree. -/
theorem verifyAccount_agree_laterAnswer :
    oneAnswer.blockProof.header.stateHash = laterAnswer.blockProof.header.stateHash ∧
      verifyAccount neutralScheme Config.standard ⟨[neutralKey]⟩ neutralKey oneAnswer =
        .ok oneVerified ∧
      verifyAccount neutralScheme Config.standard ⟨[neutralKey]⟩ neutralKey laterAnswer =
        .ok laterVerified ∧
      ((oneVerified.account = laterVerified.account ∧
          oneVerified.transactions = laterVerified.transactions) ∨
        Collision (answerInputs oneAnswer ++ answerInputs laterAnswer)) :=
  ⟨rfl, verifyAccount_oneAnswer, verifyAccount_laterAnswer,
    verifyAccount_agree neutralScheme Config.standard ⟨[neutralKey]⟩ ⟨[neutralKey]⟩ neutralKey
      oneAnswer laterAnswer rfl oneVerified laterVerified verifyAccount_oneAnswer
      verifyAccount_laterAnswer⟩

end LightClient.Query

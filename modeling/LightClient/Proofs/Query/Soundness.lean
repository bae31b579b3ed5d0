import LightClient.Ed25519.Scheme
import LightClient.Proofs.Query.Links

/-! An answer about an account is true of the state that its block commits to:
an accepted one of what the account table holds under the key, and a denial of
what it does not hold. Nothing is assumed of the node that gave the answer. -/

namespace LightClient.Query

section
variable {S : SignatureScheme} {config : Config} {validators : ValidatorSet} {key : PublicKey}
  {response : AccountResponse}

/-! ## The chain -/

/-- An answer is accepted when all its links hold. -/
theorem verifyAccount_eq_ok {v : VerifiedAccount} :
    verifyAccount S config validators key response = .ok v ↔
      verifyBlockProof S response.blockProof validators = .ok v.blockHash ∧
        v.block = response.blockProof.header ∧
        ∃ root entries,
          tableRoot config response.tableProof response.blockProof.header.stateHash = .ok root ∧
          account key response.accountProof root = .ok v.account ∧
          history v.account response.historyProof = .ok entries ∧
          transactions S config.schema entries response.transactions = .ok v.transactions := by
  simp only [verifyAccount, bind_eq_ok]
  constructor
  · rintro ⟨blockHash, hblock, root, hroot, found, hfound, entries, hentries, ts, hts, h⟩
    cases h
    exact ⟨hblock, rfl, root, entries, hroot, hfound, hentries, hts⟩
  · rintro ⟨hblock, hheader, root, entries, hroot, hfound, hentries, hts⟩
    refine ⟨_, hblock, root, hroot, _, hfound, entries, hentries, _, hts, ?_⟩
    rw [← hheader]
    rfl

/-- Only the two map proofs can deny that something is there. -/
theorem of_verifyAccount_eq_absence {e : ClientError} (he : e.isAbsence = true)
    (h : verifyAccount S config validators key response = .error e) :
    tableRoot config response.tableProof response.blockProof.header.stateHash = .error e ∨
      ∃ root,
        tableRoot config response.tableProof response.blockProof.header.stateHash = .ok root ∧
        account key response.accountProof root = .error e := by
  simp only [verifyAccount, bind_eq_error] at h
  rcases h with h | ⟨blockHash, -, h | ⟨root, hroot, h | ⟨found, -, h | ⟨entries, -, h | h⟩⟩⟩⟩
  · obtain ⟨shortfall, -, rfl⟩ := mapError_eq_error.mp h
    cases he
  · exact Or.inl h
  · exact Or.inr ⟨root, hroot, h⟩
  · exact absurd h (history_ne_absence he)
  · exact absurd h (transactions_ne_absence he)
  · obtain ⟨ts, -, h⟩ := h
    cases h

end

/-! ## What an answer says -/

/-- What an accepted answer says about the account table. The part about the
history holds unless two of the byte strings hashed for it collide. -/
structure Confirmed (S : SignatureScheme) (schema : Schema) (key : PublicKey)
    (proof : MerkleList.ListProof) (table : Trie.Entries) (v : VerifiedAccount) : Prop where
  record : ∃ record, table[key.bytes]? = some record ∧ v.account.encode = .ok record
  owner : v.account.publicKey = key
  length : v.transactions.length = v.account.historyLength.toNat
  genuine : ∀ t ∈ v.transactions, t.Genuine S schema
  history : ∀ list : List Bytes, list.length ≤ MerkleList.maxLength →
    MerkleList.root list = v.account.historyHash →
    (list.length = v.account.historyLength.toNat ∧
      list = v.transactions.map fun t => t.entry.encode) ∨
    Collision (proof.inputs ++ MerkleList.rootInputs list)

/-- The byte strings hashed for the root of the state and to find the table. -/
def tableInputs (response : AccountResponse) (state : Trie.Entries) : List Bytes :=
  response.tableProof.inputs ++ Trie.rootInputs state

/-- The byte strings hashed for the root of the table and to find the account. -/
def accountInputs (response : AccountResponse) (table : Trie.Entries) : List Bytes :=
  response.accountProof.inputs ++ Trie.rootInputs table

section
variable {config : Config} {response : AccountResponse} {state table : Trie.Entries}

/-- The table root that is found is the root of the table. -/
theorem tableRoot_sound {root : Digest}
    (hstate : Trie.root state = response.blockProof.header.stateHash)
    (htable : state[tableKey config.schema.serviceId config.tableIndex]? =
      some (Trie.root table).toList)
    (h : tableRoot config response.tableProof response.blockProof.header.stateHash = .ok root)
    (hsafe : ¬ Collision (tableInputs response state))
    (hzero : ¬ ZeroHash (tableInputs response state)) : root = Trie.root table := by
  rw [← hstate, tableRoot_eq_ok] at h
  have hfound := lookUp_sound h hsafe hzero
  rw [htable] at hfound
  exact FixedBytes.toList_injective (Option.some.inj hfound)

/-- The table is never denied. -/
theorem tableRoot_ne_absence {e : ClientError} (he : e.isAbsence = true)
    (hstate : Trie.root state = response.blockProof.header.stateHash)
    (htable : state[tableKey config.schema.serviceId config.tableIndex]? =
      some (Trie.root table).toList)
    (hsafe : ¬ Collision (tableInputs response state))
    (hzero : ¬ ZeroHash (tableInputs response state)) :
    tableRoot config response.tableProof response.blockProof.header.stateHash ≠ .error e := by
  intro h
  rw [← hstate] at h
  have hfound := lookUp_sound (tableRoot_eq_absence he h).1 hsafe hzero
  rw [htable] at hfound
  cases hfound

end

/-- An accepted history lists as many entries as the account says. -/
theorem length_of_history {found : Account} {proof : MerkleList.ListProof}
    {entries : List HistoryEntry} (h : history found proof = .ok entries) :
    entries.length = found.historyLength.toNat := by
  obtain ⟨-, elements, hverify, hvalues⟩ := history_eq_ok.mp h
  obtain ⟨-, -, indexed, -, hsize, hfill, -, rfl⟩ := MerkleList.ListProof.verify_eq_ok.mp hverify
  have hindices := congrArg List.length (MerkleList.ListProof.keys_eq_range' hsize hfill)
  have hentries := congrArg List.length hvalues
  simp only [List.length_map, List.length_range'] at hindices hentries
  omega

section
variable {S : SignatureScheme} {config : Config} {validators : ValidatorSet} {key : PublicKey}
  {response : AccountResponse} {state table : Trie.Entries}

/-- What an accepted answer says is so. -/
theorem confirmed_of_verifyAccount {v : VerifiedAccount}
    (hstate : Trie.root state = response.blockProof.header.stateHash)
    (htable : state[tableKey config.schema.serviceId config.tableIndex]? =
      some (Trie.root table).toList)
    (h : verifyAccount S config validators key response = .ok v)
    (hsafe : ¬ Collision (tableInputs response state ++ accountInputs response table))
    (hzero : ¬ ZeroHash (tableInputs response state ++ accountInputs response table)) :
    Confirmed S config.schema key response.historyProof table v := by
  obtain ⟨hsafeTable, hsafeAccount⟩ := not_collision_append hsafe
  obtain ⟨hzeroTable, hzeroAccount⟩ := not_zeroHash_append hzero
  obtain ⟨-, -, root, entries, hroot, hfound, hentries, hts⟩ := verifyAccount_eq_ok.mp h
  obtain rfl := tableRoot_sound hstate htable hroot hsafeTable hzeroTable
  obtain ⟨record, hrecord, hencode, howner⟩ := account_eq_ok.mp hfound
  obtain ⟨hlisted, -, hgenuine⟩ := transactions_eq_ok.mp hts
  refine ⟨⟨record, ?_, hencode⟩, howner, ?_, hgenuine, ?_⟩
  · exact (lookUp_sound hrecord hsafeAccount hzeroAccount).symm
  · rw [← length_of_history hentries, ← hlisted, List.length_map]
  · intro list hlist hhistory
    by_cases hsafeList : Collision (response.historyProof.inputs ++ MerkleList.rootInputs list)
    · exact Or.inr hsafeList
    · obtain ⟨hlength, heq⟩ := history_sound hentries hlist hhistory hsafeList
      refine Or.inl ⟨hlength, ?_⟩
      rw [heq, ← hlisted, List.map_map]
      rfl

/-- An account that is denied is not there. -/
theorem not_mem_of_verifyAccount {other : PublicKey}
    (hstate : Trie.root state = response.blockProof.header.stateHash)
    (htable : state[tableKey config.schema.serviceId config.tableIndex]? =
      some (Trie.root table).toList)
    (h : verifyAccount S config validators key response = .error (.accountNotFound other))
    (hsafe : ¬ Collision (tableInputs response state ++ accountInputs response table))
    (hzero : ¬ ZeroHash (tableInputs response state ++ accountInputs response table)) :
    key.bytes ∉ table := by
  obtain ⟨hsafeTable, hsafeAccount⟩ := not_collision_append hsafe
  obtain ⟨hzeroTable, hzeroAccount⟩ := not_zeroHash_append hzero
  rcases of_verifyAccount_eq_absence rfl h with h | ⟨root, hroot, h⟩
  · exact absurd h (tableRoot_ne_absence rfl hstate htable hsafeTable hzeroTable)
  · obtain rfl := tableRoot_sound hstate htable hroot hsafeTable hzeroTable
    have hfound := lookUp_sound (account_eq_absence rfl h).1 hsafeAccount hzeroAccount
    exact Trie.not_mem_of_getElem?_eq_none hfound.symm

/-- The table is never denied. -/
theorem verifyAccount_ne_tableNotFound {service index : UInt16}
    (hstate : Trie.root state = response.blockProof.header.stateHash)
    (htable : state[tableKey config.schema.serviceId config.tableIndex]? =
      some (Trie.root table).toList)
    (hsafe : ¬ Collision (tableInputs response state))
    (hzero : ¬ ZeroHash (tableInputs response state)) :
    verifyAccount S config validators key response ≠ .error (.tableNotFound service index) := by
  intro h
  rcases of_verifyAccount_eq_absence rfl h with h | ⟨root, -, h⟩
  · exact tableRoot_ne_absence rfl hstate htable hsafe hzero h
  · cases (account_eq_absence rfl h).2

end

/-- An answer about an account agrees with the state that its block commits to,
unless two byte strings hashed on the way collide or one of them hashes to zeros. -/
theorem verifyAccount_sound (S : SignatureScheme) (config : Config) (validators : ValidatorSet)
    (key : PublicKey) (response : AccountResponse) (state table : Trie.Entries)
    (hstate : Trie.root state = response.blockProof.header.stateHash)
    (htable : state[tableKey config.schema.serviceId config.tableIndex]? =
      some (Trie.root table).toList) :
    (∀ v, verifyAccount S config validators key response = .ok v →
      Confirmed S config.schema key response.historyProof table v ∨
      Collision (tableInputs response state ++ accountInputs response table) ∨
      ZeroHash (tableInputs response state ++ accountInputs response table)) ∧
    (∀ other, verifyAccount S config validators key response = .error (.accountNotFound other) →
      key.bytes ∉ table ∨
      Collision (tableInputs response state ++ accountInputs response table) ∨
      ZeroHash (tableInputs response state ++ accountInputs response table)) ∧
    (∀ service index,
      verifyAccount S config validators key response = .error (.tableNotFound service index) →
      Collision (tableInputs response state) ∨ ZeroHash (tableInputs response state)) := by
  refine ⟨?_, ?_, ?_⟩
  · intro v h
    exact or_broken (confirmed_of_verifyAccount hstate htable h)
  · intro other h
    exact or_broken (not_mem_of_verifyAccount hstate htable h)
  · intro service index h
    have hbroken := or_broken fun hsafe hzero =>
      verifyAccount_ne_tableNotFound hstate htable hsafe hzero h
    exact hbroken.resolve_left id

/-! ## An answer about one account -/

/-- The neutral point of the curve as a key. -/
def neutralKey : PublicKey := ⟨Trie.shortKey 1⟩

/-- The signature that the neutral key verifies whatever the message. -/
def neutralSignature : Signature := ⟨⟨1 :: List.replicate 63 0, rfl⟩⟩

/-- The curve with the neutral key as the only one in use. -/
def neutralScheme : SignatureScheme :=
  { Ed25519.scheme with
    verify := fun key _ signature => key = neutralKey && signature = neutralSignature }

/-- Creates an account for the neutral key. -/
def created : Transaction :=
  ⟨0, 0, 2, 128, [10, 32] ++ neutralKey.bytes.toList, neutralSignature⟩

def createdBytes : Bytes :=
  [0, 0, 2, 0, 128, 0, 108, 0, 0, 0] ++ created.body ++ neutralSignature.bytes.toList

def verifiedCreated : VerifiedTransaction :=
  ⟨sha256 createdBytes, true, created, .createAccount ⟨neutralKey, 0⟩⟩

def oneHistory : List Bytes := [verifiedCreated.entry.encode]

def oneAccount : Account := ⟨neutralKey, "", 0, 1, MerkleList.root oneHistory⟩

def oneRecord : Bytes :=
  neutralKey.bytes.toList ++ little 4 0 ++ [] ++ little 8 0 ++ little 8 1 ++
    oneAccount.historyHash.toList

/-- The table of accounts. -/
def oneTable : Trie.Entries := (∅ : Trie.Entries).insert neutralKey.bytes oneRecord

/-- A state with no other table. -/
def oneState : Trie.Entries :=
  (∅ : Trie.Entries).insert (tableKey 128 0) (Trie.root oneTable).toList

def oneAnswer : AccountResponse where
  blockProof := ⟨⟨0, .zero 32, .zero 32, Trie.root oneState, 0⟩, [⟨neutralKey, neutralSignature⟩]⟩
  tableProof := Trie.buildProof oneState [tableKey 128 0]
  accountProof := Trie.buildProof oneTable [neutralKey.bytes]
  historyProof := ⟨1, [], [⟨0, verifiedCreated.entry.encode⟩]⟩
  transactions := [createdBytes]

def oneVerified : VerifiedAccount where
  block := oneAnswer.blockProof.header
  blockHash := oneAnswer.blockProof.header.hash
  account := oneAccount
  transactions := [verifiedCreated]

theorem decode_created : Protobuf.decode Body.createAccountMessage created.body =
    .ok [(1, .bytes neutralKey.bytes.toList)] := by
  have hbody : created.body.isEmpty = false := rfl
  have hstep : Protobuf.step Body.createAccountMessage [] [] created.body =
      .ok ⟨[], [(1, .bytes neutralKey.bytes.toList)], []⟩ := rfl
  rw [Protobuf.decode, Protobuf.decodeFields.eq_def, hbody]
  simp only [Bool.false_eq_true, if_false]
  split
  · rename_i h
    rw [hstep] at h
    cases h
    rw [Protobuf.decodeFields]
    rfl
  · rename_i h
    rw [hstep] at h
    cases h

theorem genuine_verifiedCreated :
    verifiedCreated.Genuine neutralScheme Config.standard.schema where
  hash_eq := rfl
  body_eq := by
    have hkind : Config.standard.schema.kind? 128 2 = some .createAccount := rfl
    simp only [verifiedCreated, Transaction.decodeBody, Body.decode]
    rw [show created.serviceId = 128 from rfl, show created.messageId = 2 from rfl, hkind]
    simp only [Body.ofKind, Body.readMessage, decode_created]
    rfl
  signed := ⟨_, rfl, by decide⟩

/-- Any key reaches a single entry. -/
theorem reaches_insert (key : Trie.MapKey) (value : Bytes) (keys : List Trie.MapKey) :
    Trie.Reaches ((∅ : Trie.Entries).insert key value) keys := by
  apply Or.inl
  rw [Std.ExtTreeMap.size_insert]
  simp

theorem verify_historyProof :
    oneAnswer.historyProof.verify (MerkleList.root oneHistory) 0 1 =
      .ok [(0, verifiedCreated.entry.encode)] := by
  have hroot : MerkleList.root oneHistory =
      MerkleList.listHash 1 (MerkleList.leafHash verifiedCreated.entry.encode) := by
    simp [MerkleList.root, MerkleList.treeRoot, MerkleList.levelsOf, MerkleList.levels, oneHistory]
  have hlength : oneAnswer.historyProof.length.toNat = 1 := rfl
  rw [MerkleList.ListProof.verify_eq_ok, hlength, hroot]
  refine ⟨by decide, by decide,
    (∅ : Std.ExtTreeMap Nat Bytes).insert 0 verifiedCreated.entry.encode, rfl, rfl, ?_, rfl, rfl⟩
  intro i hi
  obtain rfl : 0 = i := by simpa using hi
  decide

theorem tableRoot_oneAnswer :
    tableRoot Config.standard oneAnswer.tableProof oneAnswer.blockProof.header.stateHash =
      .ok (Trie.root oneTable) := by
  rw [tableRoot_eq_ok]
  refine (lookUp_buildProof (reaches_insert _ _ _) (List.mem_singleton_self _)).trans ?_
  exact congrArg _ Std.ExtTreeMap.getElem?_insert_self

/-- Any proof built for the neutral key finds its account. -/
theorem account_oneTable {keys : List Trie.MapKey} (h : neutralKey.bytes ∈ keys) :
    account neutralKey (Trie.buildProof oneTable keys) (Trie.root oneTable) = .ok oneAccount := by
  rw [account_eq_ok]
  refine ⟨oneRecord, ?_, rfl, rfl⟩
  refine (lookUp_buildProof (reaches_insert _ _ _) h).trans ?_
  exact congrArg _ Std.ExtTreeMap.getElem?_insert_self

theorem verifyAccount_oneAnswer :
    verifyAccount neutralScheme Config.standard ⟨[neutralKey]⟩ neutralKey oneAnswer =
      .ok oneVerified := by
  rw [verifyAccount_eq_ok]
  refine ⟨rfl, rfl, Trie.root oneTable, [verifiedCreated.entry], tableRoot_oneAnswer,
    account_oneTable (List.mem_singleton_self _), ?_, ?_⟩
  · exact history_eq_ok.mpr ⟨rfl, _, verify_historyProof, rfl⟩
  · rw [transactions_eq_ok]
    refine ⟨rfl, rfl, ?_⟩
    intro t ht
    rw [List.mem_singleton.mp ht]
    exact genuine_verifiedCreated

/-- The answer about the one account is accepted, and what it says is so. -/
theorem verifyAccount_sound_oneAnswer :
    verifyAccount neutralScheme Config.standard ⟨[neutralKey]⟩ neutralKey oneAnswer =
        .ok oneVerified ∧
      (Confirmed neutralScheme Config.standard.schema neutralKey oneAnswer.historyProof oneTable
          oneVerified ∨
        Collision (tableInputs oneAnswer oneState ++ accountInputs oneAnswer oneTable) ∨
        ZeroHash (tableInputs oneAnswer oneState ++ accountInputs oneAnswer oneTable)) :=
  ⟨verifyAccount_oneAnswer,
    (verifyAccount_sound neutralScheme Config.standard ⟨[neutralKey]⟩ neutralKey oneAnswer oneState
      oneTable rfl Std.ExtTreeMap.getElem?_insert_self).1 oneVerified verifyAccount_oneAnswer⟩

end LightClient.Query

import LightClient.Client.Submission
import LightClient.Proofs.Ledger.Answer
import LightClient.Proofs.Transaction.Body

/-! What a client builds passes wherever it is checked: it is parsed from its message,
its body is read back, it is accepted in a history, and a ledger with the same settings
takes it into its pool. -/

namespace LightClient.Client

/-- The transaction carries the body in the network of the settings, signed by the signer. -/
structure Builds {S : SignatureScheme} (config : Config) (signer : KeyPair S) (body : Body)
    (t : Transaction) : Prop where
  networkId_eq : t.networkId = config.networkId
  protocolVersion_eq : t.protocolVersion = config.protocolVersion
  messageId_eq : t.messageId = config.schema.messageId body.kind
  serviceId_eq : t.serviceId = config.schema.serviceId
  body_eq : body.encode = .ok t.body
  signed : ∃ message, t.signedBytes = .ok message ∧ t.signature = signer.sign message

section
variable {S : SignatureScheme} {config : Config} {signer : KeyPair S} {body : Body}
  {t : Transaction}

/-- What is built is what the settings, the body and the signer say. -/
theorem buildTransaction_eq_ok :
    buildTransaction config signer body = .ok t ↔ Builds config signer body t := by
  simp only [buildTransaction, bind_eq_ok, mapError_eq_ok]
  constructor
  · rintro ⟨encoded, hencode, message, hsigned, h⟩
    cases h
    exact ⟨rfl, rfl, rfl, rfl, hencode, message, hsigned, rfl⟩
  · rintro ⟨hnetwork, hprotocol, hmessage, hservice, hbody, message, hsigned, hsignature⟩
    obtain ⟨_, _, _, _, _, _⟩ := t
    subst hnetwork hprotocol hmessage hservice hsignature
    exact ⟨_, hbody, message, hsigned, rfl⟩

theorem payloadLength_lt (h : body.encode = .ok t.body) : t.payloadLength < UInt32.size := by
  obtain ⟨-, hfields⟩ := Body.encode_eq_ok.mp h
  have hlength := body.length_flatMap_fields_le
  have hsize : Transaction.headerSize + 4 * (20 + 32) + Transaction.signatureSize < UInt32.size := by
    decide
  rw [hfields] at hlength
  rw [Transaction.payloadLength]
  omega

/-- Nothing but an amount that is too large keeps a transaction from being built. -/
theorem exists_buildTransaction (config : Config) (signer : KeyPair S)
    (h : body.amount.toNat < UInt64.size / 2) :
    ∃ t, buildTransaction config signer body = .ok t := by
  have hencode := Body.encode_of_lt h
  let unsigned : Transaction :=
    ⟨config.networkId, config.protocolVersion, config.schema.messageId body.kind,
      config.schema.serviceId, body.fields.flatMap Protobuf.encodeField, .blank⟩
  have hlt : unsigned.payloadLength < UInt32.size := payloadLength_lt hencode
  have hsigned := Transaction.signedBytes_eq_ok.mpr ⟨hlt, rfl⟩
  exact ⟨{ unsigned with signature := signer.sign _ },
    buildTransaction_eq_ok.mpr ⟨rfl, rfl, rfl, rfl, hencode, _, hsigned, rfl⟩⟩

theorem buildTransaction_of_le (config : Config) (signer : KeyPair S)
    (h : UInt64.size / 2 ≤ body.amount.toNat) :
    buildTransaction config signer body =
      .error (.encoding (.amountTooLarge body.amountName body.amount)) := by
  simp only [buildTransaction, Body.encode_of_le h]
  rfl

theorem buildTransaction_eq_error :
    (∃ e, buildTransaction config signer body = .error e) ↔
      UInt64.size / 2 ≤ body.amount.toNat := by
  constructor
  · rintro ⟨e, herror⟩
    by_contra hsmall
    obtain ⟨t, hok⟩ := exists_buildTransaction config signer (Nat.not_le.mp hsmall)
    rw [hok] at herror
    cases herror
  · intro hlarge
    exact ⟨_, buildTransaction_of_le config signer hlarge⟩

/-! ## The checkers -/

namespace Builds

theorem toBytes_eq (h : Builds config signer body t) : t.toBytes = .ok t.message :=
  Transaction.toBytes_of_lt (payloadLength_lt h.body_eq)

theorem hash_eq (h : Builds config signer body t) : t.hash = .ok (sha256 t.message) :=
  Transaction.hash_of_ofBytes (Transaction.ofBytes_of_toBytes h.toBytes_eq)

/-- With settings that are valid the ids say what the body is. -/
theorem decodeBody_eq (h : Builds config signer body t) (hvalid : config.validate = .ok ()) :
    t.decodeBody config.schema = .ok body := by
  obtain ⟨-, hids⟩ := Config.validate_eq_ok.mp hvalid
  rw [Transaction.decodeBody, h.serviceId_eq, h.messageId_eq]
  exact Body.decode_of_encode (Schema.kind?_messageId hids body.kind) h.body_eq

/-- The owner of the body has signed if it is the signer. -/
theorem verify_owner (h : Builds config signer body t) (lawful : S.Lawful)
    (howner : body.owner = signer.publicKey) :
    ∃ signed, t.signedBytes = .ok signed ∧ S.verify body.owner signed t.signature = true := by
  obtain ⟨signed, hsigned, hsignature⟩ := h.signed
  refine ⟨signed, hsigned, ?_⟩
  rw [howner, hsignature]
  exact signer.verify_sign lawful signed

end Builds

end

/-- The transaction passes wherever its message is checked. -/
structure Accepted (S : SignatureScheme) (config : Config) (body : Body) (t : Transaction)
    (bytes : Bytes) : Prop where
  toBytes_eq : t.toBytes = .ok bytes
  hash_eq : t.hash = .ok (sha256 bytes)
  parsed : Transaction.ofBytes bytes = .ok t
  decoded : t.decodeBody config.schema = .ok body
  /-- A history may say that it succeeded or that it failed. -/
  inHistory : ∀ succeeded,
    Query.transactions S config.schema [⟨sha256 bytes, succeeded⟩] [bytes] =
      .ok [⟨sha256 bytes, succeeded, t, body⟩]
  /-- A ledger says the hash, and the transaction waits at the end of the pool. -/
  pooled : ∀ (ledger : Ledger S) (s : Ledger.State), ledger.config = config →
    ledger.submit bytes s =
      (.ok ⟨some (sha256 bytes)⟩,
        { s with
          statuses := s.statuses.insert (sha256 bytes) .pending
          pool := s.pool ++ [⟨sha256 bytes, t, body⟩] })

theorem Builds.accepted {S : SignatureScheme} {config : Config} {signer : KeyPair S} {body : Body}
    {t : Transaction} (h : Builds config signer body t) (lawful : S.Lawful)
    (hvalid : config.validate = .ok ()) (howner : body.owner = signer.publicKey) :
    Accepted S config body t t.message where
  toBytes_eq := h.toBytes_eq
  hash_eq := h.hash_eq
  parsed := Transaction.ofBytes_of_toBytes h.toBytes_eq
  decoded := h.decodeBody_eq hvalid
  inHistory succeeded := by
    refine Query.transactions_eq_ok.mpr ⟨rfl, ?_, ?_⟩
    · rw [List.map_singleton, List.map_singleton, Transaction.ofBytes_of_toBytes h.toBytes_eq]
    · rw [List.forall_mem_singleton]
      exact ⟨h.hash_eq, h.decodeBody_eq hvalid, h.verify_owner lawful howner⟩
  pooled ledger s hconfig := by
    subst hconfig
    apply Ledger.submit_of_pooled (Transaction.ofBytes_of_toBytes h.toBytes_eq)
    exact ledger.checkedBody_eq_ok.mpr ⟨h.decodeBody_eq hvalid, h.verify_owner lawful howner⟩

/-- With valid settings a transaction is built for a body of the signer unless the amount
does not fit a signed number. It has the network, the version and the service of the
settings, and its message passes every check of it. -/
theorem built_transaction_accepted (S : SignatureScheme) (config : Config) (signer : KeyPair S)
    (body : Body) (lawful : S.Lawful) (hvalid : config.validate = .ok ())
    (howner : body.owner = signer.publicKey) :
    ((∃ e, buildTransaction config signer body = .error e) ↔
      UInt64.size / 2 ≤ body.amount.toNat) ∧
    (body.amount.toNat < UInt64.size / 2 →
      ∃ t bytes, buildTransaction config signer body = .ok t ∧
        t.networkId = config.networkId ∧ t.protocolVersion = config.protocolVersion ∧
        t.serviceId = config.schema.serviceId ∧ Accepted S config body t bytes) := by
  refine ⟨buildTransaction_eq_error, ?_⟩
  intro hsmall
  obtain ⟨t, ht⟩ := exists_buildTransaction config signer hsmall
  have hbuilt := buildTransaction_eq_ok.mp ht
  exact ⟨t, t.message, ht, hbuilt.networkId_eq, hbuilt.protocolVersion_eq, hbuilt.serviceId_eq,
    hbuilt.accepted lawful hvalid howner⟩

/-! ## The largest transfer -/

open Query (numberedKey stampScheme)

/-- A network in which transfers have the last id. -/
def tokenConfig : Config :=
  { Config.standard with
    networkId := 7
    protocolVersion := 1
    schema := ⟨9, "tokens", 0, 65535, 3⟩ }

def ninth : KeyPair stampScheme := stampScheme.keyPair (.replicate 32 9)

def ninthTransfer (amount : UInt64) : Body :=
  .transfer ⟨18446744073709551615, ninth.publicKey, numberedKey 3, amount⟩

/-- The largest amount that fits is carried, the next one is not. -/
theorem built_transaction_accepted_largest :
    stampScheme.Lawful ∧ tokenConfig.validate = .ok () ∧
      (∀ amount, (ninthTransfer amount).owner = ninth.publicKey) ∧
      (∃ t bytes, buildTransaction tokenConfig ninth (ninthTransfer 9223372036854775807) = .ok t ∧
        t.networkId = 7 ∧ t.protocolVersion = 1 ∧ t.serviceId = 9 ∧
        Accepted stampScheme tokenConfig (ninthTransfer 9223372036854775807) t bytes) ∧
      ∃ e, buildTransaction tokenConfig ninth (ninthTransfer 9223372036854775808) = .error e := by
  have hvalid : tokenConfig.validate = .ok () := rfl
  have hsmall : (ninthTransfer 9223372036854775807).amount.toNat < UInt64.size / 2 := by decide
  have hlarge : UInt64.size / 2 ≤ (ninthTransfer 9223372036854775808).amount.toNat := by decide
  obtain ⟨-, haccepted⟩ := built_transaction_accepted stampScheme tokenConfig ninth
    (ninthTransfer 9223372036854775807) Ledger.lawful_stampScheme hvalid rfl
  obtain ⟨hfails, -⟩ := built_transaction_accepted stampScheme tokenConfig ninth
    (ninthTransfer 9223372036854775808) Ledger.lawful_stampScheme hvalid rfl
  exact ⟨Ledger.lawful_stampScheme, hvalid, fun _ => rfl, haccepted hsmall, hfails.mpr hlarge⟩

end LightClient.Client

import LightClient.Config
import LightClient.Proofs.Encoding.Protobuf
import LightClient.Proofs.Except
import LightClient.Transaction.Wire

/-! Bodies on the wire. A body has a byte form if its amount fits a signed number, and
is read back from it under the ids that the schema gives its kind, as long as no two
kinds share an id. Any other bytes that are read as a body are read as one that has a
byte form: `body_round_trip`. -/

namespace LightClient

/-! ## Schemas -/

namespace Config

theorem firstShared_eq_none {ids : List UInt16} : firstShared ids = none ↔ ids.Nodup := by
  induction ids with
  | nil => simp [firstShared]
  | cons id rest ih =>
    rw [firstShared, List.nodup_cons, ← ih]
    split
    · rename_i hmem
      simp [hmem]
    · rename_i hnew
      simp [hnew]

theorem validate_eq_ok {config : Config} :
    config.validate = .ok () ↔ config.maxAttempts ≠ 0 ∧ config.messageIds.Nodup := by
  unfold validate
  split
  · rename_i hzero
    simp [hzero]
  · rename_i hsome
    rw [← firstShared_eq_none]
    cases firstShared config.messageIds with
    | none => simp [hsome]
    | some id => simp

end Config

/-- Without shared ids a kind is found by its id. -/
theorem Schema.kind?_messageId {schema : Schema}
    (h : [schema.createAccountId, schema.transferId, schema.issueId].Nodup) (kind : BodyKind) :
    schema.kind? schema.serviceId (schema.messageId kind) = some kind := by
  simp only [List.nodup_cons, List.mem_cons, not_or] at h
  obtain ⟨⟨htransfer, hissue, -⟩, ⟨hissue', -⟩, -⟩ := h
  cases kind with
  | createAccount => simp [kind?, messageId]
  | transfer => simp [kind?, messageId, htransfer]
  | issue => simp [kind?, messageId, hissue, hissue']

/-- The ids of a known kind are those that the schema gives it. -/
theorem Schema.of_kind? {schema : Schema} {service id : UInt16} {kind : BodyKind}
    (h : schema.kind? service id = some kind) :
    service = schema.serviceId ∧ id = schema.messageId kind := by
  unfold kind? at h
  split at h
  · rename_i hservice
    have hid := List.find?_some h
    exact ⟨hservice, (of_decide_eq_true hid).symm⟩
  · cases h

namespace Body

open Protobuf

/-! ## Fields -/

/-- The amount that a body names. -/
def amount : Body → UInt64
  | .createAccount tx => tx.initialBalance
  | .transfer tx => tx.amount
  | .issue tx => tx.amount

/-- What an amount that is too large is called. -/
def amountName : Body → String
  | .createAccount _ => "initial_balance"
  | .transfer _ => "amount"
  | .issue _ => "amount"

/-- The message that carries a kind. -/
def message : BodyKind → Message
  | .createAccount => createAccountMessage
  | .transfer => transferMessage
  | .issue => issueMessage

/-- The fields of a body in the order in which they are written. -/
def fields : Body → List (Nat × Value)
  | .createAccount tx => [(1, .bytes tx.owner.bytes.toList), (2, .int tx.initialBalance)]
  | .transfer tx =>
    [(1, .int tx.seed), (2, .bytes tx.sender.bytes.toList), (3, .bytes tx.recipient.bytes.toList),
      (4, .int tx.amount)]
  | .issue tx => [(1, .bytes tx.owner.bytes.toList), (2, .int tx.amount), (3, .int tx.seed)]

theorem nodup_fields (body : Body) : (body.fields.map Prod.fst).Nodup := by
  cases body <;> simp [fields]

section
variable {message : Message} {tag : Nat}

theorem fits_int (hpos : 0 < tag) (hlt : 8 * tag + 7 < UInt32.size)
    (hknown : (message.fields.find? (·.tag = tag)).map Field.kind = some .int) (n : UInt64) :
    Fits message (tag, .int n) :=
  ⟨hpos, hlt, hknown, Nat.pos_of_ne_zero (by decide)⟩

theorem fits_key (hpos : 0 < tag) (hlt : 8 * tag + 7 < UInt32.size)
    (hknown : (message.fields.find? (·.tag = tag)).map Field.kind = some .bytes)
    (key : PublicKey) : Fits message (tag, .bytes key.bytes.toList) := by
  refine ⟨hpos, hlt, hknown, ?_⟩
  rw [Value.size, key.bytes.length_toList]
  decide

end

theorem fits_fields (body : Body) : ∀ field ∈ body.fields, Fits (message body.kind) field := by
  cases body with
  | createAccount tx =>
    simp only [fields, List.forall_mem_cons]
    exact ⟨fits_key (by decide) (by decide) rfl _, fits_int (by decide) (by decide) rfl _,
      List.forall_mem_nil _⟩
  | transfer tx =>
    simp only [fields, List.forall_mem_cons]
    exact ⟨fits_int (by decide) (by decide) rfl _, fits_key (by decide) (by decide) rfl _,
      fits_key (by decide) (by decide) rfl _, fits_int (by decide) (by decide) rfl _,
      List.forall_mem_nil _⟩
  | issue tx =>
    simp only [fields, List.forall_mem_cons]
    exact ⟨fits_key (by decide) (by decide) rfl _, fits_int (by decide) (by decide) rfl _,
      fits_int (by decide) (by decide) rfl _, List.forall_mem_nil _⟩

/-- A message of at most four numbers and keys. -/
theorem length_flatMap_fields_le (body : Body) :
    (body.fields.flatMap encodeField).length ≤ 4 * (20 + 32) := by
  have hsize : ∀ field ∈ body.fields, field.2.size ≤ 32 := by
    cases body <;> simp [fields, Value.size]
  have hcount : body.fields.length ≤ 4 := by
    cases body <;> simp [fields]
  exact Nat.le_trans (length_flatMap_le body.fits_fields hsize) (Nat.mul_le_mul_right _ hcount)

/-! ## Writing and reading -/

theorem amountToWire_of_lt {n : UInt64} (h : n.toNat < UInt64.size / 2) (field : String) :
    amountToWire field n = .ok n :=
  if_pos h

theorem amountToWire_of_le {n : UInt64} (h : UInt64.size / 2 ≤ n.toNat) (field : String) :
    amountToWire field n = .error (.amountTooLarge field n) :=
  if_neg (Nat.not_lt.mpr h)

/-- A body whose amount fits is written as its fields. -/
theorem encode_of_lt {body : Body} (h : body.amount.toNat < UInt64.size / 2) :
    body.encode = .ok (body.fields.flatMap encodeField) := by
  have hwire := amountToWire_of_lt h body.amountName
  cases body with
  | createAccount tx =>
    rw [amount, amountName] at hwire
    simp [encode, hwire, fields, encodeField, bind, Except.bind, pure, Except.pure]
  | transfer tx =>
    rw [amount, amountName] at hwire
    simp [encode, hwire, fields, encodeField, bind, Except.bind, pure, Except.pure]
  | issue tx =>
    rw [amount, amountName] at hwire
    simp [encode, hwire, fields, encodeField, bind, Except.bind, pure, Except.pure]

theorem encode_of_le {body : Body} (h : UInt64.size / 2 ≤ body.amount.toNat) :
    body.encode = .error (.amountTooLarge body.amountName body.amount) := by
  have hwire := amountToWire_of_le h body.amountName
  cases body with
  | createAccount tx =>
    rw [amount, amountName] at hwire
    simp only [encode, hwire]
    rfl
  | transfer tx =>
    rw [amount, amountName] at hwire
    simp only [encode, hwire]
    rfl
  | issue tx =>
    rw [amount, amountName] at hwire
    simp only [encode, hwire]
    rfl

theorem encode_eq_ok {body : Body} {bytes : Bytes} :
    body.encode = .ok bytes ↔
      body.amount.toNat < UInt64.size / 2 ∧ body.fields.flatMap encodeField = bytes := by
  by_cases h : body.amount.toNat < UInt64.size / 2
  · rw [encode_of_lt h, Except.ok.injEq, and_iff_right h]
  · rw [encode_of_le (Nat.not_lt.mp h)]
    constructor
    · intro hok
      cases hok
    · rintro ⟨hsmall, -⟩
      exact absurd hsmall h

theorem keyOfWire_toList (field : String) (key : PublicKey) :
    keyOfWire field key.bytes.toList = .ok key := by
  simp only [keyOfWire, PublicKey.ofBytes, FixedBytes.ofList?_toList]

theorem amountOfWire_of_lt {n : UInt64} (h : n.toNat < UInt64.size / 2) (field : String) :
    amountOfWire field n = .ok n :=
  if_pos h

theorem readMessage_fields (body : Body) :
    readMessage (message body.kind) (body.fields.flatMap encodeField) =
      .ok (written body.fields) := by
  rw [readMessage, decode_flatMap body.fits_fields]

/-- A body whose amount fits is read back from its fields. -/
theorem ofKind_fields {body : Body} (h : body.amount.toNat < UInt64.size / 2) :
    ofKind body.kind (body.fields.flatMap encodeField) = .ok body := by
  have hread := readMessage_fields body
  have hwire := amountOfWire_of_lt h body.amountName
  have hdistinct := nodup_fields body
  cases body with
  | createAccount tx =>
    have howner : (written (createAccount tx).fields).bytes 1 = tx.owner.bytes.toList :=
      bytes_written hdistinct (by simp [fields])
    have hbalance : (written (createAccount tx).fields).int 2 = tx.initialBalance :=
      int_written hdistinct (by simp [fields])
    simp only [kind, message, amount, amountName] at hread hwire ⊢
    simp only [ofKind, hread, howner, hbalance, keyOfWire_toList, hwire, bind,
      Except.bind]
    rfl
  | transfer tx =>
    have hseed : (written (transfer tx).fields).int 1 = tx.seed :=
      int_written hdistinct (by simp [fields])
    have hsender : (written (transfer tx).fields).bytes 2 = tx.sender.bytes.toList :=
      bytes_written hdistinct (by simp [fields])
    have hrecipient : (written (transfer tx).fields).bytes 3 = tx.recipient.bytes.toList :=
      bytes_written hdistinct (by simp [fields])
    have hamount : (written (transfer tx).fields).int 4 = tx.amount :=
      int_written hdistinct (by simp [fields])
    simp only [kind, message, amount, amountName] at hread hwire ⊢
    simp only [ofKind, hread, hseed, hsender, hrecipient, hamount, keyOfWire_toList,
      hwire, bind, Except.bind]
    rfl
  | issue tx =>
    have howner : (written (issue tx).fields).bytes 1 = tx.owner.bytes.toList :=
      bytes_written hdistinct (by simp [fields])
    have hamount : (written (issue tx).fields).int 2 = tx.amount :=
      int_written hdistinct (by simp [fields])
    have hseed : (written (issue tx).fields).int 3 = tx.seed :=
      int_written hdistinct (by simp [fields])
    simp only [kind, message, amount, amountName] at hread hwire ⊢
    simp only [ofKind, hread, howner, hamount, hseed, keyOfWire_toList, hwire, bind,
      Except.bind]
    rfl

/-- What a body is written as is read as it, under an id of its kind. -/
theorem decode_of_encode {body : Body} {bytes : Bytes} {schema : Schema} {service id : UInt16}
    (hkind : schema.kind? service id = some body.kind) (h : body.encode = .ok bytes) :
    decode schema service id bytes = .ok body := by
  obtain ⟨hsmall, rfl⟩ := encode_eq_ok.mp h
  simp only [decode, hkind]
  exact ofKind_fields hsmall

/-! ## What is accepted

The reader takes more than the writer makes: fields in any order, repeated or unknown, and
numbers in more bytes than they need. What it makes of them is a body like any other. -/

theorem amountOfWire_eq_ok {field : String} {n amount : UInt64} :
    amountOfWire field n = .ok amount ↔ n.toNat < UInt64.size / 2 ∧ n = amount := by
  unfold amountOfWire
  split
  · rename_i hsmall
    rw [Except.ok.injEq, and_iff_right hsmall]
  · rename_i hlarge
    constructor
    · intro h
      cases h
    · rintro ⟨hsmall, -⟩
      exact absurd hsmall hlarge

/-- A body that is read is of the kind that was asked for, and its amount fits. -/
theorem of_ofKind {kind : BodyKind} {bytes : Bytes} {body : Body}
    (h : ofKind kind bytes = .ok body) :
    body.kind = kind ∧ body.amount.toNat < UInt64.size / 2 := by
  cases kind with
  | createAccount =>
    simp only [ofKind, bind_eq_ok, amountOfWire_eq_ok] at h
    obtain ⟨record, -, owner, -, balance, ⟨hsmall, rfl⟩, hbody⟩ := h
    cases hbody
    exact ⟨rfl, hsmall⟩
  | transfer =>
    simp only [ofKind, bind_eq_ok, amountOfWire_eq_ok] at h
    obtain ⟨record, -, sender, -, recipient, -, amount, ⟨hsmall, rfl⟩, hbody⟩ := h
    cases hbody
    exact ⟨rfl, hsmall⟩
  | issue =>
    simp only [ofKind, bind_eq_ok, amountOfWire_eq_ok] at h
    obtain ⟨record, -, owner, -, amount, ⟨hsmall, rfl⟩, hbody⟩ := h
    cases hbody
    exact ⟨rfl, hsmall⟩

theorem of_decode {schema : Schema} {service id : UInt16} {bytes : Bytes} {body : Body}
    (h : decode schema service id bytes = .ok body) :
    schema.kind? service id = some body.kind ∧ body.amount.toNat < UInt64.size / 2 := by
  unfold decode at h
  split at h
  · rename_i kind hkind
    obtain ⟨rfl, hsmall⟩ := of_ofKind h
    exact ⟨hkind, hsmall⟩
  · cases h

theorem encode_eq_error {body : Body} {fault : EncodingFault} :
    body.encode = .error fault ↔
      UInt64.size / 2 ≤ body.amount.toNat ∧
        fault = .amountTooLarge body.amountName body.amount := by
  by_cases h : body.amount.toNat < UInt64.size / 2
  · rw [encode_of_lt h]
    constructor
    · intro herror
      cases herror
    · rintro ⟨hlarge, -⟩
      omega
  · have hlarge : UInt64.size / 2 ≤ body.amount.toNat := Nat.not_lt.mp h
    rw [encode_of_le hlarge, Except.error.injEq, and_iff_right hlarge, eq_comm]

/-- With valid settings, a body has a byte form unless its amount is more than a signed
number of 64 bits can hold, which is then the fault, and it is read back from the byte
form under its own ids. Whatever bytes are read as a body, they came under its own ids,
and the body has a byte form that is read as the same body under them. -/
theorem body_round_trip {config : Config} (hvalid : config.validate = .ok ()) :
    (∀ (body : Body) (fault : EncodingFault), body.encode = .error fault ↔
      Int64.maxValue.toInt < body.amount.toNat ∧
        fault = .amountTooLarge body.amountName body.amount) ∧
    (∀ body : Body, body.amount.toNat ≤ Int64.maxValue.toInt → ∃ bytes,
      body.encode = .ok bytes ∧
        decode config.schema config.schema.serviceId (config.schema.messageId body.kind) bytes =
          .ok body) ∧
    (∀ (service id : UInt16) (bytes : Bytes) (body : Body),
      decode config.schema service id bytes = .ok body →
        service = config.schema.serviceId ∧ id = config.schema.messageId body.kind ∧
          ∃ canonical, body.encode = .ok canonical ∧
            decode config.schema service id canonical = .ok body) := by
  have hmax : Int64.maxValue.toInt = (UInt64.size / 2 : Nat) - 1 := by decide
  have hdistinct := (Config.validate_eq_ok.mp hvalid).2
  refine ⟨?_, ?_, ?_⟩
  · intro body fault
    have hlarge : Int64.maxValue.toInt < body.amount.toNat ↔
        UInt64.size / 2 ≤ body.amount.toNat := by omega
    rw [hlarge]
    exact encode_eq_error
  · intro body hfits
    have hsmall : body.amount.toNat < UInt64.size / 2 := by omega
    exact ⟨_, encode_of_lt hsmall,
      decode_of_encode (Schema.kind?_messageId hdistinct body.kind) (encode_of_lt hsmall)⟩
  · intro service id bytes body h
    obtain ⟨hkind, hsmall⟩ := of_decode h
    obtain ⟨hservice, hid⟩ := Schema.of_kind? hkind
    exact ⟨hservice, hid, _, encode_of_lt hsmall,
      decode_of_encode hkind (encode_of_lt hsmall)⟩

/-- An issue to the zero key: the amount in three bytes, a field that is not known, the key
twice and the seed in ten bytes, with all its bits. -/
def looseIssue : Bytes :=
  [0x10, 0x85, 0x80, 0x00] ++ [0x7a, 0x01, 0xff] ++ ([0x0a, 0x20] ++ List.replicate 32 0xff) ++
    ([0x0a, 0x20] ++ List.replicate 32 0) ++
    [0x18, 0xff, 0xff, 0xff, 0xff, 0xff, 0xff, 0xff, 0xff, 0xff, 0x01]

def tightIssue : Body := .issue ⟨⟨.zero 32⟩, 5, 0xFFFFFFFFFFFFFFFF⟩

/-- The loose form is read, its body has a tight form of 47 bytes, and one more than the
largest signed number has none. -/
theorem body_round_trip_looseIssue :
    Config.standard.validate = .ok () ∧
      decode Config.standard.schema 128 1 looseIssue = .ok tightIssue ∧
      (∃ canonical, tightIssue.encode = .ok canonical ∧
        decode Config.standard.schema 128 1 canonical = .ok tightIssue) ∧
      tightIssue.encode.map List.length = .ok 47 ∧
      (createAccount ⟨⟨.zero 32⟩, 0x8000000000000000⟩).encode =
        .error (.amountTooLarge "initial_balance" 0x8000000000000000) := by
  have hvalid : Config.standard.validate = .ok () := by decide
  have hread : decode Config.standard.schema 128 1 looseIssue = .ok tightIssue := by
    decide +kernel
  obtain ⟨hfails, -, haccepted⟩ := body_round_trip hvalid
  exact ⟨hvalid, hread, (haccepted _ _ _ _ hread).2.2, by decide +kernel,
    (hfails _ _).mpr ⟨by decide, rfl⟩⟩

end Body

end LightClient

import LightClient.Proofs.Encoding.Cursor
import LightClient.Transaction.Envelope

/-! Signed transactions have one byte form each: a message is parsed as a transaction
exactly when it is what the transaction is written as. So the hash of a transaction
is the hash of the message it came in. -/

namespace LightClient.Transaction

/-! ## The header -/

/-- The byte form of a header. -/
def Header.encode (header : Header) : Bytes :=
  [header.networkId, header.protocolVersion] ++ little 2 header.messageId.toNat ++
    little 2 header.serviceId.toNat ++ little 4 header.length.toNat

@[simp] theorem Header.length_encode (header : Header) : header.encode.length = headerSize := by
  simp [encode, headerSize]

theorem readHeader_eq_ok {bytes : Bytes} {header : Header} :
    readHeader.whole bytes = .ok header ↔ header.encode = bytes := by
  have hone : ∀ b : UInt8, little 1 b.toNat = [b] := by
    intro b
    simp [little]
  rw [Read.whole_eq_ok]
  simp only [readHeader, Read.bind_eq_ok, Read.pure_eq_ok, Read.u8_eq_ok, Read.u16_eq_ok,
    Read.u32_eq_ok, hone]
  constructor
  · rintro ⟨n, networkId, c₁, ⟨hnetwork, -⟩, protocolVersion, c₂, ⟨hprotocol, -⟩, messageId, c₃,
      ⟨hmessage, -⟩, serviceId, c₄, ⟨hservice, -⟩, length, c₅, ⟨hlength, -⟩, rfl, rfl⟩
    rw [Header.encode, hnetwork, hprotocol, hmessage, hservice, hlength]
    simp only [List.append_assoc, List.append_nil, List.cons_append, List.nil_append]
  · rintro rfl
    simp only [Header.encode, List.append_assoc]
    refine ⟨1 + 1 + 2 + 2 + 4, header.networkId, ⟨1, _⟩, ⟨rfl, rfl⟩, ?_⟩
    refine ⟨header.protocolVersion, ⟨1 + 1, _⟩, ⟨rfl, rfl⟩, ?_⟩
    refine ⟨header.messageId, ⟨1 + 1 + 2, _⟩, ⟨rfl, rfl⟩, ?_⟩
    refine ⟨header.serviceId, ⟨1 + 1 + 2 + 2, _⟩, ⟨rfl, rfl⟩, ?_⟩
    exact ⟨header.length, _, ⟨(List.append_nil _).symm, rfl⟩, rfl, rfl⟩

theorem Header.encode_injective {a b : Header} (h : a.encode = b.encode) : a = b :=
  Except.ok.inj ((readHeader_eq_ok.mpr h).symm.trans (readHeader_eq_ok.mpr rfl))

/-- The header of a transaction, with the length of its message. -/
def header (t : Transaction) : Header :=
  ⟨t.networkId, t.protocolVersion, t.messageId, t.serviceId, UInt32.ofNat t.payloadLength⟩

/-! ## The message -/

theorem patchLength_append {front hole : Bytes} (hfront : front.length = lengthOffset)
    (hhole : hole.length = 4) (rest : Bytes) (total : UInt32) :
    patchLength (front ++ hole ++ rest) total = .ok (front ++ little 4 total.toNat ++ rest) := by
  have hlength : (front ++ hole).length = lengthOffset + 4 := by
    rw [List.length_append, hfront, hhole]
  have htake : (front ++ hole ++ rest).take lengthOffset = front := by
    rw [List.append_assoc, List.take_left' hfront]
  unfold patchLength
  rw [if_neg (by rw [List.length_append]; omega), List.drop_left' hlength, htake]

section
variable {t : Transaction} {bytes : Bytes}

/-- What is signed is the header and the body. -/
theorem signedBytes_eq_ok :
    t.signedBytes = .ok bytes ↔
      t.payloadLength < UInt32.size ∧ t.header.encode ++ t.body = bytes := by
  unfold signedBytes
  split
  · rename_i hlarge
    constructor
    · intro h
      cases h
    · rintro ⟨hlt, -⟩
      omega
  · rename_i hlt
    rw [encodeHeader, patchLength_append (by simp [lengthOffset]) (by simp), Except.ok.injEq,
      and_iff_right (Nat.not_le.mp hlt)]
    rfl

theorem toBytes_eq_ok :
    t.toBytes = .ok bytes ↔
      t.payloadLength < UInt32.size ∧
        t.header.encode ++ t.body ++ t.signature.bytes.toList = bytes := by
  simp only [toBytes, bind_eq_ok, signedBytes_eq_ok]
  constructor
  · rintro ⟨signed, ⟨hlt, rfl⟩, h⟩
    cases h
    exact ⟨hlt, rfl⟩
  · rintro ⟨hlt, rfl⟩
    exact ⟨_, ⟨hlt, rfl⟩, rfl⟩

theorem length_of_toBytes (h : t.toBytes = .ok bytes) : bytes.length = t.payloadLength := by
  obtain ⟨-, rfl⟩ := toBytes_eq_ok.mp h
  simp only [List.length_append, Header.length_encode, FixedBytes.length_toList]
  rfl

/-- A message is cut into header, body and signature. -/
theorem ofBytes_eq_ok_cut :
    ofBytes bytes = .ok t ↔
      headerSize + signatureSize ≤ bytes.length ∧ ∃ header : Header,
        header.encode = bytes.take headerSize ∧ header.length.toNat = bytes.length ∧
          t.networkId = header.networkId ∧ t.protocolVersion = header.protocolVersion ∧
          t.messageId = header.messageId ∧ t.serviceId = header.serviceId ∧
          t.body = (bytes.take (bytes.length - signatureSize)).drop headerSize ∧
          t.signature.bytes.toList = bytes.drop (bytes.length - signatureSize) := by
  unfold ofBytes
  split
  · rename_i hlong
    simp only [bind_eq_ok, readHeader_eq_ok, hlong, true_and]
    apply exists_congr
    intro header
    apply and_congr_right
    intro _
    split
    · rename_i hlength
      obtain ⟨_, _, _, _, _, ⟨⟨_, _⟩⟩⟩ := t
      simp only [hlength, true_and, pure, Except.pure, Except.ok.injEq, Transaction.mk.injEq,
        Signature.mk.injEq, FixedBytes.mk.injEq, eq_comm]
    · rename_i hlength
      constructor
      · intro h
        cases h
      · rintro ⟨h, -⟩
        exact absurd h hlength
  · rename_i hshort
    constructor
    · intro h
      cases h
    · rintro ⟨h, -⟩
      exact absurd h hshort

/-- What is written as a message is parsed from it. -/
theorem ofBytes_of_toBytes (h : t.toBytes = .ok bytes) : ofBytes bytes = .ok t := by
  have hlength := length_of_toBytes h
  obtain ⟨hlt, hbytes⟩ := toBytes_eq_ok.mp h
  have hsize : t.payloadLength = headerSize + t.body.length + signatureSize := rfl
  have hsplit : (t.header.encode ++ t.body).length = bytes.length - signatureSize := by
    rw [List.length_append, Header.length_encode]
    omega
  refine ofBytes_eq_ok_cut.mpr ⟨by omega, t.header, ?_, ?_, rfl, rfl, rfl, rfl, ?_, ?_⟩
  · rw [← hbytes, List.append_assoc, List.take_left' t.header.length_encode]
  · rw [hlength]
    exact UInt32.toNat_ofNat_of_lt' hlt
  · rw [← hsplit, ← hbytes, List.take_left, List.drop_left' t.header.length_encode]
  · rw [← hsplit, ← hbytes, List.drop_left]

/-- What is parsed from a message is written as it. -/
theorem toBytes_of_ofBytes (h : ofBytes bytes = .ok t) : t.toBytes = .ok bytes := by
  obtain ⟨hlong, header, hheader, hlength, hnetwork, hprotocol, hmessage, hservice, hbody,
    hsignature⟩ := ofBytes_eq_ok_cut.mp h
  have hpayload : t.payloadLength = bytes.length := by
    rw [payloadLength, hbody, List.length_drop, List.length_take]
    omega
  have hsame : t.header = header := by
    rw [Transaction.header, hnetwork, hprotocol, hmessage, hservice, hpayload, ← hlength,
      UInt32.ofNat_toNat]
  have hfront : bytes.take headerSize =
      (bytes.take (bytes.length - signatureSize)).take headerSize := by
    rw [List.take_take, Nat.min_eq_left (by omega)]
  refine toBytes_eq_ok.mpr ⟨?_, ?_⟩
  · rw [hpayload, ← hlength]
    exact header.length.toNat_lt
  · rw [hsame, hheader, hbody, hsignature, hfront, List.take_append_drop, List.take_append_drop]

/-- A message is parsed as the transaction that is written so. -/
theorem ofBytes_eq_ok : ofBytes bytes = .ok t ↔ t.toBytes = .ok bytes :=
  ⟨toBytes_of_ofBytes, ofBytes_of_toBytes⟩

/-- The hash of a transaction is the hash of the message it was parsed from. -/
theorem hash_of_ofBytes (h : ofBytes bytes = .ok t) : t.hash = .ok (sha256 bytes) := by
  rw [hash, ofBytes_eq_ok.mp h]
  rfl

theorem toBytes_of_lt (h : t.payloadLength < UInt32.size) :
    t.toBytes = .ok (t.header.encode ++ t.body ++ t.signature.bytes.toList) :=
  toBytes_eq_ok.mpr ⟨h, rfl⟩

/-- What is signed is the message without the signature, and there is the one when
there is the other. -/
theorem signedBytes_eq_map_toBytes :
    t.signedBytes = t.toBytes.map fun message => message.take (message.length - signatureSize) := by
  cases hsigned : t.signedBytes with
  | error fault => simp only [toBytes, hsigned]; rfl
  | ok signed =>
    have hmessage : t.toBytes = .ok (signed ++ t.signature.bytes.toList) := by
      simp only [toBytes, hsigned]
      rfl
    have hlength : (signed ++ t.signature.bytes.toList).length - signatureSize = signed.length := by
      rw [List.length_append, t.signature.bytes.length_toList, signatureSize]
      omega
    simp only [hmessage, Except.map, hlength, List.take_left]

/-- The signed bytes say all of a transaction but its signature. -/
theorem eq_of_signedBytes_eq {t' : Transaction} (h : t.signedBytes = .ok bytes)
    (h' : t'.signedBytes = .ok bytes) : t = { t' with signature := t.signature } := by
  obtain ⟨-, hbytes⟩ := signedBytes_eq_ok.mp h
  obtain ⟨-, hbytes'⟩ := signedBytes_eq_ok.mp h'
  have hlength : t.header.encode.length = t'.header.encode.length := by
    rw [Header.length_encode, Header.length_encode]
  obtain ⟨hheader, hbody⟩ := List.append_inj (hbytes.trans hbytes'.symm) hlength
  have hsame := Header.encode_injective hheader
  simp only [header, Header.mk.injEq] at hsame
  obtain ⟨_, _, _, _, _, _⟩ := t
  obtain ⟨_, _, _, _, _, _⟩ := t'
  simp_all

end

/-! ## The length field -/

/-- The number that stands where a message says its total length. -/
def lengthField (bytes : Bytes) : Nat := ofLittle ((bytes.drop lengthOffset).take 4)

/-- Any ten bytes are a header. -/
theorem exists_header {front : Bytes} (h : front.length = headerSize) :
    ∃ header : Header, header.encode = front := by
  have htwo : ∀ part : Bytes, part.length = 2 →
      little 2 (UInt16.ofNat (ofLittle part)).toNat = part := by
    intro part hpart
    have hlt := ofLittle_lt part
    rw [hpart] at hlt
    rw [UInt16.toNat_ofNat_of_lt' hlt, ← hpart, little_ofLittle]
  have hfour : ∀ part : Bytes, part.length = 4 →
      little 4 (UInt32.ofNat (ofLittle part)).toNat = part := by
    intro part hpart
    have hlt := ofLittle_lt part
    rw [hpart] at hlt
    rw [UInt32.toNat_ofNat_of_lt' hlt, ← hpart, little_ofLittle]
  match front, h with
  | [a, b, c, d, e, f, g, i, j, k], _ =>
    refine ⟨⟨a, b, .ofNat (ofLittle [c, d]), .ofNat (ofLittle [e, f]),
      .ofNat (ofLittle [g, i, j, k])⟩, ?_⟩
    rw [Header.encode, htwo _ rfl, htwo _ rfl, hfour _ rfl]
    rfl

theorem lengthField_of_header {header : Header} {bytes : Bytes}
    (h : header.encode = bytes.take headerSize) : lengthField bytes = header.length.toNat := by
  have hfield : (bytes.drop lengthOffset).take 4 = header.encode.drop lengthOffset := by
    rw [h, List.drop_take]
    rfl
  have hencode : header.encode.drop lengthOffset = little 4 header.length.toNat := by
    rw [Header.encode, List.drop_left' (by simp [lengthOffset])]
  rw [lengthField, hfield, hencode, ofLittle_little]
  exact Nat.mod_eq_of_lt header.length.toNat_lt

/-- A message is parsed when it is long enough and says its length. -/
theorem exists_ofBytes_eq_ok {bytes : Bytes} :
    (∃ t, ofBytes bytes = .ok t) ↔
      headerSize + signatureSize ≤ bytes.length ∧ lengthField bytes = bytes.length := by
  constructor
  · rintro ⟨t, h⟩
    obtain ⟨hlong, header, hheader, hlength, -⟩ := ofBytes_eq_ok_cut.mp h
    exact ⟨hlong, (lengthField_of_header hheader).trans hlength⟩
  · rintro ⟨hlong, hfield⟩
    have hfront : (bytes.take headerSize).length = headerSize := by
      rw [List.length_take]
      omega
    obtain ⟨header, hheader⟩ := exists_header hfront
    have hsignature : (bytes.drop (bytes.length - signatureSize)).length = 64 := by
      rw [List.length_drop]
      simp only [signatureSize] at hlong ⊢
      omega
    refine ⟨⟨header.networkId, header.protocolVersion, header.messageId, header.serviceId,
      (bytes.take (bytes.length - signatureSize)).drop headerSize, ⟨⟨_, hsignature⟩⟩⟩, ?_⟩
    rw [lengthField_of_header hheader] at hfield
    exact ofBytes_eq_ok_cut.mpr ⟨hlong, header, hheader, hfield, rfl, rfl, rfl, rfl, rfl, rfl⟩

/-! ## One message, one transaction -/

/-- Every transaction that is not too long has a message and is parsed from it. A message
is parsed exactly when it is long enough and says its own length, and then it is what the
transaction is written as, and hashed as. The signed bytes are the message without the
signature, and say all the rest of the transaction. -/
theorem message_bijection :
    (∀ t : Transaction, headerSize + t.body.length + signatureSize < UInt32.size →
      ∃ bytes, t.toBytes = .ok bytes ∧ ofBytes bytes = .ok t) ∧
    (∀ bytes, (∃ t, ofBytes bytes = .ok t) ↔
      headerSize + signatureSize ≤ bytes.length ∧ lengthField bytes = bytes.length) ∧
    (∀ bytes t, ofBytes bytes = .ok t → t.toBytes = .ok bytes ∧ t.hash = .ok (sha256 bytes)) ∧
    (∀ t : Transaction, t.signedBytes =
      t.toBytes.map fun message => message.take (message.length - signatureSize)) ∧
    (∀ (t t' : Transaction) (signed : Bytes), t.signedBytes = .ok signed →
      t'.signedBytes = .ok signed → t = { t' with signature := t.signature }) := by
  refine ⟨?_, fun _ => exists_ofBytes_eq_ok, ?_, fun _ => signedBytes_eq_map_toBytes, ?_⟩
  · intro t hlt
    have hbytes := toBytes_of_lt hlt
    exact ⟨_, hbytes, ofBytes_of_toBytes hbytes⟩
  · intro bytes t h
    exact ⟨toBytes_of_ofBytes h, hash_of_ofBytes h⟩
  · intro t t' signed h h'
    exact eq_of_signedBytes_eq h h'

/-- A transaction with a body of two bytes and a signature of one byte, repeated. -/
def twoBytes (byte : UInt8) : Transaction := ⟨1, 2, 3, 128, [7, 8], ⟨.replicate 64 byte⟩⟩

def twoBytesSigned : Bytes := [1, 2, 3, 0, 128, 0, 76, 0, 0, 0, 7, 8]

/-- Two signatures over the same bytes. -/
theorem message_bijection_twoBytes :
    headerSize + (twoBytes 5).body.length + signatureSize < UInt32.size ∧
      (∃ bytes, (twoBytes 5).toBytes = .ok bytes ∧ ofBytes bytes = .ok (twoBytes 5)) ∧
      ofBytes (twoBytesSigned ++ List.replicate 64 5) = .ok (twoBytes 5) ∧
      (twoBytes 5).hash = .ok (sha256 (twoBytesSigned ++ List.replicate 64 5)) ∧
      (twoBytes 5).signedBytes = .ok twoBytesSigned ∧
      (twoBytes 6).signedBytes = .ok twoBytesSigned ∧
      twoBytes 5 = { twoBytes 6 with signature := (twoBytes 5).signature } := by
  have hlt : headerSize + (twoBytes 5).body.length + signatureSize < UInt32.size := by decide
  have hparsed : ofBytes (twoBytesSigned ++ List.replicate 64 5) = .ok (twoBytes 5) :=
    ofBytes_of_toBytes rfl
  obtain ⟨hwritten, -, hhash, -, hsigned⟩ := message_bijection
  exact ⟨hlt, hwritten _ hlt, hparsed, (hhash _ _ hparsed).2, rfl, rfl, hsigned _ _ _ rfl rfl⟩

end LightClient.Transaction

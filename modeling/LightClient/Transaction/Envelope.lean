import LightClient.Encoding.Cursor
import LightClient.Hash.Sha256
import LightClient.Transaction.Wire

/-! Signed transactions: a ten-byte header with the total length, the body and
the signature over both. -/

namespace LightClient

structure Transaction where
  networkId : UInt8
  protocolVersion : UInt8
  messageId : UInt16
  serviceId : UInt16
  body : Bytes
  signature : Signature
  deriving DecidableEq

namespace Transaction

def headerSize : Nat := 10
def signatureSize : Nat := 64
/-- Where the total length stands. -/
def lengthOffset : Nat := 6

/-- A header whose length is still zero. -/
def encodeHeader (networkId protocolVersion : UInt8) (messageId serviceId : UInt16) : Bytes :=
  [networkId, protocolVersion] ++ little 2 messageId.toNat ++ little 2 serviceId.toNat ++ little 4 0

/-- Writes the total length into a message. -/
def patchLength (buffer : Bytes) (total : UInt32) : Except EncodingFault Bytes :=
  if buffer.length < lengthOffset + 4 then .error (.noLengthField buffer.length)
  else .ok (buffer.take lengthOffset ++ little 4 total.toNat ++ buffer.drop (lengthOffset + 4))

/-- The length of the whole message. -/
def payloadLength (t : Transaction) : Nat := headerSize + t.body.length + signatureSize

def signedBytes (t : Transaction) : Except EncodingFault Bytes :=
  if UInt32.size ≤ t.payloadLength then .error (.messageTooLong t.payloadLength)
  else
    patchLength (encodeHeader t.networkId t.protocolVersion t.messageId t.serviceId ++ t.body)
      (UInt32.ofNat t.payloadLength)

def toBytes (t : Transaction) : Except EncodingFault Bytes := do
  let signed ← t.signedBytes
  return signed ++ t.signature.bytes.toList

structure Header where
  networkId : UInt8
  protocolVersion : UInt8
  messageId : UInt16
  serviceId : UInt16
  length : UInt32

def readHeader : Read Header := do
  let networkId ← Read.u8
  let protocolVersion ← Read.u8
  let messageId ← Read.u16
  let serviceId ← Read.u16
  let length ← Read.u32
  return ⟨networkId, protocolVersion, messageId, serviceId, length⟩

def ofBytes (bytes : Bytes) : Except EncodingFault Transaction :=
  if h : headerSize + signatureSize ≤ bytes.length then do
    let header ← readHeader.whole (bytes.take headerSize)
    if header.length.toNat = bytes.length then
      let split := bytes.length - signatureSize
      return {
        networkId := header.networkId
        protocolVersion := header.protocolVersion
        messageId := header.messageId
        serviceId := header.serviceId
        body := (bytes.take split).drop headerSize
        signature := ⟨bytes.drop split, by
          simp only [headerSize, signatureSize] at h
          simp only [split, signatureSize, List.length_drop]
          omega⟩ }
    else throw (.wrongLength header.length.toNat bytes.length)
  else .error (.messageTooShort bytes.length)

def hash (t : Transaction) : Except EncodingFault Digest := do
  let bytes ← t.toBytes
  return sha256 bytes

def decodeBody (t : Transaction) (schema : Schema) : Except EncodingFault Body :=
  Body.decode schema t.serviceId t.messageId t.body

/-- Whether the owner named in the body made the signature. -/
def signedByOwner (S : SignatureScheme) (t : Transaction) (body : Body) :
    Except EncodingFault Bool := do
  let signed ← t.signedBytes
  return S.verify body.owner signed t.signature

end Transaction

end LightClient

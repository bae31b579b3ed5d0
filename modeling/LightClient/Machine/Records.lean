import LightClient.Account
import LightClient.Machine.Guard
import LightClient.Transaction.Envelope

/-! Stored records and signed transactions, read with every range, sum and difference
guarded. A reader keeps the whole byte string and the position it has reached. -/

namespace LightClient.Machine

structure Reader where
  bytes : Bytes
  position : Nat

abbrev Reading (α : Type) := StateT Reader (Guarded EncodingFault) α

namespace Reading

/-- The next `n` bytes. -/
def take (n : Nat) : Reading Bytes := fun r => do
  -- the sum is checked: past the 64 bits it stands for no position
  let stop := if r.position + n < UInt64.size then some (r.position + n) else none
  match stop.filter (· ≤ r.bytes.length) with
  | none => .fail (.truncated n r.position r.bytes.length)
  | some stop => return (← slice r.bytes r.position stop, ⟨r.bytes, stop⟩)

/-- The next `n` bytes, read further by a step. -/
def field {α : Type} (n : Nat) (step : Bytes → Step α) : Reading α := fun r => do
  let (bytes, r) ← take n r
  return (← step bytes, r)

def fixed (n : Nat) : Reading (FixedBytes n) := field n (copy n)
def u8 : Reading UInt8 := field 1 (get · 0)
def u16 : Reading UInt16 := do return UInt16.ofNat (ofLittle (← fixed 2).toList)
def u32 : Reading UInt32 := do return UInt32.ofNat (ofLittle (← fixed 4).toList)
def u64 : Reading UInt64 := do return UInt64.ofNat (ofLittle (← fixed 8).toList)

def finish : Reading Unit := fun r => do
  if r.position ≠ r.bytes.length then
    .fail (.trailing (← sub r.bytes.length r.position))
  else return ((), r)

/-- Runs a reader that must use up its input. -/
def whole {α : Type} (read : Reading α) (bytes : Bytes) : Guarded EncodingFault α := do
  let (value, r) ← read ⟨bytes, 0⟩
  let _ ← finish r
  return value

end Reading

/-! ## Stored records -/

namespace Account

def readName (size : Nat) : Reading String := do
  match Utf8.decode (← Reading.take size) with
  | .ok name => return name
  | .error fault => liftM (Guarded.fail (.nameText fault) : Guarded EncodingFault String)

def read : Reading LightClient.Account := do
  let key ← Reading.fixed 32
  let size ← Reading.u32
  let name ← readName size.toNat
  let balance ← Reading.u64
  let historyLength ← Reading.u64
  let historyHash ← Reading.fixed 32
  return ⟨⟨key⟩, name, balance, historyLength, historyHash⟩

def decode (bytes : Bytes) : Guarded EncodingFault LightClient.Account := read.whole bytes

end Account

namespace HistoryEntry

def readStatus : Reading Bool := do
  let byte ← Reading.u8
  if byte = 0 then return false
  else if byte = 1 then return true
  else liftM (Guarded.fail (.statusByte byte) : Guarded EncodingFault Bool)

def read : Reading LightClient.HistoryEntry := do
  let txHash ← Reading.fixed 32
  let succeeded ← readStatus
  return ⟨txHash, succeeded⟩

def decode (bytes : Bytes) : Guarded EncodingFault LightClient.HistoryEntry := read.whole bytes

end HistoryEntry

/-! ## Transactions -/

namespace Transaction

open LightClient.Transaction (Header headerSize signatureSize lengthOffset)

def readHeader : Reading Header := do
  let networkId ← Reading.u8
  let protocolVersion ← Reading.u8
  let messageId ← Reading.u16
  let serviceId ← Reading.u16
  let length ← Reading.u32
  return ⟨networkId, protocolVersion, messageId, serviceId, length⟩

def ofBytes (bytes : Bytes) : Guarded EncodingFault LightClient.Transaction := do
  if bytes.length < headerSize + signatureSize then .fail (.messageTooShort bytes.length)
  else
    let header ← readHeader.whole (← slice bytes 0 headerSize)
    if header.length.toNat ≠ bytes.length then
      .fail (.wrongLength header.length.toNat bytes.length)
    else
      let split ← sub bytes.length signatureSize
      let body ← slice bytes headerSize split
      let signature ← copy 64 (← slice bytes split bytes.length)
      return {
        networkId := header.networkId
        protocolVersion := header.protocolVersion
        messageId := header.messageId
        serviceId := header.serviceId
        body := body
        signature := ⟨signature⟩ }

/-- A header whose length is still zero. -/
def encodeHeader (networkId protocolVersion : UInt8) (messageId serviceId : UInt16) :
    Step Bytes := do
  let header ← set (.replicate 10 0) 0 networkId
  let header ← set header 1 protocolVersion
  let header ← overwrite header 2 4 (little 2 messageId.toNat)
  overwrite header 4 6 (little 2 serviceId.toNat)

/-- Writes the total length into a message. -/
def patchLength (buffer : Bytes) (total : UInt32) : Guarded EncodingFault Bytes := do
  let stop ← add 64 lengthOffset 4
  if buffer.length < stop then .fail (.noLengthField buffer.length)
  else overwrite buffer lengthOffset stop (little 4 total.toNat)

def concat (front back : Bytes) : Step Bytes := do
  let _ ← add 64 front.length back.length
  return front ++ back

/-- The length of the whole message. -/
def payloadLength (t : LightClient.Transaction) : Step Nat := do
  add 64 (← add 64 headerSize t.body.length) signatureSize

def signedBytes (t : LightClient.Transaction) : Guarded EncodingFault Bytes := do
  let total ← payloadLength t
  if UInt32.size ≤ total then .fail (.messageTooLong total)
  else
    let header ← encodeHeader t.networkId t.protocolVersion t.messageId t.serviceId
    patchLength (← concat header t.body) (UInt32.ofNat total)

def toBytes (t : LightClient.Transaction) : Guarded EncodingFault Bytes := do
  concat (← signedBytes t) t.signature.bytes.toList

def hash (t : LightClient.Transaction) : Guarded EncodingFault Digest := do
  return sha256 (← toBytes t)

/-- Whether the owner named in the body made the signature. -/
def signedByOwner (S : SignatureScheme) (t : LightClient.Transaction) (body : Body) :
    Guarded EncodingFault Bool := do
  return S.verify body.owner (← signedBytes t) t.signature

end Transaction

end LightClient.Machine

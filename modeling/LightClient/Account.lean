import LightClient.Encoding.Cursor
import LightClient.Hash.Sha256

/-! Account records and history entries, and their stored forms: fields in
order, numbers in little-endian bytes, the name after its length. -/

namespace LightClient

structure Account where
  publicKey : PublicKey
  name : String
  balance : UInt64
  historyLength : UInt64
  /-- The root of the history list. -/
  historyHash : Digest
  deriving DecidableEq

namespace Account

def encode (account : Account) : Except EncodingFault Bytes :=
  let name := Utf8.encode account.name
  if UInt32.size ≤ name.length then .error .nameTooLong
  else .ok (account.publicKey.bytes.toList ++ little 4 name.length ++ name ++
    little 8 account.balance.toNat ++ little 8 account.historyLength.toNat ++
    account.historyHash.toList)

def readName (size : Nat) : Read String := do
  match Utf8.decode (← Read.bytes size) with
  | .ok name => return name
  | .error fault => throw (.nameText fault)

def read : Read Account := do
  let key ← Read.fixed 32
  let size ← Read.u32
  let name ← readName size.toNat
  let balance ← Read.u64
  let historyLength ← Read.u64
  let historyHash ← Read.fixed 32
  return ⟨⟨key⟩, name, balance, historyLength, historyHash⟩

def decode (bytes : Bytes) : Except EncodingFault Account := read.whole bytes

end Account

/-- One transaction in the history of an account. -/
structure HistoryEntry where
  txHash : Digest
  /-- Whether execution succeeded. -/
  succeeded : Bool
  deriving DecidableEq

namespace HistoryEntry

def encode (entry : HistoryEntry) : Bytes :=
  entry.txHash.toList ++ [if entry.succeeded then 1 else 0]

def readStatus : Read Bool := do
  let byte ← Read.u8
  if byte = 0 then return false
  else if byte = 1 then return true
  else throw (.statusByte byte)

def read : Read HistoryEntry := do
  let txHash ← Read.fixed 32
  let succeeded ← readStatus
  return ⟨txHash, succeeded⟩

def decode (bytes : Bytes) : Except EncodingFault HistoryEntry := read.whole bytes

end HistoryEntry

/-- Where a table of a service lies in the state map. -/
def tableKey (service table : UInt16) : FixedBytes 32 :=
  sha256Parts [little 2 service.toNat, little 2 table.toNat]

end LightClient

import LightClient.Encoding.Fault
import LightClient.Transaction.Body

/-! Transaction bodies as protobuf messages. Amounts are signed on the wire and
must not be negative; a seed keeps all its 64 bits. -/

namespace LightClient.Body

open Protobuf

def createAccountMessage : Message :=
  ⟨"CreateAccountMessage", [⟨1, "owner_public_key", .bytes⟩, ⟨2, "initial_balance", .int⟩]⟩

def transferMessage : Message :=
  ⟨"TransferMessage",
    [⟨1, "seed", .int⟩, ⟨2, "from_account", .bytes⟩, ⟨3, "to_account", .bytes⟩,
      ⟨4, "amount", .int⟩]⟩

def issueMessage : Message :=
  ⟨"IssueMessage", [⟨1, "owner_public_key", .bytes⟩, ⟨2, "amount", .int⟩, ⟨3, "seed", .int⟩]⟩

/-- An amount that fits a signed 64-bit field. -/
def amountToWire (field : String) (amount : UInt64) : Except EncodingFault UInt64 :=
  if amount.toNat < UInt64.size / 2 then .ok amount else .error (.amountTooLarge field amount)

def amountOfWire (field : String) (n : UInt64) : Except EncodingFault UInt64 :=
  if n.toNat < UInt64.size / 2 then .ok n
  else .error (.negativeAmount field (n.toNat - UInt64.size))

def keyOfWire (field : String) (bytes : Bytes) : Except EncodingFault PublicKey :=
  match PublicKey.ofBytes bytes with
  | .ok key => .ok key
  | .error fault => .error (.key field fault)

def encode : Body → Except EncodingFault Bytes
  | .createAccount tx => do
    let balance ← amountToWire "initial_balance" tx.initialBalance
    return encodeBytes 1 tx.owner.bytes.toList ++ encodeInt 2 balance
  | .transfer tx => do
    let amount ← amountToWire "amount" tx.amount
    return encodeInt 1 tx.seed ++ encodeBytes 2 tx.sender.bytes.toList ++
      encodeBytes 3 tx.recipient.bytes.toList ++ encodeInt 4 amount
  | .issue tx => do
    let amount ← amountToWire "amount" tx.amount
    return encodeBytes 1 tx.owner.bytes.toList ++ encodeInt 2 amount ++ encodeInt 3 tx.seed

def readMessage (message : Message) (bytes : Bytes) : Except EncodingFault Record :=
  match Protobuf.decode message bytes with
  | .ok record => .ok record
  | .error fault => .error (.protobuf fault)

def ofKind (kind : BodyKind) (bytes : Bytes) : Except EncodingFault Body :=
  match kind with
  | .createAccount => do
    let record ← readMessage createAccountMessage bytes
    let owner ← keyOfWire "owner_public_key" (record.bytes 1)
    let initialBalance ← amountOfWire "initial_balance" (record.int 2)
    return .createAccount ⟨owner, initialBalance⟩
  | .transfer => do
    let record ← readMessage transferMessage bytes
    let sender ← keyOfWire "from" (record.bytes 2)
    let recipient ← keyOfWire "to" (record.bytes 3)
    let amount ← amountOfWire "amount" (record.int 4)
    return .transfer ⟨record.int 1, sender, recipient, amount⟩
  | .issue => do
    let record ← readMessage issueMessage bytes
    let owner ← keyOfWire "owner_public_key" (record.bytes 1)
    let amount ← amountOfWire "amount" (record.int 2)
    return .issue ⟨owner, amount, record.int 3⟩

def decode (schema : Schema) (service message : UInt16) (bytes : Bytes) :
    Except EncodingFault Body :=
  match schema.kind? service message with
  | some kind => ofKind kind bytes
  | none => .error (.unknownMessage service message)

end LightClient.Body

import LightClient.Encoding.Protobuf
import LightClient.Encoding.Utf8
import LightClient.Key

/-! Why a value has no byte form or bytes are no value. -/

namespace LightClient

inductive EncodingFault
  | noLengthField (size : Nat)
  | messageTooLong (size : Nat)
  | messageTooShort (size : Nat)
  | wrongLength (field size : Nat)
  | truncated (need offset size : Nat)
  | trailing (count : Nat)
  | nameTooLong
  | nameText (fault : Utf8.Fault)
  | statusByte (byte : UInt8)
  | unknownMessage (service message : UInt16)
  | amountTooLarge (field : String) (amount : UInt64)
  | negativeAmount (field : String) (amount : Int)
  | key (field : String) (fault : KeyFault)
  | protobuf (fault : Protobuf.Fault)
  /-- A fault in someone else's words. -/
  | reported (text : String)
  deriving DecidableEq

def EncodingFault.message : EncodingFault → String
  | .noLengthField size => "buffer of " ++ toString size ++ " bytes has no length field"
  | .messageTooLong size => "message of " ++ toString size ++ " bytes exceeds u32"
  | .messageTooShort size =>
    "message of " ++ toString size ++ " bytes is shorter than header and signature"
  | .wrongLength field size =>
    "payload length field " ++ toString field ++ " does not match message size " ++ toString size
  | .truncated need offset size =>
    "truncated: need " ++ toString need ++ " bytes at offset " ++ toString offset ++ ", have " ++
      toString size
  | .trailing count => toString count ++ " trailing bytes"
  | .nameTooLong => "account name too long"
  | .nameText fault => "account name: " ++ fault.message
  | .statusByte byte => "execution status byte " ++ toString byte.toNat
  | .unknownMessage service message =>
    "unknown message: service " ++ toString service.toNat ++ ", message " ++ toString message.toNat
  | .amountTooLarge field amount => field ++ " " ++ toString amount.toNat ++ " exceeds int64"
  | .negativeAmount field amount => field ++ " is negative (" ++ toString amount ++ ")"
  | .key field fault => field ++ ": " ++ fault.message
  | .protobuf fault => fault.message
  | .reported text => text

end LightClient

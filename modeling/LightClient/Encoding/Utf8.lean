import LightClient.Bytes

/-! Text as UTF-8 bytes. `decode` undoes `encode` and accepts nothing else; where
it fails it says how long the valid beginning is and what broke it off. -/

namespace LightClient.Utf8

def encode (text : String) : Bytes := text.toUTF8.data.toList

/-- Where bytes stop being UTF-8: after `valid` bytes, at so many bytes that
begin no character, or at the end of the input within a character. -/
structure Fault where
  valid : Nat
  invalid : Option Nat
  deriving DecidableEq

def Fault.message (fault : Fault) : String :=
  match fault.invalid with
  | some n =>
    "invalid utf-8 sequence of " ++ toString n ++ " bytes from index " ++ toString fault.valid
  | none => "incomplete utf-8 byte sequence from index " ++ toString fault.valid

/-- The ranges of the bytes that follow a first byte in a character. -/
def following (b : UInt8) : Option (List (UInt8 × UInt8)) :=
  let tail := (0x80, 0xBF)
  if b ≤ 0x7F then some []
  else if 0xC2 ≤ b ∧ b ≤ 0xDF then some [tail]
  else if b = 0xE0 then some [(0xA0, 0xBF), tail]
  else if b = 0xED then some [(0x80, 0x9F), tail]
  else if 0xE1 ≤ b ∧ b ≤ 0xEF then some [tail, tail]
  else if b = 0xF0 then some [(0x90, 0xBF), tail, tail]
  else if 0xF1 ≤ b ∧ b ≤ 0xF3 then some [tail, tail, tail]
  else if b = 0xF4 then some [(0x80, 0x8F), tail, tail]
  else none

/-- The first fault, with `valid` good bytes behind, `read` bytes of a character
read and the ranges of those still owed. -/
def scan (valid read : Nat) : List (UInt8 × UInt8) → Bytes → Option Fault
  | [], [] => none
  | _ :: _, [] => some ⟨valid, none⟩
  | [], b :: rest =>
    match following b with
    | none => some ⟨valid, some 1⟩
    | some [] => scan (valid + 1) 0 [] rest
    | some owed => scan valid 1 owed rest
  | (low, high) :: owed, b :: rest =>
    if low ≤ b ∧ b ≤ high then
      if owed.isEmpty then scan (valid + read + 1) 0 [] rest else scan valid (read + 1) owed rest
    else some ⟨valid, some read⟩

def decode (bytes : Bytes) : Except Fault String :=
  match String.fromUTF8? ⟨bytes.toArray⟩ with
  | some text => .ok text
  | none => .error ((scan 0 0 [] bytes).getD ⟨0, none⟩)

theorem decode_encode (text : String) : decode (encode text) = .ok text := by
  have h : String.fromUTF8? ⟨(encode text).toArray⟩ = some text := by
    have : (⟨(encode text).toArray⟩ : ByteArray) = text.toByteArray := by
      simp [encode, String.toUTF8]
    rw [this]
    simp [String.fromUTF8?, String.fromUTF8, text.isValidUTF8]
  simp [decode, h]

theorem encode_of_decode {bytes : Bytes} {text : String} (h : decode bytes = .ok text) :
    encode text = bytes := by
  unfold decode String.fromUTF8? at h
  split at h
  · rename_i found
    split at found
    · cases found
      cases h
      simp [encode, String.fromUTF8, String.toUTF8]
    · cases found
  · cases h

end LightClient.Utf8

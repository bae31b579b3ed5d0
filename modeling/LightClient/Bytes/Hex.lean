import LightClient.Bytes

/-! Hexadecimal text. Writing is lower case; reading takes both cases, and
finds an odd length before it looks at any digit. -/

namespace LightClient.Hex

def digits : List Char := "0123456789abcdef".toList

private def digit (n : Nat) : Char := digits.getD n '0'

def encodeChars : Bytes → List Char
  | [] => []
  | b :: bs => digit (b.toNat / 16) :: digit (b.toNat % 16) :: encodeChars bs

def encode (bytes : Bytes) : String := String.ofList (encodeChars bytes)

/-- Why a text is no hexadecimal byte string. Positions count the bytes of
the text in UTF-8. -/
inductive Fault
  | oddLength
  | badDigit (byte : UInt8) (position : Nat)
  deriving DecidableEq

/-- The value of an ASCII hexadecimal digit. -/
def digitValue (b : UInt8) : Option Nat :=
  if 48 ≤ b ∧ b ≤ 57 then some (b.toNat - 48)
  else if 97 ≤ b ∧ b ≤ 102 then some (b.toNat - 87)
  else if 65 ≤ b ∧ b ≤ 70 then some (b.toNat - 55)
  else none

/-- Reads pairs of digits; `position` is where the text at hand starts. -/
def decodePairs (position : Nat) : Bytes → Except Fault Bytes
  | [] => .ok []
  | [_] => .error .oddLength
  | a :: b :: rest =>
    match digitValue a, digitValue b with
    | none, _ => .error (.badDigit a position)
    | some _, none => .error (.badDigit b (position + 1))
    | some high, some low => do
      let tail ← decodePairs (position + 2) rest
      return UInt8.ofNat (16 * high + low) :: tail

def decodeBytes (text : Bytes) : Except Fault Bytes :=
  if text.length % 2 = 1 then .error .oddLength else decodePairs 0 text

def decode (text : String) : Except Fault Bytes := decodeBytes text.toUTF8.data.toList

/-! ## Wording -/

private def lowerHex (n : Nat) : String := String.ofList (Nat.toDigits 16 n)

/-- A byte as the character with that code, in quotes, with control
characters escaped. -/
def quoted (b : UInt8) : String :=
  let text :=
    if b = 0 then "\\0"
    else if b = 9 then "\\t"
    else if b = 10 then "\\n"
    else if b = 13 then "\\r"
    else if b = 39 then "\\'"
    else if b = 92 then "\\\\"
    else if b < 32 ∨ (127 ≤ b ∧ b ≤ 160) ∨ b = 173 then
      "\\u\x7b" ++ lowerHex b.toNat ++ "\x7d"
    else String.singleton (Char.ofNat b.toNat)
  "'" ++ text ++ "'"

def Fault.message : Fault → String
  | .oddLength => "Odd number of digits"
  | .badDigit b position => "Invalid character " ++ quoted b ++ " at position " ++ toString position

/-! ## Reading what was written -/

private theorem digit_value : ∀ n < 16, digitValue (UInt8.ofNat (digit n).toNat) = some n := by
  decide

private theorem digit_utf8 : ∀ n < 16,
    String.utf8EncodeChar (digit n) = [UInt8.ofNat (digit n).toNat] := by
  decide

theorem length_encodeChars (bytes : Bytes) : (encodeChars bytes).length = 2 * bytes.length := by
  induction bytes with
  | nil => rfl
  | cons b bs ih => simp only [encodeChars, List.length_cons, ih]; omega

theorem decodePairs_encodeChars (position : Nat) (bytes : Bytes) :
    decodePairs position ((encodeChars bytes).flatMap String.utf8EncodeChar) = .ok bytes := by
  induction bytes generalizing position with
  | nil => rfl
  | cons b bs ih =>
    have hb := b.toNat_lt
    have high : b.toNat / 16 < 16 := by omega
    have low : b.toNat % 16 < 16 := by omega
    have join : 16 * (b.toNat / 16) + b.toNat % 16 = b.toNat := by omega
    simp only [encodeChars, List.flatMap_cons, digit_utf8 _ high, digit_utf8 _ low,
      List.cons_append, List.nil_append, decodePairs, digit_value _ high, digit_value _ low, ih,
      join]
    simp [pure, Except.pure, bind, Except.bind]

theorem length_utf8_encodeChars (bytes : Bytes) :
    ((encodeChars bytes).flatMap String.utf8EncodeChar).length = 2 * bytes.length := by
  induction bytes with
  | nil => rfl
  | cons b bs ih =>
    have hb := b.toNat_lt
    have high : b.toNat / 16 < 16 := by omega
    have low : b.toNat % 16 < 16 := by omega
    simp only [encodeChars, List.flatMap_cons, digit_utf8 _ high, digit_utf8 _ low,
      List.length_append, List.length_cons, List.length_nil, ih]
    omega

theorem decode_encode (bytes : Bytes) : decode (encode bytes) = .ok bytes := by
  have text : (encode bytes).toUTF8.data.toList =
      (encodeChars bytes).flatMap String.utf8EncodeChar := by
    simp [encode, String.toUTF8, List.utf8Encode]
  have even := length_utf8_encodeChars bytes
  rw [decode, decodeBytes, text, if_neg (by omega)]
  exact decodePairs_encodeChars 0 bytes

end LightClient.Hex

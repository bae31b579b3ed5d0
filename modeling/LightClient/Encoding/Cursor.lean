import LightClient.Encoding.Fault

/-! Reading fixed-width records from the front of a byte string. A reader that
finds too few bytes says where it stood; `Read.whole` refuses bytes left over. -/

namespace LightClient

/-- The unread rest of a byte string, and how much is read. -/
structure Cursor where
  offset : Nat
  rest : Bytes

abbrev Read (α : Type) := StateT Cursor (Except EncodingFault) α

namespace Read

def fixed (n : Nat) : Read (FixedBytes n) := fun c =>
  if h : n ≤ c.rest.length then
    .ok (⟨c.rest.take n, by simp [h]⟩, ⟨c.offset + n, c.rest.drop n⟩)
  else .error (.truncated n c.offset (c.offset + c.rest.length))

def bytes (n : Nat) : Read Bytes := do return (← fixed n).toList

/-- A little-endian number of `n` bytes. -/
def number (n : Nat) : Read Nat := do return ofLittle (← bytes n)

def u8 : Read UInt8 := do return UInt8.ofNat (← number 1)
def u16 : Read UInt16 := do return UInt16.ofNat (← number 2)
def u32 : Read UInt32 := do return UInt32.ofNat (← number 4)
def u64 : Read UInt64 := do return UInt64.ofNat (← number 8)

def finish : Read Unit := fun c =>
  if c.rest.isEmpty then .ok ((), c) else .error (.trailing c.rest.length)

/-- Runs a reader that must use up its input. -/
def whole {α : Type} (read : Read α) (bytes : Bytes) : Except EncodingFault α := do
  let (value, c) ← read ⟨0, bytes⟩
  let _ ← finish c
  return value

/-- A field at the front is read and the rest is left. -/
theorem fixed_append {n : Nat} (value : FixedBytes n) (offset : Nat) (rest : Bytes) :
    fixed n ⟨offset, value.toList ++ rest⟩ = .ok (value, ⟨offset + n, rest⟩) := by
  have htake : (value.toList ++ rest).take n = value.toList := by
    simp
  have hdrop : (value.toList ++ rest).drop n = rest := by
    simp
  have hle : n ≤ (value.toList ++ rest).length := by simp
  simp only [fixed, hle, dite_true, htake, hdrop]

/-- What is read is the front of the input. -/
theorem of_fixed {n : Nat} {c c' : Cursor} {value : FixedBytes n}
    (h : fixed n c = .ok (value, c')) :
    c.rest = value.toList ++ c'.rest ∧ c'.offset = c.offset + n := by
  unfold fixed at h
  split at h
  · cases h; simp
  · cases h

end Read

end LightClient

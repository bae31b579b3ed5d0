/-! Byte strings, byte strings of a fixed length, and little-endian numbers.
`ofLittle_little` and `little_ofLittle` say that `w` bytes and the numbers
below `256 ^ w` are the same thing. -/

namespace LightClient

abbrev Bytes := List UInt8

/-- A byte string of exactly `n` bytes. -/
structure FixedBytes (n : Nat) where
  toList : Bytes
  length_toList : toList.length = n
  deriving DecidableEq

namespace FixedBytes

attribute [simp] length_toList

theorem toList_injective {n : Nat} {a b : FixedBytes n} (h : a.toList = b.toList) : a = b := by
  cases a; cases b; simp_all

def ofList? (n : Nat) (bytes : Bytes) : Option (FixedBytes n) :=
  if h : bytes.length = n then some ⟨bytes, h⟩ else none

@[simp] theorem ofList?_toList {n : Nat} (a : FixedBytes n) : ofList? n a.toList = some a := by
  simp [ofList?]

theorem toList_of_ofList? {n : Nat} {bytes : Bytes} {a : FixedBytes n}
    (h : ofList? n bytes = some a) : a.toList = bytes := by
  unfold ofList? at h
  split at h
  · cases h; rfl
  · cases h

theorem ofList?_eq_none {n : Nat} {bytes : Bytes} :
    ofList? n bytes = none ↔ bytes.length ≠ n := by
  unfold ofList?
  split <;> simp_all

/-- `n` copies of one byte. -/
def replicate (n : Nat) (byte : UInt8) : FixedBytes n :=
  ⟨List.replicate n byte, List.length_replicate⟩

def zero (n : Nat) : FixedBytes n := replicate n 0

/-- Exclusive or of a mask into the first byte. -/
def xorHead {n : Nat} (a : FixedBytes n) (mask : UInt8) : FixedBytes n :=
  ⟨a.toList.modifyHead (· ^^^ mask), by simp⟩

/-- Byte strings are ordered byte by byte from the front. -/
instance (n : Nat) : Ord (FixedBytes n) := ⟨fun a b => compare a.toList b.toList⟩

instance (n : Nat) : Std.TransOrd (FixedBytes n) where
  eq_swap {a b} := (Std.OrientedOrd.eq_swap : compare a.toList b.toList = _)
  isLE_trans {a b c} (hab : (compare a.toList b.toList).isLE)
      (hbc : (compare b.toList c.toList).isLE) :=
    (Std.TransOrd.isLE_trans hab hbc : (compare a.toList c.toList).isLE)

instance (n : Nat) : Std.LawfulEqOrd (FixedBytes n) where
  compare_self {a} := (Std.ReflOrd.compare_self : compare a.toList a.toList = .eq)
  eq_of_compare {a b} (h : compare a.toList b.toList = .eq) :=
    toList_injective (Std.LawfulEqOrd.eq_of_compare h)

end FixedBytes

/-- The result of SHA-256. -/
abbrev Digest := FixedBytes 32

instance : Std.TransOrd Digest := inferInstance

instance : Std.LawfulEqOrd Digest := inferInstance

/-! ## Little-endian numbers -/

/-- The low `w` bytes of `n`, least significant first. -/
def little : Nat → Nat → Bytes
  | 0, _ => []
  | w + 1, n => UInt8.ofNat (n % 256) :: little w (n / 256)

/-- The number whose bytes these are, least significant first. -/
def ofLittle : Bytes → Nat
  | [] => 0
  | b :: bs => b.toNat + 256 * ofLittle bs

@[simp] theorem length_little (w n : Nat) : (little w n).length = w := by
  induction w generalizing n with
  | zero => rfl
  | succ w ih => simp [little, ih]

theorem ofLittle_little (w n : Nat) : ofLittle (little w n) = n % Nat.pow 256 w := by
  induction w generalizing n with
  | zero => simp [little, ofLittle, Nat.mod_one]
  | succ w ih =>
    have step : Nat.pow 256 (w + 1) = 256 * Nat.pow 256 w := Nat.mul_comm _ _
    rw [little, ofLittle, ih, step, Nat.mod_mul]
    simp

theorem ofLittle_lt (bs : Bytes) : ofLittle bs < Nat.pow 256 bs.length := by
  induction bs with
  | nil => simp [ofLittle]
  | cons b bs ih =>
    have := b.toNat_lt
    have step : Nat.pow 256 (bs.length + 1) = 256 * Nat.pow 256 bs.length := Nat.mul_comm _ _
    rw [ofLittle, List.length_cons, step]
    omega

theorem little_ofLittle (bs : Bytes) : little bs.length (ofLittle bs) = bs := by
  induction bs with
  | nil => rfl
  | cons b bs ih =>
    have := b.toNat_lt
    have low : (b.toNat + 256 * ofLittle bs) % 256 = b.toNat := by omega
    have high : (b.toNat + 256 * ofLittle bs) / 256 = ofLittle bs := by omega
    simp only [List.length_cons, little, ofLittle, low, high, ih, UInt8.ofNat_toNat]

end LightClient

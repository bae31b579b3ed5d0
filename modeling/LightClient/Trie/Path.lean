import LightClient.Bytes

/-! Positions in a binary trie over 32-byte keys. A path is a key of which the
first `bits` bits count; bit `i` is bit `i % 8` of byte `i / 8`, the least
significant bit of a byte first. `bitString` is what a path stands for. -/

namespace LightClient.Trie

abbrev MapKey := FixedBytes 32

/-! ## Bits of a byte string -/

def bitAt (bytes : Bytes) (i : Nat) : Bool := (bytes.getD (i / 8) 0).toNat.testBit (i % 8)

/-- Index of the lowest set bit of a byte. -/
def lowestBit (b : UInt8) : Nat := ((List.range 8).find? b.toNat.testBit).getD 8

/-- Index of the first bit in which two byte strings differ. -/
def firstDifference : Bytes → Bytes → Option Nat
  | x :: xs, y :: ys =>
    if x = y then (firstDifference xs ys).map (· + 8) else some (lowestBit (x ^^^ y))
  | _, _ => none

/-- Clears every bit from index `n` on. -/
def keepBits : Nat → Bytes → Bytes
  | _, [] => []
  | n, b :: bs =>
    (if 8 ≤ n then b else b &&& UInt8.ofNat (1 <<< n - 1)) :: keepBits (n - 8) bs

@[simp] theorem length_keepBits (n : Nat) (bytes : Bytes) :
    (keepBits n bytes).length = bytes.length := by
  induction bytes generalizing n with
  | nil => rfl
  | cons b bs ih => simp [keepBits, ih]

theorem keepBits_keepBits (n : Nat) (bytes : Bytes) :
    keepBits n (keepBits n bytes) = keepBits n bytes := by
  induction bytes generalizing n with
  | nil => rfl
  | cons b bs ih =>
    simp only [keepBits, ih]
    split
    · rfl
    · rw [UInt8.and_assoc, UInt8.and_self]

theorem keepBits_of_length_le {n : Nat} {bytes : Bytes} (h : 8 * bytes.length ≤ n) :
    keepBits n bytes = bytes := by
  induction bytes generalizing n with
  | nil => rfl
  | cons b bs ih =>
    simp only [List.length_cons] at h
    rw [keepBits, if_pos (by omega), ih (by omega)]

/-! ## Paths -/

structure Path where
  key : MapKey
  bits : Nat
  bits_le : bits ≤ 256
  keep_key : keepBits bits key.toList = key.toList
  deriving DecidableEq

/-- Why a path could not be made or read. -/
inductive PathFault
  | tooManyBits (bits : Nat)
  | bitsPastEnd
  | rawLength (length : Nat)
  | leafBitCount
  | unknownKind (code : UInt8)
  deriving DecidableEq

def PathFault.message : PathFault → String
  | .tooManyBits bits => "branch path with " ++ toString bits ++ " significant bits"
  | .bitsPastEnd => "branch path has bits set past its prefix"
  | .rawLength length => "proof path of " ++ toString length ++ " bytes"
  | .leafBitCount => "leaf path with non-zero bit count"
  | .unknownKind code => "unknown node kind " ++ toString code.toNat

namespace Path

/-- The position of a key itself. -/
def leaf (key : MapKey) : Path :=
  ⟨key, 256, Nat.le_refl _, keepBits_of_length_le (by simp)⟩

/-- The position above all keys that agree with `key` on the first `bits`
bits; the rest of `key` must be clear. -/
def branch (key : MapKey) (bits : Nat) : Except PathFault Path :=
  if h : 256 ≤ bits then .error (.tooManyBits bits)
  else if hk : keepBits bits key.toList = key.toList then .ok ⟨key, bits, by omega, hk⟩
  else .error .bitsPastEnd

def isLeaf (p : Path) : Bool := p.bits == 256

def bit (p : Path) (i : Nat) : Bool := bitAt p.key.toList i

/-- The bits that count, in order. -/
def bitString (p : Path) : List Bool := (List.range p.bits).map p.bit

/-- Index of the first bit, below both lengths, in which two paths differ. -/
def fork (p q : Path) : Option Nat :=
  (firstDifference p.key.toList q.key.toList).filter (· < min p.bits q.bits)

/-- The number of bits that two paths share before they part or one ends. -/
def shared (p q : Path) : Nat := (p.fork q).getD (min p.bits q.bits)

theorem shared_le (p q : Path) : p.shared q ≤ min p.bits q.bits := by
  unfold shared
  cases h : p.fork q with
  | none => exact Nat.le_refl _
  | some i =>
    have := (Option.filter_eq_some_iff.mp h).2
    exact Nat.le_of_lt (of_decide_eq_true this)

def commonPrefix (p q : Path) : Path where
  key := ⟨keepBits (p.shared q) p.key.toList, by simp⟩
  bits := p.shared q
  bits_le := Nat.le_trans (p.shared_le q) (Nat.le_trans (Nat.min_le_left _ _) p.bits_le)
  keep_key := keepBits_keepBits _ _

/-- Whether `q` lies at or below `p`. -/
def isPrefixOf (p q : Path) : Bool :=
  p.bits ≤ q.bits &&
    ((firstDifference p.key.toList q.key.toList).filter (· < p.bits)).isNone

/-- The first differing bit decides, a set bit being greater; without one the
shorter path comes first. -/
def cmp (p q : Path) : Ordering :=
  match p.fork q with
  | some i => if p.bit i then .gt else .lt
  | none => compare p.bits q.bits

/-! ## The 34-byte form -/

/-- The kind, the key and the number of bits, where 256 is written as 0. -/
def toRaw (p : Path) : Bytes :=
  (if p.isLeaf then 1 else 0) :: p.key.toList ++ [UInt8.ofNat p.bits]

def ofRaw (raw : Bytes) : Except PathFault Path :=
  match raw with
  | [] => .error (.rawLength 0)
  | kind :: rest =>
    match FixedBytes.ofList? 32 (rest.take 32), rest.drop 32 with
    | some key, [count] =>
      if kind = 0 then branch key count.toNat
      else if kind = 1 then if count = 0 then .ok (leaf key) else .error .leafBitCount
      else .error (.unknownKind kind)
    | _, _ => .error (.rawLength raw.length)

/-! ## Wording -/

def kindName (p : Path) : String := if p.isLeaf then "Leaf" else "Branch"

/-- Kind, at most sixteen bits, and the number of bits. -/
def describe (p : Path) : String :=
  let shown := (p.bitString.take 16).map fun b => if b then '1' else '0'
  "ProofPath(" ++ p.kindName ++ ", " ++ String.ofList shown ++
    (if 16 < p.bits then ".." else "") ++ "/" ++ toString p.bits ++ ")"

end Path

end LightClient.Trie

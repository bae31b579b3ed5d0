import LightClient.Trie.Path

/-! Bits of byte strings. Two byte strings of one length are equal when all their
bits are; `firstDifference` finds the first bit that tells them apart, and
`keepBits` keeps exactly the bits below its bound. -/

namespace LightClient.Trie

theorem bitAt_cons_of_lt {b : UInt8} {bs : Bytes} {i : Nat} (h : i < 8) :
    bitAt (b :: bs) i = b.toNat.testBit i := by
  have hdiv : i / 8 = 0 := by omega
  have hmod : i % 8 = i := by omega
  simp [bitAt, hdiv, hmod]

theorem bitAt_cons_add (b : UInt8) (bs : Bytes) (i : Nat) :
    bitAt (b :: bs) (i + 8) = bitAt bs i := by
  have hdiv : (i + 8) / 8 = i / 8 + 1 := by omega
  have hmod : (i + 8) % 8 = i % 8 := by omega
  simp [bitAt, hdiv, hmod]

/-- A bit of a nonempty byte string lies in its first byte or in the rest. -/
theorem bitAt_cons (b : UInt8) (bs : Bytes) (i : Nat) :
    bitAt (b :: bs) i = if i < 8 then b.toNat.testBit i else bitAt bs (i - 8) := by
  split
  · exact bitAt_cons_of_lt ‹_›
  · obtain ⟨j, rfl⟩ : ∃ j, i = j + 8 := ⟨i - 8, by omega⟩
    rw [bitAt_cons_add, Nat.add_sub_cancel]

/-! ## Bytes -/

theorem testBit_toNat_of_le {b : UInt8} {i : Nat} (h : 8 ≤ i) : b.toNat.testBit i = false := by
  apply Nat.testBit_lt_two_pow
  calc b.toNat < Nat.pow 2 8 := b.toNat_lt
    _ ≤ Nat.pow 2 i := Nat.pow_le_pow_right (by decide) h

/-- Bytes are equal when their eight bits are. -/
theorem byte_ext {x y : UInt8} (h : ∀ i < 8, x.toNat.testBit i = y.toNat.testBit i) : x = y := by
  apply UInt8.toNat_inj.mp
  apply Nat.eq_of_testBit_eq
  intro i
  by_cases hi : i < 8
  · exact h i hi
  · rw [testBit_toNat_of_le (by omega), testBit_toNat_of_le (by omega)]

/-- The lowest set bit of a byte that is not zero. -/
theorem lowestBit_spec {b : UInt8} (h : b ≠ 0) :
    lowestBit b < 8 ∧ b.toNat.testBit (lowestBit b) = true ∧
      ∀ i < lowestBit b, b.toNat.testBit i = false := by
  unfold lowestBit
  cases hf : (List.range 8).find? b.toNat.testBit with
  | none =>
    exfalso
    apply h
    apply byte_ext
    intro i hi
    have := List.find?_eq_none.mp hf i (List.mem_range.mpr hi)
    simpa using this
  | some i =>
    rw [List.find?_range_eq_some] at hf
    obtain ⟨hbit, hmem, hbelow⟩ := hf
    refine ⟨List.mem_range.mp hmem, hbit, ?_⟩
    intro j hj
    simpa using hbelow j hj

/-- The lowest bit of an exclusive or is the first in which two bytes differ. -/
theorem lowestBit_xor {x y : UInt8} (h : x ≠ y) :
    lowestBit (x ^^^ y) < 8 ∧
      x.toNat.testBit (lowestBit (x ^^^ y)) ≠ y.toNat.testBit (lowestBit (x ^^^ y)) ∧
      ∀ i < lowestBit (x ^^^ y), x.toNat.testBit i = y.toNat.testBit i := by
  have hne : x ^^^ y ≠ 0 := fun h0 => h (UInt8.xor_eq_zero_iff.mp h0)
  obtain ⟨hlt, hset, hclear⟩ := lowestBit_spec hne
  rw [UInt8.toNat_xor, Nat.testBit_xor] at hset
  refine ⟨hlt, by simpa using hset, ?_⟩
  intro i hi
  have := hclear i hi
  rw [UInt8.toNat_xor, Nat.testBit_xor] at this
  simpa using this

/-! ## Byte strings -/

theorem eq_of_bitAt {xs ys : Bytes} (hlen : xs.length = ys.length)
    (h : ∀ i < 8 * xs.length, bitAt xs i = bitAt ys i) : xs = ys := by
  induction xs generalizing ys with
  | nil => exact (List.eq_nil_of_length_eq_zero hlen.symm).symm
  | cons x xs ih =>
    cases ys with
    | nil => simp at hlen
    | cons y ys =>
      simp only [List.length_cons] at hlen h
      have hhead : x = y := by
        apply byte_ext
        intro i hi
        have := h i (by omega)
        rwa [bitAt_cons_of_lt hi, bitAt_cons_of_lt hi] at this
      have htail : xs = ys := by
        apply ih (by omega)
        intro i hi
        have := h (i + 8) (by omega)
        rwa [bitAt_cons_add, bitAt_cons_add] at this
      rw [hhead, htail]

/-- The first differing bit: the strings differ there and agree before it. -/
theorem firstDifference_eq_some {xs ys : Bytes} {i : Nat} (h : firstDifference xs ys = some i) :
    bitAt xs i ≠ bitAt ys i ∧ ∀ j < i, bitAt xs j = bitAt ys j := by
  induction xs generalizing ys i with
  | nil => simp [firstDifference] at h
  | cons x xs ih =>
    cases ys with
    | nil => simp [firstDifference] at h
    | cons y ys =>
      unfold firstDifference at h
      split at h
      · rename_i hxy
        obtain ⟨k, hk, rfl⟩ := Option.map_eq_some_iff.mp h
        obtain ⟨hne, hbelow⟩ := ih hk
        refine ⟨by rwa [bitAt_cons_add, bitAt_cons_add], ?_⟩
        intro j hj
        rw [bitAt_cons, bitAt_cons, hxy]
        split
        · rfl
        · exact hbelow _ (by omega)
      · rename_i hxy
        cases h
        obtain ⟨hlt, hne, hbelow⟩ := lowestBit_xor hxy
        refine ⟨by rwa [bitAt_cons_of_lt hlt, bitAt_cons_of_lt hlt], ?_⟩
        intro j hj
        have hj8 : j < 8 := by omega
        rw [bitAt_cons_of_lt hj8, bitAt_cons_of_lt hj8]
        exact hbelow j hj

/-- Byte strings of one length in which no bit differs are equal. -/
theorem firstDifference_eq_none {xs ys : Bytes} (hlen : xs.length = ys.length)
    (h : firstDifference xs ys = none) : xs = ys := by
  induction xs generalizing ys with
  | nil => exact (List.eq_nil_of_length_eq_zero hlen.symm).symm
  | cons x xs ih =>
    cases ys with
    | nil => simp at hlen
    | cons y ys =>
      unfold firstDifference at h
      split at h
      · rename_i hxy
        rw [hxy, ih (by simpa using hlen) (Option.map_eq_none_iff.mp h)]
      · cases h

theorem firstDifference_self (bytes : Bytes) : firstDifference bytes bytes = none := by
  induction bytes with
  | nil => rfl
  | cons b bs ih => rw [firstDifference, if_pos rfl, ih, Option.map_none]

/-- A byte below the bound is kept, one at the bound is masked, and the rest is cleared. -/
theorem getElem?_keepBits (n : Nat) (bytes : Bytes) (k : Nat) :
    (keepBits n bytes)[k]? = bytes[k]?.map fun b =>
      if 8 * (k + 1) ≤ n then b else b &&& UInt8.ofNat (1 <<< (n - 8 * k) - 1) := by
  induction bytes generalizing n k with
  | nil => rfl
  | cons b bs ih =>
    cases k with
    | zero => rfl
    | succ k =>
      have hrest : n - 8 - 8 * k = n - 8 * (k + 1) := by omega
      have hle : 8 * (k + 1) ≤ n - 8 ↔ 8 * (k + 1 + 1) ≤ n := by omega
      rw [keepBits, List.getElem?_cons_succ, List.getElem?_cons_succ, ih, hrest]
      simp only [hle]

/-- Exactly the bits below the bound are kept. -/
theorem bitAt_keepBits (n : Nat) (bytes : Bytes) (i : Nat) :
    bitAt (keepBits n bytes) i = (decide (i < n) && bitAt bytes i) := by
  induction bytes generalizing n i with
  | nil => simp [keepBits, bitAt]
  | cons b bs ih =>
    rw [keepBits, bitAt_cons, bitAt_cons]
    split
    · rename_i hi
      split
      · rename_i hn
        have : i < n := by omega
        simp [this]
      · rename_i hn
        have hmask : (UInt8.ofNat (1 <<< n - 1)).toNat = 1 <<< n - 1 := by
          apply UInt8.toNat_ofNat_of_lt'
          have : 1 <<< n ≤ 1 <<< 8 := by
            rw [Nat.one_shiftLeft, Nat.one_shiftLeft]
            exact Nat.pow_le_pow_right (by decide) (by omega)
          have : (1 : Nat) <<< 8 = UInt8.size := rfl
          have : 0 < UInt8.size := by decide
          omega
        rw [UInt8.toNat_and, Nat.testBit_and, hmask, Nat.one_shiftLeft, Nat.testBit_two_pow_sub_one,
          Bool.and_comm]
    · rename_i hi
      rw [ih]
      congr 1
      exact decide_eq_decide.mpr (by omega)

end LightClient.Trie

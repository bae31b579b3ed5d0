import LightClient.Machine.Trie
import LightClient.Proofs.Machine.Guard
import LightClient.Proofs.Trie.Path

/-! Reading paths stays within their 32 bytes: a bit index below 256 falls into one of
them, and 16-bit positions do not overflow before byte 32. -/

namespace LightClient.Machine.Path

open Trie (Path)

/-! ## Bits -/

theorem bit_of_lt {p : Path} {i : Nat} (h : i < 256) : bit p i = .ok (p.bit i) := by
  have hlength : i / 8 < p.key.toList.length := by
    rw [p.key.length_toList]
    omega
  have hget := get_of_getElem? (List.getElem?_eq_getElem hlength)
  have hshift : shiftRight 8 (p.key.toList[i / 8]).toNat (i % 8) = _ :=
    shiftRight_of_lt (Nat.mod_lt _ (by decide))
  have hbyte : p.key.toList.getD (i / 8) 0 = p.key.toList[i / 8] :=
    (List.getElem_eq_getD 0).symm
  rw [bit, hget, ok_bind, hshift, ok_bind, Trie.Path.bit, Trie.bitAt, hbyte,
    Nat.testBit_eq_decide_div_mod_eq, Nat.shiftRight_eq_div_pow]
  rfl

/-- Byte strings that end by byte 32 are compared without overflow. -/
theorem firstDifference_eq {limit byte : Nat} {xs ys : Bytes} (h : byte + xs.length ≤ 32) :
    firstDifference limit byte xs ys =
      .ok (((Trie.firstDifference xs ys).map (8 * byte + ·)).filter (· < limit)) := by
  induction xs generalizing byte ys with
  | nil => rfl
  | cons x xs ih =>
    cases ys with
    | nil => rfl
    | cons y ys =>
      rw [List.length_cons] at h
      have hbyte : byte < 32 := by omega
      unfold firstDifference Trie.firstDifference
      split
      · have hcast : byte % UInt16.size = byte := Nat.mod_eq_of_lt (by simp [UInt16.size]; omega)
        have hnext : add 16 byte 1 = _ := add_of_lt (by omega)
        have hreached : mul 16 (byte + 1) 8 = _ := mul_of_lt (by omega)
        rw [hcast, hnext, ok_bind, hreached, ok_bind]
        split
        · rename_i hlimit
          -- the rest of the keys lies past the limit
          cases Trie.firstDifference xs ys with
          | none => rfl
          | some i =>
            have hpast : ¬ 8 * byte + (i + 8) < limit := by omega
            rw [Option.map_some, Option.map_some, Option.filter_some, if_neg (by simpa using hpast)]
            rfl
        · rw [ih (by omega), Option.map_map]
          congr 3
          funext i
          simp only [Function.comp_apply]
          omega
      · have hstart : mul 64 byte 8 = _ := mul_of_lt (by omega)
        have hcast : byte * 8 % UInt16.size = byte * 8 :=
          Nat.mod_eq_of_lt (by simp [UInt16.size]; omega)
        have hlow := (Trie.lowestBit_xor ‹¬ x = y›).1
        have hindex : add 16 (byte * 8) (Trie.lowestBit (x ^^^ y)) = _ :=
          add_of_lt (by omega)
        rw [hstart, ok_bind, hcast, hindex, ok_bind, Nat.mul_comm byte 8, Option.map_some,
          Option.filter_some]
        simp only [decide_eq_true_eq]
        rfl

theorem firstDifference_keys (limit : Nat) (p q : Path) :
    firstDifference limit 0 p.key.toList q.key.toList =
      .ok ((Trie.firstDifference p.key.toList q.key.toList).filter (· < limit)) := by
  have hlength : 0 + p.key.toList.length ≤ 32 := by simp
  rw [firstDifference_eq hlength]
  simp

/-! ## Keys -/

/-- A byte that lies wholly below or wholly past the bound. -/
theorem getElem?_take_append_zeros {bits k : Nat} (key : FixedBytes 32)
    (h : 8 * (k + 1) ≤ bits ∨ bits ≤ 8 * k) :
    (key.toList.take (bits / 8) ++ List.replicate (32 - bits / 8) 0)[k]? =
      (Trie.keepBits bits key.toList)[k]? := by
  have hkey := key.length_toList
  rw [Trie.getElem?_keepBits, List.getElem?_append, List.length_take, hkey]
  rcases h with hbelow | hpast
  · by_cases hk : k < 32
    · rw [if_pos (by omega), List.getElem?_take_of_lt (by omega)]
      simp [hbelow]
    · rw [if_neg (by omega), List.getElem?_replicate, if_neg (by omega),
        List.getElem?_eq_none (by omega)]
      rfl
  · have hrest : bits - 8 * k = 0 := by omega
    have hnot : ¬ 8 * (k + 1) ≤ bits := by omega
    rw [if_neg (by omega), List.getElem?_replicate]
    by_cases hk : k < 32
    · rw [if_pos (by omega), List.getElem?_eq_getElem (by omega)]
      simp [hrest, hnot]
    · rw [if_neg (by omega), List.getElem?_eq_none (by omega)]
      rfl

theorem one_le_shiftLeft (amount : Nat) : 1 ≤ 1 <<< amount := by
  rw [Nat.one_shiftLeft]
  exact Nat.one_le_two_pow

/-- A single bit stays inside a byte. -/
theorem shiftLeft_one {amount : Nat} (h : amount < 8) :
    shiftLeft 8 1 amount = .ok (1 <<< amount) := by
  have hlt : 1 <<< amount < 1 <<< 8 := by
    rw [Nat.one_shiftLeft, Nat.one_shiftLeft]
    exact Nat.pow_lt_pow_right (by decide) h
  rw [shiftLeft_of_lt h, Nat.mod_eq_of_lt hlt]

/-- Whole bytes are copied, and the byte at the bound is there when bits of it are kept. -/
theorem keepBits_eq {bits : Nat} (h : bits ≤ 256) (key : FixedBytes 32) :
    keepBits bits key.toList = .ok (Trie.keepBits bits key.toList) := by
  have hkey := key.length_toList
  have hfull : bits / 8 ≤ 32 := by omega
  have hslice : slice key.toList 0 (bits / 8) = .ok (key.toList.take (bits / 8)) :=
    slice_of_le (Nat.zero_le _) (by omega)
  have hover : overwrite (List.replicate 32 0) 0 (bits / 8) (key.toList.take (bits / 8)) =
      .ok (key.toList.take (bits / 8) ++ List.replicate (32 - bits / 8) 0) := by
    rw [overwrite_of_le (by rw [List.length_replicate]; exact hfull)
      (by rw [List.length_take]; omega), List.drop_replicate]
    rfl
  rw [keepBits, hslice, ok_bind, hover, ok_bind]
  split
  · -- the bound falls between two bytes
    refine congrArg _ (List.ext_getElem? fun k => getElem?_take_append_zeros key ?_)
    omega
  · rename_i hrem
    have hlast : bits / 8 < key.toList.length := by omega
    have hlength : (key.toList.take (bits / 8) ++ List.replicate (32 - bits / 8) 0).length =
        32 := by
      simp
      omega
    rw [shiftLeft_one (Nat.mod_lt _ (by decide)), ok_bind, sub_of_le (one_le_shiftLeft _), ok_bind,
      get_of_getElem? (List.getElem?_eq_getElem hlast), ok_bind, set_of_lt (by omega)]
    refine congrArg _ (List.ext_getElem? fun k => ?_)
    rw [List.getElem?_set]
    split
    · rename_i hk
      subst hk
      have hrest : bits - 8 * (bits / 8) = bits % 8 := by omega
      have hnot : ¬ 8 * (bits / 8 + 1) ≤ bits := by omega
      rw [if_pos (by omega), Trie.getElem?_keepBits, List.getElem?_eq_getElem (by omega),
        Option.map_some, if_neg hnot, hrest]
    · exact getElem?_take_append_zeros key (by omega)

/-! ## Paths -/

theorem make_eq (p : Path) : make p.key.toList p.bits = .ok p := by
  rw [make, copy_toList, ok_bind, dif_pos ⟨p.bits_le, p.keep_key⟩]
  rfl

theorem commonPrefix_eq (p q : Path) : commonPrefix p q = .ok (p.commonPrefix q) := by
  unfold commonPrefix
  split
  · rename_i heq
    rw [← heq, Trie.Path.commonPrefix_self]
    rfl
  · have hbits : p.shared q ≤ 256 :=
      Nat.le_trans (p.shared_le q) (Nat.le_trans (Nat.min_le_left _ _) p.bits_le)
    have hshared : ((Trie.firstDifference p.key.toList q.key.toList).filter
        (· < min p.bits q.bits)).getD (min p.bits q.bits) = p.shared q := rfl
    simp only [firstDifference_keys, ok_bind, hshared, keepBits_eq hbits]
    exact make_eq (p.commonPrefix q)

theorem isPrefixOf_eq (p q : Path) : isPrefixOf p q = .ok (p.isPrefixOf q) := by
  unfold isPrefixOf Trie.Path.isPrefixOf
  split
  · rename_i hle
    rw [firstDifference_keys, ok_bind, decide_eq_true hle, Bool.true_and]
    rfl
  · rename_i hle
    rw [decide_eq_false hle, Bool.false_and]
    rfl

theorem cmp_eq (p q : Path) : cmp p q = .ok (p.cmp q) := by
  have hfork : (Trie.firstDifference p.key.toList q.key.toList).filter
      (· < min p.bits q.bits) = p.fork q := rfl
  rw [cmp, Trie.Path.cmp, firstDifference_keys, ok_bind, hfork]
  cases h : p.fork q with
  | none => rfl
  | some i =>
    have hi : i < min p.bits q.bits := of_decide_eq_true (Option.filter_eq_some_iff.mp h).2
    have hp := p.bits_le
    simp only
    rw [bit_of_lt (by omega), ok_bind]
    rfl

theorem shown_eq (p : Path) : shown p = .ok (p.bitString.take 16) := by
  have hp := p.bits_le
  have hbits : ∀ i ∈ List.range (min p.bits 16), bit p i = .ok (p.bit i) := by
    intro i hi
    have := List.mem_range.mp hi
    exact bit_of_lt (by omega)
  rw [shown, mapM_of_ok hbits, Trie.Path.bitString, ← List.map_take, List.take_range, Nat.min_comm]

theorem toRaw_eq (p : Path) : toRaw p = .ok p.toRaw := by
  have hkey := p.key.length_toList
  have hcount : (if p.isLeaf then 0 else UInt8.ofNat p.bits) = UInt8.ofNat p.bits := by
    split
    · rename_i hleaf
      rw [eq_of_beq hleaf]
      rfl
    · rfl
  unfold toRaw Trie.Path.toRaw
  generalize (if p.isLeaf then 1 else 0 : UInt8) = kind
  have hset : set (List.replicate 34 (0 : UInt8)) 0 kind = .ok (kind :: List.replicate 33 0) := rfl
  have hover : overwrite (kind :: List.replicate 33 0) 1 33 p.key.toList =
      .ok ([kind] ++ p.key.toList ++ [0]) :=
    overwrite_of_le (by simp) (by omega)
  have hlast : ([kind] ++ p.key.toList ++ [0]).set 33 (UInt8.ofNat p.bits) =
      kind :: p.key.toList ++ [UInt8.ofNat p.bits] := by
    rw [List.set_append_right _ _ (by simp)]
    simp [hkey]
  rw [hset, ok_bind, hover, ok_bind, hcount, set_of_lt (by simp), hlast]

end LightClient.Machine.Path

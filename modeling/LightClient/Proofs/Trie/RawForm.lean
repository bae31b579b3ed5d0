import LightClient.Proofs.Trie.BitStrings

/-! The 34-byte form of a path. A form has a kind, a key and a count; which of them are read
is said by their bits alone. Leaves and branches are told apart by the kind, since the count
may be zero in both, and nothing but the form that is written for a path is read as it. -/

namespace LightClient.Trie.Path

/-! ## The parts of a form -/

/-- A byte string of 34 bytes is a kind, a key and a count. -/
theorem exists_raw_parts {raw : Bytes} (h : raw.length = 34) :
    ∃ (kind : UInt8) (key : MapKey) (count : UInt8), raw = kind :: key.toList ++ [count] := by
  cases raw with
  | nil => simp at h
  | cons kind rest =>
    rw [List.length_cons] at h
    have hlast : (rest.drop 32).length = 1 := by
      rw [List.length_drop]
      omega
    obtain ⟨count, hcount⟩ := List.length_eq_one_iff.mp hlast
    refine ⟨kind, ⟨rest.take 32, by rw [List.length_take]; omega⟩, count, ?_⟩
    rw [List.cons_append, ← hcount, List.take_append_drop]

section
variable (kind : UInt8) (key : MapKey) (count : UInt8)

/-- The kind says how the count is taken. -/
theorem ofRaw_parts :
    ofRaw (kind :: key.toList ++ [count]) =
      if kind = 0 then branch key count.toNat
      else if kind = 1 then if count = 0 then .ok (leaf key) else .error .leafBitCount
      else .error (.unknownKind kind) := by
  have hkey : FixedBytes.ofList? 32 ((key.toList ++ [count]).take 32) = some key := by
    rw [List.take_left' key.length_toList, FixedBytes.ofList?_toList]
  have hcount : (key.toList ++ [count]).drop 32 = [count] := List.drop_left' key.length_toList
  simp only [List.cons_append, ofRaw, hkey, hcount]

theorem getElem?_parts_kind : (kind :: key.toList ++ [count])[0]? = some kind := rfl

theorem getElem?_parts_count : (kind :: key.toList ++ [count])[33]? = some count := by
  rw [List.getElem?_append_right (by simp)]
  simp

/-- The bytes between the kind and the count. -/
theorem key_of_parts : ((kind :: key.toList ++ [count]).take 33).drop 1 = key.toList := by
  rw [List.take_left' (by simp)]
  rfl

end

/-- Only byte strings of 34 bytes are read. -/
theorem ofRaw_of_length_ne {raw : Bytes} (h : raw.length ≠ 34) :
    ofRaw raw = .error (.rawLength raw.length) := by
  cases raw with
  | nil => rfl
  | cons kind rest =>
    rw [List.length_cons] at h
    simp only [ofRaw]
    split
    · rename_i key count hkey hcount
      exfalso
      have hlast := congrArg List.length hcount
      rw [List.length_drop, List.length_singleton] at hlast
      omega
    · rfl

theorem length_of_ofRaw {raw : Bytes} {p : Path} (h : ofRaw raw = .ok p) : raw.length = 34 := by
  apply Decidable.byContradiction
  intro hlength
  rw [ofRaw_of_length_ne hlength] at h
  cases h

/-! ## What is read -/

/-- What a path is written as: a kind of 1 with a count of 0, or a kind of 0 with a key that
is clear from the count on. -/
structure IsRawForm (raw : Bytes) : Prop where
  length_eq : raw.length = 34
  kind_and_count : (raw[0]? = some 1 ∧ raw[33]? = some 0) ∨
    (raw[0]? = some 0 ∧ ∃ count, raw[33]? = some count ∧
      ∀ i < 256, count.toNat ≤ i → bitAt ((raw.take 33).drop 1) i = false)

theorem isRawForm_parts_iff {kind : UInt8} {key : MapKey} {count : UInt8} :
    IsRawForm (kind :: key.toList ++ [count]) ↔
      (kind = 1 ∧ count = 0) ∨
        (kind = 0 ∧ ∀ i < 256, count.toNat ≤ i → bitAt key.toList i = false) := by
  constructor
  · rintro ⟨-, hkind⟩
    rw [getElem?_parts_kind, getElem?_parts_count, key_of_parts] at hkind
    simpa using hkind
  · intro h
    refine ⟨by simp, ?_⟩
    rw [getElem?_parts_kind, getElem?_parts_count, key_of_parts]
    simpa using h

/-- Past its 32 bytes a key has no bits. -/
theorem clear_from_iff {key : MapKey} {n : Nat} :
    (∀ i < 256, n ≤ i → bitAt key.toList i = false) ↔ ∀ i, n ≤ i → bitAt key.toList i = false := by
  constructor
  · intro h i hi
    by_cases hin : i < 256
    · exact h i hin hi
    · exact bit_of_bits_le (p := leaf key) (by rw [bits_leaf]; omega)
  · exact fun h i _ hi => h i hi

/-- The forms that are read. -/
theorem exists_ofRaw_iff {raw : Bytes} : (∃ p, ofRaw raw = .ok p) ↔ IsRawForm raw := by
  constructor
  · rintro ⟨p, h⟩
    obtain ⟨kind, key, count, rfl⟩ := exists_raw_parts (length_of_ofRaw h)
    rw [isRawForm_parts_iff, clear_from_iff]
    rw [ofRaw_parts] at h
    split at h
    · exact Or.inr ⟨‹_›, (branch_eq_ok.mp h).2.1⟩
    split at h
    · split at h
      · exact Or.inl ⟨‹_›, ‹_›⟩
      · cases h
    · cases h
  · intro h
    obtain ⟨kind, key, count, rfl⟩ := exists_raw_parts h.length_eq
    rw [ofRaw_parts]
    rcases isRawForm_parts_iff.mp h with ⟨rfl, rfl⟩ | ⟨rfl, hclear⟩
    · exact ⟨leaf key, rfl⟩
    · refine ⟨⟨key, count.toNat, ?_, ?_⟩, ?_⟩
      · exact Nat.le_of_lt count.toNat_lt
      · exact keepBits_eq_self_iff.mpr (clear_from_iff.mp hclear)
      · exact branch_eq_ok.mpr ⟨count.toNat_lt, clear_from_iff.mp hclear, rfl, rfl⟩

/-- A form that is read is the form of the path it is read as. -/
theorem toRaw_of_ofRaw {raw : Bytes} {p : Path} (h : ofRaw raw = .ok p) : p.toRaw = raw := by
  obtain ⟨kind, key, count, rfl⟩ := exists_raw_parts (length_of_ofRaw h)
  rw [ofRaw_parts] at h
  split at h
  · rename_i hkind
    obtain ⟨hbits, -, hkey, hcount⟩ := branch_eq_ok.mp h
    have hleaf : p.isLeaf = false := by
      rw [isLeaf, beq_eq_false_iff_ne]
      omega
    rw [toRaw, hleaf, hkey, hcount, hkind, UInt8.ofNat_toNat]
    rfl
  split at h
  · rename_i hkind
    split at h
    · rename_i hcount
      cases h
      rw [hkind, hcount, toRaw]
      simp [isLeaf, leaf]
    · cases h
  · cases h

/-- The kind tells leaves from branches. -/
theorem toRaw_ne_of_isLeaf {p q : Path} (hp : p.isLeaf = true) (hq : q.isLeaf = false) :
    p.toRaw ≠ q.toRaw := by
  intro h
  rw [toRaw_injective h, hq] at hp
  cases hp

end LightClient.Trie.Path

/-! ## The guarded reading -/

namespace LightClient.Machine.Path

open Trie (MapKey Path)

/-- The key is cut byte by byte and compared with itself. -/
theorem branch_eq (key : MapKey) (bits : Nat) :
    branch key bits = .of (Trie.Path.branch key bits) := by
  unfold branch Trie.Path.branch
  split
  · rfl
  · rename_i hbits
    rw [Guarded.lift_bind (keepBits_eq (by omega) key)]
    split
    · rename_i hkeep
      rw [hkeep]
      have hmake := make_eq ⟨key, bits, by omega, hkeep⟩
      simp only at hmake
      rw [hmake]
      rfl
    · rfl

/-- No byte string makes the reading trap. -/
theorem ofRaw_eq (raw : Bytes) : ofRaw raw = .of (Trie.Path.ofRaw raw) := by
  unfold ofRaw
  split
  · rename_i hlength
    obtain ⟨kind, key, count, rfl⟩ := Trie.Path.exists_raw_parts hlength
    have hslice : slice (kind :: key.toList ++ [count]) 1 33 = .ok key.toList := by
      rw [slice_of_le (by decide) (by omega), Trie.Path.key_of_parts]
    rw [Guarded.lift_bind hslice, Guarded.lift_bind (copy_toList key),
      Guarded.lift_bind (get_of_getElem? (Trie.Path.getElem?_parts_kind kind key count)),
      Guarded.lift_bind (get_of_getElem? (Trie.Path.getElem?_parts_count kind key count)),
      Trie.Path.ofRaw_parts]
    split
    · exact branch_eq key count.toNat
    split
    · split <;> rfl
    · rfl
  · rename_i hlength
    rw [Trie.Path.ofRaw_of_length_ne hlength]
    rfl

end LightClient.Machine.Path

namespace LightClient.Trie.Path

/-- Writing and reading are inverse to each other, and what is read is said by the bytes
alone. So a form belongs to one path, a leaf and a branch never share one, and neither do the
guarded operations, which copy the key into place and cut it byte by byte, read or write
anything else. -/
theorem raw_form_canonical (p q : Path) (raw : Bytes) :
    ofRaw p.toRaw = .ok p ∧ (ofRaw raw = .ok p → p.toRaw = raw) ∧
      ((∃ path, ofRaw raw = .ok path) ↔ IsRawForm raw) ∧
      (p.toRaw = q.toRaw → p = q) ∧
      (p.isLeaf = true → q.isLeaf = false → p.toRaw ≠ q.toRaw) ∧
      Machine.Path.toRaw p = .ok p.toRaw ∧ (Machine.Path.ofRaw raw).run = .ok (ofRaw raw) := by
  refine ⟨ofRaw_toRaw p, toRaw_of_ofRaw, exists_ofRaw_iff, toRaw_injective, toRaw_ne_of_isLeaf,
    Machine.Path.toRaw_eq p, ?_⟩
  rw [Machine.Path.ofRaw_eq]
  rfl

/-- The position above all keys: two keys that differ in their first bit have no other in
common. -/
def top : Path := (leaf (.zero 32)).commonPrefix (leaf (shortKey 1))

/-- The leaf of the zero key and the position above all keys are told apart by the kind alone;
a branch that is made and one that is cut from a key have one form. -/
theorem raw_form_canonical_zeroKey :
    (leaf (.zero 32)).isLeaf = true ∧ top.isLeaf = false ∧
      (leaf (.zero 32)).toRaw.tail = top.toRaw.tail ∧
      (leaf (.zero 32)).toRaw ≠ top.toRaw ∧
      ofRaw (1 :: List.replicate 33 0) = .ok (leaf (.zero 32)) ∧
      (leaf (.zero 32)).toRaw = 1 :: List.replicate 33 0 ∧
      (⟨shortKey 4, 3, by decide, by decide⟩ : Path).toRaw = firstThree.toRaw ∧
      (⟨shortKey 4, 3, by decide, by decide⟩ : Path) = firstThree := by
  have hread : ofRaw (1 :: List.replicate 33 0) = .ok (leaf (.zero 32)) := by rfl
  have hform : (⟨shortKey 4, 3, by decide, by decide⟩ : Path).toRaw = firstThree.toRaw := by
    decide
  obtain ⟨-, hcanonical, -, -, hkind, -⟩ :=
    raw_form_canonical (leaf (.zero 32)) top (1 :: List.replicate 33 0)
  obtain ⟨-, -, -, hinjective, -⟩ :=
    raw_form_canonical ⟨shortKey 4, 3, by decide, by decide⟩ firstThree []
  exact ⟨rfl, rfl, by decide, hkind rfl rfl, hread, hcanonical hread, hform, hinjective hform⟩

end LightClient.Trie.Path

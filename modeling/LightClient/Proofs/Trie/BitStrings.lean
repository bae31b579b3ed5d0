import LightClient.Proofs.Machine.Path
import LightClient.Proofs.Trie.Root

/-! Paths are bit strings. What a path may be is said by its bits alone, and the operations
on paths, which look at whole bytes, mean what they should for bit strings: prefix, longest
common prefix and lexicographic order. -/

namespace LightClient.Trie

/-! ## Bit strings -/

/-- What two bit strings have in common, and nothing less. -/
structure LongestCommonPrefix (common a b : List Bool) : Prop where
  prefix_left : common <+: a
  prefix_right : common <+: b
  longest : ∀ other, other <+: a → other <+: b → other <+: common

/-- The lexicographic order: a proper prefix comes first, and where the strings part the one
with the clear bit. -/
def Precedes (a b : List Bool) : Prop := (a <+: b ∧ a ≠ b) ∨ Before a b

theorem compare_eq_lt_iff {a b : List Bool} : compare a b = .lt ↔ Precedes a b := by
  constructor
  · intro h
    by_cases hpre : a <+: b
    · refine Or.inl ⟨hpre, ?_⟩
      rintro rfl
      rw [Std.ReflOrd.compare_self] at h
      cases h
    · refine Or.inr (before_of_compare hpre ?_)
      rw [h]
      exact nofun
  · rintro (⟨hpre, hne⟩ | hbefore)
    · rw [compare_eq_compare_length hpre, Nat.compare_eq_lt]
      exact Nat.lt_of_le_of_ne hpre.length_le fun hlen => hne (hpre.eq_of_length hlen)
    · exact hbefore.compare_eq

/-- What lies in order between a string and one of its extensions extends it as well. -/
theorem prefix_of_between {a b c : List Bool} (hab : compare a b ≠ .gt) (hbc : compare b c ≠ .gt)
    (hac : a <+: c) : a <+: b := by
  apply Decidable.byContradiction
  intro hpre
  obtain ⟨pre, hparts⟩ := before_of_compare hpre hab
  -- the extension goes left where `b` goes right, so it comes before `b`
  have hcb : compare c b = .lt := (hparts.mono hac (List.prefix_refl b)).compare_eq
  rw [Std.OrientedOrd.eq_swap (a := b), hcb] at hbc
  exact hbc rfl

namespace Path

/-! ## What a path may be -/

/-- A leaf has all bits of a key. A branch has fewer, and its key is clear past them. -/
def Canonical (p : Path) : Prop :=
  (p.isLeaf = true ∧ p.bits = 256) ∨
    (p.isLeaf = false ∧ p.bits < 256 ∧ ∀ i, p.bits ≤ i → p.bit i = false)

theorem keepBits_eq_self_iff {n : Nat} {bytes : Bytes} :
    keepBits n bytes = bytes ↔ ∀ i, n ≤ i → bitAt bytes i = false := by
  constructor
  · intro h i hi
    rw [← h, bitAt_keepBits, decide_eq_false (by omega), Bool.false_and]
  · intro h
    apply eq_of_bitAt (length_keepBits n bytes)
    intro i _
    rw [bitAt_keepBits]
    by_cases hi : i < n
    · rw [decide_eq_true hi, Bool.true_and]
    · rw [decide_eq_false hi, Bool.false_and, h i (by omega)]

/-- A branch is made just of fewer than 256 bits with nothing set past them. -/
theorem branch_eq_ok {key : MapKey} {bits : Nat} {p : Path} :
    branch key bits = .ok p ↔
      bits < 256 ∧ (∀ i, bits ≤ i → bitAt key.toList i = false) ∧ p.key = key ∧ p.bits = bits := by
  rw [← keepBits_eq_self_iff]
  unfold branch
  constructor
  · intro h
    split at h
    · cases h
    split at h
    · cases h
      exact ⟨by omega, ‹_›, rfl, rfl⟩
    · cases h
  · rintro ⟨hbits, hkeep, rfl, rfl⟩
    rw [dif_neg (by omega), dif_pos hkeep]

/-- There are no paths but leaves and branches. -/
theorem leaf_or_branch (p : Path) : p = leaf p.key ∨ branch p.key p.bits = .ok p := by
  have hle := p.bits_le
  by_cases h : p.bits = 256
  · left
    cases p
    cases h
    rfl
  · right
    exact branch_eq_ok.mpr ⟨by omega, fun i hi => bit_of_bits_le hi, rfl, rfl⟩

theorem canonical (p : Path) : p.Canonical := by
  rcases p.leaf_or_branch with h | h
  · rw [h]
    exact Or.inl ⟨rfl, rfl⟩
  · obtain ⟨hbits, hclear, -⟩ := branch_eq_ok.mp h
    exact Or.inr ⟨beq_eq_false_iff_ne.mpr (by omega), hbits, hclear⟩

/-! ## What the operations do -/

theorem bit_eq_of_lt_shared {p q : Path} {j : Nat} (h : j < p.shared q) : p.bit j = q.bit j := by
  unfold shared at h
  cases hf : p.fork q with
  | none =>
    rw [hf] at h
    exact fork_eq_none hf j h
  | some i =>
    rw [hf] at h
    exact (fork_eq_some hf).2.2 j h

/-- No string that both paths extend is longer than what they share. -/
theorem length_le_shared {p q : Path} {other : List Bool} (hp : other <+: p.bitString)
    (hq : other <+: q.bitString) : other.length ≤ p.shared q := by
  have hlp : other.length ≤ p.bits := by simpa using hp.length_le
  have hlq : other.length ≤ q.bits := by simpa using hq.length_le
  unfold shared
  cases hf : p.fork q with
  | none =>
    rw [Option.getD_none]
    omega
  | some i =>
    have hi : (p.bitString.take i).length ≤ i := by
      rw [List.length_take]
      omega
    obtain ⟨hleft, hright⟩ := parts_of_fork hf
    cases hbit : p.bit i with
    | false => exact Nat.le_trans ((hleft hbit).prefix_of_prefixes hp hq).length_le hi
    | true => exact Nat.le_trans ((hright hbit).prefix_of_prefixes hq hp).length_le hi

theorem longestCommonPrefix_commonPrefix (p q : Path) :
    LongestCommonPrefix (p.commonPrefix q).bitString p.bitString q.bitString := by
  have hle := p.shared_le q
  have htake : p.bitString.take (p.shared q) = q.bitString.take (p.shared q) :=
    take_bitString_eq (by omega) (by omega) fun j hj => bit_eq_of_lt_shared hj
  rw [bitString_commonPrefix]
  refine ⟨List.take_prefix _ _, htake ▸ List.take_prefix _ _, ?_⟩
  intro other hp hq
  apply List.prefix_of_prefix_length_le hp (List.take_prefix _ _)
  rw [List.length_take, length_bitString]
  have := length_le_shared hp hq
  omega

/-- Different paths have a branch in common. -/
theorem isLeaf_commonPrefix {p q : Path} (hne : p ≠ q) : (p.commonPrefix q).isLeaf = false := by
  obtain ⟨hp, hq, -⟩ := longestCommonPrefix_commonPrefix p q
  rw [isLeaf, beq_eq_false_iff_ne]
  intro hbits
  apply hne
  have hall : ∀ r : Path, (p.commonPrefix q).bitString <+: r.bitString →
      (p.commonPrefix q).bitString = r.bitString := by
    intro r hr
    have hmax := r.bits_le
    exact hr.eq_of_length_le (by simpa [hbits] using hmax)
  exact bitString_injective ((hall p hp).symm.trans (hall q hq))

theorem cmp_eq_lt_iff {p q : Path} : p.cmp q = .lt ↔ Precedes p.bitString q.bitString := by
  rw [cmp_eq_compare, compare_eq_lt_iff]

theorem cmp_swap (p q : Path) : q.cmp p = (p.cmp q).swap := by
  rw [cmp_eq_compare, cmp_eq_compare, ← Std.OrientedOrd.eq_swap]

theorem cmp_eq_eq_iff {p q : Path} : p.cmp q = .eq ↔ p = q := by
  rw [cmp_eq_compare, Std.LawfulEqOrd.compare_eq_iff_eq]
  constructor
  · exact bitString_injective
  · exact congrArg bitString

theorem cmp_trans {p q r : Path} (hpq : p.cmp q ≠ .gt) (hqr : q.cmp r ≠ .gt) : p.cmp r ≠ .gt := by
  rw [cmp_eq_compare] at hpq hqr ⊢
  exact Ordering.isLE_iff_ne_gt.mp (Std.TransOrd.isLE_trans (Ordering.isLE_iff_ne_gt.mpr hpq)
    (Ordering.isLE_iff_ne_gt.mpr hqr))

theorem isPrefixOf_of_between {p q r : Path} (hpq : p.cmp q ≠ .gt) (hqr : q.cmp r ≠ .gt)
    (hpr : p.isPrefixOf r = true) : p.isPrefixOf q = true := by
  rw [cmp_eq_compare] at hpq hqr
  rw [isPrefixOf_iff] at hpr ⊢
  exact prefix_of_between hpq hqr hpr

/-- A path is its bit string. What is set past the end of a branch is refused when the branch
is made, and stays away when paths are cut. The operations are those of bit strings, in the
order that compares the first differing bit and puts prefixes first; the guarded ones, which
stop at the byte of the last bit and mask it, are the same. -/
theorem operations_of_bitStrings (p q r : Path) :
    (p.Canonical ∧ (p.commonPrefix q).Canonical ∧ (p.bitString = q.bitString ↔ p = q)) ∧
    (∀ key bits made, branch key bits = .ok made ↔ bits < 256 ∧
      (∀ i, bits ≤ i → bitAt key.toList i = false) ∧ made.key = key ∧ made.bits = bits) ∧
    (p.isPrefixOf q = true ↔ p.bitString <+: q.bitString) ∧
    LongestCommonPrefix (p.commonPrefix q).bitString p.bitString q.bitString ∧
    (p ≠ q → (p.commonPrefix q).isLeaf = false) ∧
    (p.cmp q = .lt ↔ Precedes p.bitString q.bitString) ∧
    (p.cmp q = .eq ↔ p = q) ∧ q.cmp p = (p.cmp q).swap ∧
    (p.cmp q ≠ .gt → q.cmp r ≠ .gt →
      p.cmp r ≠ .gt ∧ (p.isPrefixOf r = true → p.isPrefixOf q = true)) ∧
    Machine.Path.isPrefixOf p q = .ok (p.isPrefixOf q) ∧
    Machine.Path.commonPrefix p q = .ok (p.commonPrefix q) ∧
    Machine.Path.cmp p q = .ok (p.cmp q) := by
  refine ⟨⟨p.canonical, (p.commonPrefix q).canonical, bitString_injective, congrArg bitString⟩,
    fun _ _ _ => branch_eq_ok, isPrefixOf_iff, longestCommonPrefix_commonPrefix p q,
    isLeaf_commonPrefix, cmp_eq_lt_iff, cmp_eq_eq_iff, cmp_swap p q, ?_,
    Machine.Path.isPrefixOf_eq p q, Machine.Path.commonPrefix_eq p q, Machine.Path.cmp_eq p q⟩
  intro hpq hqr
  exact ⟨cmp_trans hpq hqr, isPrefixOf_of_between hpq hqr⟩

/-- The first three bits of two keys. -/
def firstThree : Path := (leaf (shortKey 4)).commonPrefix (leaf (shortKey 12))

/-- Two keys that part at the fourth bit are in order after their first three bits, which are
a prefix of the second key and so of the first. -/
theorem operations_of_bitStrings_firstThree :
    branch (shortKey 4) 3 = .ok firstThree ∧ firstThree.bitString = [false, false, true] ∧
      firstThree ≠ leaf (shortKey 4) ∧
      (firstThree.commonPrefix (leaf (shortKey 4))).isLeaf = false ∧
      firstThree.cmp (leaf (shortKey 4)) ≠ .gt ∧
      (leaf (shortKey 4)).cmp (leaf (shortKey 12)) ≠ .gt ∧
      firstThree.isPrefixOf (leaf (shortKey 12)) = true ∧
      firstThree.cmp (leaf (shortKey 12)) ≠ .gt ∧
      firstThree.isPrefixOf (leaf (shortKey 4)) = true := by
  have hne : firstThree ≠ leaf (shortKey 4) := by decide
  have hpq : firstThree.cmp (leaf (shortKey 4)) ≠ .gt := by decide
  have hqr : (leaf (shortKey 4)).cmp (leaf (shortKey 12)) ≠ .gt := by decide
  have hpr : firstThree.isPrefixOf (leaf (shortKey 12)) = true := by decide
  obtain ⟨-, -, -, -, hbranch, -, -, -, horder, -⟩ :=
    operations_of_bitStrings firstThree (leaf (shortKey 4)) (leaf (shortKey 12))
  obtain ⟨htrans, hprefix⟩ := horder hpq hqr
  exact ⟨rfl, by decide, hne, hbranch hne, hpq, hqr, hpr, htrans, hprefix hpr⟩

end Path

end LightClient.Trie

import LightClient.Proofs.Trie.Bits
import LightClient.Proofs.Trie.Order

/-! Paths as bit strings. Two paths with one bit string are equal, and the
operations on paths are the operations on their bit strings: `isPrefixOf` is the
prefix relation, `commonPrefix` of two paths that part is where they part, and
`cmp` is the lexicographic order. -/

namespace LightClient.Trie.Path

@[simp] theorem length_bitString (p : Path) : p.bitString.length = p.bits := by
  simp [bitString]

theorem take_bitString {p : Path} {i : Nat} (h : i ≤ p.bits) :
    p.bitString.take i = (List.range i).map p.bit := by
  rw [bitString, ← List.map_take, List.take_range, Nat.min_eq_left h]

/-- Paths that agree on the bits below `i` have one beginning. -/
theorem take_bitString_eq {p q : Path} {i : Nat} (hp : i ≤ p.bits) (hq : i ≤ q.bits)
    (h : ∀ j < i, p.bit j = q.bit j) : p.bitString.take i = q.bitString.take i := by
  rw [take_bitString hp, take_bitString hq]
  apply List.map_congr_left
  intro j hj
  exact h j (List.mem_range.mp hj)

theorem take_succ_bitString {p : Path} {i : Nat} (h : i < p.bits) :
    p.bitString.take (i + 1) = p.bitString.take i ++ [p.bit i] := by
  rw [take_bitString h, take_bitString (Nat.le_of_lt h), List.range_succ, List.map_append]
  rfl

theorem take_append_prefix {p : Path} {i : Nat} (h : i < p.bits) :
    p.bitString.take i ++ [p.bit i] <+: p.bitString := by
  rw [← take_succ_bitString h]
  exact List.take_prefix _ _

theorem bit_eq_of_bitString_eq {p q : Path} (h : p.bitString = q.bitString) {i : Nat}
    (hi : i < p.bits) : p.bit i = q.bit i := by
  have hbits : p.bits = q.bits := by simpa using congrArg List.length h
  have hp : p.bitString[i]? = some (p.bit i) := by simp [bitString, hi]
  have hq : q.bitString[i]? = some (q.bit i) := by simp [bitString, ← hbits, hi]
  rw [h, hq] at hp
  exact (Option.some.inj hp).symm

theorem bit_of_bits_le {p : Path} {i : Nat} (h : p.bits ≤ i) : p.bit i = false := by
  have hle : ¬ i < p.bits := by omega
  rw [bit, ← p.keep_key, bitAt_keepBits]
  simp [hle]

/-- A path is nothing but its bit string. -/
theorem bitString_injective {p q : Path} (h : p.bitString = q.bitString) : p = q := by
  have hbits : p.bits = q.bits := by simpa using congrArg List.length h
  have hkey : p.key = q.key := by
    apply FixedBytes.toList_injective
    apply eq_of_bitAt (by simp)
    intro i _
    by_cases hi : i < p.bits
    · exact bit_eq_of_bitString_eq h hi
    · exact (bit_of_bits_le (by omega)).trans (bit_of_bits_le (by omega)).symm
  cases p
  cases q
  simp_all

theorem prefix_of_path_eq {p q : Path} (h : p = q) : p.bitString <+: q.bitString := by
  subst h
  exact List.prefix_refl _

/-! ## Forks -/

theorem fork_eq_some {p q : Path} {i : Nat} (h : p.fork q = some i) :
    (i < p.bits ∧ i < q.bits) ∧ p.bit i ≠ q.bit i ∧ ∀ j < i, p.bit j = q.bit j := by
  obtain ⟨hdiff, hlt⟩ := Option.filter_eq_some_iff.mp h
  have hlt := of_decide_eq_true hlt
  exact ⟨by omega, firstDifference_eq_some hdiff⟩

theorem firstDifference_filter_eq_none {p q : Path} {n : Nat}
    (h : (firstDifference p.key.toList q.key.toList).filter (· < n) = none) :
    ∀ i < n, p.bit i = q.bit i := by
  intro i hi
  cases hd : firstDifference p.key.toList q.key.toList with
  | none =>
    have := firstDifference_eq_none (by simp) hd
    rw [bit, bit, this]
  | some k =>
    rw [hd, Option.filter_some] at h
    have hk : ¬ k < n := by
      intro hk
      simp [hk] at h
    exact (firstDifference_eq_some hd).2 i (by omega)

theorem fork_eq_none {p q : Path} (h : p.fork q = none) :
    ∀ i < min p.bits q.bits, p.bit i = q.bit i :=
  firstDifference_filter_eq_none h

/-- Where two paths fork their bit strings part, the one with the clear bit to
the left. -/
theorem parts_of_fork {p q : Path} {i : Nat} (h : p.fork q = some i) :
    (p.bit i = false → Parts (p.bitString.take i) p.bitString q.bitString) ∧
      (p.bit i = true → Parts (p.bitString.take i) q.bitString p.bitString) := by
  obtain ⟨⟨hp, hq⟩, hne, hbelow⟩ := fork_eq_some h
  have htake := take_bitString_eq (Nat.le_of_lt hp) (Nat.le_of_lt hq) hbelow
  have hpp := take_append_prefix hp
  have hqq := take_append_prefix hq
  rw [← htake] at hqq
  constructor
  · intro hbit
    have hqbit : q.bit i = true := by simpa [hbit] using hne
    rw [hbit] at hpp
    rw [hqbit] at hqq
    exact ⟨hpp, hqq⟩
  · intro hbit
    have hqbit : q.bit i = false := by simpa [hbit] using hne
    rw [hbit] at hpp
    rw [hqbit] at hqq
    exact ⟨hqq, hpp⟩

/-- Without a fork the shorter path is a prefix of the other. -/
theorem prefix_of_fork_eq_none {p q : Path} (h : p.fork q = none) (hle : p.bits ≤ q.bits) :
    p.bitString <+: q.bitString := by
  have hbelow := fork_eq_none h
  rw [Nat.min_eq_left hle] at hbelow
  have htake := take_bitString_eq (Nat.le_refl _) hle hbelow
  rw [List.take_of_length_le (by simp)] at htake
  rw [htake]
  exact List.take_prefix _ _

theorem fork_comm (p q : Path) : p.fork q = q.fork p := by
  cases hpq : p.fork q with
  | none =>
    cases hqp : q.fork p with
    | none => rfl
    | some j =>
      obtain ⟨⟨hq, hp⟩, hne, _⟩ := fork_eq_some hqp
      exact absurd (fork_eq_none hpq j (by omega)).symm hne
  | some i =>
    obtain ⟨⟨hp, hq⟩, hne, hbelow⟩ := fork_eq_some hpq
    cases hqp : q.fork p with
    | none => exact absurd (fork_eq_none hqp i (by omega)).symm hne
    | some j =>
      obtain ⟨_, hne', hbelow'⟩ := fork_eq_some hqp
      rcases Nat.lt_trichotomy i j with hij | hij | hij
      · exact absurd (hbelow' i hij).symm hne
      · rw [hij]
      · exact absurd (hbelow j hij).symm hne'

/-! ## The operations on bit strings -/

theorem isPrefixOf_iff {p q : Path} : p.isPrefixOf q = true ↔ p.bitString <+: q.bitString := by
  unfold isPrefixOf
  rw [Bool.and_eq_true, decide_eq_true_iff, Option.isNone_iff_eq_none]
  constructor
  · rintro ⟨hle, hnone⟩
    have htake := take_bitString_eq (Nat.le_refl _) hle (firstDifference_filter_eq_none hnone)
    rw [List.take_of_length_le (by simp)] at htake
    rw [htake]
    exact List.take_prefix _ _
  · intro h
    have hle : p.bits ≤ q.bits := by simpa using h.length_le
    refine ⟨hle, ?_⟩
    rw [Option.filter_eq_none_iff]
    intro i hdiff hlt
    have hlt := of_decide_eq_true hlt
    apply (firstDifference_eq_some hdiff).1
    have hp : p.bitString[i]? = some (p.bit i) := by simp [bitString, hlt]
    have hq : q.bitString[i]? = some (q.bit i) := by
      have : i < q.bits := by omega
      simp [bitString, this]
    have := List.prefix_iff_getElem?.mp h i (by simpa using hlt)
    rw [hq, ← List.getElem?_eq_getElem, hp] at this
    exact (Option.some.inj this).symm

theorem bitString_commonPrefix (p q : Path) :
    (p.commonPrefix q).bitString = p.bitString.take (p.shared q) := by
  have hle := p.shared_le q
  rw [take_bitString (by omega), bitString]
  apply List.map_congr_left
  intro i hi
  have hlt := List.mem_range.mp hi
  simp only [bit, commonPrefix, bitAt_keepBits]
  simp [show i < p.shared q from hlt]

/-- The common prefix of two paths that part is where they part. -/
theorem bitString_commonPrefix_of_parts {p q : Path} {pre : List Bool}
    (h : Parts pre p.bitString q.bitString) : (p.commonPrefix q).bitString = pre := by
  rw [bitString_commonPrefix]
  cases hf : p.fork q with
  | none =>
    exfalso
    rcases Nat.le_total p.bits q.bits with hle | hle
    · exact h.not_prefix (prefix_of_fork_eq_none hf hle)
    · exact h.not_prefix' (prefix_of_fork_eq_none ((fork_comm q p).trans hf) hle)
  | some i =>
    have hshared : p.shared q = i := by simp [shared, hf]
    rw [hshared]
    obtain ⟨hleft, hright⟩ := parts_of_fork hf
    cases hbit : p.bit i with
    | false => exact (hleft hbit).unique h
    | true => exact absurd ⟨_, hright hbit⟩ (Before.asymm ⟨_, h⟩)

theorem bits_commonPrefix_of_parts {p q : Path} {pre : List Bool}
    (h : Parts pre p.bitString q.bitString) : (p.commonPrefix q).bits = pre.length := by
  rw [← bitString_commonPrefix_of_parts h, length_bitString]

theorem commonPrefix_self (p : Path) : p.commonPrefix p = p := by
  have hshared : p.shared p = p.bits := by
    rw [shared, fork, firstDifference_self, Option.filter_none, Option.getD_none,
      Nat.min_self]
  have hkey : (⟨keepBits (p.shared p) p.key.toList, by simp⟩ : MapKey) = p.key :=
    FixedBytes.toList_injective (by rw [hshared]; exact p.keep_key)
  unfold commonPrefix
  cases p
  simp only [Path.mk.injEq]
  exact ⟨hkey, hshared⟩

/-- The order of paths is the lexicographic order of their bit strings. -/
theorem cmp_eq_compare (p q : Path) : p.cmp q = compare p.bitString q.bitString := by
  unfold cmp
  cases hf : p.fork q with
  | none =>
    rcases Nat.le_total p.bits q.bits with hle | hle
    · have hpre := prefix_of_fork_eq_none hf hle
      rw [compare_eq_compare_length hpre, length_bitString, length_bitString]
    · have hpre := prefix_of_fork_eq_none ((fork_comm q p).trans hf) hle
      rw [Std.OrientedOrd.eq_swap (a := p.bitString), compare_eq_compare_length hpre,
        length_bitString, length_bitString, ← Std.OrientedOrd.eq_swap]
  | some i =>
    obtain ⟨hleft, hright⟩ := parts_of_fork hf
    cases hbit : p.bit i with
    | false =>
      rw [(hleft hbit).compare_eq]
      simp [hbit]
    | true =>
      rw [Std.OrientedOrd.eq_swap (a := p.bitString), (hright hbit).compare_eq]
      simp [hbit]

/-- Paths in order, the first not above the second, part in that order. -/
theorem before_of_cmp {p q : Path} (hpre : ¬ p.isPrefixOf q = true) (hcmp : p.cmp q ≠ .gt) :
    Before p.bitString q.bitString := by
  rw [isPrefixOf_iff] at hpre
  rw [cmp_eq_compare] at hcmp
  exact before_of_compare hpre hcmp

/-! ## Leaves -/

@[simp] theorem bits_leaf (key : MapKey) : (leaf key).bits = 256 := rfl

theorem leaf_injective {k k' : MapKey} (h : leaf k = leaf k') : k = k' := congrArg key h

/-- Nothing lies below a leaf but itself. -/
theorem eq_of_leaf_prefix {key : MapKey} {p : Path}
    (h : (leaf key).bitString <+: p.bitString) : p = leaf key := by
  have hle := h.length_le
  have hmax := p.bits_le
  apply bitString_injective
  refine (h.eq_of_length ?_).symm
  simp only [length_bitString, bits_leaf] at hle ⊢
  omega

/-! ## The 34-byte form -/

@[simp] theorem length_toRaw (p : Path) : p.toRaw.length = 34 := by
  simp [toRaw]

theorem toRaw_injective {p q : Path} (h : p.toRaw = q.toRaw) : p = q := by
  simp only [toRaw, List.cons_append, List.cons.injEq] at h
  obtain ⟨hkind, hrest⟩ := h
  obtain ⟨hkey, hcount⟩ := List.append_inj hrest (by simp)
  have hkind : p.isLeaf = q.isLeaf := by
    cases hp : p.isLeaf <;> cases hq : q.isLeaf <;> simp [hp, hq] at hkind ⊢
  have hbits : p.bits = q.bits := by
    have hp := p.bits_le
    have hq := q.bits_le
    have hmod : p.bits % 256 = q.bits % 256 := by
      have := congrArg UInt8.toNat (List.head_eq_of_cons_eq hcount)
      simpa using this
    simp only [isLeaf] at hkind
    by_cases h256 : p.bits = 256
    · simp only [h256, beq_self_eq_true] at hkind
      rw [h256]
      exact (eq_of_beq hkind.symm).symm
    · have hq256 : q.bits ≠ 256 := by
        intro hq256
        simp [h256, hq256] at hkind
      omega
  cases p
  cases q
  have := FixedBytes.toList_injective hkey
  simp_all

/-- A path is read back from its raw form. -/
theorem ofRaw_toRaw (p : Path) : ofRaw p.toRaw = .ok p := by
  have hkey : FixedBytes.ofList? 32 ((p.key.toList ++ [UInt8.ofNat p.bits]).take 32) =
      some p.key := by
    rw [List.take_left' p.key.length_toList, FixedBytes.ofList?_toList]
  have hcount : (p.key.toList ++ [UInt8.ofNat p.bits]).drop 32 = [UInt8.ofNat p.bits] :=
    List.drop_left' p.key.length_toList
  have hle := p.bits_le
  simp only [toRaw, List.cons_append, ofRaw, hkey, hcount]
  by_cases hleaf : p.bits = 256
  · obtain ⟨key, bits, _, _⟩ := p
    subst hleaf
    simp [isLeaf, leaf]
  · have hlt : p.bits < 256 := by omega
    have hbits : (UInt8.ofNat p.bits).toNat = p.bits := UInt8.toNat_ofNat_of_lt' hlt
    simp [isLeaf, hleaf, branch, hbits, Nat.not_le.mpr hlt, p.keep_key]

end LightClient.Trie.Path

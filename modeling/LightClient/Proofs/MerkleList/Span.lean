import LightClient.Proofs.MerkleList.Climb

/-! The climb over a range of leaves. On every level the computed nodes are those of
a span of indices, and the nodes given beside the span make it the children of the
span above. `check_eq_ok_iff_beside` says that a proof must give these nodes and no
other; `exists_climb` that a proof which gives them leads to the top of the tree. -/

namespace LightClient.MerkleList

/-! ## Level sizes -/

theorem levelSize_zero {n : Nat} (h : n ≠ 0) : levelSize n 0 = n := by
  rw [levelSize, if_neg h, Nat.shiftRight_zero]
  omega

/-- A level has half as many nodes as the level below, rounded up. -/
theorem levelSize_succ {n : Nat} (h : n ≠ 0) (height : Nat) :
    levelSize n (height + 1) = (levelSize n height + 1) / 2 := by
  rw [levelSize, levelSize, if_neg h, if_neg h, Nat.shiftRight_succ]
  omega

theorem levelSize_le (n height : Nat) : levelSize n height ≤ n := by
  unfold levelSize
  split
  · omega
  · have := Nat.shiftRight_le (n - 1) height
    omega

theorem shiftRight_le_shiftRight {i j : Nat} (h : i ≤ j) (height : Nat) :
    i >>> height ≤ j >>> height := by
  rw [Nat.shiftRight_eq_div_pow, Nat.shiftRight_eq_div_pow]
  exact Nat.div_le_div_right h

/-- The ancestors of a leaf stay inside the levels. -/
theorem shiftRight_lt_levelSize {n i : Nat} (h : i < n) (height : Nat) :
    i >>> height < levelSize n height := by
  rw [levelSize, if_neg (by omega)]
  exact Nat.lt_succ_of_le (shiftRight_le_shiftRight (by omega) height)

theorem treeHeight_le {n : Nat} (h : n ≤ maxLength) : treeHeight n ≤ 56 := by
  have hmax : maxLength = 2 ^ 56 := rfl
  unfold treeHeight
  split
  · omega
  · have : (n - 1).log2 < 56 := by
      rw [Nat.log2_lt (by omega)]
      omega
    omega

/-- The levels above a row have the sizes that its length gives them. -/
theorem length_above {row : List Digest} (h : row ≠ []) (k : Nat) :
    (above k row).length = levelSize row.length k := by
  have hpos := List.length_pos_iff.mpr h
  induction k generalizing row with
  | zero => rw [above, levelSize_zero (by omega)]
  | succ k ih =>
    have hparents : parents row ≠ [] := above_ne_nil h 1
    have hhalf : (row.length + 1) / 2 - 1 = (row.length - 1) / 2 := by omega
    rw [above, ih hparents (List.length_pos_iff.mpr hparents), length_parents, levelSize,
      levelSize, if_neg (by omega), if_neg (by omega), hhalf, Nat.shiftRight_succ_inside]

/-! ## Spans -/

def Between (low high i : Nat) : Prop := low ≤ i ∧ i ≤ high

/-- The nodes beside a span on a level of `size` nodes: the left sibling of a span
that starts at a right child, the right sibling of one that ends at a left child. -/
def Beside (size low high i : Nat) : Prop :=
  (low % 2 = 1 ∧ i + 1 = low) ∨ (high % 2 = 0 ∧ i = high + 1 ∧ i < size)

/-- A span and the nodes beside it are all children of the nodes of a span. -/
theorem between_or_beside {size low high i : Nat} (hle : low ≤ high) (hi : i < size) :
    Between low high i ∨ Beside size low high i ↔
      Between (2 * (low / 2)) (2 * (high / 2) + 1) i := by
  unfold Between Beside
  omega

namespace Level

/-- A level that knows the nodes of a span needs just the nodes beside it. -/
theorem check_eq_ok_iff_beside {size height low high : Nat} {computed given : Level}
    (hle : low ≤ high) (hhigh : high < size)
    (hcomputed : ∀ i, i ∈ computed ↔ Between low high i) (hgiven : ∀ i ∈ given, i < size) :
    check size height computed given = .ok () ↔ ∀ i, i ∈ given ↔ Beside size low high i := by
  have halone : ∀ i, endsAlone size i = true ↔ size % 2 = 1 ∧ i = size - 1 := by
    simp [endsAlone]
  rw [check_eq_ok]
  simp only [hcomputed, halone, sibling_eq]
  unfold Between Beside
  constructor
  · rintro ⟨hsib, hbeside⟩ i
    constructor
    · intro hi
      have := hbeside i hi
      have := hgiven i hi
      omega
    · -- the sibling of a node beside the span is the end of the span
      rintro (⟨hodd, rfl⟩ | ⟨heven, rfl, hsize⟩)
      · have hi : 2 * ((i + 1) / 2) + (1 - (i + 1) % 2) = i := by omega
        rcases hsib (i + 1) (by omega) with h | h | h
        · omega
        · omega
        · rwa [hi] at h
      · have hi : 2 * (high / 2) + (1 - high % 2) = high + 1 := by omega
        rcases hsib high (by omega) with h | h | h
        · omega
        · omega
        · rwa [hi] at h
  · intro hbeside
    refine ⟨?_, ?_⟩
    · intro i hi
      rw [hbeside]
      omega
    · intro i hi
      have := (hbeside i).mp hi
      omega

/-! ## Levels that show a row -/

/-- The level knows just the nodes of the row at the indices in `s`. -/
def Shows (level : Level) (row : List Digest) (s : Nat → Prop) : Prop :=
  ∀ (i : Nat) (hash : Digest), level[i]? = some hash ↔ s i ∧ row[i]? = some hash

section
variable {level computed given : Level} {row : List Digest} {s t : Nat → Prop}

theorem Shows.mem (h : level.Shows row s) {i : Nat} : i ∈ level ↔ s i ∧ i < row.length := by
  rw [← Std.ExtTreeMap.isSome_getElem?_iff_mem, Option.isSome_iff_exists]
  constructor
  · rintro ⟨hash, hi⟩
    obtain ⟨hs, hrow⟩ := (h i hash).mp hi
    exact ⟨hs, (List.getElem?_eq_some_iff.mp hrow).1⟩
  · rintro ⟨hs, hlt⟩
    exact ⟨row[i], (h i _).mpr ⟨hs, List.getElem?_eq_getElem hlt⟩⟩

theorem Shows.getElem?_eq (h : level.Shows row s) {i : Nat} (hs : s i) : level[i]? = row[i]? := by
  apply Option.ext
  intro hash
  exact (h i hash).trans (and_iff_right hs)

/-- Only the indices of the row matter. -/
theorem Shows.congr (h : level.Shows row s) (hst : ∀ i < row.length, s i ↔ t i) :
    level.Shows row t := by
  intro i hash
  rw [h]
  apply and_congr_left
  intro hrow
  exact hst i (List.getElem?_eq_some_iff.mp hrow).1

theorem Shows.withGiven (hcomputed : computed.Shows row s) (hgiven : given.Shows row t) :
    (computed.withGiven given).Shows row fun i => s i ∨ t i := by
  intro i hash
  rw [getElem?_withGiven]
  cases hi : given[i]? with
  | some hash' =>
    obtain ⟨ht, hrow⟩ := (hgiven i hash').mp hi
    simp [ht, hrow]
  | none =>
    rw [Option.none_or, hcomputed]
    constructor
    · rintro ⟨hs, hrow⟩
      exact ⟨Or.inl hs, hrow⟩
    · rintro ⟨hs | ht, hrow⟩
      · exact ⟨hs, hrow⟩
      · rw [(hgiven i hash).mpr ⟨ht, hrow⟩] at hi
        cases hi

/-- The parents of whole families are the parents in the row. -/
theorem Shows.parents {low high : Nat}
    (h : level.Shows row (Between (2 * low) (2 * high + 1))) :
    level.parents.Shows (MerkleList.parents row) (Between low high) := by
  intro j hash
  rw [getElem?_parents, MerkleList.getElem?_parents]
  by_cases hj : Between low high j
  · unfold Between at hj
    rw [h.getElem?_eq ⟨by omega, by omega⟩, h.getElem?_eq ⟨by omega, by omega⟩]
    exact (and_iff_right hj).symm
  · have hnone : level[2 * j]? = none := by
      rw [Option.eq_none_iff_forall_ne_some]
      intro left hleft
      have hspan := ((h _ _).mp hleft).1
      unfold Between at hj hspan
      omega
    rw [hnone]
    simp [hj]

/-- **Step.** From a span of the row, with the nodes beside it, the check passes and
the climb goes on from a span of the row above. -/
theorem Shows.climbs {size height low high : Nat} (hsize : row.length = size) (hle : low ≤ high)
    (hhigh : high < size) (hcomputed : computed.Shows row (Between low high))
    (hgiven : given.Shows row (Beside size low high)) :
    check size height computed given = .ok () ∧
      (computed.withGiven given).parents.Shows (MerkleList.parents row)
        (Between (low / 2) (high / 2)) := by
  subst hsize
  refine ⟨?_, ?_⟩
  · rw [check_eq_ok_iff_beside hle hhigh]
    · intro i
      rw [hgiven.mem]
      unfold Beside
      omega
    · intro i
      rw [hcomputed.mem]
      unfold Between
      omega
    · intro i hi
      exact (hgiven.mem.mp hi).2
  · apply Shows.parents
    apply (hcomputed.withGiven hgiven).congr
    intro i hi
    exact between_or_beside hle hi

end

end Level

namespace ListProof

/-- **Run.** With the nodes beside the span of the range on every level, the climb
reaches the top. -/
theorem exists_climb {length : Nat} {nodes : List ProofNode} {start stop : Nat}
    (hrange : start < stop) (hstop : stop ≤ length) {steps height : Nat} {computed : Level}
    {row : List Digest} (hrow : row.length = levelSize length height)
    (hcomputed : computed.Shows row (Between (start >>> height) ((stop - 1) >>> height)))
    (hgiven : ∀ k < steps, (given nodes (height + k)).Shows (above k row)
      (Beside (levelSize length (height + k)) (start >>> (height + k))
        ((stop - 1) >>> (height + k)))) :
    ∃ top, climb length nodes steps height computed = .ok top ∧
      top.Shows (above steps row)
        (Between (start >>> (height + steps)) ((stop - 1) >>> (height + steps))) := by
  induction steps generalizing height computed row with
  | zero => exact ⟨computed, rfl, hcomputed⟩
  | succ steps ih =>
    have hbeside := hgiven 0 (Nat.succ_pos _)
    obtain ⟨hcheck, hparents⟩ := hcomputed.climbs hrow
      (shiftRight_le_shiftRight (by omega) height) (shiftRight_lt_levelSize (by omega) height)
      hbeside
    rw [← Nat.shiftRight_succ, ← Nat.shiftRight_succ] at hparents
    have hrow' : (parents row).length = levelSize length (height + 1) := by
      rw [length_parents, hrow, levelSize_succ (by omega)]
    obtain ⟨top, hclimb, htop⟩ := ih hrow' hparents (by
      intro k hk
      have := hgiven (k + 1) (by omega)
      rwa [← Nat.add_assoc, Nat.add_right_comm] at this)
    rw [Nat.add_right_comm, Nat.add_assoc] at htop
    exact ⟨top, climb_succ_eq_ok.mpr ⟨hcheck, hclimb⟩, htop⟩

end ListProof

end LightClient.MerkleList

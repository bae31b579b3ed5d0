import LightClient.Proofs.Machine.ListBuilder
import Mathlib.Algebra.Order.Floor.Div
import Mathlib.GroupTheory.GroupAction.Ring
import Mathlib.Order.Bounds.Basic

/-! The sizes that are computed from a length are those of the tree. A height is the least
one with room for the whole list, and on each level half the nodes of the level below are
left, rounded up; the rows that are built have these sizes, and the nodes that a proof leads
to lie inside them, so that there always is a root. -/

namespace LightClient.MerkleList

/-! ## Heights and sizes -/

/-- The tree is as high as the list needs. -/
theorem treeHeight_le_iff (n height : Nat) :
    treeHeight n ≤ height ↔ n ≤ 2 ^ height := by
  have hpow : 0 < 2 ^ height := Nat.two_pow_pos height
  unfold treeHeight
  split
  · omega
  · rw [Nat.add_one_le_iff, Nat.log2_lt (by omega)]
    omega

theorem isLeast_treeHeight (n : Nat) : IsLeast {height | n ≤ 2 ^ height} (treeHeight n) :=
  ⟨(treeHeight_le_iff n _).mp (Nat.le_refl _), fun _ hheight => (treeHeight_le_iff n _).mpr hheight⟩

theorem levelSize_eq_ceilDiv {n : Nat} (h : n ≠ 0) (height : Nat) :
    levelSize n height = n ⌈/⌉ 2 ^ height := by
  have hpow : 0 < 2 ^ height := Nat.two_pow_pos height
  have hshift : n + 2 ^ height - 1 = n - 1 + 2 ^ height := by omega
  rw [levelSize, if_neg h, Nat.ceilDiv_eq_add_pred_div, hshift, Nat.add_div_right _ hpow,
    Nat.shiftRight_eq_div_pow]

/-- Only at the height of the tree there is a single node. -/
theorem one_lt_levelSize_iff {n : Nat} (h : n ≠ 0) (height : Nat) :
    1 < levelSize n height ↔ height < treeHeight n := by
  have hpow : 0 < 2 ^ height := Nat.two_pow_pos height
  rw [← Nat.not_le, ← Nat.not_le, treeHeight_le_iff, levelSize_eq_ceilDiv h,
    ceilDiv_le_iff_le_smul hpow, smul_eq_mul, Nat.mul_one]

theorem levelSize_treeHeight {n : Nat} (h : n ≠ 0) : levelSize n (treeHeight n) = 1 := by
  have hsingle := mt (one_lt_levelSize_iff h (treeHeight n)).mp (Nat.lt_irrefl _)
  have hpos : 0 < levelSize n (treeHeight n) := by
    rw [levelSize, if_neg h]
    exact Nat.succ_pos _
  omega

/-! ## Rows -/

theorem length_of_mem_levelsOf {elements : List Bytes} (h : elements ≠ []) {height : Nat}
    {row : List Digest} (hrow : (levelsOf elements)[height]? = some row) :
    row.length = levelSize elements.length height := by
  have hlt := (List.getElem?_eq_some_iff.mp hrow).1
  rw [length_levelsOf] at hlt
  rw [getElem?_levelsOf (by omega), Option.some.injEq] at hrow
  rw [← hrow, length_above (by simpa using h), List.length_map]

/-! ## The nodes that a proof leads to -/

namespace Level

/-- Of a level of `size` nodes some are known, and none outside the level. -/
structure Inside (size : Nat) (level : Level) : Prop where
  known : ∃ i, i ∈ level
  lt : ∀ i ∈ level, i < size

/-- **Step.** What is computed from a level that was checked lies inside the level above. -/
theorem Inside.parents {size height : Nat} {computed given : Level} (h : computed.Inside size)
    (hcheck : check size height computed given = .ok ()) :
    (computed.withGiven given).parents.Inside ((size + 1) / 2) := by
  refine ⟨?_, ?_⟩
  · obtain ⟨i, hi⟩ := h.known
    obtain ⟨left, hleft⟩ :=
      exists_left_of_check hcheck (Std.ExtTreeMap.getElem?_eq_some_getElem hi)
    exact ⟨i / 2, mem_parents.mpr (Std.ExtTreeMap.getElem?_eq_some_iff.mp hleft).1⟩
  · intro j hj
    rcases mem_withGiven.mp (mem_parents.mp hj) with hgiven | hcomputed
    · -- a given left child stands beside a computed right one
      have hsibling := h.lt _ ((check_eq_ok.mp hcheck).2 _ hgiven).2
      rw [sibling_eq] at hsibling
      omega
    · have := h.lt _ hcomputed
      omega

theorem check_ne_noRoot {size height : Nat} {computed given : Level} :
    check size height computed given ≠ .error .noRoot := by
  intro h
  unfold check at h
  split at h
  · cases h
  · split at h
    · split at h <;> cases h
    · cases h

end Level

namespace ListProof

/-- **Run.** What a climb computes lies inside the level that it reaches. -/
theorem inside_of_climb {length steps height : Nat} {nodes : List ProofNode}
    {computed top : Level} (hlength : length ≠ 0)
    (hcomputed : computed.Inside (levelSize length height))
    (h : climb length nodes steps height computed = .ok top) :
    top.Inside (levelSize length (height + steps)) := by
  induction steps generalizing height computed with
  | zero =>
    cases h
    exact hcomputed
  | succ steps ih =>
    obtain ⟨hcheck, hclimb⟩ := climb_succ_eq_ok.mp h
    have hparents := hcomputed.parents hcheck
    rw [← levelSize_succ hlength] at hparents
    have htop := ih hparents hclimb
    rwa [Nat.add_right_comm, Nat.add_assoc] at htop

theorem climb_ne_noRoot {length steps height : Nat} {nodes : List ProofNode} {computed : Level} :
    climb length nodes steps height computed ≠ .error .noRoot := by
  intro h
  induction steps generalizing height computed with
  | zero => cases h
  | succ steps ih =>
    rw [climb] at h
    rcases bind_eq_error.mp h with hcheck | ⟨_, -, hclimb⟩
    · exact Level.check_ne_noRoot hcheck
    · exact ih hclimb

theorem checkNodes_ne_noRoot {length : Nat} {nodes : List ProofNode}
    {seen : List (UInt8 × UInt64)} : checkNodes length nodes seen ≠ .error .noRoot := by
  intro h
  induction nodes generalizing seen with
  | nil => cases h
  | cons n rest ih =>
    unfold checkNodes at h
    split at h
    · cases h
    · split at h
      · cases h
      · split at h
        · cases h
        · exact ih h

theorem indexElements_ne_noRoot {length : Nat} {es : List Element}
    {found : Std.ExtTreeMap Nat Bytes} : indexElements length es found ≠ .error .noRoot := by
  intro h
  induction es generalizing found with
  | nil => cases h
  | cons e rest ih =>
    unfold indexElements at h
    split at h
    · cases h
    · split at h
      · cases h
      · exact ih h

section
variable {proof : ListProof} {elements : Std.ExtTreeMap Nat Bytes}

/-- The climb starts inside the level of the leaves. -/
theorem inside_leaves {length : Nat} (hne : elements.isEmpty = false)
    (hinside : ∀ i ∈ elements, i < length) : (leaves elements).Inside (levelSize length 0) := by
  obtain ⟨i, hi⟩ : ∃ i, i ∈ elements := by
    have hsome := Std.ExtTreeMap.isEmpty_eq_false_iff.mp hne
    rwa [Std.ExtTreeMap.eq_empty_iff_forall_not_mem, not_forall_not] at hsome
  have hlt := hinside i hi
  rw [levelSize_zero (by omega)]
  refine ⟨⟨i, Std.ExtTreeMap.mem_map.mpr hi⟩, ?_⟩
  intro j hj
  exact hinside j (Std.ExtTreeMap.mem_map.mp hj)

theorem computeRoot_ne_noRoot (hinside : ∀ i ∈ elements, i < proof.length.toNat) :
    proof.computeRoot elements ≠ .error .noRoot := by
  intro h
  unfold computeRoot at h
  simp only at h
  split at h
  · split at h <;> cases h
  · rename_i hlength
    split at h
    · split at h
      · split at h <;> cases h
      · cases h
    · rename_i hne
      rcases bind_eq_error.mp h with hnodes | ⟨_, -, h⟩
      · exact checkNodes_ne_noRoot hnodes
      rcases bind_eq_error.mp h with hclimb | ⟨top, hclimb, h⟩
      · exact climb_ne_noRoot hclimb
      -- the only node of the topmost level is its node 0
      have htop := inside_of_climb hlength
        (inside_leaves (Bool.not_eq_true _ |>.mp hne) hinside) hclimb
      rw [Nat.zero_add, levelSize_treeHeight hlength] at htop
      obtain ⟨i, hi⟩ := htop.known
      obtain rfl : i = 0 := by
        have := htop.lt i hi
        omega
      rw [Std.ExtTreeMap.getElem?_eq_some_getElem hi] at h
      cases h

end

theorem verify_ne_noRoot (proof : ListProof) (expected : Digest) (start stop : Nat) :
    proof.verify expected start stop ≠ .error .noRoot := by
  intro h
  unfold verify checkRange at h
  by_cases hmax : maxLength < proof.length.toNat
  · simp only [if_pos hmax] at h
    cases h
  by_cases hrange : start ≤ stop ∧ stop ≤ proof.length.toNat
  · simp only [if_neg hmax, if_pos hrange] at h
    rcases bind_eq_error.mp h with h | ⟨_, -, h⟩
    · cases h
    rcases bind_eq_error.mp h with h | ⟨elements, hindex, h⟩
    · exact indexElements_ne_noRoot h
    have hinside := lt_of_mem_indexElements hindex (by simp)
    split at h
    · rcases bind_eq_error.mp h with h | ⟨root, -, h⟩
      · exact computeRoot_ne_noRoot hinside h
      · split at h <;> cases h
    · cases h
  · simp only [if_neg hmax, if_neg hrange] at h
    cases h

end ListProof

/-! ## Sizes with guards -/

/-- The sizes computed for a list of `n` elements, as a machine computes them. -/
structure TreeSizes (n height : Nat) : Prop where
  treeHeight : Machine.ListProof.treeHeight n = .ok height
  least : IsLeast {h | n ≤ 2 ^ h} height
  size : ∀ h < 64, Machine.ListProof.levelSize n h = .ok (n ⌈/⌉ 2 ^ h)
  inner : ∀ h < height, ∃ size, Machine.ListProof.levelSize n h = .ok size ∧ 1 < size
  top : height < 64 → Machine.ListProof.levelSize n height = .ok 1

theorem treeSizes_treeHeight {n : Nat} (hpos : n ≠ 0) (hlt : n < UInt64.size) :
    TreeSizes n (treeHeight n) where
  treeHeight := Machine.ListProof.treeHeight_of_lt hlt
  least := isLeast_treeHeight n
  size h hh := by rw [Machine.ListProof.levelSize_eq hlt hh, levelSize_eq_ceilDiv hpos]
  inner h hh := by
    have hheight : treeHeight n ≤ 64 := (treeHeight_le_iff n 64).mpr (Nat.le_of_lt hlt)
    exact ⟨_, Machine.ListProof.levelSize_eq hlt (by omega), (one_lt_levelSize_iff hpos h).mpr hh⟩
  top hheight := by rw [Machine.ListProof.levelSize_eq hlt hheight, levelSize_treeHeight hpos]

/-- The rows computed over a list have the sizes computed for its length, and no proof that is
made of them reads past them. -/
structure TreeRows (elements : List Bytes) (height : Nat) (rows : List (List Digest)) : Prop where
  ends : ∀ rounds, height < rounds →
    (Machine.ListProof.levels rounds elements).run = some (.ok rows)
  length : rows.length = height + 1
  size : ∀ h row, rows[h]? = some row →
    Machine.ListProof.levelSize elements.length h = .ok row.length
  build : ∀ rounds, height < rounds → ∀ start stop,
    (Machine.ListProof.build rounds elements start stop).run =
      some (.ok (buildProof elements start stop))

theorem treeRows_levelsOf {elements : List Bytes} (hne : elements ≠ [])
    (hlength : elements.length ≤ maxLength) :
    TreeRows elements (treeHeight elements.length) (levelsOf elements) where
  ends rounds hrounds := by
    rw [Machine.ListProof.levels_eq hrounds]
    rfl
  length := length_levelsOf elements
  size h row hrow := by
    have hmax : maxLength < UInt64.size := by decide
    have hheight := treeHeight_le hlength
    have hlt := (List.getElem?_eq_some_iff.mp hrow).1
    rw [length_levelsOf] at hlt
    rw [Machine.ListProof.levelSize_eq (by omega) (by omega), length_of_mem_levelsOf hne hrow]
  build rounds hrounds start stop := by
    rw [Machine.ListProof.build_eq hlength hrounds]
    rfl

/-- The height of a tree is the least with room for the list and a level has the size of the
list over a power of two, rounded up, for any length of 64 bits. The rows over a list are as
many and as long, so that they come to an end and every index into them is in bounds. And
from elements inside the list, whatever nodes are given with them, each level that passes
its check leads to nodes inside the next one, up to a root. -/
theorem sizes_fit_tree :
    (∀ n, 1 ≤ n → n < UInt64.size → ∃ height, TreeSizes n height) ∧
      (∀ elements : List Bytes, elements ≠ [] → elements.length ≤ maxLength →
        ∃ height rows, TreeSizes elements.length height ∧ TreeRows elements height rows) ∧
      (∀ (proof : ListProof) (elements : Std.ExtTreeMap Nat Bytes),
        (∀ i ∈ elements, i < proof.length.toNat) →
        (elements.isEmpty = false → ∀ height computed,
          ListProof.climb proof.length.toNat proof.nodes height 0 (ListProof.leaves elements) =
            .ok computed →
          Level.check (levelSize proof.length.toNat height) height computed
            (ListProof.given proof.nodes height) = .ok () →
          (computed.withGiven (ListProof.given proof.nodes height)).parents.Inside
            (levelSize proof.length.toNat (height + 1))) ∧
        proof.computeRoot elements ≠ .error .noRoot) ∧
      ∀ (proof : ListProof) (expected : Digest) (start stop : Nat),
        ∃ result, (Machine.ListProof.verify proof expected start stop).run = .ok result ∧
          result ≠ .error .noRoot := by
  refine ⟨?_, ?_, ?_, ?_⟩
  · intro n hpos hlt
    exact ⟨_, treeSizes_treeHeight (by omega) hlt⟩
  · intro elements hne hlength
    have hmax : maxLength < UInt64.size := by decide
    have hpos := List.length_pos_iff.mpr hne
    exact ⟨_, _, treeSizes_treeHeight (by omega) (by omega), treeRows_levelsOf hne hlength⟩
  · intro proof elements hinside
    refine ⟨?_, ListProof.computeRoot_ne_noRoot hinside⟩
    intro hne height computed hclimb hcheck
    have hleaves := ListProof.inside_leaves hne hinside
    have hlength : proof.length.toNat ≠ 0 := by
      obtain ⟨i, hi⟩ := hleaves.known
      have := hleaves.lt i hi
      have := levelSize_le proof.length.toNat 0
      omega
    have hcomputed := ListProof.inside_of_climb hlength hleaves hclimb
    rw [Nat.zero_add] at hcomputed
    have hparents := hcomputed.parents hcheck
    rwa [← levelSize_succ hlength] at hparents
  · intro proof expected start stop
    rw [Machine.ListProof.verify_eq]
    exact ⟨_, rfl, ListProof.verify_ne_noRoot proof expected start stop⟩

/-- The last of three elements, by its index. -/
def lastElement : Std.ExtTreeMap Nat Bytes := (∅ : Std.ExtTreeMap Nat Bytes).insert 2 [3]

theorem eq_two_of_mem_lastElement {i : Nat} (h : i ∈ lastElement) : i = 2 := by
  rcases Std.ExtTreeMap.mem_insert.mp h with heq | hmem
  · exact (Nat.compare_eq_eq.mp heq).symm
  · exact absurd hmem Std.ExtTreeMap.not_mem_empty

/-- The longest list of 64 bits has a height; so has one of three elements, of which the last
one stands alone on its level. -/
theorem sizes_fit_tree_lastOfThree :
    (∃ height, TreeSizes 18446744073709551615 height) ∧
      (∃ height rows, TreeSizes threeElements.length height ∧
        TreeRows threeElements height rows) ∧
      ((ListProof.leaves lastElement).withGiven
        (ListProof.given lastOfThree.nodes 0)).parents.Inside (levelSize 3 1) ∧
      lastOfThree.computeRoot lastElement ≠ .error .noRoot := by
  obtain ⟨hsizes, hrows, hclimb, -⟩ := sizes_fit_tree
  have hgiven : ListProof.given lastOfThree.nodes 0 = ∅ := rfl
  have hcheck : Level.check (levelSize 3 0) 0 (ListProof.leaves lastElement)
      (ListProof.given lastOfThree.nodes 0) = .ok () := by
    rw [Level.check_eq_ok, hgiven]
    refine ⟨?_, by simp⟩
    intro i hi
    rw [eq_two_of_mem_lastElement (Std.ExtTreeMap.mem_map.mp hi)]
    exact Or.inl rfl
  obtain ⟨hinside, hroot⟩ := hclimb lastOfThree lastElement
    (fun i hi => by rw [eq_two_of_mem_lastElement hi]; decide)
  exact ⟨hsizes _ (by decide) (by decide), hrows threeElements (by decide) (by decide),
    hinside (by simp [lastElement]) 0 _ rfl hcheck, hroot⟩

end LightClient.MerkleList

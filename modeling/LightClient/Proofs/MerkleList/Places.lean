import LightClient.Proofs.MerkleList.Completeness
import Mathlib.Data.List.Nodup

/-! Where the nodes of a list proof stand. The check of a level looks only for the siblings
of what is computed there, but what is computed on a level is a span, so the checks of all
levels together leave no choice: a proof that passes has its nodes at the places that its
length and its range give, and so has the proof that is built for them. -/

namespace LightClient.MerkleList

/-- Height and index of the nodes beside the span of a range, on one level. -/
def placesBeside (length start stop height : Nat) : List (Nat × Nat) :=
  let low := start >>> height
  let high := (stop - 1) >>> height
  (if low % 2 = 1 then [(height, low - 1)] else []) ++
    if high % 2 = 0 ∧ high + 1 < levelSize length height then [(height, high + 1)] else []

/-- Where the nodes of a proof for a range stand: beside the span of the range on every level
below the root, or at the root if the range is empty. -/
def placesFor (length start stop : Nat) : List (Nat × Nat) :=
  if length = 0 then []
  else if start = stop then [(treeHeight length, 0)]
  else (List.range (treeHeight length)).flatMap (placesBeside length start stop)

/-- The place of a node as two numbers. -/
def ProofNode.position (node : ProofNode) : Nat × Nat := (node.height.toNat, node.index.toNat)

theorem mem_placesBeside {length start stop height h i : Nat} :
    (h, i) ∈ placesBeside length start stop height ↔
      h = height ∧
        Beside (levelSize length height) (start >>> height) ((stop - 1) >>> height) i := by
  unfold placesBeside Beside
  generalize start >>> height = low
  generalize (stop - 1) >>> height = high
  simp only [List.mem_append, List.mem_ite_nil_right, List.mem_singleton, Prod.mk.injEq]
  omega

/-- The two nodes beside a span stand on either side of it. -/
theorem nodup_placesBeside {start stop : Nat} (hrange : start < stop) (length height : Nat) :
    (placesBeside length start stop height).Nodup := by
  have hle := shiftRight_le_shiftRight (by omega : start ≤ stop - 1) height
  unfold placesBeside
  generalize start >>> height = low at hle ⊢
  generalize (stop - 1) >>> height = high at hle ⊢
  simp only
  split
  · split
    · simp
      omega
    · simp
  · split
    · simp
    · simp

theorem mem_placesFor {length start stop h i : Nat} (hlength : length ≠ 0)
    (hrange : start < stop) :
    (h, i) ∈ placesFor length start stop ↔
      h < treeHeight length ∧
        Beside (levelSize length h) (start >>> h) ((stop - 1) >>> h) i := by
  unfold placesFor
  rw [if_neg hlength, if_neg (by omega)]
  simp only [List.mem_flatMap, List.mem_range, mem_placesBeside]
  constructor
  · rintro ⟨height, hheight, rfl, hbeside⟩
    exact ⟨hheight, hbeside⟩
  · rintro ⟨hheight, hbeside⟩
    exact ⟨h, hheight, rfl, hbeside⟩

/-- No place is listed twice. -/
theorem nodup_placesFor {start stop : Nat} (hle : start ≤ stop) (length : Nat) :
    (placesFor length start stop).Nodup := by
  unfold placesFor
  split
  · exact List.nodup_nil
  split
  · exact List.nodup_singleton _
  · refine List.nodup_flatMap.mpr ⟨fun height _ => nodup_placesBeside (by omega) length height, ?_⟩
    refine List.nodup_range.imp ?_
    rintro height height' hne ⟨h, i⟩ hmem hmem'
    exact hne ((mem_placesBeside.mp hmem).1.symm.trans (mem_placesBeside.mp hmem').1)

/-! ## Spans -/

namespace Level

/-- **Step.** A span with the nodes beside it has the nodes of a span as its parents. -/
theorem mem_parents_of_beside {size low high : Nat} {computed given : Level}
    (hle : low ≤ high) (hhigh : high < size)
    (hcomputed : ∀ i, i ∈ computed ↔ Between low high i)
    (hgiven : ∀ i, i ∈ given ↔ Beside size low high i) (j : Nat) :
    j ∈ (computed.withGiven given).parents ↔ Between (low / 2) (high / 2) j := by
  rw [mem_parents, mem_withGiven, hcomputed, hgiven]
  unfold Between Beside
  omega

end Level

namespace ListProof

/-- The nodes given on a level are those that stand there. -/
theorem mem_given {nodes : List ProofNode} (h : (nodes.map ProofNode.place).Nodup)
    {height i : Nat} : i ∈ given nodes height ↔ (height, i) ∈ nodes.map ProofNode.position := by
  rw [← Std.ExtTreeMap.isSome_getElem?_iff_mem, Option.isSome_iff_exists]
  simp only [getElem?_given h, List.mem_map, ProofNode.position, Prod.mk.injEq]
  constructor
  · rintro ⟨_, n, hn, hheight, hindex, -⟩
    exact ⟨n, hn, hheight, hindex⟩
  · rintro ⟨n, hn, hheight, hindex⟩
    exact ⟨n.hash, n, hn, hheight, hindex, rfl⟩

theorem nodup_positions {nodes : List ProofNode} (h : (nodes.map ProofNode.place).Nodup) :
    (nodes.map ProofNode.position).Nodup := by
  refine List.Nodup.map_on ?_ h.of_map
  intro n hn m hm heq
  obtain ⟨hheight, hindex⟩ := Prod.mk.inj heq
  have hplace : n.place = m.place :=
    Prod.ext (UInt8.toNat_inj.mp hheight) (UInt64.toNat_inj.mp hindex)
  exact List.inj_on_of_nodup_map h hn hm hplace

/-- **Run.** A climb that starts from the span of a range is given just the nodes beside the
span, on every level. -/
theorem mem_given_of_climb {length start stop : Nat} {nodes : List ProofNode}
    (hrange : start < stop) (hstop : stop ≤ length)
    (hinside : ∀ height, ∀ i ∈ given nodes height, i < levelSize length height)
    {steps height : Nat} {computed top : Level}
    (hclimb : climb length nodes steps height computed = .ok top)
    (hcomputed : ∀ i, i ∈ computed ↔ Between (start >>> height) ((stop - 1) >>> height) i) :
    ∀ k < steps, ∀ i, i ∈ given nodes (height + k) ↔
      Beside (levelSize length (height + k)) (start >>> (height + k))
        ((stop - 1) >>> (height + k)) i := by
  induction steps generalizing height computed with
  | zero => exact fun k hk => absurd hk (Nat.not_lt_zero k)
  | succ steps ih =>
    obtain ⟨hcheck, hclimb⟩ := climb_succ_eq_ok.mp hclimb
    have hle := shiftRight_le_shiftRight (by omega : start ≤ stop - 1) height
    have hhigh := shiftRight_lt_levelSize (by omega : stop - 1 < length) height
    have hgiven := (Level.check_eq_ok_iff_beside hle hhigh hcomputed (hinside height)).mp hcheck
    have hparents := Level.mem_parents_of_beside hle hhigh hcomputed hgiven
    rw [← Nat.shiftRight_succ, ← Nat.shiftRight_succ] at hparents
    intro k hk
    cases k with
    | zero => exact hgiven
    | succ k =>
      have hrest := ih hclimb hparents k (by omega)
      rwa [Nat.add_right_comm, Nat.add_assoc] at hrest

/-! ## Proofs that pass -/

section
variable {proof : ListProof} {elements : Std.ExtTreeMap Nat Bytes} {root : Digest}

/-- A proof for an empty list has no nodes. -/
theorem nodes_of_computeRoot_of_length (h : proof.computeRoot elements = .ok root)
    (hlength : proof.length.toNat = 0) : proof.nodes = [] := by
  simp only [computeRoot, if_pos hlength] at h
  split at h
  · exact List.isEmpty_iff.mp ‹_›
  · cases h

/-- A proof of no elements gives the root of the tree. -/
theorem positions_of_computeRoot_of_isEmpty (h : proof.computeRoot elements = .ok root)
    (hlength : proof.length.toNat ≠ 0) (hempty : elements.isEmpty = true) :
    proof.nodes.map ProofNode.position = [(treeHeight proof.length.toNat, 0)] := by
  simp only [computeRoot, if_neg hlength, if_pos hempty] at h
  split at h
  · rename_i node hnodes
    split at h
    · rename_i hplace
      rw [hnodes, List.map_singleton, ProofNode.position, hplace.1, hplace.2]
      rfl
    · cases h
  · cases h

/-- A proof of some elements has nodes that stand at different places inside the tree, and
climbs with them from the elements. -/
theorem climb_of_computeRoot (h : proof.computeRoot elements = .ok root)
    (hlength : proof.length.toNat ≠ 0) (hne : elements.isEmpty = false) :
    checkNodes proof.length.toNat proof.nodes [] = .ok () ∧
      ∃ top, climb proof.length.toNat proof.nodes (treeHeight proof.length.toNat) 0
        (leaves elements) = .ok top := by
  simp only [computeRoot, if_neg hlength, hne, Bool.false_eq_true, if_false, bind_eq_ok] at h
  obtain ⟨_, hnodes, top, hclimb, -⟩ := h
  exact ⟨hnodes, top, hclimb⟩

/-- Elements that fill a range are there for just the indices of the range. -/
theorem mem_elements_iff {start stop : Nat} (hsize : elements.size = stop - start)
    (hfill : ∀ i ∈ elements, start ≤ i ∧ i < stop) {i : Nat} :
    i ∈ elements ↔ start ≤ i ∧ i < stop := by
  rw [← Std.ExtTreeMap.mem_keys, ← Std.ExtTreeMap.map_fst_toList_eq_keys,
    keys_eq_range' hsize hfill, List.mem_range'_1]
  omega

/-- The nodes of a proof of some elements stand beside the span of their range. -/
theorem mem_positions_of_computeRoot {start stop : Nat} (hrange : start < stop)
    (hstop : stop ≤ proof.length.toNat) (hsize : elements.size = stop - start)
    (hfill : ∀ i ∈ elements, start ≤ i ∧ i < stop)
    (hnodes : checkNodes proof.length.toNat proof.nodes [] = .ok ()) {top : Level}
    (hclimb : climb proof.length.toNat proof.nodes (treeHeight proof.length.toNat) 0
      (leaves elements) = .ok top) {h i : Nat} :
    (h, i) ∈ proof.nodes.map ProofNode.position ↔
      h < treeHeight proof.length.toNat ∧
        Beside (levelSize proof.length.toNat h) (start >>> h) ((stop - 1) >>> h) i := by
  obtain ⟨hinside, hnodup, -⟩ := checkNodes_eq_ok.mp hnodes
  have hbelow : ∀ height, ∀ i ∈ given proof.nodes height,
      height < treeHeight proof.length.toNat ∧ i < levelSize proof.length.toNat height := by
    intro height i hi
    obtain ⟨n, hn, hplace⟩ := List.mem_map.mp ((mem_given hnodup).mp hi)
    cases hplace
    exact hinside n hn
  have hleaves : ∀ i, i ∈ leaves elements ↔ Between (start >>> 0) ((stop - 1) >>> 0) i := by
    intro i
    rw [leaves, Std.ExtTreeMap.mem_map, mem_elements_iff hsize hfill, Between,
      Nat.shiftRight_zero, Nat.shiftRight_zero]
    omega
  have hgiven := mem_given_of_climb hrange hstop (fun height i hi => (hbelow height i hi).2)
    hclimb hleaves
  rw [← mem_given hnodup]
  constructor
  · intro hi
    have hh := (hbelow h i hi).1
    have := (hgiven h hh i).mp (by rwa [Nat.zero_add])
    rw [Nat.zero_add] at this
    exact ⟨hh, this⟩
  · rintro ⟨hh, hbeside⟩
    have := (hgiven h hh i).mpr (by rwa [Nat.zero_add])
    rwa [Nat.zero_add] at this

end

/-- The nodes of a proof that passes stand at the places for its length and range. -/
theorem positions_perm_placesFor {proof : ListProof} {expected : Digest} {start stop : Nat}
    {items : List (Nat × Bytes)} (h : proof.verify expected start stop = .ok items) :
    (proof.nodes.map ProofNode.position).Perm (placesFor proof.length.toNat start stop) := by
  obtain ⟨-, ⟨hle, hstop⟩, elements, -, hsize, hfill, hroot, -⟩ := verify_eq_ok.mp h
  by_cases hlength : proof.length.toNat = 0
  · rw [nodes_of_computeRoot_of_length hroot hlength, placesFor, if_pos hlength]
    exact .refl _
  rcases Nat.eq_or_lt_of_le hle with rfl | hrange
  · have hempty : elements.isEmpty = true := by
      rw [Std.ExtTreeMap.isEmpty_eq_size_beq_zero, hsize, Nat.sub_self]
      rfl
    rw [positions_of_computeRoot_of_isEmpty hroot hlength hempty, placesFor, if_neg hlength,
      if_pos rfl]
  · have hne : elements.isEmpty = false := by
      rw [Std.ExtTreeMap.isEmpty_eq_size_beq_zero, hsize, beq_eq_false_iff_ne]
      omega
    obtain ⟨hnodes, top, hclimb⟩ := climb_of_computeRoot hroot hlength hne
    have hnodup := nodup_positions (checkNodes_eq_ok.mp hnodes).2.1
    refine (List.perm_ext_iff_of_nodup hnodup (nodup_placesFor hle _)).mpr ?_
    rintro ⟨height, i⟩
    rw [mem_positions_of_computeRoot hrange hstop hsize hfill hnodes hclimb,
      mem_placesFor hlength hrange]

end ListProof

/-- Whatever the root, a proof that passes has just the nodes that its length and its range
call for, each of them once; and these are the nodes of the proof that is built for the
range, from any list of that length. -/
theorem verified_nodes_exact {proof : ListProof} {expected : Digest} {start stop : Nat}
    {items : List (Nat × Bytes)} (h : proof.verify expected start stop = .ok items) :
    (proof.nodes.map ProofNode.position).Perm (placesFor proof.length.toNat start stop) ∧
      (placesFor proof.length.toNat start stop).Nodup ∧
      ∀ list : List Bytes, list.length = proof.length.toNat →
        ∃ built, buildProof list start stop = .ok built ∧
          (built.nodes.map ProofNode.position).Perm
            (placesFor proof.length.toNat start stop) := by
  obtain ⟨hmax, ⟨hle, hstop⟩, -⟩ := ListProof.verify_eq_ok.mp h
  refine ⟨ListProof.positions_perm_placesFor h, nodup_placesFor hle _, ?_⟩
  intro list hlist
  rw [← hlist] at hmax hstop ⊢
  have hbuilt := ListProof.positions_perm_placesFor (verify_builtProof hmax hle hstop)
  rw [length_builtProof hmax] at hbuilt
  exact ⟨_, buildProof_eq_ok hle hstop, hbuilt⟩

/-- A list whose last element is alone on two levels. -/
def fiveElements : List Bytes := [[1], [2], [3], [4], [5]]

/-- A proof of the third of five elements needs its right neighbour, the pair to its left and
what stands for the fifth element on the level below the root. -/
theorem verified_nodes_exact_middleOfFive :
    (builtProof fiveElements 2 3).verify (root fiveElements) 2 3 =
        .ok (indexed fiveElements 2 3).toList ∧
      ((builtProof fiveElements 2 3).nodes.map ProofNode.position).Perm
        [(0, 3), (1, 0), (2, 1)] ∧
      fiveElements.length = (builtProof fiveElements 2 3).length.toNat ∧
      ∃ built, buildProof fiveElements 2 3 = .ok built ∧
        (built.nodes.map ProofNode.position).Perm [(0, 3), (1, 0), (2, 1)] := by
  have hverify : (builtProof fiveElements 2 3).verify (root fiveElements) 2 3 = _ :=
    verify_builtProof (by decide) (by decide) (by decide)
  have hplaces : placesFor (builtProof fiveElements 2 3).length.toNat 2 3 =
      [(0, 3), (1, 0), (2, 1)] := by decide
  obtain ⟨hperm, -, hbuilt⟩ := verified_nodes_exact hverify
  rw [hplaces] at hperm hbuilt
  exact ⟨hverify, hperm, rfl, hbuilt fiveElements rfl⟩

end LightClient.MerkleList

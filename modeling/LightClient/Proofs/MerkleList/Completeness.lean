import LightClient.Proofs.MerkleList.Built
import LightClient.Proofs.MerkleList.Soundness

/-! A proof that is built from the whole list passes against the root of the list
and returns the elements of its range: the nodes that are built are those that the
climb from the elements needs. -/

namespace LightClient.MerkleList

section
variable {list : List Bytes} {start stop : Nat}

/-! ## The proof as a whole -/

/-- The nodes of a proof for a range. -/
def nodesFor (list : List Bytes) (start stop : Nat) : List ProofNode :=
  if list.length = 0 then []
  else if start = stop then [proofNode (treeHeight list.length) 0 (treeRoot list)]
  else rangeNodes list start stop

/-- The proof for a range that lies in the list. -/
def builtProof (list : List Bytes) (start stop : Nat) : ListProof :=
  ⟨UInt64.ofNat list.length, nodesFor list start stop, elementsOf list start stop⟩

theorem buildProof_eq_ok (hle : start ≤ stop) (hstop : stop ≤ list.length) :
    buildProof list start stop = .ok (builtProof list start stop) := by
  have hrange : checkRange start stop list.length = .ok () := if_pos ⟨hle, hstop⟩
  simp only [buildProof, builtProof, nodesFor, hrange, flatMap_beside_levelsOf]
  rfl

theorem buildProof_eq_error (h : stop < start ∨ list.length < stop) :
    buildProof list start stop = .error (.range start stop list.length) := by
  have hrange : checkRange start stop list.length = .error (.range start stop list.length) :=
    if_neg (by omega)
  simp only [buildProof, hrange]
  rfl

theorem length_builtProof (hlist : list.length ≤ maxLength) :
    (builtProof list start stop).length.toNat = list.length := by
  have hmax : maxLength < UInt64.size := by decide
  exact UInt64.toNat_ofNat_of_lt' (by omega)

namespace ListProof

/-- A climb that reaches the top gives the root. -/
theorem computeRoot_of_climb {proof : ListProof} {elements : Std.ExtTreeMap Nat Bytes}
    {top : Level} {hash : Digest} (hlength : proof.length.toNat ≠ 0)
    (helements : elements.isEmpty = false)
    (hnodes : checkNodes proof.length.toNat proof.nodes [] = .ok ())
    (hclimb : climb proof.length.toNat proof.nodes (treeHeight proof.length.toNat) 0
      (leaves elements) = .ok top) (htop : top[0]? = some hash) :
    proof.computeRoot elements = .ok (listHash proof.length.toNat hash) := by
  unfold computeRoot
  simp only [if_neg hlength, helements, Bool.false_eq_true, if_false, bind_eq_ok]
  refine ⟨(), hnodes, top, hclimb, ?_⟩
  rw [htop]
  rfl

end ListProof

/-- From the elements of the range, with the nodes beside it, the climb reaches the
root of the tree. -/
theorem exists_climb_rangeNodes (hlist : list.length ≤ maxLength) (hrange : start < stop)
    (hstop : stop ≤ list.length) :
    ∃ top, ListProof.climb list.length (rangeNodes list start stop) (treeHeight list.length) 0
      (ListProof.leaves (indexed list start stop)) = .ok top ∧ top[0]? = some (treeRoot list) := by
  have hleaves : (ListProof.leaves (indexed list start stop)).Shows (list.map leafHash)
      (Between (start >>> 0) ((stop - 1) >>> 0)) := by
    intro i hash
    rw [Nat.shiftRight_zero, Nat.shiftRight_zero, ListProof.leaves, Std.ExtTreeMap.getElem?_map,
      List.getElem?_map, Option.map_eq_some_iff, Option.map_eq_some_iff]
    simp only [getElem?_indexed hstop, Between]
    constructor
    · rintro ⟨value, ⟨hspan, hvalue⟩, rfl⟩
      exact ⟨by omega, value, hvalue, rfl⟩
    · rintro ⟨hspan, value, hvalue, rfl⟩
      exact ⟨value, ⟨by omega, hvalue⟩, rfl⟩
  have hrow : (list.map leafHash).length = levelSize list.length 0 := by
    rw [List.length_map, levelSize_zero (by omega)]
  obtain ⟨top, hclimb, htop⟩ := ListProof.exists_climb hrange hstop hrow hleaves (by
    intro k hk
    rw [Nat.zero_add]
    exact given_rangeNodes hlist hrange hk)
  refine ⟨top, hclimb, ?_⟩
  have hne : list ≠ [] := List.ne_nil_of_length_pos (by omega)
  rw [Nat.zero_add, ListProof.shiftRight_treeHeight (by omega),
    ListProof.shiftRight_treeHeight (by omega)] at htop
  rw [htop.getElem?_eq ⟨Nat.le_refl 0, Nat.le_refl 0⟩, getElem?_above_treeHeight hne]

/-- The single node of a proof for an empty range is the root of the tree. -/
theorem computeRoot_builtProof_of_eq (hlist : list.length ≤ maxLength) (hempty : list ≠ [])
    (hstop : stop ≤ list.length) :
    (builtProof list stop stop).computeRoot (indexed list stop stop) = .ok (root list) := by
  have hpos := List.length_pos_iff.mpr hempty
  have hlength : (builtProof list stop stop).length.toNat = list.length := length_builtProof hlist
  have helements : (indexed list stop stop).isEmpty = true := by
    rw [Std.ExtTreeMap.isEmpty_eq_size_beq_zero, size_indexed hstop, Nat.sub_self]
    rfl
  have hnodes : (builtProof list stop stop).nodes =
      [proofNode (treeHeight list.length) 0 (treeRoot list)] := by
    rw [builtProof, nodesFor, if_neg (by omega), if_pos rfl]
  have hheight : (UInt8.ofNat (treeHeight list.length)).toNat = treeHeight list.length := by
    have := treeHeight_le hlist
    have hsize : UInt8.size = 256 := rfl
    exact UInt8.toNat_ofNat_of_lt' (by omega)
  rw [root]
  simp only [ListProof.computeRoot, hlength, if_neg (by omega : ¬ list.length = 0), helements,
    if_true, hnodes, proofNode, hheight]
  exact if_pos ⟨trivial, rfl⟩

theorem computeRoot_builtProof_of_lt (hlist : list.length ≤ maxLength) (hrange : start < stop)
    (hstop : stop ≤ list.length) :
    (builtProof list start stop).computeRoot (indexed list start stop) = .ok (root list) := by
  have hlength : (builtProof list start stop).length.toNat = list.length := length_builtProof hlist
  have hnodes : (builtProof list start stop).nodes = rangeNodes list start stop := by
    rw [builtProof, nodesFor, if_neg (by omega), if_neg (by omega)]
  obtain ⟨top, hclimb, htop⟩ := exists_climb_rangeNodes hlist hrange hstop
  have helements : (indexed list start stop).isEmpty = false := by
    rw [Std.ExtTreeMap.isEmpty_eq_false_iff]
    exact Std.ExtTreeMap.ne_empty_of_mem ((mem_indexed hstop).mpr ⟨Nat.le_refl _, hrange⟩)
  rw [root, ← hlength]
  apply ListProof.computeRoot_of_climb _ helements _ _ htop
  · rw [hlength]
    omega
  · rw [hlength, hnodes]
    exact checkNodes_rangeNodes hlist hrange
  · rw [hlength, hnodes]
    exact hclimb

theorem computeRoot_builtProof (hlist : list.length ≤ maxLength) (hle : start ≤ stop)
    (hstop : stop ≤ list.length) :
    (builtProof list start stop).computeRoot (indexed list start stop) = .ok (root list) := by
  by_cases hempty : list = []
  · subst hempty
    simp [ListProof.computeRoot, builtProof, nodesFor, root, treeRoot, levelsOf, levels]
  · rcases Nat.eq_or_lt_of_le hle with rfl | hrange
    · exact computeRoot_builtProof_of_eq hlist hempty hstop
    · exact computeRoot_builtProof_of_lt hlist hrange hstop

/-- A built proof passes, and the elements it returns are those of the range. -/
theorem verify_builtProof (hlist : list.length ≤ maxLength) (hle : start ≤ stop)
    (hstop : stop ≤ list.length) :
    (builtProof list start stop).verify (root list) start stop =
      .ok (indexed list start stop).toList := by
  rw [ListProof.verify_eq_ok, length_builtProof hlist]
  exact ⟨hlist, ⟨hle, hstop⟩, _, indexElements_elementsOf hlist hstop, size_indexed hstop,
    fun i hi => (mem_indexed hstop).mp hi, computeRoot_builtProof hlist hle hstop, rfl⟩

end

/-- A proof that is built for a range of a list passes against the root of the list
and returns the elements of the range in order; a range that is none is refused. -/
theorem built_list_proof_complete (list : List Bytes) (hlist : list.length ≤ maxLength)
    (start stop : Nat) :
    (start ≤ stop ∧ stop ≤ list.length →
      ∃ proof items, buildProof list start stop = .ok proof ∧
        proof.verify (root list) start stop = .ok items ∧
        items.map Prod.fst = List.range' start (stop - start) ∧
        ∀ item ∈ items, list[item.1]? = some item.2) ∧
    (stop < start ∨ list.length < stop →
      buildProof list start stop = .error (.range start stop list.length)) := by
  refine ⟨?_, buildProof_eq_error⟩
  rintro ⟨hle, hstop⟩
  refine ⟨_, _, buildProof_eq_ok hle hstop, verify_builtProof hlist hle hstop, ?_, ?_⟩
  · exact ListProof.keys_eq_range' (size_indexed hstop) fun i hi => (mem_indexed hstop).mp hi
  · rintro ⟨i, value⟩ hitem
    exact ((getElem?_indexed hstop).mp
      (Std.ExtTreeMap.mem_toList_iff_getElem?_eq_some.mp hitem)).2

/-- The last two of three elements: the range starts at a right child and ends at a
node without a sibling. -/
theorem built_list_proof_complete_threeElements :
    threeElements.length ≤ maxLength ∧ (1 ≤ 3 ∧ 3 ≤ threeElements.length) ∧
      (∃ proof items, buildProof threeElements 1 3 = .ok proof ∧
        proof.verify (root threeElements) 1 3 = .ok items ∧
        items.map Prod.fst = List.range' 1 (3 - 1) ∧
        ∀ item ∈ items, threeElements[item.1]? = some item.2) ∧
      (4 < 2 ∨ threeElements.length < 4) ∧
      buildProof threeElements 2 4 = .error (.range 2 4 threeElements.length) :=
  ⟨by decide, by decide, (built_list_proof_complete threeElements (by decide) 1 3).1 (by decide),
    by decide, (built_list_proof_complete threeElements (by decide) 2 4).2 (by decide)⟩

end LightClient.MerkleList

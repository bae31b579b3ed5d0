import LightClient.MerkleList.Proof
import LightClient.Proofs.Except

/-! What the checks of the nodes and the elements of a list proof establish: nodes
that pass stand at different places inside the tree, so each level holds just the
nodes listed for it; elements with different indices are all indexed. -/

namespace LightClient.MerkleList

/-! ## Listed pairs -/

section
variable {α : Type} {pairs : List (Nat × α)}

theorem distinct_of_nodup (h : (pairs.map Prod.fst).Nodup) :
    pairs.Pairwise fun p q => ¬ compare p.1 q.1 = .eq := by
  rw [List.nodup_iff_pairwise_ne, List.pairwise_map] at h
  exact h.imp fun hne heq => hne (Nat.compare_eq_eq.mp heq)

/-- A map of pairs with different indices holds just these pairs. -/
theorem getElem?_ofList_eq_some (h : (pairs.map Prod.fst).Nodup) {i : Nat} {a : α} :
    (Std.ExtTreeMap.ofList pairs)[i]? = some a ↔ (i, a) ∈ pairs := by
  have hdistinct := distinct_of_nodup h
  constructor
  · intro hget
    obtain ⟨hmem, -⟩ := Std.ExtTreeMap.getElem?_eq_some_iff.mp hget
    rw [Std.ExtTreeMap.mem_ofList, List.contains_iff_mem] at hmem
    obtain ⟨⟨j, b⟩, hb, rfl⟩ := List.mem_map.mp hmem
    rw [Std.ExtTreeMap.getElem?_ofList_of_mem (by simp) hdistinct hb] at hget
    rwa [← Option.some.inj hget]
  · exact Std.ExtTreeMap.getElem?_ofList_of_mem (by simp) hdistinct

end

/-! ## The nodes of a proof -/

/-- Where a node stands. -/
def ProofNode.place (node : ProofNode) : UInt8 × UInt64 := (node.height, node.index)

namespace ListProof

/-- Every node lies inside the tree and below its root, and no two stand at one place. -/
theorem checkNodes_eq_ok {length : Nat} {nodes : List ProofNode} {seen : List (UInt8 × UInt64)} :
    checkNodes length nodes seen = .ok () ↔
      (∀ n ∈ nodes, n.height.toNat < treeHeight length ∧
        n.index.toNat < levelSize length n.height.toNat) ∧
      (nodes.map ProofNode.place).Nodup ∧ ∀ n ∈ nodes, n.place ∉ seen := by
  induction nodes generalizing seen with
  | nil => simp [checkNodes]
  | cons n rest ih =>
    unfold checkNodes
    split
    · rename_i habove
      constructor
      · intro h
        cases h
      · rintro ⟨hinside, -⟩
        have := (hinside n List.mem_cons_self).1
        omega
    · rename_i hbelow
      split
      · rename_i houtside
        constructor
        · intro h
          cases h
        · rintro ⟨hinside, -⟩
          have := (hinside n List.mem_cons_self).2
          omega
      · rename_i hinside
        split
        · rename_i hseen
          constructor
          · intro h
            cases h
          · rintro ⟨-, -, hnew⟩
            exact absurd hseen (hnew n List.mem_cons_self)
        · rename_i hnew
          have hplace : (n.height, n.index) = n.place := rfl
          rw [hplace] at hnew ⊢
          rw [ih, List.forall_mem_cons, List.forall_mem_cons, List.map_cons, List.nodup_cons]
          simp only [List.mem_map, List.mem_cons, not_or, not_exists, not_and]
          constructor
          · rintro ⟨hrest, hnodup, hfresh⟩
            exact ⟨⟨⟨by omega, by omega⟩, hrest⟩, ⟨fun m hm => (hfresh m hm).1, hnodup⟩, hnew,
              fun m hm => (hfresh m hm).2⟩
          · rintro ⟨⟨-, hrest⟩, ⟨hother, hnodup⟩, -, hfresh⟩
            exact ⟨hrest, hnodup, fun m hm => ⟨hother m hm, hfresh m hm⟩⟩

/-- The given level of a height holds the nodes at that height. -/
theorem getElem?_given {nodes : List ProofNode} (h : (nodes.map ProofNode.place).Nodup)
    {height i : Nat} {hash : Digest} :
    (given nodes height)[i]? = some hash ↔
      ∃ n ∈ nodes, n.height.toNat = height ∧ n.index.toNat = i ∧ n.hash = hash := by
  unfold given
  rw [getElem?_ofList_eq_some]
  · simp only [List.mem_map, List.mem_filter, decide_eq_true_eq, Prod.mk.injEq, and_assoc]
  · rw [List.map_map, List.nodup_iff_pairwise_ne, List.pairwise_map]
    rw [List.nodup_iff_pairwise_ne, List.pairwise_map] at h
    apply List.Pairwise.imp_of_mem _ (h.filter _)
    intro m n hm hn hne heq
    have hheight : m.height.toNat = n.height.toNat := by
      have hm := (List.mem_filter.mp hm).2
      have hn := (List.mem_filter.mp hn).2
      rw [decide_eq_true_eq] at hm hn
      rw [hm, hn]
    apply hne
    rw [ProofNode.place, ProofNode.place, UInt8.toNat_inj.mp hheight, UInt64.toNat_inj.mp heq]

/-- Elements with different indices inside the list are all indexed. -/
theorem indexElements_of_nodup {length : Nat} {es : List Element} {found : Std.ExtTreeMap Nat Bytes}
    (hnodup : (es.map fun e => e.index.toNat).Nodup) (hinside : ∀ e ∈ es, e.index.toNat < length)
    (hfresh : ∀ e ∈ es, e.index.toNat ∉ found) :
    indexElements length es found =
      .ok (found.insertMany (es.map fun e => (e.index.toNat, e.value))) := by
  induction es generalizing found with
  | nil => simp [indexElements]
  | cons e rest ih =>
    rw [List.map_cons, List.nodup_cons] at hnodup
    obtain ⟨hhead, htail⟩ := hnodup
    have hlt := hinside e List.mem_cons_self
    unfold indexElements
    rw [if_neg (by omega), if_neg (hfresh e List.mem_cons_self), List.map_cons,
      Std.ExtTreeMap.insertMany_cons]
    apply ih htail
    · intro e' he'
      exact hinside e' (List.mem_cons_of_mem _ he')
    · intro e' he' hmem
      rcases Std.ExtTreeMap.mem_insert.mp hmem with heq | hmem
      · apply hhead
        rw [Nat.compare_eq_eq.mp heq]
        exact List.mem_map_of_mem he'
      · exact hfresh e' (List.mem_cons_of_mem _ he') hmem

/-- Elements are indexed inside the list. -/
theorem lt_of_mem_indexElements {length : Nat} {es : List Element}
    {found elements : Std.ExtTreeMap Nat Bytes}
    (h : indexElements length es found = .ok elements)
    (hfound : ∀ i ∈ found, i < length) : ∀ i ∈ elements, i < length := by
  induction es generalizing found with
  | nil =>
    cases h
    exact hfound
  | cons e rest ih =>
    unfold indexElements at h
    split at h
    · cases h
    · split at h
      · cases h
      · refine ih h fun i hi => ?_
        rcases Std.ExtTreeMap.mem_insert.mp hi with heq | hi
        · have := Nat.compare_eq_eq.mp heq
          omega
        · exact hfound i hi

end ListProof

end LightClient.MerkleList

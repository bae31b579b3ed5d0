import LightClient.Proofs.MerkleList.Soundness

/-! Two list proofs that pass against one root agree, whatever list the root stands
for. They bind one length and one root of the tree, and going down from there the
two climbs are compared level by level: at an index that both have computed the
parents are the same, so the children are, unless hashes collide. -/

namespace LightClient.MerkleList

namespace Level

/-- At an index that is known in both levels the nodes are the same. -/
def Agree (level level' : Level) : Prop :=
  ∀ (i : Nat) (hash hash' : Digest), level[i]? = some hash → level'[i]? = some hash' →
    hash = hash'

section
variable {size height size' height' : Nat} {computed given computed' given' : Level}

/-- **Step.** Known nodes whose parents agree do so themselves. -/
theorem Agree.of_parents (hcheck : check size height computed given = .ok ())
    (hcheck' : check size' height' computed' given' = .ok ())
    (hsafe : ¬ Collision (parentsInputs (computed.withGiven given) ++
      parentsInputs (computed'.withGiven given')))
    (h : Agree (parents (computed.withGiven given)) (parents (computed'.withGiven given'))) :
    Agree computed computed' := by
  intro i hash hash' hi hi'
  obtain ⟨left, hleft⟩ := exists_left_of_check hcheck hi
  obtain ⟨left', hleft'⟩ := exists_left_of_check hcheck' hi'
  -- both have computed the parent
  have hparent : branchHash left (computed.withGiven given)[2 * (i / 2) + 1]? =
      branchHash left' (computed'.withGiven given')[2 * (i / 2) + 1]? := by
    apply h (i / 2)
    · rw [getElem?_parents, hleft]
      rfl
    · rw [getElem?_parents, hleft']
      rfl
  obtain ⟨hl, hr⟩ := branchInput_injective (eq_of_sha256_eq hsafe
    (List.mem_append_left _ (branchInput_mem_parentsInputs hleft))
    (List.mem_append_right _ (branchInput_mem_parentsInputs hleft'))
    (by rw [sha256_branchInput, sha256_branchInput, hparent]))
  have hsame : (computed.withGiven given)[i]? = (computed'.withGiven given')[i]? :=
    eq_of_children (f := fun i => (computed.withGiven given)[i]?)
      (g := fun i => (computed'.withGiven given')[i]?) (by rw [hleft, hleft', hl]) hr
  rw [getElem?_withGiven_of_check hcheck hi, getElem?_withGiven_of_check hcheck' hi'] at hsame
  exact Option.some.inj hsame

end

end Level

namespace ListProof

/-- **Run.** Climbs of one height whose tops agree started from levels that agree. -/
theorem agree_of_climb {length length' : Nat} {nodes nodes' : List ProofNode} {steps height : Nat}
    {start start' top top' : Level} (h : climb length nodes steps height start = .ok top)
    (h' : climb length' nodes' steps height start' = .ok top')
    (hsafe : ¬ Collision (climbInputs nodes steps height start ++
      climbInputs nodes' steps height start'))
    (htop : top.Agree top') : start.Agree start' := by
  induction steps generalizing height start start' with
  | zero =>
    cases h
    cases h'
    exact htop
  | succ steps ih =>
    obtain ⟨hcheck, hclimb⟩ := climb_succ_eq_ok.mp h
    obtain ⟨hcheck', hclimb'⟩ := climb_succ_eq_ok.mp h'
    apply Level.Agree.of_parents hcheck hcheck'
    · exact not_collision_of_subset hsafe (List.subset_append_left _ _)
        (List.subset_append_left _ _)
    · apply ih hclimb hclimb'
      exact not_collision_of_subset hsafe (List.subset_append_right _ _)
        (List.subset_append_right _ _)

/-- Climbs over the same length to one root of the tree agree from their leaves on. -/
theorem agree_of_climb_treeRoot {length : Nat} {nodes nodes' : List ProofNode}
    {start start' top top' : Level} {treeRoot : Digest}
    (h : climb length nodes (treeHeight length) 0 start = .ok top)
    (h' : climb length nodes' (treeHeight length) 0 start' = .ok top')
    (hstart : ∀ i ∈ start, i < length) (htop : top[0]? = some treeRoot)
    (htop' : top'[0]? = some treeRoot)
    (hsafe : ¬ Collision (climbInputs nodes (treeHeight length) 0 start ++
      climbInputs nodes' (treeHeight length) 0 start')) : start.Agree start' := by
  apply agree_of_climb h h' hsafe
  intro i hash hash' hi hi'
  obtain ⟨hmem, -⟩ := Std.ExtTreeMap.getElem?_eq_some_iff.mp hi
  -- there is no other node than the root on top
  obtain rfl : i = 0 :=
    shiftRight_of_climb h (fun j hj => shiftRight_treeHeight (hstart j hj)) i hmem
  rw [htop] at hi
  rw [htop'] at hi'
  exact Option.some.inj (hi.symm.trans hi')

/-! ## Two proofs -/

section
variable {first second : ListProof} {root : Digest} {elements elements' : Std.ExtTreeMap Nat Bytes}

/-- One root binds one length and one root of the tree. -/
theorem length_and_treeRoot_eq {treeRoot treeRoot' : Digest}
    (hroot : root = listHash first.length.toNat treeRoot)
    (hroot' : root = listHash second.length.toNat treeRoot') {xs ys : List Bytes}
    (hmem : listInput first.length.toNat treeRoot ∈ xs)
    (hmem' : listInput second.length.toNat treeRoot' ∈ ys) (hsafe : ¬ Collision (xs ++ ys)) :
    first.length = second.length ∧ treeRoot = treeRoot' := by
  obtain ⟨hlength, htree⟩ := listInput_injective first.length.toNat_lt second.length.toNat_lt
    (eq_of_sha256_eq hsafe (List.mem_append_left _ hmem) (List.mem_append_right _ hmem')
      (by rw [sha256_listInput, sha256_listInput, ← hroot, ← hroot']))
  exact ⟨UInt64.toNat_inj.mp hlength, htree⟩

/-- Proofs that compute one root have one length. -/
theorem length_eq_of_computeRoot (h : first.computeRoot elements = .ok root)
    (h' : second.computeRoot elements' = .ok root)
    (hsafe : ¬ Collision (first.computeInputs elements ++ second.computeInputs elements')) :
    first.length = second.length := by
  obtain ⟨_, hhash, hmem, -⟩ := of_computeRoot h
  obtain ⟨_, hhash', hmem', -⟩ := of_computeRoot h'
  exact (length_and_treeRoot_eq hhash hhash' hmem hmem' hsafe).1

/-- Proofs that compute one root from some elements agree from their leaves on. -/
theorem agree_leaves (h : first.computeRoot elements = .ok root)
    (h' : second.computeRoot elements' = .ok root)
    (hbelow : ∀ i ∈ elements, i < first.length.toNat) (hpos : first.length.toNat ≠ 0)
    (hne : elements.isEmpty = false) (hne' : elements'.isEmpty = false)
    (hsafe : ¬ Collision (first.computeInputs elements ++ second.computeInputs elements')) :
    (leaves elements).Agree (leaves elements') := by
  obtain ⟨treeRoot, hhash, hmem, hclimb⟩ := of_computeRoot h
  obtain ⟨treeRoot', hhash', hmem', hclimb'⟩ := of_computeRoot h'
  obtain ⟨hlength, rfl⟩ := length_and_treeRoot_eq hhash hhash' hmem hmem' hsafe
  have hsub := climbInputs_subset_computeInputs first hpos hne
  have hsub' := climbInputs_subset_computeInputs second (hlength ▸ hpos) hne'
  rw [← hlength] at hclimb' hsub'
  obtain ⟨top, hclimb, htop⟩ := hclimb hpos hne
  obtain ⟨top', hclimb', htop'⟩ := hclimb' hpos hne'
  apply agree_of_climb_treeRoot hclimb hclimb' _ htop htop'
  · exact not_collision_of_subset hsafe (List.append_subset.mp hsub).2
      (List.append_subset.mp hsub').2
  · intro i hi
    exact hbelow i (by simpa [leaves] using hi)

/-- Proofs that compute one root have one value at an index that both hold. -/
theorem value_eq_of_computeRoot (h : first.computeRoot elements = .ok root)
    (h' : second.computeRoot elements' = .ok root)
    (hbelow : ∀ i ∈ elements, i < first.length.toNat)
    (hsafe : ¬ Collision (first.computeInputs elements ++ second.computeInputs elements')) {i : Nat}
    {a b : Bytes} (ha : elements[i]? = some a) (hb : elements'[i]? = some b) : a = b := by
  obtain ⟨hi, -⟩ := Std.ExtTreeMap.getElem?_eq_some_iff.mp ha
  have hpos : first.length.toNat ≠ 0 := Nat.ne_of_gt (Nat.zero_lt_of_lt (hbelow i hi))
  have hleaves := agree_leaves h h' hbelow hpos (isEmpty_eq_false_of_getElem? ha)
    (isEmpty_eq_false_of_getElem? hb) hsafe
  have hlength := length_eq_of_computeRoot h h' hsafe
  apply leafInput_injective
  apply eq_of_sha256_eq hsafe
  · exact List.mem_append_left _ (leafInput_mem_computeInputs hpos ha)
  · exact List.mem_append_right _ (leafInput_mem_computeInputs (hlength ▸ hpos) hb)
  · rw [sha256_leafInput, sha256_leafInput]
    exact hleaves i _ _ (by simp [leaves, ha]) (by simp [leaves, hb])

/-- Proofs of one range return the same elements, and have one length. -/
theorem verify_agree {start stop : Nat} {items items' : List (Nat × Bytes)}
    (h : first.verify root start stop = .ok items)
    (h' : second.verify root start stop = .ok items')
    (hsafe : ¬ Collision (first.inputs ++ second.inputs)) :
    first.length = second.length ∧ items = items' := by
  obtain ⟨-, hrange, elements, hindex, hsize, hfill, hroot, rfl⟩ := verify_eq_ok.mp h
  obtain ⟨-, -, elements', hindex', hsize', hfill', hroot', rfl⟩ := verify_eq_ok.mp h'
  rw [inputs, inputs, hindex, hindex'] at hsafe
  refine ⟨length_eq_of_computeRoot hroot hroot' hsafe, ?_⟩
  have hbelow : ∀ i ∈ elements, i < first.length.toNat := by
    intro i hi
    have := hfill i hi
    omega
  have hmem : ∀ i, i ∈ elements ↔ i ∈ elements' := by
    intro i
    rw [← Std.ExtTreeMap.mem_keys, ← Std.ExtTreeMap.mem_keys,
      ← Std.ExtTreeMap.map_fst_toList_eq_keys, ← Std.ExtTreeMap.map_fst_toList_eq_keys,
      keys_eq_range' hsize hfill, keys_eq_range' hsize' hfill']
  congr 1
  apply Std.ExtTreeMap.ext_getElem?
  intro i
  by_cases hi : i ∈ elements
  · have ha := Std.ExtTreeMap.getElem?_eq_some_getElem hi
    have hb := Std.ExtTreeMap.getElem?_eq_some_getElem ((hmem i).mp hi)
    rw [ha, hb, value_eq_of_computeRoot hroot hroot' hbelow hsafe ha hb]
  · rw [Std.ExtTreeMap.getElem?_eq_none hi,
      Std.ExtTreeMap.getElem?_eq_none fun hi' => hi ((hmem i).mpr hi')]

end

end ListProof

end LightClient.MerkleList

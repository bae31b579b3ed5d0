import LightClient.Proofs.MerkleList.Climb

/-! A list proof that passes against the root of a given list tells the truth
about it: the length it claims is the length of the list, and the elements it
returns are the elements of the range, in order. -/

namespace LightClient.MerkleList

/-! ## Strictly ascending indices -/

theorem length_le_of_ascending {l : List Nat} {a b : Nat} (h : l.Pairwise (· < ·))
    (hl : ∀ i ∈ l, a ≤ i ∧ i < b) : l.length ≤ b - a := by
  induction l generalizing a with
  | nil => simp
  | cons i l ih =>
    obtain ⟨hai, hib⟩ := hl i List.mem_cons_self
    have hrest : l.length ≤ b - (i + 1) := by
      apply ih h.tail
      intro j hj
      have hij := List.rel_of_pairwise_cons h hj
      exact ⟨hij, (hl j (List.mem_cons_of_mem _ hj)).2⟩
    rw [List.length_cons]
    omega

/-- As many ascending indices as a range has are all the indices of the range. -/
theorem eq_range'_of_ascending {l : List Nat} {a n : Nat} (h : l.Pairwise (· < ·))
    (hl : ∀ i ∈ l, a ≤ i ∧ i < a + n) (hlen : l.length = n) : l = List.range' a n := by
  induction l generalizing a n with
  | nil =>
    subst hlen
    rfl
  | cons i l ih =>
    obtain ⟨n, rfl⟩ : ∃ m, n = m + 1 := ⟨l.length, by simpa using hlen.symm⟩
    obtain ⟨hai, hib⟩ := hl i List.mem_cons_self
    obtain ⟨hfirst, htail⟩ := List.pairwise_cons.mp h
    have habove : ∀ j ∈ l, i + 1 ≤ j ∧ j < a + (n + 1) := fun j hj =>
      ⟨hfirst j hj, (hl j (List.mem_cons_of_mem _ hj)).2⟩
    have hcount := length_le_of_ascending htail habove
    rw [List.length_cons] at hlen
    obtain rfl : i = a := by omega
    rw [List.range'_succ, ← ih htail (fun j hj => by have := habove j hj; omega) (by omega)]

/-- Values listed under all indices of a list are the list. -/
theorem map_snd_eq_of_indices {list : List Bytes} {items : List (Nat × Bytes)}
    (hindices : items.map Prod.fst = List.range' 0 list.length)
    (hvalues : ∀ item ∈ items, list[item.1]? = some item.2) : items.map Prod.snd = list := by
  have hlen : items.length = list.length := by simpa using congrArg List.length hindices
  apply List.ext_getElem?
  intro i
  rw [List.getElem?_map]
  cases hitem : items[i]? with
  | none =>
    rw [List.getElem?_eq_none (hlen ▸ List.getElem?_eq_none_iff.mp hitem)]
    rfl
  | some item =>
    have hlt : i < list.length := hlen ▸ (List.getElem?_eq_some_iff.mp hitem).1
    have hindex : (items.map Prod.fst)[i]? = some (0 + 1 * i) := by
      rw [hindices, List.getElem?_range' hlt]
    rw [List.getElem?_map, hitem, Option.map_some, Nat.zero_add, Nat.one_mul] at hindex
    have hvalue := hvalues item (List.mem_of_getElem? hitem)
    rw [Option.some.inj hindex] at hvalue
    rw [hvalue]
    rfl

/-! ## What a proof that passes has established -/

namespace ListProof

/-- A proof passes when its range lies in the list, its elements fill the range
and its root is the expected one. -/
theorem verify_eq_ok {proof : ListProof} {expected : Digest} {start stop : Nat}
    {items : List (Nat × Bytes)} :
    proof.verify expected start stop = .ok items ↔
      proof.length.toNat ≤ maxLength ∧ (start ≤ stop ∧ stop ≤ proof.length.toNat) ∧
        ∃ elements, indexElements proof.length.toNat proof.elements ∅ = .ok elements ∧
          elements.size = stop - start ∧ (∀ i ∈ elements, start ≤ i ∧ i < stop) ∧
          proof.computeRoot elements = .ok expected ∧ items = elements.toList := by
  unfold verify checkRange
  by_cases hmax : maxLength < proof.length.toNat
  · simp only [if_pos hmax]
    constructor
    · intro h
      cases h
    · rintro ⟨hle, -⟩
      omega
  by_cases hrange : start ≤ stop ∧ stop ≤ proof.length.toNat
  · simp only [if_neg hmax, if_pos hrange, bind_eq_ok]
    constructor
    · rintro ⟨_, -, elements, hindex, h⟩
      split at h
      · rename_i hfill
        obtain ⟨root, hroot, h⟩ := bind_eq_ok.mp h
        split at h
        · rename_i heq
          cases h
          refine ⟨by omega, hrange, elements, hindex, hfill.1, ?_, heq ▸ hroot, rfl⟩
          intro i hi
          have := List.all_eq_true.mp hfill.2 i (Std.ExtTreeMap.mem_keys.mpr hi)
          simpa using this
        · cases h
      · cases h
    · rintro ⟨-, -, elements, hindex, hsize, hfill, hroot, rfl⟩
      refine ⟨(), trivial, elements, hindex, ?_⟩
      have hall : (elements.keys.all fun i => start ≤ i && i < stop) = true := by
        rw [List.all_eq_true]
        intro i hi
        have := hfill i (Std.ExtTreeMap.mem_keys.mp hi)
        simpa using this
      rw [if_pos ⟨hsize, hall⟩, hroot]
      exact if_pos rfl
  · simp only [if_neg hmax, if_neg hrange]
    constructor
    · intro h
      cases h
    · rintro ⟨-, hrange', -⟩
      exact absurd hrange' hrange

/-- The hashes of the elements, as the level the climb starts from. -/
def leaves (elements : Std.ExtTreeMap Nat Bytes) : Level :=
  elements.map fun _ value => leafHash value

/-- The byte strings that `computeRoot` hashes. -/
def computeInputs (proof : ListProof) (elements : Std.ExtTreeMap Nat Bytes) : List Bytes :=
  let length := proof.length.toNat
  let height := treeHeight length
  if length = 0 then [listInput 0 (.zero 32)]
  else if elements.isEmpty then proof.nodes.map fun node => listInput length node.hash
  else
    elements.toList.map (fun element => leafInput element.2) ++
      climbInputs proof.nodes height 0 (leaves elements) ++
      match climb length proof.nodes height 0 (leaves elements) with
      | .ok top => top[0]?.toList.map (listInput length)
      | .error _ => []

/-- The byte strings hashed when a list proof is verified. -/
def inputs (proof : ListProof) : List Bytes :=
  match indexElements proof.length.toNat proof.elements ∅ with
  | .ok elements => proof.computeInputs elements
  | .error _ => []

/-- The computed root binds the claimed length to the root of a tree. -/
theorem of_computeRoot {proof : ListProof} {elements : Std.ExtTreeMap Nat Bytes} {root : Digest}
    (h : proof.computeRoot elements = .ok root) :
    ∃ treeRoot, root = listHash proof.length.toNat treeRoot ∧
      listInput proof.length.toNat treeRoot ∈ proof.computeInputs elements ∧
      (proof.length.toNat ≠ 0 → elements.isEmpty = false →
        ∃ top, climb proof.length.toNat proof.nodes (treeHeight proof.length.toNat) 0
          (leaves elements) = .ok top ∧ top[0]? = some treeRoot) := by
  unfold computeRoot at h
  unfold computeInputs
  by_cases hzero : proof.length.toNat = 0
  · simp only [if_pos hzero] at h ⊢
    split at h
    · cases h
      exact ⟨.zero 32, by rw [hzero], by rw [hzero]; exact List.mem_singleton_self _,
        fun hne => absurd hzero hne⟩
    · cases h
  by_cases hempty : elements.isEmpty = true
  · simp only [if_neg hzero, if_pos hempty] at h ⊢
    split at h
    · rename_i node hnodes
      split at h
      · cases h
        refine ⟨node.hash, rfl, by simp [hnodes], fun _ hne => ?_⟩
        rw [hempty] at hne
        cases hne
      · cases h
    · cases h
  · simp only [if_neg hzero, if_neg hempty, bind_eq_ok] at h ⊢
    obtain ⟨_, -, top, hclimb, h⟩ := h
    split at h
    · rename_i treeRoot htop
      cases h
      refine ⟨treeRoot, rfl, ?_, fun _ _ => ⟨top, hclimb, htop⟩⟩
      apply List.mem_append_right
      have hclimb' : climb proof.length.toNat proof.nodes (treeHeight proof.length.toNat) 0
          (leaves elements) = .ok top := hclimb
      simp [hclimb', htop]
    · cases h

theorem climbInputs_subset_computeInputs (proof : ListProof) {elements : Std.ExtTreeMap Nat Bytes}
    (hlen : proof.length.toNat ≠ 0) (hne : elements.isEmpty = false) :
    elements.toList.map (fun element => leafInput element.2) ++
      climbInputs proof.nodes (treeHeight proof.length.toNat) 0 (leaves elements) ⊆
    proof.computeInputs elements := by
  unfold computeInputs
  rw [if_neg hlen, hne]
  exact List.subset_append_left _ _

theorem isEmpty_eq_false_of_getElem? {elements : Std.ExtTreeMap Nat Bytes} {i : Nat} {value : Bytes}
    (h : elements[i]? = some value) : elements.isEmpty = false := by
  obtain ⟨hmem, -⟩ := Std.ExtTreeMap.getElem?_eq_some_iff.mp h
  exact Std.ExtTreeMap.isEmpty_eq_false_iff.mpr (Std.ExtTreeMap.ne_empty_of_mem hmem)

/-- The leaf of every element is hashed. -/
theorem leafInput_mem_computeInputs {proof : ListProof} {elements : Std.ExtTreeMap Nat Bytes}
    (hlen : proof.length.toNat ≠ 0) {i : Nat} {value : Bytes} (h : elements[i]? = some value) :
    leafInput value ∈ proof.computeInputs elements := by
  apply climbInputs_subset_computeInputs proof hlen (isEmpty_eq_false_of_getElem? h)
  apply List.mem_append_left
  exact List.mem_map.mpr ⟨(i, value), Std.ExtTreeMap.mem_toList_iff_getElem?_eq_some.mpr h, rfl⟩

/-- The indices of as many elements as a range has, all of them in the range. -/
theorem keys_eq_range' {elements : Std.ExtTreeMap Nat Bytes} {start stop : Nat}
    (hsize : elements.size = stop - start) (hfill : ∀ i ∈ elements, start ≤ i ∧ i < stop) :
    elements.toList.map Prod.fst = List.range' start (stop - start) := by
  rw [Std.ExtTreeMap.map_fst_toList_eq_keys]
  apply eq_range'_of_ascending
  · apply List.Pairwise.imp _ Std.ExtTreeMap.ordered_keys
    intro i j hij
    exact Nat.compare_eq_lt.mp hij
  · intro i hi
    have := hfill i (Std.ExtTreeMap.mem_keys.mp hi)
    omega
  · rw [Std.ExtTreeMap.length_keys, hsize]

/-- An index below the length shrinks to nothing over the height of the tree. -/
theorem shiftRight_treeHeight {n i : Nat} (h : i < n) : i >>> treeHeight n = 0 := by
  unfold treeHeight
  split
  · have : i = 0 := by omega
    subst this
    exact Nat.zero_shiftRight _
  · rw [Nat.shiftRight_eq_div_pow, Nat.div_eq_zero_iff]
    right
    have := @Nat.lt_log2_self (n - 1)
    omega

section
variable {list : List Bytes} {proof : ListProof} {start stop : Nat} {items : List (Nat × Bytes)}

/-- The claimed length is the length of the list, and the computed root of the
tree is the root of its tree. -/
theorem length_and_treeRoot_of_root_eq {treeRoot' : Digest} (hlist : list.length ≤ maxLength)
    (hmax : proof.length.toNat ≤ maxLength) {xs : List Bytes}
    (hsafe : ¬ Collision (xs ++ rootInputs list))
    (hmem : listInput proof.length.toNat treeRoot' ∈ xs)
    (hroot : root list = listHash proof.length.toNat treeRoot') :
    proof.length.toNat = list.length ∧ treeRoot' = treeRoot list := by
  have hbound : maxLength < UInt64.size := by decide
  apply listInput_injective (by omega) (by omega)
  apply eq_of_sha256_eq hsafe (List.mem_append_left _ hmem)
  · apply List.mem_append_right
    exact List.mem_append_right _ (List.mem_singleton_self _)
  · exact hroot.symm

/-- The top of the climb holds nothing but the root of the tree. -/
theorem partOf_of_top {start top : Level} (hnonempty : list ≠ [])
    (hbelow : ∀ i ∈ start, i < list.length)
    (hclimb : climb list.length proof.nodes (treeHeight list.length) 0 start = .ok top)
    (htop : top[0]? = some (treeRoot list)) :
    top.PartOf (above (treeHeight list.length) (list.map leafHash)) := by
  intro j hash hj
  obtain ⟨hmem, -⟩ := Std.ExtTreeMap.getElem?_eq_some_iff.mp hj
  have hzero : j = 0 := by
    apply shiftRight_of_climb hclimb _ j hmem
    intro k hk
    apply shiftRight_treeHeight
    exact hbelow k hk
  subst hzero
  rw [getElem?_above_treeHeight hnonempty, ← htop, hj]

/-- The leaves that a climb to the root of the tree starts from are leaves of the tree. -/
theorem partOf_of_climb_treeRoot {start top : Level} (hnonempty : list ≠ [])
    (hbelow : ∀ i ∈ start, i < list.length)
    (hclimb : climb list.length proof.nodes (treeHeight list.length) 0 start = .ok top)
    (htop : top[0]? = some (treeRoot list))
    (hsafe : ¬ Collision (climbInputs proof.nodes (treeHeight list.length) 0 start ++
      rootInputs list)) :
    start.PartOf (list.map leafHash) := by
  apply partOf_of_climb hclimb _ (partOf_of_top hnonempty hbelow hclimb htop)
  apply not_collision_of_subset hsafe (List.Subset.refl _)
  rw [rootInputs, levelsInputs_eq_aboveInputs, List.length_map]
  exact List.subset_append_of_subset_left _ (List.subset_append_right _ _)

/-- A value is an element of the list when its hash is a leaf of the tree. -/
theorem getElem?_of_leafHash {xs : List Bytes} {i : Nat} {value : Bytes}
    (hleaf : (list.map leafHash)[i]? = some (leafHash value)) (hmem : leafInput value ∈ xs)
    (hsafe : ¬ Collision (xs ++ rootInputs list)) : list[i]? = some value := by
  rw [List.getElem?_map] at hleaf
  obtain ⟨value', hvalue', hhash⟩ := Option.map_eq_some_iff.mp hleaf
  have heq : value' = value := by
    apply leafInput_injective
    apply eq_of_sha256_eq hsafe
    · apply List.mem_append_right
      apply List.mem_append_left
      exact List.mem_append_left _ (List.mem_map_of_mem (List.mem_of_getElem? hvalue'))
    · exact List.mem_append_left _ hmem
    · exact hhash
  rw [hvalue', heq]

/-- The elements of a proof that passes are elements of the list. -/
theorem getElem?_of_mem_elements {elements : Std.ExtTreeMap Nat Bytes} {top : Level}
    (hlen : proof.length.toNat = list.length) (hne : elements.isEmpty = false)
    (hbelow : ∀ i ∈ elements, i < list.length)
    (hclimb : climb proof.length.toNat proof.nodes (treeHeight proof.length.toNat) 0
      (leaves elements) = .ok top) (htop : top[0]? = some (treeRoot list))
    (hsafe : ¬ Collision (proof.computeInputs elements ++ rootInputs list)) {i : Nat}
    {value : Bytes} (hvalue : elements[i]? = some value) : list[i]? = some value := by
  obtain ⟨hmem, -⟩ := Std.ExtTreeMap.getElem?_eq_some_iff.mp hvalue
  have hi := hbelow i hmem
  have hnonempty : list ≠ [] := List.ne_nil_of_length_pos (by omega)
  have hsub := climbInputs_subset_computeInputs proof (by omega) hne
  rw [hlen] at hclimb hsub
  have hstart : ∀ j ∈ leaves elements, j < list.length := by
    intro j hj
    exact hbelow j (by simpa [leaves] using hj)
  have hrow : (leaves elements).PartOf (list.map leafHash) := by
    apply partOf_of_climb_treeRoot hnonempty hstart hclimb htop
    exact not_collision_of_subset hsafe (List.append_subset.mp hsub).2 (List.Subset.refl _)
  exact getElem?_of_leafHash (hrow i (leafHash value) (by simp [leaves, hvalue]))
    (leafInput_mem_computeInputs (by omega) hvalue) hsafe

/-- What a proof that passes says, as long as no hashes collide. -/
theorem sound_of_verify (hlist : list.length ≤ maxLength)
    (h : proof.verify (root list) start stop = .ok items)
    (hsafe : ¬ Collision (proof.inputs ++ rootInputs list)) :
    proof.length.toNat = list.length ∧ (start ≤ stop ∧ stop ≤ list.length) ∧
      items.map Prod.fst = List.range' start (stop - start) ∧
      ∀ item ∈ items, list[item.1]? = some item.2 := by
  obtain ⟨hmax, hrange, elements, hindex, hsize, hfill, hroot, rfl⟩ := verify_eq_ok.mp h
  have hinputs : proof.inputs = proof.computeInputs elements := by rw [inputs, hindex]
  rw [hinputs] at hsafe
  obtain ⟨treeRoot', hhash, hmem, hclimb⟩ := of_computeRoot hroot
  obtain ⟨hlen, rfl⟩ := length_and_treeRoot_of_root_eq hlist hmax hsafe hmem hhash
  refine ⟨hlen, hlen ▸ hrange, keys_eq_range' hsize hfill, ?_⟩
  rintro ⟨i, value⟩ hitem
  have hvalue := Std.ExtTreeMap.mem_toList_iff_getElem?_eq_some.mp hitem
  obtain ⟨hi, -⟩ := Std.ExtTreeMap.getElem?_eq_some_iff.mp hvalue
  have hbelow : ∀ j ∈ elements, j < list.length := by
    intro j hj
    have := hfill j hj
    omega
  have hne := isEmpty_eq_false_of_getElem? hvalue
  have := hbelow i hi
  obtain ⟨top, hclimb, htop⟩ := hclimb (by omega) hne
  exact getElem?_of_mem_elements hlen hne hbelow hclimb htop hsafe hvalue

end

end ListProof

/-- A list proof that passes against the root of a given list has its length,
and returns the elements of the range in order, unless two byte strings hashed
for the proof or for the root collide. -/
theorem verified_list_sound (list : List Bytes) (hlist : list.length ≤ maxLength)
    (proof : ListProof) (start stop : Nat) (items : List (Nat × Bytes))
    (h : proof.verify (root list) start stop = .ok items) :
    (proof.length.toNat = list.length ∧ (start ≤ stop ∧ stop ≤ list.length) ∧
      items.map Prod.fst = List.range' start (stop - start) ∧
      ∀ item ∈ items, list[item.1]? = some item.2) ∨
    Collision (proof.inputs ++ rootInputs list) := by
  by_cases hsafe : Collision (proof.inputs ++ rootInputs list)
  · exact Or.inr hsafe
  · exact Or.inl (ListProof.sound_of_verify hlist h hsafe)

/-- A list whose last element stands alone on its level. -/
def threeElements : List Bytes := [[1], [2], [3]]

/-- The hash over the first two elements. -/
def firstTwo : Digest := branchHash (leafHash [1]) (some (leafHash [2]))

/-- A proof of the last element. -/
def lastOfThree : ListProof := ⟨3, [⟨1, 0, firstTwo⟩], [⟨2, [3]⟩]⟩

theorem root_threeElements : root threeElements =
    listHash 3 (branchHash firstTwo (some (branchHash (leafHash [3]) none))) := by
  simp [root, treeRoot, levelsOf, levels, parents, threeElements, firstTwo]

theorem verify_lastOfThree : lastOfThree.verify (root threeElements) 2 3 = .ok [(2, [3])] := by
  have hlength : lastOfThree.length.toNat = 3 := rfl
  rw [ListProof.verify_eq_ok, hlength, root_threeElements]
  refine ⟨by decide, by decide, (∅ : Std.ExtTreeMap Nat Bytes).insert 2 [3], rfl, rfl, ?_, rfl, rfl⟩
  intro i hi
  obtain rfl : 2 = i := by simpa using hi
  decide

/-- The guarantee at a proof of the last of three elements. -/
theorem verified_list_sound_lastOfThree :
    threeElements.length ≤ maxLength ∧
      lastOfThree.verify (root threeElements) 2 3 = .ok [(2, [3])] ∧
      ((lastOfThree.length.toNat = threeElements.length ∧
          (2 ≤ 3 ∧ 3 ≤ threeElements.length) ∧
          [(2, ([3] : Bytes))].map Prod.fst = List.range' 2 (3 - 2) ∧
          ∀ item ∈ [(2, ([3] : Bytes))], threeElements[item.1]? = some item.2) ∨
        Collision (lastOfThree.inputs ++ rootInputs threeElements)) :=
  ⟨by decide, verify_lastOfThree,
    verified_list_sound threeElements (by decide) lastOfThree 2 3 _ verify_lastOfThree⟩

end LightClient.MerkleList

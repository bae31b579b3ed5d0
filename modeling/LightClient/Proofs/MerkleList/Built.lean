import LightClient.MerkleList.Builder
import LightClient.Proofs.MerkleList.Check
import LightClient.Proofs.MerkleList.Span

/-! What a proof for a range is built from: on every level the nodes beside the span
of the range, each of them once, and the elements of the range with their indices. -/

namespace LightClient.MerkleList

/-! ## The nodes that are built -/

section
variable {start stop height : Nat} {row : List Digest}

theorem mem_beside {node : ProofNode} :
    node ∈ beside start stop height row ↔
      ∃ i hash, Beside row.length (start >>> height) ((stop - 1) >>> height) i ∧
        row[i]? = some hash ∧ node = proofNode height i hash := by
  unfold beside Beside
  generalize start >>> height = low
  generalize (stop - 1) >>> height = high
  simp only [List.mem_append, Option.mem_toList, Option.ite_none_right_eq_some,
    Option.map_eq_some_iff]
  constructor
  · rintro (⟨hodd, hash, hrow, rfl⟩ | ⟨heven, hash, hrow, rfl⟩)
    · exact ⟨low - 1, hash, Or.inl ⟨hodd, by omega⟩, hrow, rfl⟩
    · exact ⟨_, hash, Or.inr ⟨heven, rfl, (List.getElem?_eq_some_iff.mp hrow).1⟩, hrow, rfl⟩
  · rintro ⟨i, hash, ⟨hodd, hi⟩ | ⟨heven, rfl, -⟩, hrow, rfl⟩
    · obtain rfl : i = low - 1 := by omega
      exact Or.inl ⟨hodd, hash, hrow, rfl⟩
    · exact Or.inr ⟨heven, hash, hrow, rfl⟩

/-- The nodes beside a span stand at different places. -/
theorem nodup_beside (hrange : start < stop) (hrow : row.length < UInt64.size) :
    ((beside start stop height row).map ProofNode.place).Nodup := by
  have hle := shiftRight_le_shiftRight (by omega : start ≤ stop - 1) height
  have hone : ∀ node : Option ProofNode, node.toList.Pairwise (·.place ≠ ·.place) := by
    intro node
    cases node <;> simp
  rw [List.nodup_iff_pairwise_ne, List.pairwise_map]
  unfold beside
  generalize start >>> height = low at hle ⊢
  generalize (stop - 1) >>> height = high at hle ⊢
  refine List.pairwise_append.mpr ⟨hone _, hone _, ?_⟩
  intro m hm n hn heq
  simp only [Option.mem_toList, Option.ite_none_right_eq_some, Option.map_eq_some_iff] at hm hn
  obtain ⟨-, hash, hm, rfl⟩ := hm
  obtain ⟨-, hash', hn, rfl⟩ := hn
  have hlow := (List.getElem?_eq_some_iff.mp hm).1
  have hhigh := (List.getElem?_eq_some_iff.mp hn).1
  have hindex : (UInt64.ofNat (low - 1)).toNat = (UInt64.ofNat (high + 1)).toNat :=
    congrArg (UInt64.toNat ∘ Prod.snd) heq
  rw [UInt64.toNat_ofNat_of_lt' (by omega), UInt64.toNat_ofNat_of_lt' (by omega)] at hindex
  omega

end

/-- The nodes of a proof for a range that is not empty. -/
def rangeNodes (list : List Bytes) (start stop : Nat) : List ProofNode :=
  (List.range (treeHeight list.length)).flatMap fun height =>
    beside start stop height (above height (list.map leafHash))

theorem flatMap_beside_levelsOf (list : List Bytes) (start stop : Nat) :
    (((levelsOf list).take (treeHeight list.length)).zipIdx.flatMap fun (level, h) =>
      beside start stop h level) = rangeNodes list start stop := by
  have hlevels : ((levelsOf list).take (treeHeight list.length)).zipIdx =
      (List.range (treeHeight list.length)).map fun h => (above h (list.map leafHash), h) := by
    rw [levelsOf, levels_eq_map_above, List.length_map]
    apply List.ext_getElem?
    intro h
    simp only [List.getElem?_zipIdx, List.getElem?_take, List.getElem?_map]
    by_cases hh : h < treeHeight list.length
    · rw [if_pos hh, List.getElem?_range hh, List.getElem?_range (by omega)]
      simp
    · rw [if_neg hh, List.getElem?_eq_none (by simpa using hh)]
      rfl
  rw [hlevels, List.flatMap_map]
  rfl

section
variable {list : List Bytes} {start stop : Nat}

theorem ne_nil_of_lt_treeHeight {height : Nat} (h : height < treeHeight list.length) :
    list ≠ [] := by
  rintro rfl
  cases h

theorem length_above_leaves {height : Nat} (h : height < treeHeight list.length) :
    (above height (list.map leafHash)).length = levelSize list.length height := by
  rw [length_above (by simpa using ne_nil_of_lt_treeHeight h), List.length_map]

/-- A node of the tree keeps its height and its index in a proof. -/
theorem toNat_proofNode (hlist : list.length ≤ maxLength) {height i : Nat} {hash : Digest}
    (hheight : height < treeHeight list.length)
    (hrow : (above height (list.map leafHash))[i]? = some hash) :
    (proofNode height i hash).height.toNat = height ∧
      (proofNode height i hash).index.toNat = i ∧ i < levelSize list.length height := by
  have hlt := (List.getElem?_eq_some_iff.mp hrow).1
  rw [length_above_leaves hheight] at hlt
  have := levelSize_le list.length height
  have := treeHeight_le hlist
  have hmax : maxLength < UInt64.size := by decide
  have hsize : UInt8.size = 256 := rfl
  exact ⟨UInt8.toNat_ofNat_of_lt' (by omega), UInt64.toNat_ofNat_of_lt' (by omega), hlt⟩

/-- The nodes of a proof stand beside the span of its range, on every level. -/
theorem mem_rangeNodes {node : ProofNode} :
    node ∈ rangeNodes list start stop ↔
      ∃ height < treeHeight list.length, ∃ i hash,
        Beside (levelSize list.length height) (start >>> height) ((stop - 1) >>> height) i ∧
          (above height (list.map leafHash))[i]? = some hash ∧
          node = proofNode height i hash := by
  unfold rangeNodes
  simp only [List.mem_flatMap, List.mem_range, mem_beside]
  apply exists_congr
  intro height
  apply and_congr_right
  intro hheight
  rw [length_above_leaves hheight]

theorem nodup_rangeNodes (hlist : list.length ≤ maxLength) (hrange : start < stop) :
    ((rangeNodes list start stop).map ProofNode.place).Nodup := by
  have hmax : maxLength < UInt64.size := by decide
  rw [List.nodup_iff_pairwise_ne, List.pairwise_map]
  refine List.pairwise_flatMap.mpr ⟨?_, ?_⟩
  · intro height hmem
    have hrow : (above height (list.map leafHash)).length < UInt64.size := by
      rw [length_above_leaves (List.mem_range.mp hmem)]
      have := levelSize_le list.length height
      omega
    have hnodup : ((beside start stop height _).map ProofNode.place).Nodup :=
      nodup_beside hrange hrow
    rwa [List.nodup_iff_pairwise_ne, List.pairwise_map] at hnodup
  · -- nodes of different levels differ in their heights
    apply List.Pairwise.imp_of_mem _ List.pairwise_lt_range
    intro low high hlow hhigh hlt m hm n hn heq
    obtain ⟨i, hash, -, hrow, rfl⟩ := mem_beside.mp hm
    obtain ⟨j, hash', -, hrow', rfl⟩ := mem_beside.mp hn
    have hheight : (proofNode low i hash).height.toNat = (proofNode high j hash').height.toNat :=
      congrArg (UInt8.toNat ∘ Prod.fst) heq
    rw [(toNat_proofNode hlist (List.mem_range.mp hlow) hrow).1,
      (toNat_proofNode hlist (List.mem_range.mp hhigh) hrow').1] at hheight
    omega

/-- On every level the proof gives the nodes of the tree beside the span of its range. -/
theorem given_rangeNodes (hlist : list.length ≤ maxLength) (hrange : start < stop) {height : Nat}
    (hheight : height < treeHeight list.length) :
    (ListProof.given (rangeNodes list start stop) height).Shows (above height (list.map leafHash))
      (Beside (levelSize list.length height) (start >>> height) ((stop - 1) >>> height)) := by
  intro i hash
  rw [ListProof.getElem?_given (nodup_rangeNodes hlist hrange)]
  constructor
  · rintro ⟨node, hnode, hh, hi, rfl⟩
    obtain ⟨height', hheight', i', hash', hbeside, hrow, rfl⟩ := mem_rangeNodes.mp hnode
    obtain ⟨hh', hi', -⟩ := toNat_proofNode hlist hheight' hrow
    obtain rfl := hh'.symm.trans hh
    obtain rfl := hi'.symm.trans hi
    exact ⟨hbeside, hrow⟩
  · rintro ⟨hbeside, hrow⟩
    obtain ⟨hh, hi, -⟩ := toNat_proofNode hlist hheight hrow
    exact ⟨_, mem_rangeNodes.mpr ⟨height, hheight, i, hash, hbeside, hrow, rfl⟩, hh, hi, rfl⟩

theorem checkNodes_rangeNodes (hlist : list.length ≤ maxLength) (hrange : start < stop) :
    ListProof.checkNodes list.length (rangeNodes list start stop) [] = .ok () := by
  rw [ListProof.checkNodes_eq_ok]
  refine ⟨?_, nodup_rangeNodes hlist hrange, fun _ _ => List.not_mem_nil⟩
  intro node hnode
  obtain ⟨height, hheight, i, hash, -, hrow, rfl⟩ := mem_rangeNodes.mp hnode
  obtain ⟨hh, hi, hlt⟩ := toNat_proofNode hlist hheight hrow
  rw [hh, hi]
  exact ⟨hheight, hlt⟩

/-! ## The elements that are built -/

/-- The elements of a range with their indices. -/
def slice (list : List Bytes) (start stop : Nat) : List (Nat × Bytes) :=
  ((list.zipIdx.take stop).drop start).map Prod.swap

theorem getElem?_slice (k : Nat) : (slice list start stop)[k]? =
    if start + k < stop then (list[start + k]?).map (start + k, ·) else none := by
  unfold slice
  rw [List.getElem?_map, List.getElem?_drop, List.getElem?_take, List.getElem?_zipIdx,
    Nat.zero_add]
  split
  · rw [Option.map_map]
    rfl
  · rfl

theorem mem_slice {i : Nat} {value : Bytes} :
    (i, value) ∈ slice list start stop ↔ (start ≤ i ∧ i < stop) ∧ list[i]? = some value := by
  simp only [List.mem_iff_getElem?, getElem?_slice, Option.ite_none_right_eq_some,
    Option.map_eq_some_iff, Prod.mk.injEq]
  constructor
  · rintro ⟨k, hlt, _, hvalue, rfl, rfl⟩
    exact ⟨⟨by omega, hlt⟩, hvalue⟩
  · rintro ⟨⟨hle, hlt⟩, hvalue⟩
    have hi : start + (i - start) = i := by omega
    exact ⟨i - start, by omega, value, by rwa [hi], hi, rfl⟩

theorem map_fst_slice (hstop : stop ≤ list.length) :
    (slice list start stop).map Prod.fst = List.range' start (stop - start) := by
  apply List.ext_getElem?
  intro k
  rw [List.getElem?_map, getElem?_slice]
  by_cases hk : start + k < stop
  · rw [if_pos hk, List.getElem?_range' (by omega), List.getElem?_eq_getElem (by omega)]
    simp
  · rw [if_neg hk, List.getElem?_eq_none (by rw [List.length_range']; omega)]
    rfl

theorem nodup_map_fst_slice (hstop : stop ≤ list.length) :
    ((slice list start stop).map Prod.fst).Nodup := by
  rw [map_fst_slice hstop]
  exact List.nodup_range'

/-- The elements of a proof keep their indices. -/
theorem map_elementsOf (hlist : list.length ≤ maxLength) :
    (elementsOf list start stop).map (fun e => (e.index.toNat, e.value)) =
      slice list start stop := by
  unfold elementsOf slice
  rw [List.map_map]
  apply List.map_congr_left
  rintro ⟨value, i⟩ hmem
  have hget := List.mem_zipIdx_iff_getElem?.mp (List.mem_of_mem_take (List.mem_of_mem_drop hmem))
  have hlt := (List.getElem?_eq_some_iff.mp hget).1
  have hmax : maxLength < UInt64.size := by decide
  simp only [Function.comp_apply, Prod.swap_prod_mk, Prod.mk.injEq, and_true]
  exact UInt64.toNat_ofNat_of_lt' (by omega)

/-- The elements of a range by index. -/
def indexed (list : List Bytes) (start stop : Nat) : Std.ExtTreeMap Nat Bytes :=
  .ofList (slice list start stop)

theorem indexElements_elementsOf (hlist : list.length ≤ maxLength) (hstop : stop ≤ list.length) :
    ListProof.indexElements list.length (elementsOf list start stop) ∅ =
      .ok (indexed list start stop) := by
  have hpairs : (elementsOf list start stop).map (fun e => (e.index.toNat, e.value)) = _ :=
    map_elementsOf hlist
  rw [ListProof.indexElements_of_nodup, hpairs, indexed, Std.ExtTreeMap.ofList_eq_insertMany_empty]
  · have hindices := congrArg (List.map Prod.fst) hpairs
    rw [List.map_map, map_fst_slice hstop] at hindices
    have hnodup : (List.range' start (stop - start)).Nodup := List.nodup_range'
    rwa [← hindices] at hnodup
  · intro e he
    have hmem : (e.index.toNat, e.value) ∈ slice list start stop := by
      rw [← hpairs]
      exact List.mem_map_of_mem he
    have := (mem_slice.mp hmem).1
    omega
  · intro e _
    exact Std.ExtTreeMap.not_mem_empty

theorem getElem?_indexed (hstop : stop ≤ list.length) {i : Nat} {value : Bytes} :
    (indexed list start stop)[i]? = some value ↔
      (start ≤ i ∧ i < stop) ∧ list[i]? = some value := by
  rw [indexed, getElem?_ofList_eq_some (nodup_map_fst_slice hstop), mem_slice]

theorem mem_indexed (hstop : stop ≤ list.length) {i : Nat} :
    i ∈ indexed list start stop ↔ start ≤ i ∧ i < stop := by
  rw [indexed, Std.ExtTreeMap.mem_ofList, List.contains_iff_mem, map_fst_slice hstop,
    List.mem_range'_1]
  omega

theorem size_indexed (hstop : stop ≤ list.length) :
    (indexed list start stop).size = stop - start := by
  have hlength : ((slice list start stop).map Prod.fst).length = stop - start := by
    rw [map_fst_slice hstop, List.length_range']
  rw [List.length_map] at hlength
  rw [indexed, Std.ExtTreeMap.size_ofList (distinct_of_nodup (nodup_map_fst_slice hstop)), hlength]

end

end LightClient.MerkleList

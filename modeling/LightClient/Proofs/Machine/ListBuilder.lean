import LightClient.Machine.MerkleList.Builder
import LightClient.Proofs.Machine.ListProof
import LightClient.Proofs.MerkleList.Completeness

/-! Making a list proof stays within its bounds and comes to an end. Every row is followed by
one of half its size, so a single node is left after as many rows as the length gives; and
the nodes beside a range lie inside the rows, since their indices are shifted along with it. -/

namespace LightClient.Machine.ListProof

open MerkleList (ListProof ProofNode Element proofNode leafHash maxLength)

/-! ## Levels -/

theorem rowAbove_eq (row : List Digest) : rowAbove row = .ok (MerkleList.parents row) := by
  unfold rowAbove
  induction row using MerkleList.parents.induct with
  | case1 => rfl
  | case2 last => rfl
  | case3 left right rest ih =>
    rw [chunks, List.mapM_cons, ih, MerkleList.parents]
    rfl

theorem levelsFrom_concat (rounds : Nat) (below : List (List Digest)) (row : List Digest) :
    levelsFrom (rounds + 1) (below ++ [row]) = if 1 < row.length then
      levelsFrom rounds (below ++ [row] ++ [MerkleList.parents row])
      else pure (below ++ [row]) := by
  have hlast : (below ++ [row])[below.length]? = some row := by simp
  have hsub : sub (below ++ [row]).length 1 = .ok below.length := by
    rw [List.length_append]
    exact sub_of_le (Nat.le_add_left _ _)
  rw [levelsFrom, Run.lift_bind hsub, Run.lift_bind (get_of_getElem? hlast)]
  split
  · rw [Run.lift_bind (rowAbove_eq row)]
  · rfl

/-- **Run.** Rows are added up to the root, one for each unit of the height. -/
theorem levelsFrom_eq {rounds : Nat} (below : List (List Digest)) {row : List Digest}
    (hrounds : MerkleList.treeHeight row.length < rounds) :
    levelsFrom rounds (below ++ [row]) = pure (below ++ MerkleList.levels row) := by
  induction row using MerkleList.levels.induct generalizing below rounds with
  | case1 row h =>
    obtain ⟨rounds, rfl⟩ : ∃ r, rounds = r + 1 := ⟨rounds - 1, by omega⟩
    rw [levelsFrom_concat, if_neg (by omega), MerkleList.levels, if_pos h]
  | case2 row h ih =>
    have hheight := MerkleList.treeHeight_parents (n := row.length) (by omega)
    rw [MerkleList.length_parents] at ih
    obtain ⟨rounds, rfl⟩ : ∃ r, rounds = r + 1 := ⟨rounds - 1, by omega⟩
    rw [levelsFrom_concat, if_pos (by omega), ih _ (by omega), MerkleList.levels.eq_def row,
      if_neg h, List.append_assoc, List.singleton_append]

theorem levels_eq {rounds : Nat} {elements : List Bytes}
    (hrounds : MerkleList.treeHeight elements.length < rounds) :
    levels rounds elements = pure (MerkleList.levelsOf elements) :=
  levelsFrom_eq [] (by rwa [List.length_map])

/-! ## A proof for a range -/

theorem leftOf_eq {low : Nat} {row : List Digest} (h : low < row.length) (height : Nat) :
    leftOf low height row = .ok (if low % 2 = 1 then
      (row[low - 1]?).map (proofNode height (low - 1)) else none) := by
  unfold leftOf
  split
  · have hget := List.getElem?_eq_getElem (by omega : low - 1 < row.length)
    rw [sub_of_le (by omega), ok_bind, get_of_getElem? hget, hget]
    rfl
  · rfl

theorem rightOf_eq {high : Nat} {row : List Digest} (h : high + 1 < 1 <<< 64) (height : Nat) :
    rightOf high height row = .ok (if high % 2 = 0 then
      (row[high + 1]?).map (proofNode height (high + 1)) else none) := by
  unfold rightOf
  split
  · rw [add_of_lt h, ok_bind]
    split
    · rename_i hinside
      have hget := List.getElem?_eq_getElem hinside
      rw [get_of_getElem? hget, hget]
      rfl
    · rename_i houtside
      rw [List.getElem?_eq_none (by omega)]
      rfl
  · rfl

section
variable {elements : List Bytes} {start stop height : Nat} {row : List Digest}

/-- **Step.** What lies beside the range on a row lies inside the row. -/
theorem beside_eq (hlength : elements.length ≤ maxLength) (hrange : start < stop)
    (hstop : stop ≤ elements.length) (hheight : height < 64)
    (hrow : row.length = MerkleList.levelSize elements.length height) :
    beside start stop height row = .ok (MerkleList.beside start stop height row) := by
  have hlow : start >>> height < row.length :=
    hrow ▸ MerkleList.shiftRight_lt_levelSize (by omega) height
  have hhigh : (stop - 1) >>> height < row.length :=
    hrow ▸ MerkleList.shiftRight_lt_levelSize (by omega) height
  have hsize := hrow ▸ MerkleList.levelSize_le elements.length height
  have hmax : maxLength < 1 <<< 64 := by decide
  rw [beside, shiftRight_of_lt hheight, ok_bind, sub_of_le (by omega), ok_bind,
    shiftRight_of_lt hheight, ok_bind, leftOf_eq hlow, ok_bind, rightOf_eq (by omega), ok_bind]
  rfl

theorem nodesBeside_eq (hlength : elements.length ≤ maxLength) (hrange : start < stop)
    (hstop : stop ≤ elements.length) :
    nodesBeside (MerkleList.levelsOf elements) (MerkleList.treeHeight elements.length) start stop =
      .ok (MerkleList.rangeNodes elements start stop) := by
  have htree := MerkleList.treeHeight_le hlength
  have hrows : ∀ h ∈ List.range (MerkleList.treeHeight elements.length),
      (do beside start stop h (← get (MerkleList.levelsOf elements) h)) =
        .ok (MerkleList.beside start stop h (MerkleList.above h (elements.map leafHash))) := by
    intro h hmem
    have hlt := List.mem_range.mp hmem
    rw [get_of_getElem? (MerkleList.getElem?_levelsOf (Nat.le_of_lt hlt)), ok_bind]
    exact beside_eq hlength hrange hstop (by omega) (MerkleList.length_above_leaves hlt)
  rw [nodesBeside, mapM_of_ok hrows, ok_bind, MerkleList.rangeNodes, List.flatMap_def]
  rfl

theorem elementsOf_eq (hstop : stop ≤ elements.length) :
    elementsOf elements start stop = .ok (MerkleList.elementsOf elements start stop) := by
  have hget : ∀ i ∈ List.range' start (stop - start),
      (do return ⟨UInt64.ofNat i, ← get elements i⟩ : Step Element) =
        .ok ⟨UInt64.ofNat i, elements.getD i []⟩ := by
    intro i hi
    have hlt : i < elements.length := by
      rw [List.mem_range'_1] at hi
      omega
    rw [get_of_getElem? (List.getElem?_eq_getElem hlt), List.getElem_eq_getD []]
    rfl
  rw [elementsOf, mapM_of_ok hget, ← MerkleList.map_fst_slice hstop, List.map_map,
    MerkleList.slice, MerkleList.elementsOf, List.map_map]
  refine congrArg _ (List.map_congr_left ?_)
  rintro ⟨value, i⟩ hmem
  have hvalue := List.mem_zipIdx_iff_getElem?.mp (List.mem_of_mem_take (List.mem_of_mem_drop hmem))
  simp [hvalue]

theorem elementsOf_of_le (h : stop ≤ start) : MerkleList.elementsOf elements start stop = [] := by
  rw [MerkleList.elementsOf, List.drop_eq_nil_of_le (by rw [List.length_take]; omega)]
  rfl

/-- Any proof is made, or its range refused, without a trap. -/
theorem build_eq {rounds : Nat} (hlength : elements.length ≤ maxLength)
    (hrounds : MerkleList.treeHeight elements.length < rounds) (start stop : Nat) :
    build rounds elements start stop = pure (MerkleList.buildProof elements start stop) := by
  by_cases hrange : start ≤ stop ∧ stop ≤ elements.length
  · have hcheck : MerkleList.checkRange start stop elements.length = .ok () := if_pos hrange
    rw [MerkleList.buildProof_eq_ok hrange.1 hrange.2, MerkleList.builtProof, MerkleList.nodesFor,
      build]
    simp only [hcheck]
    split
    · rename_i hempty
      obtain rfl := List.eq_nil_of_length_eq_zero hempty
      simp [MerkleList.elementsOf]
    · rename_i hne
      rw [levels_eq hrounds, pure_bind, Run.lift_bind (treeHeight_eq hlength)]
      split
      · have hroot := MerkleList.getElem?_above_treeHeight
          (List.ne_nil_of_length_pos (Nat.pos_of_ne_zero hne))
        rw [Run.lift_bind (get_of_getElem? (MerkleList.getElem?_levelsOf (Nat.le_refl _))),
          Run.lift_bind (get_of_getElem? hroot), if_pos (by omega), elementsOf_of_le ‹_›]
      · rw [Run.lift_bind (nodesBeside_eq hlength (by omega) hrange.2),
          Run.lift_bind (elementsOf_eq hrange.2), if_neg (by omega)]
  · have hcheck : MerkleList.checkRange start stop elements.length = _ := if_neg hrange
    rw [MerkleList.buildProof_eq_error (by omega), build]
    simp only [hcheck]

end

end LightClient.Machine.ListProof

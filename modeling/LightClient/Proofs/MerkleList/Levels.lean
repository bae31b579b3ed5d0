import LightClient.MerkleList.Tree
import LightClient.Proofs.Hash

/-! The levels of the tree over a list. `above k level` is the level `k` steps
above; after `treeHeight` steps a single node is left, the root of the tree. -/

namespace LightClient.MerkleList

/-! ## What is hashed -/

/-- What `leafHash` hashes. -/
def leafInput (element : Bytes) : Bytes := [[0], element].flatten

/-- What `branchHash` hashes. -/
def branchInput (left : Digest) : Option Digest → Bytes
  | some right => [[1], left.toList, right.toList].flatten
  | none => [[1], left.toList].flatten

/-- What `listHash` hashes. -/
def listInput (length : Nat) (treeRoot : Digest) : Bytes :=
  [[2], little 8 length, treeRoot.toList].flatten

theorem sha256_leafInput (element : Bytes) : sha256 (leafInput element) = leafHash element := rfl

theorem sha256_branchInput (left : Digest) (right : Option Digest) :
    sha256 (branchInput left right) = branchHash left right := by
  cases right <;> rfl

theorem sha256_listInput (length : Nat) (treeRoot : Digest) :
    sha256 (listInput length treeRoot) = listHash length treeRoot := rfl

theorem leafInput_injective {e e' : Bytes} (h : leafInput e = leafInput e') : e = e' := by
  simpa [leafInput] using h

/-- The number of children shows in the length of the input. -/
theorem branchInput_injective {l l' : Digest} {r r' : Option Digest}
    (h : branchInput l r = branchInput l' r') : l = l' ∧ r = r' := by
  have hlen := congrArg List.length h
  cases r with
  | none =>
    cases r' with
    | none =>
      refine ⟨?_, rfl⟩
      apply FixedBytes.toList_injective
      simpa [branchInput] using h
    | some r' => simp [branchInput] at hlen
  | some r =>
    cases r' with
    | none => simp [branchInput] at hlen
    | some r' =>
      simp only [branchInput, List.flatten_cons, List.flatten_nil, List.append_nil] at h
      obtain ⟨-, h⟩ := List.append_inj h rfl
      obtain ⟨hl, hr⟩ := List.append_inj h (by simp)
      exact ⟨FixedBytes.toList_injective hl, congrArg some (FixedBytes.toList_injective hr)⟩

/-- The input fixes the root of the tree and a length of 64 bits. -/
theorem listInput_injective {n n' : Nat} {t t' : Digest} (hn : n < UInt64.size)
    (hn' : n' < UInt64.size) (h : listInput n t = listInput n' t') : n = n' ∧ t = t' := by
  simp only [listInput, List.flatten_cons, List.flatten_nil, List.append_nil] at h
  obtain ⟨-, h⟩ := List.append_inj h rfl
  obtain ⟨hlen, ht⟩ := List.append_inj h (by simp)
  refine ⟨?_, FixedBytes.toList_injective ht⟩
  have hvalue := congrArg ofLittle hlen
  rw [ofLittle_little, ofLittle_little] at hvalue
  have hsize : Nat.pow 256 8 = UInt64.size := rfl
  rwa [hsize, Nat.mod_eq_of_lt hn, Nat.mod_eq_of_lt hn'] at hvalue

/-! ## Rows -/

/-- A node of the level above has the hashes of its one or two children. -/
theorem getElem?_parents (level : List Digest) (j : Nat) :
    (parents level)[j]? = (level[2 * j]?).map fun left => branchHash left level[2 * j + 1]? := by
  induction level using parents.induct generalizing j with
  | case1 => simp [parents]
  | case2 last =>
    cases j with
    | zero => simp [parents]
    | succ j =>
      have h : 2 * (j + 1) = 2 * j + 1 + 1 := by omega
      simp [parents, h]
  | case3 left right rest ih =>
    cases j with
    | zero => simp [parents]
    | succ j =>
      have h : 2 * (j + 1) = 2 * j + 1 + 1 := by omega
      simp only [parents, h, List.getElem?_cons_succ, ih]

/-- The level a number of steps above. -/
def above : Nat → List Digest → List Digest
  | 0, level => level
  | k + 1, level => above k (parents level)

/-- The byte strings that `parents` hashes. -/
def parentsInputs : List Digest → List Bytes
  | [] => []
  | [last] => [branchInput last none]
  | left :: right :: rest => branchInput left (some right) :: parentsInputs rest

theorem branchInput_mem_parentsInputs {level : List Digest} {j : Nat} {left : Digest}
    (h : level[2 * j]? = some left) :
    branchInput left level[2 * j + 1]? ∈ parentsInputs level := by
  induction level using parents.induct generalizing j with
  | case1 => simp at h
  | case2 last =>
    cases j with
    | zero => simp_all [parentsInputs]
    | succ j =>
      have hj : 2 * (j + 1) = 2 * j + 1 + 1 := by omega
      simp [hj] at h
  | case3 l r rest ih =>
    cases j with
    | zero => simp_all [parentsInputs]
    | succ j =>
      have hj : 2 * (j + 1) = 2 * j + 1 + 1 := by omega
      simp only [hj, List.getElem?_cons_succ] at h ⊢
      exact List.mem_cons_of_mem _ (ih h)

/-- The byte strings hashed on the way to the level `k` steps above. -/
def aboveInputs : Nat → List Digest → List Bytes
  | 0, _ => []
  | k + 1, level => parentsInputs level ++ aboveInputs k (parents level)

theorem above_ne_nil {level : List Digest} (h : level ≠ []) (k : Nat) : above k level ≠ [] := by
  induction k generalizing level with
  | zero => exact h
  | succ k ih =>
    apply ih
    intro hnil
    have := congrArg List.length hnil
    have hpos := List.length_pos_iff.mpr h
    rw [length_parents, List.length_nil] at this
    omega

/-! ## The whole tree -/

/-- The byte strings that `levels` hashes. -/
def levelsInputs (level : List Digest) : List Bytes :=
  if level.length ≤ 1 then [] else parentsInputs level ++ levelsInputs (parents level)
termination_by level.length
decreasing_by rw [length_parents]; omega

/-- The byte strings that `root` hashes. -/
def rootInputs (elements : List Bytes) : List Bytes :=
  elements.map leafInput ++ levelsInputs (elements.map leafHash) ++
    [listInput elements.length (treeRoot elements)]

/-- A list of more than one element has one level more than its level above. -/
theorem treeHeight_parents {n : Nat} (h : 1 < n) : treeHeight n = treeHeight ((n + 1) / 2) + 1 := by
  unfold treeHeight
  rw [if_neg (by omega)]
  by_cases hn : n = 2
  · subst hn
    rfl
  · have hhalf : (n - 1) / 2 = (n + 1) / 2 - 1 := by omega
    rw [if_neg (by omega), Nat.log2_def (n - 1), if_pos (by omega), hhalf]

/-- The levels of a tree are the levels above its leaves, up to its height. -/
theorem levels_eq_map_above (level : List Digest) :
    levels level = (List.range (treeHeight level.length + 1)).map fun k => above k level := by
  induction level using levels.induct with
  | case1 level h =>
    have hheight : treeHeight level.length = 0 := by rw [treeHeight, if_pos h]
    rw [levels, if_pos h, hheight]
    rfl
  | case2 level h ih =>
    have hheight := treeHeight_parents (n := level.length) (by omega)
    rw [length_parents] at ih
    rw [levels, if_neg h, hheight, List.range_succ_eq_map, List.map_cons, List.map_map, ih]
    rfl

theorem length_levelsOf (elements : List Bytes) :
    (levelsOf elements).length = treeHeight elements.length + 1 := by
  rw [levelsOf, levels_eq_map_above, List.length_map, List.length_range, List.length_map]

/-- The row at a height is the one so many steps above the leaves. -/
theorem getElem?_levelsOf {elements : List Bytes} {height : Nat}
    (h : height ≤ treeHeight elements.length) :
    (levelsOf elements)[height]? = some (above height (elements.map leafHash)) := by
  rw [levelsOf, levels_eq_map_above, List.length_map, List.getElem?_map,
    List.getElem?_range (by omega)]
  rfl

theorem getLastD_levels (level : List Digest) :
    (levels level).getLastD [] = above (treeHeight level.length) level := by
  rw [levels_eq_map_above, List.range_succ, List.map_append, List.map_singleton,
    List.getLastD_concat]

theorem levelsInputs_eq_aboveInputs (level : List Digest) :
    levelsInputs level = aboveInputs (treeHeight level.length) level := by
  induction level using levels.induct with
  | case1 level h =>
    have hheight : treeHeight level.length = 0 := by rw [treeHeight, if_pos h]
    rw [levelsInputs, if_pos h, hheight]
    rfl
  | case2 level h ih =>
    have hheight := treeHeight_parents (n := level.length) (by omega)
    rw [length_parents] at ih
    rw [levelsInputs, if_neg h, hheight, ih]
    rfl

/-- The root of the tree is what the leaves lead up to. -/
theorem getElem?_above_treeHeight {elements : List Bytes} (h : elements ≠ []) :
    (above (treeHeight elements.length) (elements.map leafHash))[0]? =
      some (treeRoot elements) := by
  have hne : elements.map leafHash ≠ [] := by simpa using h
  rw [treeRoot, levelsOf, getLastD_levels, List.length_map]
  cases habove : above (treeHeight elements.length) (elements.map leafHash) with
  | nil => exact absurd habove (above_ne_nil hne _)
  | cons d ds => rfl

end LightClient.MerkleList

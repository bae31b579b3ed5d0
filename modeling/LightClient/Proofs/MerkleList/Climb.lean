import LightClient.MerkleList.Proof
import LightClient.Proofs.Except
import LightClient.Proofs.MerkleList.Levels

/-! The climb from the elements of a list proof to the root of the tree. If what
comes out on top is part of a row then everything that went in is part of the row
it was computed from, unless the hashes of both collide. -/

namespace LightClient.MerkleList

/-! ## Siblings -/

/-- Nodes of one parent are siblings: `2 * j` and `2 * j + 1`. -/
theorem sibling_eq (i : Nat) : Level.sibling i = 2 * (i / 2) + (1 - i % 2) := by
  have hdiv : (i ^^^ 1) / 2 = i / 2 := by
    rw [Nat.xor_div_two]
    exact Nat.xor_zero _
  have hmod : (i ^^^ 1) % 2 = 1 - i % 2 := by
    have h := @Nat.xor_mod_two_eq_one i 1
    omega
  unfold Level.sibling
  omega

theorem sibling_div_two (i : Nat) : Level.sibling i / 2 = i / 2 := by
  rw [sibling_eq]
  omega

namespace Level

/-! ## Levels as maps -/

/-- A level together with the nodes that a proof gives for it. -/
def withGiven (computed given : Level) : Level := computed.insertMany given.toList

theorem getElem?_withGiven (computed given : Level) (i : Nat) :
    (computed.withGiven given)[i]? = (given[i]?).or computed[i]? := by
  unfold withGiven
  cases hg : given[i]? with
  | some d =>
    exact Std.ExtTreeMap.getElem?_insertMany_list_of_mem (by simp)
      Std.ExtTreeMap.distinct_keys_toList (Std.ExtTreeMap.mem_toList_iff_getElem?_eq_some.mpr hg)
  | none =>
    apply Std.ExtTreeMap.getElem?_insertMany_list_of_contains_eq_false
    rw [← Bool.not_eq_true, List.contains_iff_mem]
    intro hmem
    obtain ⟨⟨j, d⟩, hpair, rfl⟩ := List.mem_map.mp hmem
    rw [Std.ExtTreeMap.mem_toList_iff_getElem?_eq_some.mp hpair] at hg
    cases hg

/-- A node of the level above has the hashes of its one or two known children. -/
theorem getElem?_parents (level : Level) (j : Nat) :
    (parents level)[j]? = (level[2 * j]?).map fun left => branchHash left level[2 * j + 1]? := by
  unfold parents
  cases hl : level[2 * j]? with
  | some left =>
    apply Std.ExtTreeMap.getElem?_ofList_of_mem (k := j) (by simp)
    · rw [List.pairwise_filterMap]
      apply List.Pairwise.imp _ Std.ExtTreeMap.distinct_keys_toList
      rintro ⟨i, d⟩ ⟨i', d'⟩ hne b hb b' hb' heq
      obtain ⟨heven, hb⟩ := Option.ite_none_right_eq_some.mp hb
      obtain ⟨heven', hb'⟩ := Option.ite_none_right_eq_some.mp hb'
      cases hb
      cases hb'
      apply hne
      have := Std.LawfulEqOrd.eq_of_compare heq
      simp only [Nat.compare_eq_eq] at this ⊢
      omega
    · refine List.mem_filterMap.mpr ⟨(2 * j, left), ?_, ?_⟩
      · exact Std.ExtTreeMap.mem_toList_iff_getElem?_eq_some.mpr hl
      · simp
  | none =>
    apply Std.ExtTreeMap.getElem?_ofList_of_contains_eq_false
    rw [← Bool.not_eq_true, List.contains_iff_mem]
    intro hmem
    obtain ⟨⟨j', d⟩, hpair, rfl⟩ := List.mem_map.mp hmem
    obtain ⟨⟨i, d'⟩, hi, hpar⟩ := List.mem_filterMap.mp hpair
    obtain ⟨heven, heq⟩ := Option.ite_none_right_eq_some.mp hpar
    cases heq
    have hget := Std.ExtTreeMap.mem_toList_iff_getElem?_eq_some.mp hi
    have hi2 : 2 * (i / 2) = i := by omega
    rw [hi2, hget] at hl
    cases hl

theorem mem_withGiven {computed given : Level} {i : Nat} :
    i ∈ computed.withGiven given ↔ i ∈ given ∨ i ∈ computed := by
  rw [← Std.ExtTreeMap.isSome_getElem?_iff_mem, getElem?_withGiven, Option.isSome_or,
    Bool.or_eq_true, Std.ExtTreeMap.isSome_getElem?_iff_mem, Std.ExtTreeMap.isSome_getElem?_iff_mem]

/-- The nodes of the level above are the parents of the left children. -/
theorem mem_parents {level : Level} {j : Nat} : j ∈ parents level ↔ 2 * j ∈ level := by
  rw [← Std.ExtTreeMap.isSome_getElem?_iff_mem, getElem?_parents, Option.isSome_map,
    Std.ExtTreeMap.isSome_getElem?_iff_mem]

/-! ## The check of a level -/

/-- Every computed node has its sibling unless it stands alone at the end, and
every given node stands beside a computed one. -/
theorem check_eq_ok {size height : Nat} {computed given : Level} :
    check size height computed given = .ok () ↔
      (∀ i ∈ computed, endsAlone size i = true ∨ sibling i ∈ computed ∨ sibling i ∈ given) ∧
        ∀ i ∈ given, i ∉ computed ∧ sibling i ∈ computed := by
  unfold check firstMissing firstUnwanted
  constructor
  · intro h
    split at h
    · cases h
    · rename_i hmissing
      split at h
      · split at h <;> cases h
      · rename_i hunwanted
        refine ⟨?_, ?_⟩
        · intro i hi
          have := List.find?_eq_none.mp hmissing i (Std.ExtTreeMap.mem_keys.mpr hi)
          simp only [Bool.and_eq_true, Bool.not_eq_true', decide_eq_true_eq] at this
          grind
        · intro i hi
          have := List.find?_eq_none.mp hunwanted i (Std.ExtTreeMap.mem_keys.mpr hi)
          simpa using this
  · rintro ⟨hsib, hgiven⟩
    have hmissing : (computed.keys.find? fun i =>
        !endsAlone size i && sibling i ∉ computed && sibling i ∉ given) = none := by
      rw [List.find?_eq_none]
      intro i hi
      have := hsib i (Std.ExtTreeMap.mem_keys.mp hi)
      simp only [Bool.and_eq_true, Bool.not_eq_true', decide_eq_true_eq]
      grind
    have hunwanted : (given.keys.find? fun i =>
        i ∈ computed || sibling i ∉ computed) = none := by
      rw [List.find?_eq_none]
      intro i hi
      have := hgiven i (Std.ExtTreeMap.mem_keys.mp hi)
      simpa using this
    simp only [hmissing, hunwanted]

/-- The byte strings that `parents` hashes. -/
def parentsInputs (level : Level) : List Bytes :=
  level.toList.filterMap fun (i, hash) =>
    if i % 2 = 0 then some (branchInput hash level[i + 1]?) else none

theorem branchInput_mem_parentsInputs {level : Level} {j : Nat} {left : Digest}
    (h : level[2 * j]? = some left) :
    branchInput left level[2 * j + 1]? ∈ parentsInputs level := by
  refine List.mem_filterMap.mpr ⟨(2 * j, left), ?_, ?_⟩
  · exact Std.ExtTreeMap.mem_toList_iff_getElem?_eq_some.mpr h
  · simp

/-! ## A step down -/

section
variable {size height : Nat} {computed given : Level}

/-- No given node takes the place of a computed one. -/
theorem getElem?_withGiven_of_check (hcheck : check size height computed given = .ok ()) {i : Nat}
    {hash : Digest} (hi : computed[i]? = some hash) :
    (computed.withGiven given)[i]? = some hash := by
  obtain ⟨-, hgiven⟩ := check_eq_ok.mp hcheck
  obtain ⟨hcomputed, -⟩ := Std.ExtTreeMap.getElem?_eq_some_iff.mp hi
  have hnone : given[i]? = none :=
    Std.ExtTreeMap.getElem?_eq_none fun hg => (hgiven i hg).1 hcomputed
  rw [getElem?_withGiven, hnone, hi]
  rfl

/-- The left child of the parent of a computed node is known. -/
theorem exists_left_of_check (hcheck : check size height computed given = .ok ()) {i : Nat}
    {hash : Digest} (hi : computed[i]? = some hash) :
    ∃ left, (computed.withGiven given)[2 * (i / 2)]? = some left := by
  obtain ⟨hsib, -⟩ := check_eq_ok.mp hcheck
  obtain ⟨hcomputed, -⟩ := Std.ExtTreeMap.getElem?_eq_some_iff.mp hi
  by_cases heven : i % 2 = 0
  · have hi2 : 2 * (i / 2) = i := by omega
    exact ⟨hash, by rw [hi2, getElem?_withGiven_of_check hcheck hi]⟩
  · have hodd : sibling i = 2 * (i / 2) := by
      rw [sibling_eq]
      omega
    have halone : endsAlone size i = false := by
      unfold endsAlone
      grind
    rw [← hodd, ← Option.isSome_iff_exists, getElem?_withGiven, Option.isSome_or,
      Std.ExtTreeMap.isSome_getElem?_eq_contains, Std.ExtTreeMap.isSome_getElem?_eq_contains]
    rcases hsib i hcomputed with hs | hs | hs
    · rw [halone] at hs
      cases hs
    · simp [Std.ExtTreeMap.contains_iff_mem.mpr hs]
    · simp [Std.ExtTreeMap.contains_iff_mem.mpr hs]

end

/-- What agrees on both children of a node agrees on each of them. -/
theorem eq_of_children {f g : Nat → Option Digest} {i : Nat}
    (hleft : f (2 * (i / 2)) = g (2 * (i / 2)))
    (hright : f (2 * (i / 2) + 1) = g (2 * (i / 2) + 1)) : f i = g i := by
  by_cases heven : i % 2 = 0
  · have hi : 2 * (i / 2) = i := by omega
    rwa [hi] at hleft
  · have hi : 2 * (i / 2) + 1 = i := by omega
    rwa [hi] at hright

/-- All known nodes are nodes of the row. -/
def PartOf (level : Level) (row : List Digest) : Prop :=
  ∀ (i : Nat) (hash : Digest), level[i]? = some hash → row[i]? = some hash

/-- **Step.** Known nodes whose parents are part of the row above are part of the row. -/
theorem PartOf.of_parents {size height : Nat} {computed given : Level} {row : List Digest}
    (hcheck : check size height computed given = .ok ())
    (hsafe : ¬ Collision (parentsInputs (computed.withGiven given) ++
      MerkleList.parentsInputs row))
    (h : PartOf (parents (computed.withGiven given)) (MerkleList.parents row)) :
    PartOf computed row := by
  intro i hash hi
  obtain ⟨left, hleft⟩ := exists_left_of_check hcheck hi
  -- its parent is a parent in the row, with the same children
  have hparent := h (i / 2) _ (by rw [getElem?_parents, hleft]; rfl)
  rw [MerkleList.getElem?_parents] at hparent
  obtain ⟨left', hleft', hhash⟩ := Option.map_eq_some_iff.mp hparent
  obtain ⟨hl, hr⟩ := branchInput_injective (eq_of_sha256_eq hsafe
    (List.mem_append_right _ (MerkleList.branchInput_mem_parentsInputs hleft'))
    (List.mem_append_left _ (branchInput_mem_parentsInputs hleft))
    (by rw [sha256_branchInput, sha256_branchInput, hhash]))
  have hsame : row[i]? = (computed.withGiven given)[i]? :=
    eq_of_children (f := fun i => row[i]?) (g := fun i => (computed.withGiven given)[i]?)
      (by rw [hleft', hleft, hl]) hr
  rw [hsame, getElem?_withGiven_of_check hcheck hi]

end Level

namespace ListProof

/-- The byte strings that `climb` hashes. -/
def climbInputs (nodes : List ProofNode) : Nat → Nat → Level → List Bytes
  | 0, _, _ => []
  | steps + 1, height, computed =>
    let level := computed.withGiven (given nodes height)
    level.parentsInputs ++ climbInputs nodes steps (height + 1) level.parents

theorem climb_succ_eq_ok {length : Nat} {nodes : List ProofNode} {steps height : Nat}
    {computed top : Level} :
    climb length nodes (steps + 1) height computed = .ok top ↔
      Level.check (levelSize length height) height computed (given nodes height) = .ok () ∧
        climb length nodes steps (height + 1) (computed.withGiven (given nodes height)).parents =
          .ok top := by
  rw [climb]
  simp only [bind_eq_ok]
  constructor
  · rintro ⟨_, hcheck, hclimb⟩
    exact ⟨hcheck, hclimb⟩
  · rintro ⟨hcheck, hclimb⟩
    exact ⟨_, hcheck, hclimb⟩

/-- **Run.** If the top of the climb is part of the row above, what it started
from is part of the row. -/
theorem partOf_of_climb {length : Nat} {nodes : List ProofNode} {steps height : Nat}
    {computed top : Level} {row : List Digest}
    (h : climb length nodes steps height computed = .ok top)
    (hsafe : ¬ Collision (climbInputs nodes steps height computed ++ aboveInputs steps row))
    (htop : top.PartOf (above steps row)) : computed.PartOf row := by
  induction steps generalizing height computed row with
  | zero =>
    cases h
    exact htop
  | succ steps ih =>
    obtain ⟨hcheck, hclimb⟩ := climb_succ_eq_ok.mp h
    apply Level.PartOf.of_parents hcheck
    · exact not_collision_of_subset hsafe (List.subset_append_left _ _)
        (List.subset_append_left _ _)
    · apply ih hclimb _ htop
      exact not_collision_of_subset hsafe (List.subset_append_right _ _)
        (List.subset_append_right _ _)

/-- The indices of a climb shrink to nothing. -/
theorem shiftRight_of_climb {length : Nat} {nodes : List ProofNode} {steps height : Nat}
    {computed top : Level} (h : climb length nodes steps height computed = .ok top)
    (hcomputed : ∀ i ∈ computed, i >>> steps = 0) : ∀ i ∈ top, i = 0 := by
  induction steps generalizing height computed with
  | zero =>
    cases h
    exact hcomputed
  | succ steps ih =>
    obtain ⟨hcheck, hclimb⟩ := climb_succ_eq_ok.mp h
    obtain ⟨-, hgiven⟩ := Level.check_eq_ok.mp hcheck
    apply ih hclimb
    intro j hj
    -- a node of the next level is the parent of a computed node
    have hhalf : ∀ i ∈ computed, (i / 2) >>> steps = 0 := by
      intro i hi
      rw [← Nat.shiftRight_succ_inside]
      exact hcomputed i hi
    rcases Level.mem_withGiven.mp (Level.mem_parents.mp hj) with hj | hj
    · have := hhalf _ (hgiven _ hj).2
      rw [sibling_div_two] at this
      have hj2 : 2 * j / 2 = j := by omega
      rwa [hj2] at this
    · have := hhalf _ hj
      have hj2 : 2 * j / 2 = j := by omega
      rwa [hj2] at this

end ListProof

end LightClient.MerkleList

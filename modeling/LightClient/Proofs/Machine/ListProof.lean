import LightClient.Machine.MerkleList
import LightClient.Proofs.Machine.Guard
import LightClient.Proofs.MerkleList.Check
import LightClient.Proofs.MerkleList.Span

/-! Checking a list proof stays within its bounds. The cap on the length keeps every
height below 64; the checks of the nodes keep every height inside the table; and an
even index of 64 bits has room for its successor. -/

namespace LightClient.Machine.ListProof

open MerkleList (ProofNode ProofFault Level maxLength)

/-! ## Sizes -/

theorem treeHeight_of_lt {size : Nat} (h : size < UInt64.size) :
    treeHeight size = .ok (MerkleList.treeHeight size) := by
  unfold treeHeight MerkleList.treeHeight
  split
  · rfl
  · have hlog : (size - 1).log2 < 64 := by
      rw [Nat.log2_lt (by omega)]
      have hwords : UInt64.size = 2 ^ 64 := rfl
      omega
    have hzeros : leadingZeros (size - 1) = 63 - (size - 1).log2 := if_neg (by omega)
    have hbits : 64 - (63 - (size - 1).log2) = (size - 1).log2 + 1 := by omega
    have hcast : ((size - 1).log2 + 1) % UInt8.size = (size - 1).log2 + 1 :=
      Nat.mod_eq_of_lt (by simp [UInt8.size]; omega)
    rw [sub_of_le (by omega), ok_bind, hzeros, sub_of_le (by omega), ok_bind, hbits, hcast]
    rfl

theorem treeHeight_eq {size : Nat} (h : size ≤ maxLength) :
    treeHeight size = .ok (MerkleList.treeHeight size) := by
  have hmax : maxLength < UInt64.size := by decide
  exact treeHeight_of_lt (by omega)

theorem levelSize_eq {size height : Nat} (hsize : size < UInt64.size) (hheight : height < 64) :
    levelSize size height = .ok (MerkleList.levelSize size height) := by
  unfold levelSize MerkleList.levelSize
  split
  · rfl
  · have hle := Nat.shiftRight_le (size - 1) height
    have hfits : (size - 1) >>> height + 1 < 1 <<< 64 := by
      have : (1 : Nat) <<< 64 = UInt64.size := rfl
      omega
    rw [sub_of_le (by omega), ok_bind, shiftRight_of_lt hheight, ok_bind, add_of_lt hfits]

/-- A shift by the width or more: no height of 64 has a level. -/
theorem levelSize_of_le {size height : Nat} (hsize : size ≠ 0) (hheight : 64 ≤ height) :
    levelSize size height = .error (.shift height 64) := by
  rw [levelSize, if_neg hsize, sub_of_le (by omega), ok_bind, shiftRight, if_neg (by omega)]
  rfl

/-! ## Levels -/

/-- A level of odd size has a last index. -/
theorem endsAlone_eq (size i : Nat) : endsAlone size i = .ok (Level.endsAlone size i) := by
  unfold endsAlone Level.endsAlone
  split
  · rename_i hodd
    rw [sub_of_le (by omega), ok_bind, hodd]
    rfl
  · rename_i heven
    rw [beq_eq_false_iff_ne.mpr heven]
    rfl

theorem firstMissing_eq (size : Nat) (computed given : Level) (indices : List Nat) :
    firstMissing size computed given indices =
      .ok (indices.find? fun i =>
        !Level.endsAlone size i && Level.sibling i ∉ computed && Level.sibling i ∉ given) := by
  induction indices with
  | nil => rfl
  | cons i rest ih =>
    rw [firstMissing, endsAlone_eq, ok_bind, ih, List.find?_cons]
    split
    · rename_i hmissing
      rw [hmissing]
      rfl
    · rename_i hknown
      rw [Bool.not_eq_true _ |>.mp hknown]

theorem checkLevel_eq (size height : Nat) (computed given : Level) :
    checkLevel size height computed given = .of (Level.check size height computed given) := by
  have hmissing : firstMissing size computed given computed.keys =
      .ok (Level.firstMissing size computed given) := firstMissing_eq _ _ _ _
  rw [checkLevel, Guarded.lift_bind hmissing, Level.check]
  cases Level.firstMissing size computed given with
  | some i => rfl
  | none =>
    cases Level.firstUnwanted computed given with
    | none => rfl
    | some i =>
      simp only
      split <;> rfl

/-- All indices of a level have 64 bits. -/
def InRange (level : Level) : Prop := ∀ i ∈ level, i < UInt64.size

/-- An even index of 64 bits has a successor. -/
theorem parentsOf_eq (level : Level) {pairs : List (Nat × Digest)}
    (h : ∀ pair ∈ pairs, pair.1 < UInt64.size) :
    parentsOf level pairs = .ok (pairs.filterMap fun (i, hash) =>
      if i % 2 = 0 then some (i / 2, MerkleList.branchHash hash level[i + 1]?) else none) := by
  induction pairs with
  | nil => rfl
  | cons pair rest ih =>
    obtain ⟨i, hash⟩ := pair
    have hi : i < UInt64.size := h _ List.mem_cons_self
    have hrest := ih fun pair hpair => h pair (List.mem_cons_of_mem _ hpair)
    rw [parentsOf, hrest]
    split
    · rename_i hodd
      rw [List.filterMap_cons_none (by simp [hodd])]
    · rename_i hodd
      have heven : i % 2 = 0 := by omega
      have hfits : i + 1 < 1 <<< 64 := by
        simp only [UInt64.size] at hi
        omega
      rw [add_of_lt hfits, ok_bind, ok_bind]
      simp only [List.filterMap_cons, if_pos heven]
      rfl

theorem InRange.parents {level : Level} (h : InRange level) : InRange (Level.parents level) := by
  intro j hj
  have hparent := Std.ExtTreeMap.getElem?_eq_some_getElem hj
  rw [Level.getElem?_parents, Option.map_eq_some_iff] at hparent
  obtain ⟨left, hleft, -⟩ := hparent
  have := h _ (Std.ExtTreeMap.getElem?_eq_some_iff.mp hleft).1
  omega

theorem InRange.withGiven {computed given : Level} (h : InRange computed) (hgiven : InRange given) :
    InRange (computed.insertMany given.toList) := by
  intro i hi
  rcases Std.ExtTreeMap.mem_insertMany_list.mp hi with hi | hi
  · exact h i hi
  · rw [List.contains_iff_mem] at hi
    obtain ⟨⟨j, hash⟩, hpair, rfl⟩ := List.mem_map.mp hi
    have hget := Std.ExtTreeMap.mem_toList_iff_getElem?_eq_some.mp hpair
    exact hgiven j (Std.ExtTreeMap.getElem?_eq_some_iff.mp hget).1

theorem inRange_given (nodes : List ProofNode) (height : Nat) :
    InRange (MerkleList.ListProof.given nodes height) := by
  intro i hi
  unfold MerkleList.ListProof.given at hi
  rw [Std.ExtTreeMap.mem_ofList, List.contains_iff_mem] at hi
  obtain ⟨pair, hpair, rfl⟩ := List.mem_map.mp hi
  obtain ⟨node, -, rfl⟩ := List.mem_map.mp hpair
  exact node.index.toNat_lt

/-- **Step.** The level above a level. -/
theorem parents_eq {level : Level} (h : InRange level) :
    parents level = .ok (Level.parents level) := by
  have hpairs : ∀ pair ∈ level.toList, pair.1 < UInt64.size := by
    rintro ⟨i, hash⟩ hpair
    have hget := Std.ExtTreeMap.mem_toList_iff_getElem?_eq_some.mp hpair
    exact h i (Std.ExtTreeMap.getElem?_eq_some_iff.mp hget).1
  rw [parents, parentsOf_eq level hpairs]
  rfl

/-- **Run.** With the given nodes in a table, all levels are computed. -/
theorem climb_eq {length steps height : Nat} {nodes : List ProofNode} {table : List Level}
    {computed : Level} (hlength : length < UInt64.size) (hsteps : height + steps ≤ 64)
    (htable : ∀ h < height + steps, table[h]? = some (MerkleList.ListProof.given nodes h))
    (hcomputed : InRange computed) :
    climb length table steps height computed =
      .of (MerkleList.ListProof.climb length nodes steps height computed) := by
  induction steps generalizing height computed with
  | zero => rfl
  | succ steps ih =>
    have hsize := levelSize_eq hlength (by omega : height < 64)
    have hgiven := get_of_getElem? (htable height (by omega))
    rw [climb, Guarded.lift_bind hsize, Guarded.lift_bind hgiven]
    refine Guarded.bind_eq_of (checkLevel_eq _ _ _ _) fun _ _ => ?_
    have hlevel := hcomputed.withGiven (inRange_given nodes height)
    rw [Guarded.lift_bind (parents_eq hlevel)]
    exact ih (by omega) (fun h hh => htable h (by omega)) hlevel.parents

/-! ## The table of given nodes -/

/-- The table with all nodes put in. -/
def filled (nodes : List ProofNode) (table : List Level) : List Level :=
  table.mapIdx fun height level =>
    level.insertMany ((nodes.filter (·.height.toNat = height)).map fun n => (n.index.toNat, n.hash))

/-- A node goes to the level of its height. -/
theorem filled_cons {node : ProofNode} {rest : List ProofNode} {table : List Level} {level : Level}
    (h : table[node.height.toNat]? = some level) :
    filled (node :: rest) table =
      filled rest (table.set node.height.toNat (level.insert node.index.toNat node.hash)) := by
  refine List.ext_getElem? fun k => ?_
  rw [filled, filled, List.getElem?_mapIdx, List.getElem?_mapIdx, List.getElem?_set]
  by_cases hk : node.height.toNat = k
  · subst hk
    have hlt := (List.getElem?_eq_some_iff.mp h).1
    rw [if_pos rfl, if_pos hlt, h, Option.map_some, Option.map_some,
      List.filter_cons_of_pos (by simp), List.map_cons, Std.ExtTreeMap.insertMany_cons]
  · rw [if_neg hk, List.filter_cons_of_neg (by simpa using hk)]

theorem getElem?_filled_replicate {nodes : List ProofNode} {size height : Nat} (h : height < size) :
    (filled nodes (.replicate size ∅))[height]? =
      some (MerkleList.ListProof.given nodes height) := by
  rw [filled, List.getElem?_mapIdx, List.getElem?_replicate, if_pos h, Option.map_some,
    MerkleList.ListProof.given, Std.ExtTreeMap.ofList_eq_insertMany_empty]

/-- The places taken so far are those in the table. -/
def Holds (table : List Level) (seen : List (UInt8 × UInt64)) : Prop :=
  ∀ height index, (height, index) ∈ seen ↔
    ∃ level, table[height.toNat]? = some level ∧ index.toNat ∈ level

theorem holds_replicate (size : Nat) : Holds (.replicate size ∅) [] := by
  intro height index
  simp only [List.not_mem_nil, false_iff, not_exists, not_and]
  intro level hlevel
  obtain rfl := List.eq_of_mem_replicate (List.mem_of_getElem? hlevel)
  exact Std.ExtTreeMap.not_mem_empty

/-- **Step.** A node that is put into the table takes its place. -/
theorem Holds.set {table : List Level} {seen : List (UInt8 × UInt64)} {node : ProofNode}
    {level : Level} (h : Holds table seen) (hlevel : table[node.height.toNat]? = some level) :
    Holds (table.set node.height.toNat (level.insert node.index.toNat node.hash))
      ((node.height, node.index) :: seen) := by
  intro height index
  have hlt := (List.getElem?_eq_some_iff.mp hlevel).1
  rw [List.mem_cons, h height index, List.getElem?_set, Prod.mk.injEq]
  by_cases hheight : node.height = height
  · subst hheight
    rw [if_pos rfl, if_pos hlt, hlevel]
    simp only [Option.some.injEq, exists_eq_left', Std.ExtTreeMap.mem_insert, Nat.compare_eq_eq,
      UInt64.toNat_inj, true_and, eq_comm (a := index)]
  · rw [if_neg fun heq => hheight (UInt8.toNat_inj.mp heq)]
    simp [Ne.symm hheight]

/-- **Run.** A node below the root has its level in the table. -/
theorem place_eq {length : Nat} {nodes : List ProofNode} {table : List Level}
    {seen : List (UInt8 × UInt64)} (hlength : length ≤ maxLength)
    (htable : table.length = MerkleList.treeHeight length) (hseen : Holds table seen) :
    place length (MerkleList.treeHeight length) nodes table =
      .of (MerkleList.ListProof.checkNodes length nodes seen >>= fun _ =>
        .ok (filled nodes table)) := by
  induction nodes generalizing table seen with
  | nil =>
    have hfilled : filled [] table = table := by
      refine List.ext_getElem? fun k => ?_
      rw [filled, List.getElem?_mapIdx, List.filter_nil, List.map_nil]
      simp only [Std.ExtTreeMap.insertMany_nil, Option.map_id_fun', id_eq]
    rw [hfilled]
    rfl
  | cons node rest ih =>
    have hheight := MerkleList.treeHeight_le hlength
    have hfits : length < UInt64.size := by
      simp only [maxLength] at hlength
      simp only [UInt64.size]
      omega
    unfold place MerkleList.ListProof.checkNodes
    simp only
    split
    · rfl
    · rename_i hbelow
      rw [Guarded.lift_bind (levelSize_eq hfits (by omega))]
      split
      · rfl
      · obtain ⟨level, hlevel⟩ : ∃ level, table[node.height.toNat]? = some level :=
          ⟨_, List.getElem?_eq_getElem (by omega)⟩
        have hlt := (List.getElem?_eq_some_iff.mp hlevel).1
        have hmem : node.index.toNat ∈ level ↔ (node.height, node.index) ∈ seen := by
          rw [hseen, hlevel]
          simp
        rw [Guarded.lift_bind (get_of_getElem? hlevel), Guarded.lift_bind (set_of_lt hlt)]
        simp only [hmem]
        split
        · rfl
        · rw [filled_cons hlevel]
          exact ih (by simpa using htable) (hseen.set hlevel)

/-! ## Checking -/

theorem computeRoot_eq {proof : MerkleList.ListProof} {elements : Std.ExtTreeMap Nat Bytes}
    (hlength : proof.length.toNat ≤ maxLength) (helements : ∀ i ∈ elements, i < UInt64.size) :
    computeRoot proof elements = .of (proof.computeRoot elements) := by
  obtain ⟨length, nodes, pieces⟩ := proof
  have hheight := MerkleList.treeHeight_le hlength
  unfold computeRoot MerkleList.ListProof.computeRoot
  simp only at hlength hheight ⊢
  rw [Guarded.lift_bind (treeHeight_eq hlength)]
  split
  · split <;> rfl
  · split
    · rcases nodes with _ | ⟨node, _ | ⟨second, rest⟩⟩
      · rfl
      · simp only
        split <;> rfl
      · rfl
    · have hleaves : InRange (elements.map fun _ value => MerkleList.leafHash value) :=
        fun i hi => helements i (Std.ExtTreeMap.mem_map.mp hi)
      rw [place_eq hlength List.length_replicate (holds_replicate _)]
      cases MerkleList.ListProof.checkNodes length.toNat nodes [] with
      | error fault => rfl
      | ok _ =>
        have hsteps : 0 + MerkleList.treeHeight length.toNat ≤ 64 := by omega
        refine Guarded.bind_eq_of (climb_eq length.toNat_lt hsteps (fun h hh => ?_) hleaves)
          fun top _ => ?_
        · exact getElem?_filled_replicate (by omega)
        · cases top[0]? <;> rfl

theorem verify_eq (proof : MerkleList.ListProof) (expected : Digest) (start stop : Nat) :
    verify proof expected start stop = .of (proof.verify expected start stop) := by
  unfold verify MerkleList.ListProof.verify
  simp only
  split
  · rfl
  · rename_i hlength
    refine Guarded.bind_eq_of rfl fun _ hrange => ?_
    refine Guarded.bind_eq_of rfl fun elements helements => ?_
    have hle : start ≤ stop := by
      unfold MerkleList.checkRange at hrange
      split at hrange
      · rename_i hinside
        exact hinside.1
      · cases hrange
    have hbound := MerkleList.ListProof.lt_of_mem_indexElements helements (by simp)
    rw [Guarded.lift_bind (sub_of_le hle)]
    split
    · refine Guarded.bind_eq_of (computeRoot_eq (by omega) fun i hi => ?_) fun root _ => ?_
      · exact Nat.lt_trans (hbound i hi) proof.length.toNat_lt
      · split <;> rfl
    · rfl

end LightClient.Machine.ListProof

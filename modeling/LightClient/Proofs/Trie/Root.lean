import LightClient.Proofs.Trie.Tree

/-! Roots over nodes in order: nothing, a single node, or the top of a sound tree.
Nodes in order with one root agree, unless the inputs of the hashes above them
collide or one of them hashes to the root of the empty trie. The root of given
contents is such a root over their leaves. -/

namespace LightClient.Trie

/-- What `singleRoot` hashes. -/
def singleInput (path : Path) (hash : Digest) : Bytes := [path.toRaw, hash.toList].flatten

theorem sha256_singleInput (path : Path) (hash : Digest) :
    sha256 (singleInput path hash) = singleRoot path hash := rfl

@[simp] theorem length_singleInput (path : Path) (hash : Digest) :
    (singleInput path hash).length = 66 := by
  simp [singleInput]

theorem singleInput_injective {m n : Node}
    (h : singleInput m.path m.hash = singleInput n.path n.hash) : m = n := by
  simp only [singleInput, List.flatten_cons] at h
  obtain ⟨hpath, h⟩ := List.append_inj h (by simp)
  obtain ⟨hhash, -⟩ := List.append_inj h (by simp)
  exact Node.eq_of (Path.toRaw_injective hpath) (FixedBytes.toList_injective hhash)

theorem singleInput_ne_branchInput (path : Path) (hash : Digest) (left right : Node) :
    singleInput path hash ≠ branchInput left right := by
  intro h
  have := congrArg List.length h
  simp at this

/-! ## Roots over nodes -/

/-- `root` is the root over the nodes, and `inputs` is what is hashed above them. -/
inductive Rooted : List Node → Digest → List Bytes → Prop
  | empty : Rooted [] emptyRoot []
  | single (n : Node) : Rooted [n] (singleRoot n.path n.hash) [singleInput n.path n.hash]
  | fork {path : Path} {left right : Tree} (sound : (Tree.fork path left right).Sound) :
      Rooted (Tree.fork path left right).tips (Tree.fork path left right).top.hash
        (Tree.fork path left right).inputs

theorem Rooted.of_tree {t : Tree} (h : t.Sound) (hlen : 2 ≤ t.tips.length) :
    Rooted t.tips t.top.hash t.inputs := by
  cases t with
  | tip n => simp [Tree.tips] at hlen
  | fork path l r => exact .fork h

/-- The root over nodes is the hash of one of the inputs, or there are no nodes. -/
theorem Rooted.hash_mem {ns : List Node} {root : Digest} {inputs : List Bytes}
    (h : Rooted ns root inputs) : (ns = [] ∧ root = emptyRoot) ∨ ∃ x ∈ inputs, sha256 x = root := by
  cases h with
  | empty => exact Or.inl ⟨rfl, rfl⟩
  | single n => exact Or.inr ⟨_, List.mem_singleton_self _, sha256_singleInput _ _⟩
  | fork sound => exact Or.inr ⟨_, List.mem_cons_self, sha256_branchInput _ _⟩

theorem Rooted.eq_nil {ns : List Node} {inputs : List Bytes} (h : Rooted ns emptyRoot inputs)
    (hzero : ¬ ZeroHash inputs) : ns = [] := by
  rcases h.hash_mem with ⟨hnil, -⟩ | ⟨x, hx, heq⟩
  · exact hnil
  · exact absurd ⟨x, hx, heq⟩ hzero

theorem Rooted.eq_emptyRoot {root : Digest} {inputs : List Bytes} (h : Rooted [] root inputs) :
    root = emptyRoot := by
  generalize hns : [] = ns at h
  cases h with
  | empty => rfl
  | single n => cases hns
  | fork sound => exact absurd hns.symm (Tree.tips_ne_nil _)

theorem Agree.nil : Agree [] [] where
  left _ h := absurd h List.not_mem_nil
  right _ h := absurd h List.not_mem_nil
  hash_eq _ h := absurd h List.not_mem_nil

/-- A single node and a fork have different roots. -/
theorem single_ne_fork {n : Node} {path : Path} {left right : Tree}
    (hsafe : ¬ Collision ([singleInput n.path n.hash] ++ (Tree.fork path left right).inputs)) :
    singleRoot n.path n.hash ≠ (Tree.fork path left right).top.hash := by
  intro h
  apply singleInput_ne_branchInput n.path n.hash left.top right.top
  exact eq_of_sha256_eq hsafe (by simp) (by simp [Tree.inputs]) h

theorem collision_comm {xs ys : List Bytes} (h : Collision (xs ++ ys)) : Collision (ys ++ xs) :=
  h.mono fun x hx => by simpa [or_comm] using hx

/-- **Binding.** Nodes in order with one root agree, if there are any. -/
theorem Rooted.agree_of_ne_nil {ms ns : List Node} {root : Digest} {xs ys : List Bytes}
    (hm : Rooted ms root xs) (hn : Rooted ns root ys) (hms : ms ≠ []) (hns : ns ≠ [])
    (hsafe : ¬ Collision (xs ++ ys)) : Agree ms ns := by
  generalize hroot : root = root' at hn
  cases hm with
  | empty => exact absurd rfl hms
  | single m =>
    cases hn with
    | empty => exact absurd rfl hns
    | single n =>
      obtain rfl : m = n := singleInput_injective
        (eq_of_sha256_eq hsafe (by simp) (by simp) hroot)
      exact Agree.refl_singleton m
    | fork sound => exact absurd hroot (single_ne_fork hsafe)
  | fork sound =>
    cases hn with
    | empty => exact absurd rfl hns
    | single n =>
      exact absurd hroot.symm (single_ne_fork fun h => hsafe (collision_comm h))
    | fork sound' =>
      obtain ⟨hl, hr⟩ := Tree.tops_eq_of_hash_eq hsafe hroot
      -- the two sides fix where the fork stands
      have hpath := sound'.1
      rw [← hl, ← hr] at hpath
      obtain rfl := Path.bitString_injective (sound.1.unique hpath)
      apply sound.agree sound' hsafe
      rw [Tree.top_fork, Tree.top_fork, hl, hr]

/-- Unless something hashes to the root of the empty trie there are nodes on both
sides or on none. -/
theorem Rooted.agree {ms ns : List Node} {root : Digest} {xs ys : List Bytes}
    (hm : Rooted ms root xs) (hn : Rooted ns root ys) (hsafe : ¬ Collision (xs ++ ys))
    (hzero : ¬ ZeroHash (xs ++ ys)) : Agree ms ns := by
  obtain ⟨hzx, hzy⟩ := not_zeroHash_append hzero
  have hnil : ms = [] ↔ ns = [] := by
    constructor
    · intro hms
      obtain rfl := (hms ▸ hm).eq_emptyRoot
      exact hn.eq_nil hzy
    · intro hns
      obtain rfl := (hns ▸ hn).eq_emptyRoot
      exact hm.eq_nil hzx
  by_cases hms : ms = []
  · rw [hms, hnil.mp hms]
    exact Agree.nil
  · exact hm.agree_of_ne_nil hn hms (fun h => hms (hnil.mpr h)) hsafe

/-! ## Sorting -/

theorem Node.le_trans (a b c : Node) (hab : a.le b = true) (hbc : b.le c = true) :
    a.le c = true := by
  simp only [Node.le, Path.cmp_eq_compare] at *
  exact Std.TransOrd.isLE_trans hab hbc

theorem Node.le_total (a b : Node) : (a.le b || b.le a) = true := by
  simp only [Node.le, Path.cmp_eq_compare]
  rw [Std.OrientedOrd.eq_swap (a := b.bits)]
  cases compare a.bits b.bits <;> rfl

/-- Neither of two nodes lies at or below the other. -/
def Apart (m n : Node) : Prop := ¬ Meets m n

theorem Apart.symm {m n : Node} (h : Apart m n) : Apart n m := fun hm => h hm.symm

theorem Apart.before {m n : Node} (h : Apart m n) (hle : m.le n = true) :
    Before m.bits n.bits := by
  apply before_of_compare (fun hp => h (Or.inl hp))
  rw [← Path.cmp_eq_compare]
  exact Ordering.isLE_iff_ne_gt.mp hle

theorem InOrder.apart {nodes : List Node} (h : InOrder nodes) : nodes.Pairwise Apart := by
  apply List.Pairwise.imp _ h
  rintro m n hbefore (hm | hm)
  · exact hbefore.not_prefix hm
  · exact hbefore.not_prefix' hm

/-- Nodes apart from each other are in order once they are sorted. -/
theorem inOrder_mergeSort {nodes : List Node} (h : nodes.Pairwise Apart) :
    InOrder (nodes.mergeSort Node.le) := by
  have hsorted := List.pairwise_mergeSort Node.le_trans Node.le_total nodes
  have hapart := (List.mergeSort_perm nodes Node.le).symm.pairwise h Apart.symm
  exact List.Pairwise.imp₂ (fun _ _ hle hap => Apart.before hap hle) hsorted hapart

/-! ## The root of given contents -/

/-- The byte strings that `subtree` hashes. -/
def subtreeInputs (first : Node) : List Node → List Bytes
  | [] => []
  | second :: rest =>
    match _h : split first (second :: rest) with
    | (l :: ls, r :: rs) =>
      branchInput (subtree l ls) (subtree r rs) :: (subtreeInputs l ls ++ subtreeInputs r rs)
    | _ => []
termination_by rest => rest.length
decreasing_by
  · exact (length_split _h).1
  · exact (length_split _h).2

/-- The byte strings that `root` hashes: every value, and what lies above. -/
def rootInputs (entries : Entries) : List Bytes :=
  entries.toList.map (·.2) ++
    match leaves entries with
    | [] => []
    | [leaf] => [singleInput leaf.path leaf.hash]
    | first :: rest => subtreeInputs first rest

theorem subtreeInputs_cons {first second l r : Node} {rest ls rs : List Node}
    (h : split first (second :: rest) = (l :: ls, r :: rs)) :
    subtreeInputs first (second :: rest) =
      branchInput (subtree l ls) (subtree r rs) :: (subtreeInputs l ls ++ subtreeInputs r rs) := by
  rw [subtreeInputs]
  split
  · rename_i hs
    rw [h] at hs
    cases hs
    rfl
  · rename_i hs
    exact absurd h (hs l ls r rs)

/-- The recursive hash over nodes in order is the top of a sound tree over them. -/
theorem InOrder.exists_tree_subtree {first : Node} {rest : List Node}
    (h : InOrder (first :: rest)) :
    ∃ t : Tree, t.Sound ∧ t.tips = first :: rest ∧ t.top = subtree first rest ∧
      t.inputs = subtreeInputs first rest := by
  refine h.subtree_induction (motive := fun first rest => ∃ t : Tree, t.Sound ∧
    t.tips = first :: rest ∧ t.top = subtree first rest ∧ t.inputs = subtreeInputs first rest)
    ?_ ?_
  · intro n
    exact ⟨.tip n, trivial, rfl, (subtree_nil n).symm, by rw [subtreeInputs]; rfl⟩
  · rintro first second rest l ls r rs - hsplit happ hparts ⟨t, ht, ttips, ttop, tinputs⟩
      ⟨u, hu, utips, utop, uinputs⟩
    refine ⟨.fork (spanPath first (second :: rest)) t u, ⟨?_, ht, hu⟩, ?_, ?_, ?_⟩
    · rw [ttop, utop]
      exact hparts
    · rw [Tree.tips, ttips, utips, happ]
    · rw [Tree.top_fork, ttop, utop, subtree_cons hsplit]
    · rw [Tree.inputs, ttop, utop, tinputs, uinputs, subtreeInputs_cons hsplit]

theorem apart_leaves {k k' : MapKey} (h : k ≠ k') (v v' : Bytes) :
    Apart (Node.ofEntry k v) (Node.ofEntry k' v') := by
  rintro (hm | hm)
  · exact h (Path.leaf_injective (Path.eq_of_leaf_prefix hm)).symm
  · exact h (Path.leaf_injective (Path.eq_of_leaf_prefix hm))

theorem inOrder_leaves (entries : Entries) : InOrder (leaves entries) := by
  apply inOrder_mergeSort
  rw [List.pairwise_map]
  apply List.Pairwise.imp _ Std.ExtTreeMap.distinct_keys_toList
  intro a b hne
  apply apart_leaves
  intro heq
  apply hne
  rw [heq]
  exact Std.ReflOrd.compare_self

theorem mem_leaves {entries : Entries} {n : Node} :
    n ∈ leaves entries ↔ ∃ key value, entries[key]? = some value ∧ n = Node.ofEntry key value := by
  rw [leaves, List.mem_mergeSort, List.mem_map]
  constructor
  · rintro ⟨⟨key, value⟩, hmem, rfl⟩
    exact ⟨key, value, Std.ExtTreeMap.mem_toList_iff_getElem?_eq_some.mp hmem, rfl⟩
  · rintro ⟨key, value, hget, rfl⟩
    exact ⟨(key, value), Std.ExtTreeMap.mem_toList_iff_getElem?_eq_some.mpr hget, rfl⟩

theorem not_mem_of_getElem?_eq_none {entries : Entries} {key : MapKey}
    (h : entries[key]? = none) : key ∉ entries := by
  intro hmem
  rw [Std.ExtTreeMap.getElem?_eq_some_getElem hmem] at h
  cases h

/-- The root of given contents is the root over their leaves. -/
theorem rooted_root (entries : Entries) :
    ∃ inputs, Rooted (leaves entries) (root entries) inputs ∧ inputs ⊆ rootInputs entries := by
  have horder := inOrder_leaves entries
  unfold root rootInputs
  match hl : leaves entries, horder with
  | [], _ => exact ⟨[], .empty, List.nil_subset _⟩
  | [leaf], _ => exact ⟨_, .single leaf, List.subset_append_right _ _⟩
  | first :: second :: rest, horder =>
    obtain ⟨t, ht, htips, htop, hinputs⟩ := horder.exists_tree_subtree
    have hrooted := Rooted.of_tree ht (by rw [htips]; simp)
    rw [htips, htop, hinputs] at hrooted
    exact ⟨_, hrooted, List.subset_append_right _ _⟩

theorem value_mem_rootInputs {entries : Entries} {key : MapKey} {value : Bytes}
    (h : entries[key]? = some value) : value ∈ rootInputs entries := by
  apply List.mem_append_left
  exact List.mem_map.mpr ⟨(key, value), Std.ExtTreeMap.mem_toList_iff_getElem?_eq_some.mpr h, rfl⟩

/-! ## A trie of two entries -/

/-- The key that starts with one byte and is zero after it. -/
def shortKey (byte : UInt8) : MapKey := ⟨byte :: List.replicate 31 0, rfl⟩

/-- Two entries whose keys share one bit. -/
def twoEntries : Entries := ((∅ : Entries).insert (shortKey 4) [10]).insert (shortKey 6) [11]

theorem toList_twoEntries : twoEntries.toList = [(shortKey 4, [10]), (shortKey 6, [11])] := by
  decide +kernel

theorem mergeSort_two :
    [Node.ofEntry (shortKey 4) [10], Node.ofEntry (shortKey 6) [11]].mergeSort Node.le =
      [Node.ofEntry (shortKey 4) [10], Node.ofEntry (shortKey 6) [11]] := by
  apply List.mergeSort_of_pairwise
  have h : Node.le (Node.ofEntry (shortKey 4) [10]) (Node.ofEntry (shortKey 6) [11]) = true := by
    decide
  simpa using h

theorem leaves_twoEntries :
    leaves twoEntries = [Node.ofEntry (shortKey 4) [10], Node.ofEntry (shortKey 6) [11]] := by
  rw [leaves, toList_twoEntries]
  exact mergeSort_two

theorem root_twoEntries : root twoEntries =
    branchHash (Node.ofEntry (shortKey 4) [10]) (Node.ofEntry (shortKey 6) [11]) := by
  have hsplit : split (Node.ofEntry (shortKey 4) [10]) [Node.ofEntry (shortKey 6) [11]] =
      ([Node.ofEntry (shortKey 4) [10]], [Node.ofEntry (shortKey 6) [11]]) := rfl
  rw [root, leaves_twoEntries]
  simp only [subtree_cons hsplit, subtree_nil]
  rfl

end LightClient.Trie

import LightClient.Proofs.Except
import LightClient.Proofs.Trie.Fold
import LightClient.Proofs.Trie.Root

/-! What the checks of a map proof establish, one statement for each of them. A
proof that passes them all has a contour in order, and the root it computes is
the root over that contour. -/

namespace LightClient.Trie

namespace MapProof

/-! ## The single checks -/

/-- Comparing neighbours is enough: the nodes are in order. -/
theorem checkOrder_eq_ok {nodes : List Node} : checkOrder nodes = .ok () ↔ InOrder nodes := by
  induction nodes with
  | nil => simp [checkOrder, InOrder]
  | cons a rest ih =>
    cases rest with
    | nil => simp [checkOrder, InOrder]
    | cons b rest =>
      unfold checkOrder
      constructor
      · intro h
        split at h
        · cases h
        · rename_i hne
          split at h
          · cases h
          · rename_i hgt
            split at h
            · cases h
            · rename_i hpre
              have hrest := ih.mp h
              have hab : Before a.bits b.bits := Path.before_of_cmp hpre hgt
              refine List.pairwise_cons.mpr ⟨?_, hrest⟩
              intro n hn
              rcases List.mem_cons.mp hn with rfl | hn
              · exact hab
              · exact hab.trans (List.rel_of_pairwise_cons hrest hn)
      · intro h
        have hab := List.rel_of_pairwise_cons h List.mem_cons_self
        have hne : a.path ≠ b.path := fun heq => hab.ne (congrArg Path.bitString heq)
        have hgt : a.path.cmp b.path ≠ .gt := by
          rw [Path.cmp_eq_compare, hab.compare_eq]
          decide
        have hpre : ¬ a.path.isPrefixOf b.path = true := by
          rw [Path.isPrefixOf_iff]
          exact hab.not_prefix
        rw [if_neg hne, if_neg hgt, if_neg hpre]
        exact ih.mpr (List.Pairwise.tail h)

/-- The index of entries that are listed once each holds just these. -/
theorem of_indexEntries {es : List Entry} {found res : Entries}
    (h : indexEntries es found = .ok res) :
    (es.map Entry.key).Nodup ∧ (∀ e ∈ es, e.key ∉ found) ∧
      ∀ key value, res[key]? = some value ↔ found[key]? = some value ∨ ⟨key, value⟩ ∈ es := by
  induction es generalizing found with
  | nil =>
    cases h
    simp
  | cons e rest ih =>
    unfold indexEntries at h
    split at h
    · cases h
    · rename_i hnew
      obtain ⟨hnodup, hfresh, hget⟩ := ih h
      have hne : ∀ e' ∈ rest, e'.key ≠ e.key := by
        intro e' he' heq
        apply hfresh e' he'
        rw [heq]
        exact Std.ExtTreeMap.mem_insert_self
      refine ⟨?_, ?_, ?_⟩
      · rw [List.map_cons, List.nodup_cons]
        refine ⟨?_, hnodup⟩
        intro hmem
        obtain ⟨e', he', heq⟩ := List.mem_map.mp hmem
        exact hne e' he' heq
      · intro e' he'
        rcases List.mem_cons.mp he' with rfl | he'
        · exact hnew
        · intro hmem
          exact hfresh e' he' (Std.ExtTreeMap.mem_insert.mpr (Or.inr hmem))
      · intro key value
        rw [hget, Std.ExtTreeMap.getElem?_insert]
        by_cases hkey : e.key = key
        · subst hkey
          have hnone : found[e.key]? = none := Std.ExtTreeMap.getElem?_eq_none hnew
          have hrest : (⟨e.key, value⟩ : Entry) ∉ rest := fun hmem => hne _ hmem rfl
          rw [if_pos Std.ReflOrd.compare_self, hnone]
          simp only [hrest, or_false, List.mem_cons, Option.some.injEq, reduceCtorEq, false_or]
          constructor
          · rintro rfl
            rfl
          · intro heq
            exact congrArg Entry.value heq.symm
        · have hcmp : ¬ compare e.key key = .eq := fun heq =>
            hkey (Std.LawfulEqOrd.eq_of_compare heq)
          have hhead : (⟨key, value⟩ : Entry) ≠ e := fun heq => hkey (congrArg Entry.key heq).symm
          rw [if_neg hcmp]
          simp only [List.mem_cons, hhead, false_or]

theorem exists_indexEntries {es : List Entry} {found : Entries}
    (hnodup : (es.map Entry.key).Nodup) (hfresh : ∀ e ∈ es, e.key ∉ found) :
    ∃ res, indexEntries es found = .ok res := by
  induction es generalizing found with
  | nil => exact ⟨found, rfl⟩
  | cons e rest ih =>
    rw [List.map_cons, List.nodup_cons] at hnodup
    obtain ⟨hhead, htail⟩ := hnodup
    unfold indexEntries
    rw [if_neg (hfresh e List.mem_cons_self)]
    apply ih htail
    intro e' he' hmem
    rcases Std.ExtTreeMap.mem_insert.mp hmem with heq | hmem
    · apply hhead
      rw [Std.LawfulEqOrd.eq_of_compare heq]
      exact List.mem_map_of_mem he'
    · exact hfresh e' (List.mem_cons_of_mem _ he') hmem

/-- The index of missing keys that are listed once each holds just these. -/
theorem of_indexMissing {entries : Entries} {keys : List MapKey}
    {found res : Std.ExtTreeSet MapKey} (h : indexMissing entries keys found = .ok res) :
    keys.Nodup ∧ (∀ key ∈ keys, key ∉ entries ∧ key ∉ found) ∧
      ∀ key, key ∈ res ↔ key ∈ found ∨ key ∈ keys := by
  induction keys generalizing found with
  | nil =>
    cases h
    simp
  | cons k rest ih =>
    unfold indexMissing at h
    split at h
    · cases h
    · rename_i hnew
      obtain ⟨hnodup, hfresh, hmem⟩ := ih h
      refine ⟨?_, ?_, ?_⟩
      · refine List.nodup_cons.mpr ⟨?_, hnodup⟩
        intro hk
        exact (hfresh k hk).2 Std.ExtTreeSet.mem_insert_self
      · intro key hkey
        rcases List.mem_cons.mp hkey with rfl | hkey
        · exact not_or.mp hnew
        · refine ⟨(hfresh key hkey).1, fun hin => (hfresh key hkey).2 ?_⟩
          exact Std.ExtTreeSet.mem_insert.mpr (Or.inr hin)
      · intro key
        rw [hmem, Std.ExtTreeSet.mem_insert, Std.LawfulEqOrd.compare_eq_iff_eq, List.mem_cons]
        grind

theorem exists_indexMissing {entries : Entries} {keys : List MapKey}
    {found : Std.ExtTreeSet MapKey} (hnodup : keys.Nodup)
    (hfresh : ∀ key ∈ keys, key ∉ entries ∧ key ∉ found) :
    ∃ res, indexMissing entries keys found = .ok res := by
  induction keys generalizing found with
  | nil => exact ⟨found, rfl⟩
  | cons k rest ih =>
    obtain ⟨hhead, htail⟩ := List.nodup_cons.mp hnodup
    unfold indexMissing
    rw [if_neg (not_or.mpr (hfresh k List.mem_cons_self))]
    apply ih htail
    intro key hkey
    refine ⟨(hfresh key (List.mem_cons_of_mem _ hkey)).1, fun hmem => ?_⟩
    rcases Std.ExtTreeSet.mem_insert.mp hmem with heq | hmem
    · apply hhead
      rwa [Std.LawfulEqOrd.eq_of_compare heq]
    · exact (hfresh key (List.mem_cons_of_mem _ hkey)).2 hmem

theorem checkCovered_eq_ok {nodes : List Node} {keys : List MapKey} :
    checkCovered nodes keys = .ok () ↔
      ∀ key ∈ keys, ∀ n ∈ nodes, ¬ n.bits <+: (Path.leaf key).bitString := by
  induction keys with
  | nil => simp [checkCovered]
  | cons key rest ih =>
    unfold checkCovered
    rw [List.forall_mem_cons, ← ih]
    cases hf : nodes.find? fun n => n.path.isPrefixOf (.leaf key) with
    | none =>
      have hhead : ∀ n ∈ nodes, ¬ n.bits <+: (Path.leaf key).bitString := by
        intro n hn
        rw [← Path.isPrefixOf_iff]
        exact List.find?_eq_none.mp hf n hn
      exact (and_iff_right hhead).symm
    | some n =>
      have hmem := List.mem_of_find?_eq_some hf
      have hcov : n.path.isPrefixOf (.leaf key) = true := by
        simpa using List.find?_some hf
      rw [Path.isPrefixOf_iff] at hcov
      constructor
      · intro h
        cases h
      · intro h
        exact absurd hcov (h.1 n hmem)

/-! ## The whole check -/

/-- A check succeeds when all its parts do. -/
theorem check_eq_ok {proof : MapProof} {expected : Digest} {c : Checked} :
    proof.check expected = .ok c ↔
      checkOrder proof.nodes = .ok () ∧ indexEntries proof.entries ∅ = .ok c.entries ∧
        indexMissing c.entries proof.missing ∅ = .ok c.missing ∧
        checkCovered proof.nodes proof.keys = .ok () ∧ proof.computeRoot = .ok expected ∧
        c.root = expected := by
  unfold check
  simp only [bind_eq_ok]
  constructor
  · rintro ⟨_, horder, entries, hentries, missing, hmissing, _, hcovered, root, hroot, h⟩
    split at h
    · rename_i heq
      cases h
      exact ⟨horder, hentries, hmissing, hcovered, heq ▸ hroot, heq⟩
    · cases h
  · rintro ⟨horder, hentries, hmissing, hcovered, hroot, rfl⟩
    exact ⟨_, horder, _, hentries, _, hmissing, _, hcovered, _, hroot, if_pos rfl⟩

theorem get_checked {proof : MapProof} {expected : Digest} {c : Checked}
    (h : proof.check expected = .ok c) {key : MapKey} {value : Bytes} :
    c.entries[key]? = some value ↔ ⟨key, value⟩ ∈ proof.entries := by
  obtain ⟨-, hentries, -⟩ := check_eq_ok.mp h
  rw [(of_indexEntries hentries).2.2]
  simp

theorem mem_missing_checked {proof : MapProof} {expected : Digest} {c : Checked}
    (h : proof.check expected = .ok c) {key : MapKey} :
    key ∈ c.missing ↔ key ∈ proof.missing := by
  obtain ⟨-, -, hmissing, -⟩ := check_eq_ok.mp h
  rw [(of_indexMissing hmissing).2.2]
  simp

/-- Nodes in order and entries under none of them are apart from each other. -/
theorem apart_contour {proof : MapProof} (horder : InOrder proof.nodes)
    (hnodup : (proof.entries.map Entry.key).Nodup)
    (hcovered : ∀ key ∈ proof.keys, ∀ n ∈ proof.nodes, ¬ n.bits <+: (Path.leaf key).bitString) :
    (proof.entries.map (fun e => Node.ofEntry e.key e.value) ++ proof.nodes).Pairwise Apart := by
  rw [List.pairwise_append]
  refine ⟨?_, ?_, ?_⟩
  · rw [List.pairwise_map]
    rw [List.nodup_iff_pairwise_ne, List.pairwise_map] at hnodup
    exact hnodup.imp fun hne => apart_leaves hne _ _
  · exact horder.apart
  · intro leaf hleaf n hn
    obtain ⟨e, he, rfl⟩ := List.mem_map.mp hleaf
    have hkey : e.key ∈ proof.keys := List.mem_append_left _ (List.mem_map_of_mem he)
    rintro (hm | hm)
    · -- below a leaf there is only the leaf itself
      apply hcovered e.key hkey n hn
      exact Path.prefix_of_path_eq (Path.eq_of_leaf_prefix hm)
    · exact hcovered e.key hkey n hn hm

theorem inOrder_contour {proof : MapProof} {expected : Digest} {c : Checked}
    (h : proof.check expected = .ok c) : InOrder proof.contour := by
  obtain ⟨horder, hentries, -, hcovered, -⟩ := check_eq_ok.mp h
  exact inOrder_mergeSort (apart_contour (checkOrder_eq_ok.mp horder) (of_indexEntries hentries).1
    (checkCovered_eq_ok.mp hcovered))

theorem mem_contour {proof : MapProof} {n : Node} :
    n ∈ proof.contour ↔
      (∃ e ∈ proof.entries, n = Node.ofEntry e.key e.value) ∨ n ∈ proof.nodes := by
  rw [contour, List.mem_mergeSort, List.mem_append, List.mem_map]
  simp only [eq_comm (a := n)]

/-! ## The computed root -/

/-- The byte strings hashed when a map proof is checked. -/
def inputs (proof : MapProof) : List Bytes :=
  match proof.nodes, proof.entries with
  | [], [] => []
  | [node], [] => if node.path.isLeaf then [singleInput node.path node.hash] else []
  | [], [e] => [e.value, singleInput (.leaf e.key) (sha256 e.value)]
  | _, entries => entries.map Entry.value ++ foldInputs proof.contour

theorem length_contour (proof : MapProof) :
    proof.contour.length = proof.entries.length + proof.nodes.length := by
  simp [contour]

/-- A proof with at least two nodes in its contour goes through the pass. -/
theorem computeRoot_of_two_le {proof : MapProof}
    (h : 2 ≤ proof.entries.length + proof.nodes.length) :
    proof.computeRoot = .ok (foldContour proof.contour) ∧
      proof.inputs = proof.entries.map Entry.value ++ foldInputs proof.contour := by
  match proof, h with
  | ⟨[_], _ :: _, _⟩, _ => exact ⟨rfl, rfl⟩
  | ⟨_ :: _ :: _, [], _⟩, _ => exact ⟨rfl, rfl⟩
  | ⟨_ :: _ :: _, _ :: _, _⟩, _ => exact ⟨rfl, rfl⟩
  | ⟨[], _ :: _ :: _, _⟩, _ => exact ⟨rfl, rfl⟩

/-- The one shape without a root is a single node that is no leaf. -/
theorem computeRoot_eq_error {proof : MapProof} {fault : ProofFault} :
    proof.computeRoot = .error fault ↔
      fault = .singleBranch ∧ proof.entries = [] ∧
        ∃ node, proof.nodes = [node] ∧ node.path.isLeaf = false := by
  match proof with
  | ⟨[], [], _⟩ => simp [computeRoot]
  | ⟨[node], [], _⟩ =>
    cases hleaf : node.path.isLeaf with
    | false => simp [computeRoot, hleaf, eq_comm (a := fault)]
    | true => simp [computeRoot, hleaf]
  | ⟨[], [_], _⟩ => simp [computeRoot]
  | ⟨[_], _ :: _, _⟩ => simp [computeRoot]
  | ⟨_ :: _ :: _, [], _⟩ => simp [computeRoot]
  | ⟨_ :: _ :: _, _ :: _, _⟩ => simp [computeRoot]
  | ⟨[], _ :: _ :: _, _⟩ => simp [computeRoot]

/-- The pass over a contour of at least two nodes gives the root over it. -/
theorem rooted_foldContour {nodes : List Node} (h : InOrder nodes) (hlen : 2 ≤ nodes.length) :
    ∃ inputs, Rooted nodes (foldContour nodes) inputs ∧ inputs ⊆ foldInputs nodes := by
  match nodes, h with
  | first :: second :: rest, h =>
    obtain ⟨t, ht, htips, htop, hinputs⟩ := exists_tree_foldContour h
    have hrooted := Rooted.of_tree ht (by rw [htips]; simp)
    rw [htips, htop] at hrooted
    exact ⟨_, hrooted, hinputs⟩

/-- The root that a proof computes is the root over its contour. -/
theorem rooted_computeRoot {proof : MapProof} (horder : InOrder proof.contour) {root : Digest}
    (h : proof.computeRoot = .ok root) :
    ∃ inputs, Rooted proof.contour root inputs ∧ inputs ⊆ proof.inputs := by
  by_cases htwo : 2 ≤ proof.entries.length + proof.nodes.length
  · obtain ⟨hroot, hinputs⟩ := computeRoot_of_two_le htwo
    obtain rfl := Except.ok.inj (hroot.symm.trans h)
    rw [← length_contour] at htwo
    obtain ⟨inputs, hrooted, hsub⟩ := rooted_foldContour horder htwo
    rw [hinputs]
    exact ⟨inputs, hrooted, fun x hx => List.mem_append_right _ (hsub hx)⟩
  · match proof, h, htwo with
    | ⟨[], [], missing⟩, h, _ =>
      cases h
      have hcontour : contour ⟨[], [], missing⟩ = [] := by simp [contour]
      rw [hcontour]
      exact ⟨[], .empty, List.nil_subset _⟩
    | ⟨[node], [], missing⟩, h, _ =>
      have hcontour : contour ⟨[node], [], missing⟩ = [node] := by simp [contour]
      rw [hcontour]
      simp only [computeRoot] at h
      split at h
      · rename_i hleaf
        cases h
        refine ⟨_, .single node, ?_⟩
        simp [inputs, hleaf]
      · cases h
    | ⟨[], [e], missing⟩, h, _ =>
      cases h
      have hcontour : contour ⟨[], [e], missing⟩ = [Node.ofEntry e.key e.value] := by simp [contour]
      rw [hcontour]
      refine ⟨_, .single (Node.ofEntry e.key e.value), ?_⟩
      exact List.subset_cons_self _ _
    | ⟨_ :: _, _ :: _, _⟩, _, htwo => exact absurd (by simp; omega) htwo
    | ⟨_ :: _ :: _, [], _⟩, _, htwo => exact absurd (by simp) htwo
    | ⟨[], _ :: _ :: _, _⟩, _, htwo => exact absurd (by simp) htwo

/-- The values of the entries are among what is hashed. -/
theorem value_mem_inputs {proof : MapProof} {e : Entry} (h : e ∈ proof.entries) :
    e.value ∈ proof.inputs := by
  by_cases htwo : 2 ≤ proof.entries.length + proof.nodes.length
  · rw [(computeRoot_of_two_le htwo).2]
    exact List.mem_append_left _ (List.mem_map_of_mem h)
  · match proof, h, htwo with
    | ⟨[], [e'], _⟩, h, _ =>
      rw [List.mem_singleton.mp h]
      exact List.mem_cons_self
    | ⟨_ :: _, _ :: _, _⟩, _, htwo => exact absurd (by simp; omega) htwo
    | ⟨[], _ :: _ :: _, _⟩, _, htwo => exact absurd (by simp) htwo

end MapProof

end LightClient.Trie

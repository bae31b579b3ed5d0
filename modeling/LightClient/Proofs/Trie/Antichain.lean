import LightClient.Proofs.Trie.Recursion

/-! What comparing neighbours says about all positions of a proof. The order of paths puts
whatever lies below a path right after it, so nodes that ascend and do not lie below their
neighbours do not lie below any other node either, however far apart they are listed. -/

namespace LightClient.Trie

theorem Path.isPrefixOf_eq_false_iff {p q : Path} :
    p.isPrefixOf q = false ↔ ¬ p.bitString <+: q.bitString := by
  rw [← Path.isPrefixOf_iff, Bool.not_eq_true]

/-- Nodes in order are nodes that ascend strictly, none of them above another one. -/
theorem inOrder_iff {nodes : List Node} :
    InOrder nodes ↔ (nodes.Pairwise fun m n => m.path.cmp n.path = .lt) ∧
      nodes.Pairwise fun m n => m.path.isPrefixOf n.path = false := by
  rw [← List.pairwise_and_iff]
  constructor
  · intro h
    refine List.Pairwise.imp ?_ h
    intro m n hbefore
    exact ⟨(Path.cmp_eq_compare _ _).trans hbefore.compare_eq,
      Path.isPrefixOf_eq_false_iff.mpr hbefore.not_prefix⟩
  · intro h
    refine List.Pairwise.imp ?_ h
    rintro m n ⟨hcmp, hpre⟩
    refine Path.before_of_cmp ?_ ?_
    · rw [hpre]
      exact Bool.false_ne_true
    · rw [hcmp]
      exact nofun

namespace MapProof

/-- No path is another one of the list or lies above it, wherever in the list the two stand. -/
def Antichain (paths : List Path) : Prop :=
  ∀ (i j : Nat) (p q : Path), i ≠ j → paths[i]? = some p → paths[j]? = some q →
    p ≠ q ∧ p.isPrefixOf q = false

/-- It is enough to look at each two paths once. -/
theorem antichain_iff {paths : List Path} : Antichain paths ↔ PrefixFree paths := by
  rw [PrefixFree, List.pairwise_iff_getElem]
  constructor
  · intro h i j hi hj hlt
    have hp := List.getElem?_eq_getElem hi
    have hq := List.getElem?_eq_getElem hj
    exact ⟨(h i j _ _ (Nat.ne_of_lt hlt) hp hq).2, (h j i _ _ (Nat.ne_of_gt hlt) hq hp).2⟩
  · intro h i j p q hne hp hq
    have hpre : p.isPrefixOf q = false := by
      obtain ⟨hi, rfl⟩ := List.getElem?_eq_some_iff.mp hp
      obtain ⟨hj, rfl⟩ := List.getElem?_eq_some_iff.mp hq
      rcases Nat.lt_or_gt_of_ne hne with hlt | hgt
      · exact (h i j hi hj hlt).1
      · exact (h j i hj hi hgt).2
    refine ⟨?_, hpre⟩
    rintro rfl
    exact Path.isPrefixOf_eq_false_iff.mp hpre (List.prefix_refl _)

theorem prefixFree_of_apart {proof : MapProof}
    (h : (proof.entries.map (fun e => Node.ofEntry e.key e.value) ++ proof.nodes).Pairwise Apart) :
    PrefixFree proof.paths := by
  rw [paths_eq_map, PrefixFree, List.pairwise_map]
  refine h.imp fun hapart => ⟨?_, ?_⟩
  · exact Path.isPrefixOf_eq_false_iff.mpr fun hpre => hapart (Or.inl hpre)
  · exact Path.isPrefixOf_eq_false_iff.mpr fun hpre => hapart (Or.inr hpre)

section
variable {proof : MapProof}

/-- The parts of a proof whose positions are apart from each other. -/
theorem PrefixFree.parts (h : PrefixFree proof.paths) :
    (proof.entries.map Entry.key).Nodup ∧
      (proof.nodes.Pairwise fun m n => m.path.isPrefixOf n.path = false) ∧
      ∀ e ∈ proof.entries, ∀ n ∈ proof.nodes, n.path.isPrefixOf (.leaf e.key) = false := by
  obtain ⟨hentries, hnodes, hacross⟩ := List.pairwise_append.mp h
  refine ⟨?_, ?_, ?_⟩
  · rw [List.pairwise_map] at hentries
    rw [List.nodup_iff_pairwise_ne, List.pairwise_map]
    refine hentries.imp fun hfree heq => ?_
    rw [heq] at hfree
    exact Path.isPrefixOf_eq_false_iff.mp hfree.1 (List.prefix_refl _)
  · exact (List.pairwise_map.mp hnodes).imp And.left
  · intro e he n hn
    exact (hacross _ (List.mem_map_of_mem he) _ (List.mem_map_of_mem hn)).2

theorem checkCovered_keys_eq_ok :
    checkCovered proof.nodes proof.keys = .ok () ↔
      (∀ e ∈ proof.entries, ∀ n ∈ proof.nodes, n.path.isPrefixOf (.leaf e.key) = false) ∧
        ∀ key ∈ proof.missing, ∀ n ∈ proof.nodes, n.path.isPrefixOf (.leaf key) = false := by
  rw [checkCovered_eq_ok, keys, List.forall_mem_append, List.forall_mem_map]
  simp only [Path.isPrefixOf_eq_false_iff]

end

/-- The nodes of a proof ascend, none of them right below the one before it, and none of the
keys lies below a node: that is to say that the nodes ascend from any of them to any later
one, that no position of a node or an entry is another one or lies above it, and that no
node lies above a missing key. -/
theorem neighbour_checks_iff_antichain (proof : MapProof) :
    (checkOrder proof.nodes = .ok () ∧ checkCovered proof.nodes proof.keys = .ok () ∧
        (proof.entries.map Entry.key).Nodup) ↔
      (proof.nodes.Pairwise fun m n => m.path.cmp n.path = .lt) ∧ Antichain proof.paths ∧
        ∀ key ∈ proof.missing, ∀ n ∈ proof.nodes, n.path.isPrefixOf (.leaf key) = false := by
  rw [checkOrder_eq_ok, antichain_iff]
  constructor
  · rintro ⟨horder, hcovered, hnodup⟩
    refine ⟨(inOrder_iff.mp horder).1, ?_, (checkCovered_keys_eq_ok.mp hcovered).2⟩
    exact prefixFree_of_apart (apart_contour horder hnodup (checkCovered_eq_ok.mp hcovered))
  · rintro ⟨hascending, hfree, hmissing⟩
    obtain ⟨hnodup, hnodes, hentries⟩ := hfree.parts
    exact ⟨inOrder_iff.mpr ⟨hascending, hnodes⟩,
      checkCovered_keys_eq_ok.mpr ⟨hentries, hmissing⟩, hnodup⟩

/-- Three subtrees around an entry, with a missing key beside it. -/
def fourPlaces : MapProof where
  nodes := [⟨⟨shortKey 0, 2, by decide, by decide⟩, .zero 32⟩,
    ⟨⟨shortKey 2, 3, by decide, by decide⟩, .zero 32⟩, rightHalf]
  entries := [⟨shortKey 6, [11]⟩]
  missing := [shortKey 14]

/-- The first and the last of the subtrees are no neighbours. -/
theorem neighbour_checks_iff_antichain_fourPlaces :
    checkOrder fourPlaces.nodes = .ok () ∧
      checkCovered fourPlaces.nodes fourPlaces.keys = .ok () ∧
      (fourPlaces.entries.map Entry.key).Nodup ∧ Antichain fourPlaces.paths ∧
      fourPlaces.paths[1]? = some ⟨shortKey 0, 2, by decide, by decide⟩ ∧
      fourPlaces.paths[3]? = some rightHalf.path ∧
      rightHalf.path.isPrefixOf (.leaf (shortKey 14)) = false := by
  have hchecks : checkOrder fourPlaces.nodes = .ok () ∧
      checkCovered fourPlaces.nodes fourPlaces.keys = .ok () ∧
      (fourPlaces.entries.map Entry.key).Nodup :=
    ⟨rfl, rfl, by decide⟩
  obtain ⟨-, hantichain, hmissing⟩ := (neighbour_checks_iff_antichain fourPlaces).mp hchecks
  exact ⟨hchecks.1, hchecks.2.1, hchecks.2.2, hantichain, rfl, rfl,
    hmissing _ (by decide) rightHalf (by decide)⟩

end MapProof

end LightClient.Trie

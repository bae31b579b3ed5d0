import LightClient.Proofs.Trie.Check

/-! The pass over the contour against the recursive hash. `Summary` says the recursion of
the nodes alone: one node stands for itself, and more are parted at the first bit after
their common prefix. Nodes apart from each other have one summary, and it is what the
pass comes to, in whatever order a proof lists them. -/

namespace LightClient.Trie

/-- The node that stands for all the nodes. Those that go left after `path` and those that
go right are taken together, and their two nodes are joined at `path`. -/
inductive Summary : List Node → Node → Prop
  | single (node : Node) : Summary [node] node
  | join {path : Path} {left right : List Node} {l r : Node} :
    (∀ n ∈ left, path.bitString ++ [false] <+: n.bits) →
    (∀ n ∈ right, path.bitString ++ [true] <+: n.bits) →
    Summary left l → Summary right r → Summary (left ++ right) (.join path l r)

/-! ## Summaries and sound trees -/

/-- What lies above all tips of a sound tree lies above its top. -/
theorem Tree.Sound.prefix_top {t : Tree} (h : t.Sound) {pre : List Bool}
    (hpre : ∀ n ∈ t.tips, pre <+: n.bits) : pre <+: t.top.bits := by
  cases t with
  | tip n => exact hpre n (List.mem_singleton_self n)
  | fork path l r =>
    obtain ⟨m, ms, hm⟩ := List.exists_cons_of_ne_nil l.tips_ne_nil
    obtain ⟨n, ns, hn⟩ := List.exists_cons_of_ne_nil r.tips_ne_nil
    have hleft : m ∈ l.tips := hm ▸ List.mem_cons_self
    have hright : n ∈ r.tips := hn ▸ List.mem_cons_self
    exact (h.parts_tips hleft hright).prefix_of_prefixes
      (hpre m (List.mem_append_left _ hleft)) (hpre n (List.mem_append_right _ hright))

theorem Tree.Sound.summary {t : Tree} (h : t.Sound) : Summary t.tips t.top := by
  induction t with
  | tip n => exact .single n
  | fork path l r ihl ihr =>
    obtain ⟨hparts, hl, hr⟩ := h
    refine .join ?_ ?_ (ihl hl) (ihr hr)
    · intro n hn
      exact hparts.1.trans (hl.top_above hn)
    · intro n hn
      exact hparts.2.trans (hr.top_above hn)

theorem Summary.exists_tree {nodes : List Node} {top : Node} (h : Summary nodes top) :
    ∃ t : Tree, t.Sound ∧ t.tips = nodes ∧ t.top = top := by
  induction h with
  | single n => exact ⟨.tip n, trivial, rfl, rfl⟩
  | @join path left right l r hleft hright _ _ ihl ihr =>
    obtain ⟨t, ht, rfl, rfl⟩ := ihl
    obtain ⟨u, hu, rfl, rfl⟩ := ihr
    exact ⟨.fork path t u, ⟨⟨ht.prefix_top hleft, hu.prefix_top hright⟩, ht, hu⟩, rfl, rfl⟩

/-- Nodes have at most one summary. -/
theorem Summary.unique {nodes : List Node} {m n : Node} (hm : Summary nodes m)
    (hn : Summary nodes n) : m = n := by
  obtain ⟨t, ht, htips, rfl⟩ := hm.exists_tree
  obtain ⟨u, hu, hutips, rfl⟩ := hn.exists_tree
  rw [ht.unique hu (htips.trans hutips.symm)]

/-- The summary of nodes in order is what `subtree` makes of them. -/
theorem InOrder.summary_subtree {first : Node} {rest : List Node} (h : InOrder (first :: rest)) :
    Summary (first :: rest) (subtree first rest) := by
  obtain ⟨t, ht, htips, htop, -⟩ := h.exists_tree_subtree
  rw [← htips, ← htop]
  exact ht.summary

/-- The pass over at least two nodes in order comes to their summary. -/
theorem InOrder.foldContour_eq {first : Node} {rest : List Node} (h : InOrder (first :: rest))
    (hrest : rest ≠ []) : foldContour (first :: rest) = (subtree first rest).hash := by
  obtain ⟨t, ht, htips, htop, -⟩ := h.exists_tree_subtree
  have hlen : 2 ≤ t.tips.length := by
    have := List.length_pos_iff.mpr hrest
    rw [htips, List.length_cons]
    omega
  rw [← htips, ht.foldContour_tips hlen, htop]

/-! ## Contours -/

namespace MapProof

/-- The positions of the entries and of the nodes that a proof lists. -/
def paths (proof : MapProof) : List Path :=
  proof.entries.map (fun e => Path.leaf e.key) ++ proof.nodes.map Node.path

/-- None of the positions lies at or below another one. -/
def PrefixFree (paths : List Path) : Prop :=
  paths.Pairwise fun p q => p.isPrefixOf q = false ∧ q.isPrefixOf p = false

/-- They are the positions of the nodes that the contour is sorted from. -/
theorem paths_eq_map (proof : MapProof) : proof.paths =
    (proof.entries.map (fun e => Node.ofEntry e.key e.value) ++ proof.nodes).map Node.path := by
  rw [paths, List.map_append, List.map_map]
  rfl

theorem apart_of_prefixFree {proof : MapProof} (h : PrefixFree proof.paths) :
    (proof.entries.map (fun e => Node.ofEntry e.key e.value) ++ proof.nodes).Pairwise Apart := by
  rw [paths_eq_map, PrefixFree, List.pairwise_map] at h
  apply h.imp
  rintro m n ⟨hmn, hnm⟩ (hmeets | hmeets)
  · rw [Path.isPrefixOf_iff.mpr hmeets] at hmn
    cases hmn
  · rw [Path.isPrefixOf_iff.mpr hmeets] at hnm
    cases hnm

/-- In path order it does not matter how a proof lists its nodes and entries. -/
theorem contour_eq_of_perm {proof proof' : MapProof} (h : InOrder proof.contour)
    (h' : InOrder proof'.contour) (hentries : proof'.entries.Perm proof.entries)
    (hnodes : proof'.nodes.Perm proof.nodes) : proof'.contour = proof.contour := by
  apply List.Perm.eq_of_pairwise _ h' h
  · exact ((List.mergeSort_perm _ _).trans ((hentries.map _).append hnodes)).trans
      (List.mergeSort_perm _ _).symm
  · intro a b _ _ hab hba
    exact absurd hba hab.asymm

theorem PrefixFree.perm {ps qs : List Path} (h : PrefixFree ps) (hperm : ps.Perm qs) :
    PrefixFree qs :=
  hperm.pairwise h And.symm

theorem paths_perm {proof proof' : MapProof} (hentries : proof'.entries.Perm proof.entries)
    (hnodes : proof'.nodes.Perm proof.nodes) : proof.paths.Perm proof'.paths :=
  ((hentries.map _).append (hnodes.map _)).symm

/-- The pass over the contour of a proof with two nodes or more, none at or below another,
gives the hash of their one summary, which `subtree` computes by recursion. However a
proof lists the same nodes and entries, the pass gives this hash. -/
theorem foldContour_eq_summary (proof : MapProof)
    (hlen : 2 ≤ proof.entries.length + proof.nodes.length) (hfree : PrefixFree proof.paths) :
    InOrder proof.contour ∧ ∃ first rest, proof.contour = first :: rest ∧
      Summary proof.contour (subtree first rest) ∧
      (∀ top, Summary proof.contour top → top = subtree first rest) ∧
      ∀ listed : MapProof, listed.entries.Perm proof.entries → listed.nodes.Perm proof.nodes →
        foldContour listed.contour = (subtree first rest).hash := by
  have horder : InOrder proof.contour := inOrder_mergeSort (apart_of_prefixFree hfree)
  rw [← length_contour] at hlen
  match hcontour : proof.contour, horder, hlen with
  | first :: second :: rest, horder, _ =>
    have hsummary := horder.summary_subtree
    refine ⟨horder, first, second :: rest, rfl, hsummary, fun top htop => htop.unique hsummary, ?_⟩
    intro listed hentries hnodes
    have hlisted : InOrder listed.contour :=
      inOrder_mergeSort (apart_of_prefixFree (hfree.perm (paths_perm hentries hnodes)))
    rw [contour_eq_of_perm (hcontour ▸ horder) hlisted hentries hnodes, hcontour]
    exact horder.foldContour_eq (List.cons_ne_nil _ _)

/-! ## Two entries beside a subtree -/

/-- A subtree of all keys with the first bit set. -/
def rightHalf : Node := ⟨⟨shortKey 1, 1, by decide, by decide⟩, .zero 32⟩

/-- The entries are listed from right to left. -/
def threeNodes : MapProof where
  nodes := [rightHalf]
  entries := [⟨shortKey 6, [11]⟩, ⟨shortKey 4, [10]⟩]
  missing := []

/-- The two entries part after their first bit, and from the subtree at once. -/
def threeSummary : Node :=
  .join ⟨.zero 32, 0, by decide, by decide⟩
    (.join ⟨.zero 32, 1, by decide, by decide⟩ (Node.ofEntry (shortKey 4) [10])
      (Node.ofEntry (shortKey 6) [11]))
    rightHalf

theorem summary_threeNodes :
    Summary [Node.ofEntry (shortKey 4) [10], Node.ofEntry (shortKey 6) [11], rightHalf]
      threeSummary := by
  have hentries : Summary ([Node.ofEntry (shortKey 4) [10]] ++ [Node.ofEntry (shortKey 6) [11]])
      (.join ⟨.zero 32, 1, by decide, by decide⟩ (Node.ofEntry (shortKey 4) [10])
        (Node.ofEntry (shortKey 6) [11])) :=
    .join (by decide) (by decide) (.single _) (.single _)
  exact .join (by decide) (by decide) hentries (.single rightHalf)

theorem foldContour_eq_summary_threeNodes :
    2 ≤ threeNodes.entries.length + threeNodes.nodes.length ∧ PrefixFree threeNodes.paths ∧
      Summary threeNodes.contour threeSummary ∧
      foldContour threeNodes.contour = threeSummary.hash := by
  have hlen : 2 ≤ threeNodes.entries.length + threeNodes.nodes.length := by decide
  have hfree : PrefixFree threeNodes.paths := by
    unfold PrefixFree
    decide
  obtain ⟨horder, first, rest, -, -, hunique, hfold⟩ :=
    foldContour_eq_summary threeNodes hlen hfree
  obtain ⟨t, ht, htips, -⟩ := summary_threeNodes.exists_tree
  have hcontour : threeNodes.contour =
      [Node.ofEntry (shortKey 4) [10], Node.ofEntry (shortKey 6) [11], rightHalf] := by
    apply List.Perm.eq_of_pairwise _ horder (htips ▸ ht.inOrder_tips)
    · exact (List.mergeSort_perm _ _).trans (List.Perm.swap _ _ _)
    · intro a b _ _ hab hba
      exact absurd hba hab.asymm
  have hsummary : Summary threeNodes.contour threeSummary := hcontour ▸ summary_threeNodes
  refine ⟨hlen, hfree, hsummary, ?_⟩
  rw [hfold threeNodes (List.Perm.refl _) (List.Perm.refl _), ← hunique _ hsummary]

end MapProof

end LightClient.Trie

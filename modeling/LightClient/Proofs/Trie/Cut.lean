import LightClient.Proofs.Trie.Root
import LightClient.Trie.Builder

/-! What the builder of a proof keeps of a trie. The pieces of a cut are the tips
of a sound tree with the top of the whole subtree; a piece is opened exactly when
it is a leaf that a requested path ends at. -/

namespace LightClient.Trie

/-- The node of a piece, opened or not. -/
def Piece.node : Piece → Node
  | .unopened node => node
  | .opened leaf => leaf

/-- Some requested path lies at or below the node. -/
def Reached (requested : List Path) (n : Node) : Prop :=
  ∃ path ∈ requested, n.bits <+: path.bitString

theorem Reached.of_prefix {requested : List Path} {m n : Node} (h : Reached requested n)
    (hmn : m.bits <+: n.bits) : Reached requested m := by
  obtain ⟨path, hpath, hn⟩ := h
  exact ⟨path, hpath, hmn.trans hn⟩

/-- The test that `cut` makes. -/
theorem all_not_prefix_iff {requested : List Path} {n : Node} :
    (requested.all fun path => !n.path.isPrefixOf path) = true ↔ ¬ Reached requested n := by
  simp only [List.all_eq_true, Bool.not_eq_true', ← Bool.not_eq_true, Path.isPrefixOf_iff, Reached,
    not_exists, not_and]

/-! ## The recursion of `cut` -/

section
variable {requested : List Path} {first second l r : Node} {rest ls rs : List Node}

theorem cut_of_not_reached (h : ¬ Reached requested (subtree first rest)) :
    cut requested first rest = [.unopened (subtree first rest)] := by
  rw [cut.eq_def, if_pos (all_not_prefix_iff.mpr h)]

theorem cut_single (h : Reached requested first) : cut requested first [] = [.opened first] := by
  have hneg := mt all_not_prefix_iff.mp (not_not_intro h)
  rw [cut.eq_def, subtree_nil, if_neg hneg]

theorem cut_single_of_not_reached (h : ¬ Reached requested first) :
    cut requested first [] = [.unopened first] := by
  rw [cut_of_not_reached (by rwa [subtree_nil]), subtree_nil]

theorem cut_cons (h : Reached requested (subtree first (second :: rest)))
    (hsplit : split first (second :: rest) = (l :: ls, r :: rs)) :
    cut requested first (second :: rest) = cut requested l ls ++ cut requested r rs := by
  have hneg := mt all_not_prefix_iff.mp (not_not_intro h)
  rw [cut.eq_def, if_neg hneg]
  dsimp only
  split
  · rename_i hs
    rw [hsplit] at hs
    cases hs
    rfl
  · rename_i hs
    exact absurd hsplit (hs l ls r rs)

end

/-! ## What a cut keeps -/

section
variable {requested : List Path} {first : Node} {rest : List Node}

/-- The pieces are the tips of a sound tree with the top of the whole subtree. -/
theorem InOrder.exists_tree_cut (requested : List Path) (h : InOrder (first :: rest)) :
    ∃ t : Tree, t.Sound ∧ t.tips = (cut requested first rest).map Piece.node ∧
      t.top = subtree first rest := by
  refine h.subtree_induction (motive := fun first rest => ∃ t : Tree, t.Sound ∧
    t.tips = (cut requested first rest).map Piece.node ∧ t.top = subtree first rest) ?_ ?_
  · intro n
    refine ⟨.tip n, trivial, ?_, (subtree_nil n).symm⟩
    by_cases hr : Reached requested n
    · rw [cut_single hr]
      rfl
    · rw [cut_single_of_not_reached hr]
      rfl
  · rintro first second rest l ls r rs - hsplit - hparts ⟨t, ht, ttips, ttop⟩ ⟨u, hu, utips, utop⟩
    by_cases hr : Reached requested (subtree first (second :: rest))
    · refine ⟨.fork (spanPath first (second :: rest)) t u, ⟨?_, ht, hu⟩, ?_, ?_⟩
      · rw [ttop, utop]
        exact hparts
      · rw [Tree.tips, ttips, utips, cut_cons hr hsplit, List.map_append]
      · rw [Tree.top_fork, ttop, utop, subtree_cons hsplit]
    · refine ⟨.tip (subtree first (second :: rest)), trivial, ?_, rfl⟩
      rw [cut_of_not_reached hr]
      rfl

theorem InOrder.inOrder_cut (h : InOrder (first :: rest)) :
    InOrder ((cut requested first rest).map Piece.node) := by
  obtain ⟨t, ht, htips, -⟩ := h.exists_tree_cut requested
  rw [← htips]
  exact ht.inOrder_tips

theorem InOrder.cut_ne_nil (requested : List Path) (h : InOrder (first :: rest)) :
    cut requested first rest ≠ [] := by
  obtain ⟨t, -, htips, -⟩ := h.exists_tree_cut requested
  intro hnil
  apply t.tips_ne_nil
  rw [htips, hnil]
  rfl

/-- A fork that is reached is cut in two at least. -/
theorem InOrder.two_le_length_cut {second : Node} (h : InOrder (first :: second :: rest))
    (hr : Reached requested (subtree first (second :: rest))) :
    2 ≤ (cut requested first (second :: rest)).length := by
  obtain ⟨l, ls, r, rs, hsplit, -⟩ := h.split_eq
  obtain ⟨hl, hr'⟩ := h.inOrder_split hsplit
  have hlpos := List.length_pos_iff.mpr (hl.cut_ne_nil requested)
  have hrpos := List.length_pos_iff.mpr (hr'.cut_ne_nil requested)
  rw [cut_cons hr hsplit, List.length_append]
  omega

/-- No requested path lies below an unopened piece. -/
theorem InOrder.not_reached_of_mem_cut (h : InOrder (first :: rest)) {n : Node}
    (hn : .unopened n ∈ cut requested first rest) : ¬ Reached requested n := by
  revert hn
  refine h.subtree_induction (motive := fun first rest =>
    .unopened n ∈ cut requested first rest → ¬ Reached requested n) ?_ ?_
  · intro m hn
    by_cases hr : Reached requested m
    · rw [cut_single hr] at hn
      simp at hn
    · rw [cut_single_of_not_reached hr] at hn
      obtain rfl : n = m := by simpa using hn
      exact hr
  · intro first second rest l ls r rs _ hsplit _ _ ihl ihr hn
    by_cases hr : Reached requested (subtree first (second :: rest))
    · rw [cut_cons hr hsplit] at hn
      rcases List.mem_append.mp hn with hn | hn
      · exact ihl hn
      · exact ihr hn
    · rw [cut_of_not_reached hr] at hn
      obtain rfl : n = subtree first (second :: rest) := by simpa using hn
      exact hr

/-- The opened pieces are the nodes that a requested path lies below. -/
theorem InOrder.opened_mem_cut_iff (h : InOrder (first :: rest)) {leaf : Node} :
    .opened leaf ∈ cut requested first rest ↔
      leaf ∈ first :: rest ∧ Reached requested leaf := by
  refine h.subtree_induction (motive := fun first rest =>
    .opened leaf ∈ cut requested first rest ↔ leaf ∈ first :: rest ∧ Reached requested leaf) ?_ ?_
  · intro m
    by_cases hr : Reached requested m
    · rw [cut_single hr]
      simp only [List.mem_singleton, Piece.opened.injEq]
      constructor
      · rintro rfl
        exact ⟨rfl, hr⟩
      · exact And.left
    · rw [cut_single_of_not_reached hr]
      simp only [List.mem_singleton, reduceCtorEq, false_iff, not_and]
      rintro rfl
      exact hr
  · intro first second rest l ls r rs horder hsplit happ _ ihl ihr
    by_cases hr : Reached requested (subtree first (second :: rest))
    · rw [cut_cons hr hsplit, List.mem_append, ihl, ihr, ← happ, List.mem_append, or_and_right]
    · rw [cut_of_not_reached hr]
      simp only [List.mem_singleton, reduceCtorEq, false_iff, not_and]
      -- a path below a leaf lies below the whole subtree
      intro hleaf hreached
      obtain ⟨t, ht, htips, htop, -⟩ := horder.exists_tree_subtree
      apply hr
      apply hreached.of_prefix
      rw [← htop]
      exact ht.top_above (htips ▸ hleaf)

end

end LightClient.Trie

import LightClient.Proofs.Trie.Path
import LightClient.Trie.Node

/-! The recursion of `subtree` on nodes in path order. Nodes none of which lies
below another always split in two at the first bit after their common prefix,
and `subtree_induction` packages the induction that follows. -/

namespace LightClient.Trie

/-- The position of a node as a bit string. -/
abbrev Node.bits (n : Node) : List Bool := n.path.bitString

/-- Nodes from left to right, none of them below another. -/
def InOrder (nodes : List Node) : Prop := nodes.Pairwise fun m n => Before m.bits n.bits

theorem InOrder.sublist {ms ns : List Node} (h : InOrder ns) (hs : ms.Sublist ns) : InOrder ms :=
  List.Pairwise.sublist hs h

/-! ## Splitting -/

theorem getLastD_mem_cons (first : Node) (rest : List Node) :
    rest.getLastD first ∈ first :: rest := by
  induction rest generalizing first with
  | nil => simp
  | cons n rest ih =>
    rw [List.getLastD_cons]
    exact List.mem_cons_of_mem _ (ih n)

theorem InOrder.before_last {first second : Node} {rest : List Node}
    (h : InOrder (first :: second :: rest)) :
    Before first.bits ((second :: rest).getLastD first).bits := by
  apply List.rel_of_pairwise_cons h
  rw [List.getLastD_cons]
  exact getLastD_mem_cons second rest

/-- The first and the last node part where the span of all of them ends. -/
theorem InOrder.parts_span {first second : Node} {rest : List Node}
    (h : InOrder (first :: second :: rest)) :
    Parts (spanPath first (second :: rest)).bitString first.bits
      ((second :: rest).getLastD first).bits := by
  obtain ⟨pre, hpre⟩ := h.before_last
  rw [spanPath, Path.bitString_commonPrefix_of_parts hpre]
  exact hpre

/-- The bit at which they part is one of the 256. -/
theorem InOrder.bits_spanPath_lt {first second : Node} {rest : List Node}
    (h : InOrder (first :: second :: rest)) : (spanPath first (second :: rest)).bits < 256 := by
  have hlt := h.parts_span.length_lt_left
  have hle := first.path.bits_le
  rw [Path.length_bitString, Path.length_bitString] at hlt
  omega

/-- In order, every node but the last stands before the last. -/
theorem InOrder.before_getLastD {first n : Node} {rest : List Node}
    (h : InOrder (first :: rest)) (hn : n ∈ first :: rest) :
    n = rest.getLastD first ∨ Before n.bits (rest.getLastD first).bits := by
  induction rest generalizing first with
  | nil => exact Or.inl (by simpa using hn)
  | cons second rest ih =>
    rw [List.getLastD_cons]
    rcases List.mem_cons.mp hn with rfl | hn
    · have := h.before_last
      rw [List.getLastD_cons] at this
      exact Or.inr this
    · exact ih (List.Pairwise.tail h) hn

/-- Every node lies on one side of where the first and the last part. -/
theorem InOrder.side_span {first second n : Node} {rest : List Node}
    (h : InOrder (first :: second :: rest)) (hn : n ∈ first :: second :: rest) :
    (spanPath first (second :: rest)).bitString ++ [false] <+: n.bits ∨
      (spanPath first (second :: rest)).bitString ++ [true] <+: n.bits := by
  have hspan := h.parts_span
  rcases List.mem_cons.mp hn with rfl | hn'
  · exact Or.inl hspan.1
  rcases h.before_getLastD hn with rfl | ⟨q, hq⟩
  · exact Or.inr hspan.2
  obtain ⟨p, hp⟩ := List.rel_of_pairwise_cons h hn'
  -- `first` parts from the last node where it parts from `n`, or where `n` parts from the last
  have hunique := (hp.trans hq).unique hspan
  split at hunique
  · rw [← hunique]
    exact Or.inr hp.2
  · rw [← hunique]
    exact Or.inl hq.1

theorem bit_of_append_prefix {p : Path} {pre : List Bool} {x : Bool}
    (h : pre ++ [x] <+: p.bitString) : p.bit pre.length = x := by
  have hlt : pre.length < p.bits := by
    have := length_append_bit_le.mp h.length_le
    simpa using this
  have hget := List.prefix_iff_getElem?.mp h pre.length (by simp)
  simp only [Path.bitString, List.getElem?_map, List.getElem?_range hlt, Option.map_some] at hget
  simpa using hget

/-- Nodes in order that lie on the sides of `pre` are the ones on its left
followed by the ones on its right. -/
theorem InOrder.exists_sides {pre : List Bool} {nodes : List Node} (h : InOrder nodes)
    (hside : ∀ n ∈ nodes, pre ++ [false] <+: n.bits ∨ pre ++ [true] <+: n.bits) :
    ∃ left right, nodes = left ++ right ∧ (∀ n ∈ left, pre ++ [false] <+: n.bits) ∧
      (∀ n ∈ right, pre ++ [true] <+: n.bits) := by
  induction nodes with
  | nil => exact ⟨[], [], rfl, by simp, by simp⟩
  | cons n rest ih =>
    rcases hside n List.mem_cons_self with hl | hr
    · obtain ⟨left, right, rfl, hleft, hright⟩ :=
        ih (List.Pairwise.tail h) fun m hm => hside m (List.mem_cons_of_mem _ hm)
      refine ⟨n :: left, right, rfl, ?_, hright⟩
      intro m hm
      rcases List.mem_cons.mp hm with rfl | hm
      · exact hl
      · exact hleft m hm
    · refine ⟨[], n :: rest, rfl, by simp, ?_⟩
      intro m hm
      rcases List.mem_cons.mp hm with rfl | hm'
      · exact hr
      rcases hside m hm with hml | hmr
      · -- a node on the left would stand before `n`
        exact absurd (List.rel_of_pairwise_cons h hm') (Before.asymm ⟨pre, hml, hr⟩)
      · exact hmr

/-- A list whose beginning satisfies a test that the rest fails is cut there. -/
theorem takeWhile_append_of {α : Type} {p : α → Bool} {left right : List α}
    (hl : ∀ a ∈ left, p a = true) (hr : ∀ a ∈ right, p a = false) :
    (left ++ right).takeWhile p = left ∧ (left ++ right).dropWhile p = right := by
  rw [List.takeWhile_append_of_pos hl, List.dropWhile_append_of_pos hl]
  cases right with
  | nil => simp
  | cons r rs =>
    have hneg : ¬ p r = true := by simp [hr r List.mem_cons_self]
    rw [List.takeWhile_cons_of_neg hneg, List.dropWhile_cons_of_neg hneg, List.append_nil]
    exact ⟨rfl, rfl⟩

/-- Nodes in order split into a left and a right part, neither of them empty. -/
theorem InOrder.split_eq {first second : Node} {rest : List Node}
    (h : InOrder (first :: second :: rest)) :
    ∃ l ls r rs, split first (second :: rest) = (l :: ls, r :: rs) ∧
      (∀ n ∈ l :: ls, (spanPath first (second :: rest)).bitString ++ [false] <+: n.bits) ∧
      (∀ n ∈ r :: rs, (spanPath first (second :: rest)).bitString ++ [true] <+: n.bits) := by
  have hspan := h.parts_span
  obtain ⟨left, right, hnodes, hleft, hright⟩ := h.exists_sides fun n hn => h.side_span hn
  have hsplit : split first (second :: rest) = (left, right) := by
    have hclear : ∀ n ∈ left, (!n.path.bit (spanPath first (second :: rest)).bits) = true := by
      intro n hn
      rw [← Path.length_bitString, bit_of_append_prefix (hleft n hn)]
      rfl
    have hset : ∀ n ∈ right, (!n.path.bit (spanPath first (second :: rest)).bits) = false := by
      intro n hn
      rw [← Path.length_bitString, bit_of_append_prefix (hright n hn)]
      rfl
    obtain ⟨htake, hdrop⟩ := takeWhile_append_of hclear hset
    simp only [split, hnodes, htake, hdrop]
  have hfirst : first ∈ left := by
    rcases List.mem_append.mp (hnodes ▸ List.mem_cons_self) with hm | hm
    · exact hm
    · exact (left_right_absurd hspan.1 (hright first hm)).elim
  have hlast : (second :: rest).getLastD first ∈ right := by
    rcases List.mem_append.mp (hnodes ▸ getLastD_mem_cons first (second :: rest)) with hm | hm
    · exact (left_right_absurd (hleft _ hm) hspan.2).elim
    · exact hm
  obtain ⟨l, ls, rfl⟩ := List.exists_cons_of_ne_nil (List.ne_nil_of_mem hfirst)
  obtain ⟨r, rs, rfl⟩ := List.exists_cons_of_ne_nil (List.ne_nil_of_mem hlast)
  exact ⟨l, ls, r, rs, hsplit, hleft, hright⟩

theorem InOrder.inOrder_split {first l r : Node} {rest ls rs : List Node}
    (h : InOrder (first :: rest)) (hsplit : split first rest = (l :: ls, r :: rs)) :
    InOrder (l :: ls) ∧ InOrder (r :: rs) := by
  have happ := split_append first rest
  rw [hsplit] at happ
  rw [← happ] at h
  exact ⟨h.sublist (List.sublist_append_left _ _), h.sublist (List.sublist_append_right _ _)⟩

/-! ## The recursion of `subtree` -/

@[simp] theorem subtree_nil (n : Node) : subtree n [] = n := by rw [subtree]

theorem subtree_cons {first second l r : Node} {rest ls rs : List Node}
    (h : split first (second :: rest) = (l :: ls, r :: rs)) :
    subtree first (second :: rest) =
      .join (spanPath first (second :: rest)) (subtree l ls) (subtree r rs) := by
  rw [subtree]
  split
  · rename_i hs
    rw [h] at hs
    cases hs
    rfl
  · rename_i hs
    exact absurd h (hs l ls r rs)

/-- The subtree over nodes in order lies at their common prefix. -/
theorem InOrder.path_subtree {first : Node} {rest : List Node} (h : InOrder (first :: rest)) :
    (subtree first rest).path = spanPath first rest := by
  cases rest with
  | nil =>
    apply Path.bitString_injective
    have hnone : first.path.fork first.path = none := by
      cases hf : first.path.fork first.path with
      | none => rfl
      | some i => exact absurd rfl (Path.fork_eq_some hf).2.1
    simp [spanPath, Path.bitString_commonPrefix, Path.shared, hnone, List.take_of_length_le]
  | cons second rest =>
    obtain ⟨l, ls, r, rs, hsplit, -⟩ := h.split_eq
    rw [subtree_cons hsplit]
    rfl

/-- What lies above all nodes in order lies above their subtree. -/
theorem InOrder.prefix_subtree {pre : List Bool} {first : Node} {rest : List Node}
    (h : InOrder (first :: rest)) (hpre : ∀ n ∈ first :: rest, pre <+: n.bits) :
    pre <+: (subtree first rest).bits := by
  cases rest with
  | nil =>
    rw [subtree_nil]
    exact hpre first List.mem_cons_self
  | cons second rest =>
    rw [Node.bits, h.path_subtree]
    exact h.parts_span.prefix_of_prefixes (hpre first List.mem_cons_self)
      (hpre _ (getLastD_mem_cons first _))

/-- Induction along the recursion of `subtree`: a single node, or two parts on
the two sides of their common prefix. -/
theorem InOrder.subtree_induction {motive : Node → List Node → Prop}
    (single : ∀ n, motive n [])
    (join : ∀ first second rest l ls r rs, InOrder (first :: second :: rest) →
      split first (second :: rest) = (l :: ls, r :: rs) →
      (l :: ls) ++ (r :: rs) = first :: second :: rest →
      Parts (spanPath first (second :: rest)).bitString (subtree l ls).bits (subtree r rs).bits →
      motive l ls → motive r rs → motive first (second :: rest))
    {first : Node} {rest : List Node} (h : InOrder (first :: rest)) : motive first rest := by
  induction hlen : rest.length using Nat.strongRecOn generalizing first rest with
  | _ size ih =>
    cases rest with
    | nil => exact single first
    | cons second rest =>
      obtain ⟨l, ls, r, rs, hsplit, hleft, hright⟩ := h.split_eq
      obtain ⟨hls, hrs⟩ := length_split hsplit
      have happ := split_append first (second :: rest)
      rw [hsplit] at happ
      rw [hlen] at hls hrs
      obtain ⟨hl, hr⟩ := h.inOrder_split hsplit
      exact join first second rest l ls r rs h hsplit happ
        ⟨hl.prefix_subtree hleft, hr.prefix_subtree hright⟩ (ih _ hls hl rfl) (ih _ hrs hr rfl)

end LightClient.Trie

import LightClient.Proofs.Machine.MapBuilder
import LightClient.Proofs.Trie.Antichain
import Mathlib.Data.List.Nodup
import Mathlib.Data.List.Pairwise

/-! The builder of a map proof makes an exact cut. Leaves in path order are parted until
nothing asked for lies below a part: each stored key then lies below one node, or it was
asked for and is listed with its value, and what stands in the proof for a part is the
subtree over its leaves. -/

namespace LightClient.Trie

/-! ## Sorted leaves -/

/-- Positions of keys, strictly ascending. -/
structure SortedLeaves (nodes : List Node) : Prop where
  leaf : ∀ n ∈ nodes, n.path.isLeaf = true
  ascending : nodes.Pairwise fun m n => m.path.cmp n.path = .lt

/-- A leaf is a prefix of no other one, so one that comes before it parts from it. -/
theorem before_of_cmp_leaves {p q : Path} (hp : p.isLeaf = true) (hq : q.isLeaf = true)
    (hcmp : p.cmp q = .lt) : Before p.bitString q.bitString := by
  refine Path.before_of_cmp ?_ (by rw [hcmp]; exact nofun)
  intro hpre
  have hlength : p.bitString.length = q.bitString.length := by
    rw [Path.length_bitString, Path.length_bitString, eq_of_beq hp, eq_of_beq hq]
  have heq := (Path.isPrefixOf_iff.mp hpre).eq_of_length hlength
  rw [Path.cmp_eq_compare, heq, Std.ReflOrd.compare_self] at hcmp
  cases hcmp

theorem SortedLeaves.inOrder {nodes : List Node} (h : SortedLeaves nodes) : InOrder nodes :=
  h.ascending.imp_of_mem fun hm hn hcmp => before_of_cmp_leaves (h.leaf _ hm) (h.leaf _ hn) hcmp

theorem sortedLeaves_leaves (entries : Entries) : SortedLeaves (leaves entries) := by
  refine ⟨?_, (inOrder_iff.mp (inOrder_leaves entries)).1⟩
  intro n hn
  obtain ⟨key, value, -, rfl⟩ := mem_leaves.mp hn
  rfl

/-! ## Parting them -/

/-- Two parts of the nodes on the two sides of a path above all of them. -/
structure Parted (path : Path) (nodes left right : List Node) : Prop where
  append : left ++ right = nodes
  left_ne_nil : left ≠ []
  right_ne_nil : right ≠ []
  above : ∀ n ∈ nodes, path.isPrefixOf n.path = true
  bits_lt : path.bits < 256
  left_clear : ∀ n ∈ left, n.path.bit path.bits = false
  right_set : ∀ n ∈ right, n.path.bit path.bits = true

theorem InOrder.parted {first second : Node} {rest : List Node}
    (h : InOrder (first :: second :: rest)) :
    Parted (spanPath first (second :: rest)) (first :: second :: rest)
      (split first (second :: rest)).1 (split first (second :: rest)).2 := by
  have happ := split_append first (second :: rest)
  obtain ⟨l, ls, r, rs, hsplit, hleft, hright⟩ := h.split_eq
  rw [hsplit] at happ ⊢
  have hbits := Path.length_bitString (spanPath first (second :: rest))
  refine ⟨happ, List.cons_ne_nil l ls, List.cons_ne_nil r rs, ?_, h.bits_spanPath_lt, ?_, ?_⟩
  · intro n hn
    rw [Path.isPrefixOf_iff]
    rcases List.mem_append.mp (happ ▸ hn) with hn | hn
    · exact (List.prefix_append _ _).trans (hleft n hn)
    · exact (List.prefix_append _ _).trans (hright n hn)
  · intro n hn
    rw [← hbits]
    exact bit_of_append_prefix (hleft n hn)
  · intro n hn
    rw [← hbits]
    exact bit_of_append_prefix (hright n hn)

/-! ## The pieces of a cut -/

section
variable {requested : List Path} {first : Node} {rest : List Node}

theorem InOrder.subtree_above (h : InOrder (first :: rest)) {leaf : Node}
    (hleaf : leaf ∈ first :: rest) : (subtree first rest).bits <+: leaf.bits := by
  obtain ⟨t, ht, htips, htop, -⟩ := h.exists_tree_subtree
  rw [← htop]
  exact ht.top_above (htips ▸ hleaf)

theorem InOrder.subtree_above_piece (h : InOrder (first :: rest)) {piece : Piece}
    (hpiece : piece ∈ cut requested first rest) :
    (subtree first rest).bits <+: piece.node.bits := by
  obtain ⟨t, ht, htips, htop⟩ := h.exists_tree_cut requested
  rw [← htop]
  exact ht.top_above (htips ▸ List.mem_map_of_mem hpiece)

/-- The leaves below a node, in path order. -/
def leavesBelow (n : Node) (nodes : List Node) : List Node :=
  nodes.filter fun leaf => n.path.isPrefixOf leaf.path

theorem leavesBelow_eq_self {n : Node} {nodes : List Node}
    (h : ∀ leaf ∈ nodes, n.bits <+: leaf.bits) : leavesBelow n nodes = nodes := by
  rw [leavesBelow, List.filter_eq_self]
  intro leaf hleaf
  exact Path.isPrefixOf_iff.mpr (h leaf hleaf)

theorem leavesBelow_eq_nil {n : Node} {nodes : List Node}
    (h : ∀ leaf ∈ nodes, ¬ n.bits <+: leaf.bits) : leavesBelow n nodes = [] := by
  rw [leavesBelow, List.filter_eq_nil_iff]
  intro leaf hleaf hpre
  exact h leaf hleaf (Path.isPrefixOf_iff.mp hpre)

/-- What a cut does not open is the subtree over the leaves below it. -/
theorem InOrder.eq_subtree_of_mem_cut (h : InOrder (first :: rest)) {n : Node}
    (hn : .unopened n ∈ cut requested first rest) :
    ∃ f r, leavesBelow n (first :: rest) = f :: r ∧ n = subtree f r := by
  revert hn
  refine h.subtree_induction (motive := fun first rest =>
    .unopened n ∈ cut requested first rest →
      ∃ f r, leavesBelow n (first :: rest) = f :: r ∧ n = subtree f r) ?_ ?_
  · intro m hn
    by_cases hr : Reached requested m
    · rw [cut_single hr] at hn
      simp at hn
    · rw [cut_single_of_not_reached hr] at hn
      obtain rfl : n = m := by simpa using hn
      refine ⟨n, [], leavesBelow_eq_self ?_, (subtree_nil n).symm⟩
      intro leaf hleaf
      exact List.mem_singleton.mp hleaf ▸ List.prefix_refl _
  · intro first second rest l ls r rs horder hsplit happ hparts ihl ihr hn
    obtain ⟨hl, hr⟩ := horder.inOrder_split hsplit
    by_cases hreached : Reached requested (subtree first (second :: rest))
    · rw [cut_cons hreached hsplit] at hn
      rw [← happ, leavesBelow, List.filter_append, ← leavesBelow, ← leavesBelow]
      -- a piece of one part has no leaves of the other part below it
      rcases List.mem_append.mp hn with hn | hn
      · have hright : leavesBelow n (r :: rs) = [] := by
          refine leavesBelow_eq_nil fun leaf hleaf hpre => ?_
          exact left_right_absurd ((hparts.1.trans (hl.subtree_above_piece hn)).trans hpre)
            (hparts.2.trans (hr.subtree_above hleaf))
        rw [hright, List.append_nil]
        exact ihl hn
      · have hleft : leavesBelow n (l :: ls) = [] := by
          refine leavesBelow_eq_nil fun leaf hleaf hpre => ?_
          exact left_right_absurd (hparts.1.trans (hl.subtree_above hleaf))
            ((hparts.2.trans (hr.subtree_above_piece hn)).trans hpre)
        rw [hleft, List.nil_append]
        exact ihr hn
    · rw [cut_of_not_reached hreached] at hn
      obtain rfl : n = subtree first (second :: rest) := by simpa using hn
      exact ⟨first, second :: rest,
        leavesBelow_eq_self fun leaf hleaf => horder.subtree_above hleaf, rfl⟩

/-- No leaf is lost. -/
theorem InOrder.exists_piece_above (h : InOrder (first :: rest)) {leaf : Node}
    (hleaf : leaf ∈ first :: rest) :
    ∃ piece ∈ cut requested first rest, piece.node.bits <+: leaf.bits := by
  revert hleaf
  refine h.subtree_induction (motive := fun first rest => leaf ∈ first :: rest →
    ∃ piece ∈ cut requested first rest, piece.node.bits <+: leaf.bits) ?_ ?_
  · intro m hleaf
    obtain rfl := List.mem_singleton.mp hleaf
    by_cases hr : Reached requested leaf
    · rw [cut_single hr]
      exact ⟨_, List.mem_singleton_self _, List.prefix_refl _⟩
    · rw [cut_single_of_not_reached hr]
      exact ⟨_, List.mem_singleton_self _, List.prefix_refl _⟩
  · intro first second rest l ls r rs horder hsplit happ _ ihl ihr hleaf
    by_cases hr : Reached requested (subtree first (second :: rest))
    · rw [cut_cons hr hsplit]
      rcases List.mem_append.mp (happ ▸ hleaf) with hleaf | hleaf
      · obtain ⟨piece, hpiece, habove⟩ := ihl hleaf
        exact ⟨piece, List.mem_append_left _ hpiece, habove⟩
      · obtain ⟨piece, hpiece, habove⟩ := ihr hleaf
        exact ⟨piece, List.mem_append_right _ hpiece, habove⟩
    · rw [cut_of_not_reached hr]
      exact ⟨_, List.mem_singleton_self _, horder.subtree_above hleaf⟩

end

/-! ## The cut of given contents -/

/-- The entries that a proof lists for a key. -/
def MapProof.entriesAt (proof : MapProof) (key : MapKey) : List Entry :=
  proof.entries.filter fun e => e.key = key

/-- The nodes that a key lies below. -/
def MapProof.nodesAbove (proof : MapProof) (key : MapKey) : List Node :=
  proof.nodes.filter fun n => n.path.isPrefixOf (.leaf key)

/-- A proof that cuts the contents along the keys: each stored key is listed once with its
value and below no node, or it was not asked for and is below one node and not listed. -/
structure ExactCut (entries : Entries) (keys : List MapKey) (proof : MapProof) : Prop where
  opened : ∀ key ∈ keys, ∀ value, entries[key]? = some value →
    proof.entriesAt key = [⟨key, value⟩] ∧ proof.nodesAbove key = []
  unopened : ∀ key ∈ entries, key ∉ keys →
    proof.entriesAt key = [] ∧ ∃ n, proof.nodesAbove key = [n]
  listed : ∀ e ∈ proof.entries, e.key ∈ keys ∧ entries[e.key]? = some e.value
  missing : proof.missing.Nodup ∧ ∀ key, key ∈ proof.missing ↔ key ∈ keys ∧ key ∉ entries
  ascending : proof.nodes.Pairwise fun m n => m.path.cmp n.path = .lt
  node : ∀ n ∈ proof.nodes, ∃ first rest,
    leavesBelow n (leaves entries) = first :: rest ∧ n = subtree first rest

/-- Of a list without duplicates one element passes a test. -/
theorem filter_eq_singleton {α : Type} {p : α → Bool} {l : List α} {a : α} (hnodup : l.Nodup)
    (h : ∀ b, b ∈ l ∧ p b = true ↔ b = a) : l.filter p = [a] := by
  refine List.perm_singleton.mp ?_
  rw [List.perm_ext_iff_of_nodup (hnodup.filter p) (List.nodup_singleton a)]
  intro b
  rw [List.mem_filter, List.mem_singleton]
  exact h b

section
variable {entries : Entries} {keys : List MapKey}

theorem nodup_nodes_buildProof : (buildProof entries keys).nodes.Nodup := by
  refine List.Pairwise.imp ?_ inOrder_nodes_buildProof
  rintro m n hbefore rfl
  exact hbefore.ne rfl

theorem nodup_listed_buildProof : (buildProof entries keys).entries.Nodup :=
  List.Nodup.of_map Entry.key (nodup_entries_buildProof entries keys)

theorem entriesAt_buildProof {key : MapKey} {value : Bytes} (hkey : key ∈ keys)
    (hvalue : entries[key]? = some value) :
    (buildProof entries keys).entriesAt key = [⟨key, value⟩] := by
  refine filter_eq_singleton nodup_listed_buildProof ?_
  rintro ⟨key', value'⟩
  rw [mem_entries_buildProof, decide_eq_true_iff, Entry.mk.injEq]
  constructor
  · rintro ⟨⟨-, hvalue'⟩, rfl⟩
    rw [hvalue, Option.some.injEq] at hvalue'
    exact ⟨rfl, hvalue'.symm⟩
  · rintro ⟨rfl, rfl⟩
    exact ⟨⟨hkey, hvalue⟩, rfl⟩

theorem entriesAt_buildProof_of_not_mem {key : MapKey} (hkey : key ∉ keys) :
    (buildProof entries keys).entriesAt key = [] := by
  rw [MapProof.entriesAt, List.filter_eq_nil_iff]
  rintro ⟨key', value⟩ he heq
  obtain rfl := of_decide_eq_true heq
  exact hkey (mem_entries_buildProof.mp he).1

theorem nodesAbove_buildProof {key : MapKey} (hkey : key ∈ keys) :
    (buildProof entries keys).nodesAbove key = [] := by
  rw [MapProof.nodesAbove, List.filter_eq_nil_iff]
  intro n hn hpre
  apply not_reached_of_mem_pieces (mem_nodes_buildProof.mp hn)
  exact ⟨.leaf key, List.mem_map_of_mem (mem_distinctKeys.mpr hkey), Path.isPrefixOf_iff.mp hpre⟩

/-- Two nodes above one position are one node. -/
theorem InOrder.eq_of_above {nodes : List Node} (h : InOrder nodes) {m n : Node} {c : List Bool}
    (hm : m ∈ nodes) (hn : n ∈ nodes) (hmc : m.bits <+: c) (hnc : n.bits <+: c) : m = n := by
  by_cases hne : m = n
  · exact hne
  · have : Std.Symm Apart := ⟨fun _ _ => Apart.symm⟩
    exact absurd (List.prefix_or_prefix_of_prefix hmc hnc) (h.apart.forall hm hn hne)

theorem exists_piece_above (keys : List MapKey) {leaf : Node} (hleaf : leaf ∈ leaves entries) :
    ∃ piece ∈ pieces entries keys, piece.node.bits <+: leaf.bits := by
  have horder := inOrder_leaves entries
  unfold pieces
  match leaves entries, horder, hleaf with
  | first :: rest, horder, hleaf => exact horder.exists_piece_above hleaf

/-- The piece above a leaf that was not asked for is a node. -/
theorem exists_node_above {key : MapKey} (hstored : key ∈ entries) (hkey : key ∉ keys) :
    ∃ n ∈ (buildProof entries keys).nodes, n.bits <+: (Path.leaf key).bitString := by
  have hget := Std.ExtTreeMap.getElem?_eq_some_getElem hstored
  obtain ⟨piece, hpiece, habove⟩ :=
    exists_piece_above keys (mem_leaves.mpr ⟨key, _, hget, rfl⟩)
  cases piece with
  | unopened n => exact ⟨n, mem_nodes_buildProof.mpr hpiece, habove⟩
  | opened leaf =>
    obtain ⟨hmem, hreached⟩ := opened_mem_pieces.mp hpiece
    obtain ⟨key', value', -, rfl⟩ := mem_leaves.mp hmem
    obtain rfl := Path.leaf_injective (Path.eq_of_leaf_prefix habove)
    exact absurd (reached_ofEntry.mp hreached) hkey

theorem nodesAbove_buildProof_of_not_mem {key : MapKey} (hstored : key ∈ entries)
    (hkey : key ∉ keys) : ∃ n, (buildProof entries keys).nodesAbove key = [n] := by
  obtain ⟨n, hn, habove⟩ := exists_node_above hstored hkey
  refine ⟨n, filter_eq_singleton nodup_nodes_buildProof fun m => ?_⟩
  rw [Path.isPrefixOf_iff]
  constructor
  · rintro ⟨hm, hpre⟩
    exact inOrder_nodes_buildProof.eq_of_above hm hn hpre habove
  · rintro rfl
    exact ⟨hn, habove⟩

theorem eq_subtree_of_mem_nodes_buildProof {n : Node} (hn : n ∈ (buildProof entries keys).nodes) :
    ∃ first rest, leavesBelow n (leaves entries) = first :: rest ∧ n = subtree first rest := by
  have horder := inOrder_leaves entries
  have hpiece := mem_nodes_buildProof.mp hn
  unfold pieces at hpiece
  match leaves entries, horder, hpiece with
  | first :: rest, horder, hpiece => exact horder.eq_subtree_of_mem_cut hpiece

theorem exactCut_buildProof (entries : Entries) (keys : List MapKey) :
    ExactCut entries keys (buildProof entries keys) where
  opened _ hkey _ hvalue := ⟨entriesAt_buildProof hkey hvalue, nodesAbove_buildProof hkey⟩
  unopened _ hstored hkey :=
    ⟨entriesAt_buildProof_of_not_mem hkey, nodesAbove_buildProof_of_not_mem hstored hkey⟩
  listed _ he := mem_entries_buildProof.mp he
  missing := ⟨(nodup_distinctKeys keys).filter _, fun _ => mem_missing_buildProof⟩
  ascending := (inOrder_iff.mp inOrder_nodes_buildProof).1
  node _ hn := eq_subtree_of_mem_nodes_buildProof hn

end

/-- Two sorted leaves or more are parted in two by the bit after their common prefix, none of
whose reads is out of bounds; so the recursions on the parts end, no deeper than there are
leaves, and what is built for any contents and any keys is an exact cut of the contents along
the keys. -/
theorem build_exact_cut (entries : Entries) (keys : List MapKey) :
    (∀ first second rest, SortedLeaves (first :: second :: rest) → ∃ left right,
        Machine.MapProof.split (first :: second :: rest) = .ok (left, right) ∧
        Parted (spanPath first (second :: rest)) (first :: second :: rest) left right) ∧
      (∀ first rest depth, SortedLeaves (first :: rest) → rest.length < depth →
        (Machine.MapProof.subtree depth (first :: rest)).run = some (.ok (subtree first rest))) ∧
      (∀ requested first rest depth proof, SortedLeaves (first :: rest) → rest.length < depth →
        ∃ collected, (Machine.MapProof.collect requested entries depth (first :: rest) proof).run =
          some (.ok collected)) ∧
      (∀ depth, entries.size ≤ depth →
        (Machine.MapProof.build depth entries keys).run = some (.ok (buildProof entries keys))) ∧
      ExactCut entries keys (buildProof entries keys) := by
  refine ⟨?_, ?_, ?_, ?_, exactCut_buildProof entries keys⟩
  · intro first second rest hsorted
    exact ⟨_, _, Machine.MapProof.split_of_inOrder hsorted.inOrder rfl, hsorted.inOrder.parted⟩
  · intro first rest depth hsorted hdepth
    rw [Machine.MapProof.subtree_eq hsorted.inOrder hdepth]
    rfl
  · intro requested first rest depth proof hsorted hdepth
    rw [Machine.MapProof.collect_eq hsorted.inOrder hdepth]
    exact ⟨_, rfl⟩
  · intro depth hdepth
    rw [Machine.MapProof.build_eq hdepth]
    rfl

/-- Of two entries the first is listed, and the second lies below the only node. -/
theorem build_exact_cut_twoEntries :
    (∃ left right, Machine.MapProof.split (leaves twoEntries) = .ok (left, right) ∧
        Parted (spanPath (Node.ofEntry (shortKey 4) [10]) [Node.ofEntry (shortKey 6) [11]])
          (leaves twoEntries) left right) ∧
      (Machine.MapProof.build 2 twoEntries [shortKey 4, shortKey 1]).run =
        some (.ok (buildProof twoEntries [shortKey 4, shortKey 1])) ∧
      (buildProof twoEntries [shortKey 4, shortKey 1]).entriesAt (shortKey 4) =
        [⟨shortKey 4, [10]⟩] ∧
      ∃ n, (buildProof twoEntries [shortKey 4, shortKey 1]).nodesAbove (shortKey 6) = [n] := by
  have hsorted := sortedLeaves_leaves twoEntries
  obtain ⟨hsplit, -, -, hbuild, hcut⟩ := build_exact_cut twoEntries [shortKey 4, shortKey 1]
  rw [leaves_twoEntries] at hsorted ⊢
  refine ⟨hsplit _ _ _ hsorted, hbuild 2 ?_, (hcut.opened _ (by decide) [10] ?_).1,
    (hcut.unopened (shortKey 6) ?_ (by decide)).2⟩
  · rw [← length_leaves, leaves_twoEntries]
    exact Nat.le_refl 2
  · decide +kernel
  · decide +kernel

end LightClient.Trie

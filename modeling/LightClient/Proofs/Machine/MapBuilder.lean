import LightClient.Machine.Trie.Builder
import LightClient.Proofs.Machine.MapProof
import LightClient.Proofs.Trie.Completeness

/-! Making a map proof stays within its bounds and comes to an end. Of two leaves or more the
common prefix ends before bit 256 and parts them in two shorter lists, so that the recursion
on the parts is the one of `Trie.subtree` and calls itself no deeper than there are leaves. -/

namespace LightClient.Machine.MapProof

open Trie (MapKey Path MapProof Piece InOrder Entries)

/-! ## Parting the leaves -/

section
variable {first : Trie.Node} {rest : List Trie.Node}

theorem span_eq (first : Trie.Node) (rest : List Trie.Node) :
    span (first :: rest) = .ok (Trie.spanPath first rest) := by
  have hlast : (first :: rest)[rest.length]? = some (rest.getLastD first) := by
    rw [List.getLastD_eq_getLast?, ← List.getLast?_cons, List.getLast?_eq_getElem?]
    rfl
  have hsub : sub (first :: rest).length 1 = .ok rest.length := sub_of_le (Nat.le_add_left _ _)
  have hfirst : get (first :: rest) 0 = .ok first := rfl
  rw [span, hfirst, ok_bind, hsub, ok_bind, get_of_getElem? hlast, ok_bind, Path.commonPrefix_eq]
  rfl

/-- The leaves before the first set bit are those up to which all bits are clear. -/
theorem position_eq {i : Nat} (h : i < 256) (leaves : List Trie.Node) :
    position i leaves = .ok (leaves.takeWhile fun leaf => !leaf.path.bit i).length := by
  induction leaves with
  | nil => rfl
  | cons leaf rest ih =>
    rw [position, Path.bit_of_lt h, ok_bind, List.takeWhile_cons]
    cases leaf.path.bit i with
    | true => rfl
    | false =>
      rw [if_neg Bool.false_ne_true, ih]
      rfl

theorem split_eq (h : (Trie.spanPath first rest).bits < 256) :
    split (first :: rest) = .ok (Trie.split first rest) := by
  have happ := Trie.split_append first rest
  have hlen := congrArg List.length happ
  rw [List.length_append] at hlen
  have hmid : position (Trie.spanPath first rest).bits (first :: rest) =
      .ok (Trie.split first rest).1.length := position_eq h _
  have hleft : slice (first :: rest) 0 (Trie.split first rest).1.length =
      .ok (Trie.split first rest).1 := by
    rw [slice_of_le (Nat.zero_le _) (by omega), ← happ, List.take_left]
    rfl
  have hright : slice (first :: rest) (Trie.split first rest).1.length (first :: rest).length =
      .ok (Trie.split first rest).2 := by
    rw [slice_of_le (by omega) (Nat.le_refl _), List.take_length, ← happ, List.drop_left]
  rw [split, span_eq, ok_bind, hmid, ok_bind, hleft, ok_bind, hright]
  rfl

/-- **Step.** Two leaves or more are parted as `Trie.split` parts them. -/
theorem split_of_inOrder {second : Trie.Node} {parts : List Trie.Node × List Trie.Node}
    (h : InOrder (first :: second :: rest))
    (hsplit : Trie.split first (second :: rest) = parts) :
    split (first :: second :: rest) = .ok parts := by
  rw [split_eq h.bits_spanPath_lt, hsplit]

end

/-! ## The recursion on the parts -/

section
variable {first : Trie.Node} {rest : List Trie.Node}

theorem subtree_single (depth : Nat) (leaf : Trie.Node) :
    subtree (depth + 1) [leaf] = pure leaf := rfl

theorem subtree_parts {second l r : Trie.Node} {ls rs : List Trie.Node} (depth : Nat)
    (h : InOrder (first :: second :: rest))
    (hsplit : Trie.split first (second :: rest) = (l :: ls, r :: rs)) :
    subtree (depth + 1) (first :: second :: rest) = (do
      let left ← subtree depth (l :: ls)
      let right ← subtree depth (r :: rs)
      return .join (Trie.spanPath first (second :: rest)) left right) := by
  rw [subtree.eq_def]
  simp only [Run.lift_bind (split_of_inOrder h hsplit), Run.lift_bind (span_eq _ _), join_eq]
  rfl

/-- **Run.** The recursion ends and gives the subtree. -/
theorem subtree_eq (h : InOrder (first :: rest)) {depth : Nat} (hdepth : rest.length < depth) :
    subtree depth (first :: rest) = pure (Trie.subtree first rest) := by
  revert depth
  refine h.subtree_induction (motive := fun first rest => ∀ {depth}, rest.length < depth →
    subtree depth (first :: rest) = pure (Trie.subtree first rest)) ?_ ?_
  · intro leaf depth hdepth
    obtain ⟨depth, rfl⟩ := Nat.exists_eq_add_one.mpr hdepth
    rw [subtree_single, Trie.subtree_nil]
  · intro first second rest l ls r rs horder hsplit _ _ ihl ihr depth hdepth
    -- a part has fewer leaves than the whole, so the depth that is left is enough for it
    obtain ⟨hls, hrs⟩ := Trie.length_split hsplit
    obtain ⟨depth, rfl⟩ : ∃ d, depth = d + 1 := ⟨depth - 1, by omega⟩
    rw [subtree_parts depth horder hsplit, ihl (by omega), ihr (by omega), Trie.subtree_cons hsplit]
    rfl

end

/-! ## The cut -/

theorem reached_eq (node : Trie.Node) (requested : List Path) :
    reached node requested = .ok (requested.any node.path.isPrefixOf) := by
  induction requested with
  | nil => rfl
  | cons path rest ih =>
    rw [reached, Path.isPrefixOf_eq, ok_bind, List.any_cons]
    cases node.path.isPrefixOf path with
    | true => rfl
    | false => exact ih

section
variable {requested : List Path} {node : Trie.Node}

theorem any_isPrefixOf_iff :
    requested.any node.path.isPrefixOf = true ↔ Trie.Reached requested node := by
  simp only [List.any_eq_true, Trie.Path.isPrefixOf_iff, Trie.Reached]

theorem reached_eq_true (h : Trie.Reached requested node) : reached node requested = .ok true := by
  rw [reached_eq, any_isPrefixOf_iff.mpr h]

theorem reached_eq_false (h : ¬ Trie.Reached requested node) :
    reached node requested = .ok false := by
  rw [reached_eq, Bool.eq_false_iff.mpr (mt any_isPrefixOf_iff.mp h)]

end

/-- A proof with the nodes and the entries of the pieces added. -/
def added (entries : Entries) (pieces : List Piece) (proof : MapProof) : MapProof :=
  { proof with
    nodes := proof.nodes ++ pieces.filterMap Piece.node?
    entries := proof.entries ++ (pieces.filterMap Piece.leaf?).filterMap (Trie.entryAt entries) }

theorem added_append (entries : Entries) (ps qs : List Piece) (proof : MapProof) :
    added entries (ps ++ qs) proof = added entries qs (added entries ps proof) := by
  simp only [added, List.filterMap_append, List.append_assoc]

theorem added_opened (entries : Entries) (leaf : Trie.Node) (proof : MapProof) :
    added entries [.opened leaf] proof =
      { proof with entries := proof.entries ++ (Trie.entryAt entries leaf).toList } := by
  cases h : Trie.entryAt entries leaf <;> simp [added, Piece.node?, Piece.leaf?, h]

theorem added_unopened (entries : Entries) (node : Trie.Node) (proof : MapProof) :
    added entries [.unopened node] proof = { proof with nodes := proof.nodes ++ [node] } := by
  simp [added, Piece.node?, Piece.leaf?]

section
variable {requested : List Path} {entries : Entries} {proof : MapProof} {first : Trie.Node}
  {rest : List Trie.Node}

theorem collect_of_not_reached (h : InOrder (first :: rest)) {depth : Nat}
    (hdepth : rest.length ≤ depth) (hr : ¬ Trie.Reached requested (Trie.subtree first rest)) :
    collect requested entries (depth + 1) (first :: rest) proof =
      pure (added entries [.unopened (Trie.subtree first rest)] proof) := by
  rw [collect.eq_def]
  simp only [subtree_eq h (Nat.lt_succ_of_le hdepth), pure_bind,
    Run.lift_bind (reached_eq_false hr), added_unopened]
  rfl

theorem collect_single (depth : Nat) (hr : Trie.Reached requested first) :
    collect requested entries (depth + 1) [first] proof =
      pure (added entries [.opened first] proof) := by
  rw [collect, subtree_single, pure_bind, Run.lift_bind (reached_eq_true hr), added_opened,
    Trie.entryAt]
  cases entries[first.path.key]? with
  | none => simp
  | some value => simp

theorem collect_parts {second l r : Trie.Node} {ls rs : List Trie.Node}
    (h : InOrder (first :: second :: rest)) {depth : Nat} (hdepth : (second :: rest).length ≤ depth)
    (hsplit : Trie.split first (second :: rest) = (l :: ls, r :: rs))
    (hr : Trie.Reached requested (Trie.subtree first (second :: rest))) :
    collect requested entries (depth + 1) (first :: second :: rest) proof =
      collect requested entries depth (l :: ls) proof >>=
        collect requested entries depth (r :: rs) := by
  rw [collect.eq_def]
  simp only [subtree_eq h (Nat.lt_succ_of_le hdepth), pure_bind,
    Run.lift_bind (reached_eq_true hr), if_true, Run.lift_bind (split_of_inOrder h hsplit)]

/-- **Run.** The cut ends, whatever is asked for and has been collected before. -/
theorem collect_eq (h : InOrder (first :: rest)) {depth : Nat} (hdepth : rest.length < depth)
    (proof : MapProof) : collect requested entries depth (first :: rest) proof =
      pure (added entries (Trie.cut requested first rest) proof) := by
  revert proof depth
  refine h.subtree_induction (motive := fun first rest => ∀ {depth}, rest.length < depth →
    ∀ proof : MapProof, collect requested entries depth (first :: rest) proof =
      pure (added entries (Trie.cut requested first rest) proof)) ?_ ?_
  · intro leaf depth hdepth proof
    obtain ⟨depth, rfl⟩ := Nat.exists_eq_add_one.mpr hdepth
    by_cases hr : Trie.Reached requested leaf
    · rw [collect_single depth hr, Trie.cut_single hr]
    · have hleaf : InOrder [leaf] := List.pairwise_singleton _ _
      have hr' : ¬ Trie.Reached requested (Trie.subtree leaf []) := by rwa [Trie.subtree_nil]
      rw [collect_of_not_reached hleaf (Nat.zero_le _) hr', Trie.cut_of_not_reached hr']
  · intro first second rest l ls r rs horder hsplit _ _ ihl ihr depth hdepth proof
    obtain ⟨hls, hrs⟩ := Trie.length_split hsplit
    obtain ⟨depth, rfl⟩ : ∃ d, depth = d + 1 := ⟨depth - 1, by omega⟩
    have hle : (second :: rest).length ≤ depth := by omega
    by_cases hr : Trie.Reached requested (Trie.subtree first (second :: rest))
    · rw [collect_parts horder hle hsplit hr, Trie.cut_cons hr hsplit, ihl (by omega), pure_bind,
        ihr (by omega), added_append]
    · rw [collect_of_not_reached horder hle hr, Trie.cut_of_not_reached hr]

end

/-- Any proof is made, without a trap. -/
theorem build_eq {entries : Entries} {depth : Nat} (hdepth : entries.size ≤ depth)
    (keys : List MapKey) : build depth entries keys = pure (Trie.buildProof entries keys) := by
  have horder := Trie.inOrder_leaves entries
  have hleaves : sort (entries.toList.map fun entry => Trie.Node.ofEntry entry.1 entry.2) =
      .ok (Trie.leaves entries) := sort_eq _
  rw [← Trie.length_leaves] at hdepth
  rw [build, Run.lift_bind hleaves, Trie.buildProof_eq, Trie.pieces]
  generalize Trie.leaves entries = leaves at horder hdepth
  cases leaves with
  | nil => rfl
  | cons first rest =>
    simp only [List.isEmpty_cons, Bool.false_eq_true, if_false]
    rw [collect_eq horder hdepth, pure_bind, Run.lift_bind (sort_eq _)]
    rfl

end LightClient.Machine.MapProof

import LightClient.Proofs.Trie.Check
import LightClient.Proofs.Trie.Cut

/-! What a built proof consists of. Its entries are the stored keys asked for, its
missing keys the others asked for, and its contour is the list of pieces that the
trie is cut into, in path order. -/

namespace LightClient.Trie

/-! ## The parts of a built proof -/

/-- The keys asked for in order, each of them once. -/
def distinctKeys (keys : List MapKey) : List MapKey := (Std.ExtTreeSet.ofList keys).toList

theorem mem_distinctKeys {keys : List MapKey} {key : MapKey} :
    key ∈ distinctKeys keys ↔ key ∈ keys := by
  simp [distinctKeys]

theorem nodup_distinctKeys (keys : List MapKey) : (distinctKeys keys).Nodup := by
  apply List.Pairwise.imp _ Std.ExtTreeSet.distinct_toList
  rintro a _ hne rfl
  exact hne Std.ReflOrd.compare_self

/-- The pieces that the builder cuts the trie into. -/
def pieces (entries : Entries) (keys : List MapKey) : List Piece :=
  match leaves entries with
  | [] => []
  | first :: rest => cut ((distinctKeys keys).map Path.leaf) first rest

theorem buildProof_eq (entries : Entries) (keys : List MapKey) :
    buildProof entries keys =
      { nodes := ((pieces entries keys).filterMap Piece.node?).mergeSort Node.le
        entries := ((pieces entries keys).filterMap Piece.leaf?).filterMap (entryAt entries)
        missing := (distinctKeys keys).filter (· ∉ entries) } := rfl

theorem Piece.node?_eq_some {piece : Piece} {n : Node} :
    piece.node? = some n ↔ piece = .unopened n := by
  cases piece <;> simp [Piece.node?]

theorem Piece.leaf?_eq_some {piece : Piece} {n : Node} :
    piece.leaf? = some n ↔ piece = .opened n := by
  cases piece <;> simp [Piece.leaf?]

section
variable {entries : Entries} {keys : List MapKey}

/-- A key asked for lies at or below a leaf when it is the key of the leaf. -/
theorem reached_ofEntry {key : MapKey} {value : Bytes} :
    Reached ((distinctKeys keys).map Path.leaf) (Node.ofEntry key value) ↔ key ∈ keys := by
  constructor
  · rintro ⟨path, hpath, hpre⟩
    obtain ⟨key', hkey', rfl⟩ := List.mem_map.mp hpath
    rw [← Path.leaf_injective (Path.eq_of_leaf_prefix hpre)]
    exact mem_distinctKeys.mp hkey'
  · intro hkey
    exact ⟨.leaf key, List.mem_map_of_mem (mem_distinctKeys.mpr hkey), List.prefix_refl _⟩

theorem inOrder_pieces : InOrder ((pieces entries keys).map Piece.node) := by
  have horder := inOrder_leaves entries
  unfold pieces
  match leaves entries, horder with
  | [], _ => exact List.Pairwise.nil
  | first :: rest, horder => exact horder.inOrder_cut

theorem opened_mem_pieces {leaf : Node} :
    .opened leaf ∈ pieces entries keys ↔
      leaf ∈ leaves entries ∧ Reached ((distinctKeys keys).map Path.leaf) leaf := by
  have horder := inOrder_leaves entries
  unfold pieces
  match leaves entries, horder with
  | [], _ => simp
  | first :: rest, horder => exact horder.opened_mem_cut_iff

theorem not_reached_of_mem_pieces {n : Node} (hn : .unopened n ∈ pieces entries keys) :
    ¬ Reached ((distinctKeys keys).map Path.leaf) n := by
  have horder := inOrder_leaves entries
  unfold pieces at hn
  match leaves entries, horder, hn with
  | first :: rest, horder, hn => exact horder.not_reached_of_mem_cut hn

theorem entryAt_ofEntry {key : MapKey} {value : Bytes} (h : entries[key]? = some value) :
    entryAt entries (Node.ofEntry key value) = some ⟨key, value⟩ := by
  simp [entryAt, Node.ofEntry, Path.leaf, h]

/-- The entries are those with a key asked for. -/
theorem mem_entries_buildProof {key : MapKey} {value : Bytes} :
    ⟨key, value⟩ ∈ (buildProof entries keys).entries ↔
      key ∈ keys ∧ entries[key]? = some value := by
  simp only [buildProof_eq, List.mem_filterMap, Piece.leaf?_eq_some]
  constructor
  · rintro ⟨leaf, ⟨_, hopened, rfl⟩, hentry⟩
    obtain ⟨hleaf, hreached⟩ := opened_mem_pieces.mp hopened
    obtain ⟨key', value', hget, rfl⟩ := mem_leaves.mp hleaf
    rw [entryAt_ofEntry hget] at hentry
    cases hentry
    exact ⟨reached_ofEntry.mp hreached, hget⟩
  · rintro ⟨hkey, hget⟩
    refine ⟨Node.ofEntry key value, ⟨_, opened_mem_pieces.mpr ?_, rfl⟩, entryAt_ofEntry hget⟩
    exact ⟨mem_leaves.mpr ⟨key, value, hget, rfl⟩, reached_ofEntry.mpr hkey⟩

theorem mem_nodes_buildProof {n : Node} :
    n ∈ (buildProof entries keys).nodes ↔ .unopened n ∈ pieces entries keys := by
  simp only [buildProof_eq, List.mem_mergeSort, List.mem_filterMap, Piece.node?_eq_some,
    exists_eq_right]

/-- The missing keys are the others asked for. -/
theorem mem_missing_buildProof {key : MapKey} :
    key ∈ (buildProof entries keys).missing ↔ key ∈ keys ∧ key ∉ entries := by
  simp only [buildProof_eq, List.mem_filter, mem_distinctKeys, decide_eq_true_iff]

/-! ## The contour of a built proof -/

theorem filterMap_eq_self {α : Type} {f : α → Option α} {l : List α}
    (h : ∀ a ∈ l, f a = some a) : l.filterMap f = l := by
  induction l with
  | nil => rfl
  | cons a l ih =>
    rw [List.filterMap_cons_some (h a List.mem_cons_self),
      ih fun b hb => h b (List.mem_cons_of_mem _ hb)]

/-- The entries stand for the opened leaves. -/
theorem map_entries_buildProof :
    (buildProof entries keys).entries.map (fun e => Node.ofEntry e.key e.value) =
      (pieces entries keys).filterMap Piece.leaf? := by
  rw [buildProof_eq, List.map_filterMap]
  apply filterMap_eq_self
  intro leaf hmem
  obtain ⟨piece, hpiece, heq⟩ := List.mem_filterMap.mp hmem
  obtain rfl := Piece.leaf?_eq_some.mp heq
  obtain ⟨key, value, hget, rfl⟩ := mem_leaves.mp (opened_mem_pieces.mp hpiece).1
  rw [entryAt_ofEntry hget]
  rfl

theorem filterMap_leaf?_append_perm (ps : List Piece) :
    (ps.filterMap Piece.leaf? ++ ps.filterMap Piece.node?).Perm (ps.map Piece.node) := by
  induction ps with
  | nil => exact List.Perm.refl _
  | cons piece ps ih =>
    cases piece with
    | unopened n => exact List.perm_middle.trans (ih.cons n)
    | opened leaf => exact ih.cons leaf

/-- Entries and nodes together are the pieces. -/
theorem perm_pieces :
    ((buildProof entries keys).entries.map (fun e => Node.ofEntry e.key e.value) ++
      (buildProof entries keys).nodes).Perm ((pieces entries keys).map Piece.node) := by
  rw [map_entries_buildProof]
  exact ((List.mergeSort_perm _ _).append_left _).trans (filterMap_leaf?_append_perm _)

theorem apart_buildProof (entries : Entries) (keys : List MapKey) :
    ((buildProof entries keys).entries.map (fun e => Node.ofEntry e.key e.value) ++
      (buildProof entries keys).nodes).Pairwise Apart :=
  perm_pieces.symm.pairwise inOrder_pieces.apart Apart.symm

theorem inOrder_nodes_buildProof : InOrder (buildProof entries keys).nodes := by
  have hnodes := (List.pairwise_append.mp (apart_buildProof entries keys)).2.1
  rw [buildProof_eq]
  exact inOrder_mergeSort ((List.mergeSort_perm _ _).pairwise hnodes Apart.symm)

theorem nodup_entries_buildProof (entries : Entries) (keys : List MapKey) :
    ((buildProof entries keys).entries.map Entry.key).Nodup := by
  have hentries := (List.pairwise_append.mp (apart_buildProof entries keys)).1
  rw [List.pairwise_map] at hentries
  rw [List.nodup_iff_pairwise_ne, List.pairwise_map]
  apply hentries.imp
  intro e e' hapart heq
  exact hapart (Or.inl (Path.prefix_of_path_eq (congrArg Path.leaf heq)))

/-- In path order the contour is the list of pieces. -/
theorem contour_buildProof :
    (buildProof entries keys).contour = (pieces entries keys).map Piece.node := by
  have hcontour : InOrder (buildProof entries keys).contour :=
    inOrder_mergeSort (apart_buildProof entries keys)
  apply List.Perm.eq_of_pairwise _ hcontour inOrder_pieces
  · exact (List.mergeSort_perm _ _).trans perm_pieces
  · intro a b _ _ hab hba
    exact absurd hba hab.asymm

end

end LightClient.Trie

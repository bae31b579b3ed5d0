import LightClient.Proofs.Trie.Built

/-! When a proof that was built passes. Its order, its indices and its coverage
are right for any contents and any keys. The root is recomputed as well, with one
exception: of two entries or more, none of them near a key asked for, the builder
keeps a single unopened branch, and a proof of that shape is refused. -/

namespace LightClient.Trie

section
variable {entries : Entries} {keys : List MapKey}

/-! ## The checks of a built proof -/

theorem exists_index_buildProof (entries : Entries) (keys : List MapKey) :
    ∃ found missing, MapProof.indexEntries (buildProof entries keys).entries ∅ = .ok found ∧
      MapProof.indexMissing found (buildProof entries keys).missing ∅ = .ok missing ∧
      (∀ key value, found[key]? = some value ↔ key ∈ keys ∧ entries[key]? = some value) ∧
      ∀ key, key ∈ missing ↔ key ∈ keys ∧ key ∉ entries := by
  have hnew : ∀ e ∈ (buildProof entries keys).entries, e.key ∉ (∅ : Entries) := by simp
  obtain ⟨found, hfound⟩ :=
    MapProof.exists_indexEntries (nodup_entries_buildProof entries keys) hnew
  have hget : ∀ key value, found[key]? = some value ↔ key ∈ keys ∧ entries[key]? = some value := by
    intro key value
    rw [(MapProof.of_indexEntries hfound).2.2, mem_entries_buildProof]
    simp
  have hfresh : ∀ key ∈ (buildProof entries keys).missing,
      key ∉ found ∧ key ∉ (∅ : Std.ExtTreeSet MapKey) := by
    intro key hkey
    refine ⟨?_, by simp⟩
    intro hmem
    obtain ⟨-, hstored⟩ := (hget key _).mp (Std.ExtTreeMap.getElem?_eq_some_getElem hmem)
    obtain ⟨hin, -⟩ := Std.ExtTreeMap.getElem?_eq_some_iff.mp hstored
    exact (mem_missing_buildProof.mp hkey).2 hin
  have hnodup : (buildProof entries keys).missing.Nodup := (nodup_distinctKeys keys).filter _
  obtain ⟨missing, hmissing⟩ := MapProof.exists_indexMissing hnodup hfresh
  refine ⟨found, missing, hfound, hmissing, hget, ?_⟩
  intro key
  rw [(MapProof.of_indexMissing hmissing).2.2, mem_missing_buildProof]
  simp

/-- No key of a built proof lies below one of its nodes. -/
theorem checkCovered_buildProof :
    MapProof.checkCovered (buildProof entries keys).nodes (buildProof entries keys).keys =
      .ok () := by
  rw [MapProof.checkCovered_eq_ok]
  intro key hkey n hn hpre
  have hasked : key ∈ keys := by
    rcases List.mem_append.mp hkey with hkey | hkey
    · obtain ⟨e, he, rfl⟩ := List.mem_map.mp hkey
      exact (mem_entries_buildProof.mp he).1
    · exact (mem_missing_buildProof.mp hkey).1
  apply not_reached_of_mem_pieces (mem_nodes_buildProof.mp hn)
  exact ⟨.leaf key, List.mem_map_of_mem (mem_distinctKeys.mpr hasked), hpre⟩

/-- Only the root decides whether a built proof passes, and once it does every key
asked for gets the value that the contents have for it. -/
theorem check_buildProof (entries : Entries) (keys : List MapKey) (expected : Digest) :
    ∃ found missing,
      (∀ root, ∀ key ∈ keys, (Checked.mk root found missing).get key = .ok entries[key]?) ∧
      (buildProof entries keys).check expected =
        (buildProof entries keys).computeRoot >>= fun root =>
          if root = expected then .ok ⟨root, found, missing⟩
          else .error (.wrongRoot root expected) := by
  obtain ⟨found, missing, hfound, hmissing, hget, hmem⟩ :=
    exists_index_buildProof entries keys
  refine ⟨found, missing, ?_, ?_⟩
  · intro root key hkey
    unfold Checked.get
    cases hvalue : entries[key]? with
    | some value => simp only [(hget key value).mpr ⟨hkey, hvalue⟩]
    | none =>
      have hnone : found[key]? = none := by
        cases hf : found[key]? with
        | none => rfl
        | some value =>
          rw [((hget key value).mp hf).2] at hvalue
          cases hvalue
      have habsent : key ∉ entries := not_mem_of_getElem?_eq_none hvalue
      simp only [hnone, if_pos ((hmem key).mpr ⟨hkey, habsent⟩)]
  · unfold MapProof.check
    rw [MapProof.checkOrder_eq_ok.mpr inOrder_nodes_buildProof, hfound, checkCovered_buildProof]
    simp only [bind, Except.bind, hmissing]
    rfl

/-! ## The root of a built proof -/

/-- At least two pieces are folded to the root of the contents. -/
theorem computeRoot_buildProof_of_two_le {first second : Node} {rest : List Node}
    (hleaves : leaves entries = first :: second :: rest)
    (htwo : 2 ≤ (pieces entries keys).length) :
    (buildProof entries keys).computeRoot = .ok (root entries) := by
  have hleaf : InOrder (first :: second :: rest) := hleaves ▸ inOrder_leaves entries
  have hpieces : pieces entries keys =
      cut ((distinctKeys keys).map Path.leaf) first (second :: rest) := by
    rw [pieces, hleaves]
  have hlen : 2 ≤ (buildProof entries keys).contour.length := by
    rw [contour_buildProof, List.length_map]
    exact htwo
  obtain ⟨t, ht, htips, htop⟩ := hleaf.exists_tree_cut ((distinctKeys keys).map Path.leaf)
  rw [← hpieces, ← contour_buildProof] at htips
  rw [(MapProof.computeRoot_of_two_le (MapProof.length_contour _ ▸ hlen)).1, root, hleaves, ← htips,
    ht.foldContour_tips (htips ▸ hlen), htop]

/-- The leaf of a lone entry is the root, opened or not. -/
theorem computeRoot_buildProof_of_single {leaf : Node} (hleaves : leaves entries = [leaf]) :
    (buildProof entries keys).computeRoot = .ok (root entries) := by
  obtain ⟨key, value, hget, rfl⟩ := mem_leaves.mp (hleaves ▸ List.mem_singleton_self leaf)
  rw [root, hleaves, buildProof_eq, pieces, hleaves]
  by_cases hr : Reached ((distinctKeys keys).map Path.leaf) (Node.ofEntry key value)
  · simp only [cut_single hr, List.filterMap_cons, List.filterMap_nil, Piece.node?, Piece.leaf?,
      entryAt_ofEntry hget, List.mergeSort_nil]
    rfl
  · simp only [cut_single_of_not_reached hr, List.filterMap_cons, List.filterMap_nil, Piece.node?,
      Piece.leaf?, List.mergeSort_singleton]
    rfl

theorem computeRoot_buildProof_of_empty (hleaves : leaves entries = []) :
    (buildProof entries keys).computeRoot = .ok (root entries) := by
  rw [root, hleaves, buildProof_eq, pieces, hleaves]
  simp only [List.filterMap_nil, List.mergeSort_nil]
  rfl

/-- The path of a fork is no leaf. -/
theorem InOrder.isLeaf_subtree {first second : Node} {rest : List Node}
    (h : InOrder (first :: second :: rest)) :
    (subtree first (second :: rest)).path.isLeaf = false := by
  have hlt := h.bits_spanPath_lt
  rw [h.path_subtree, Path.isLeaf, beq_eq_false_iff_ne]
  omega

/-- Two leaves or more that no key asked for lies near are kept as one branch. -/
theorem computeRoot_buildProof_of_not_reached {first second : Node} {rest : List Node}
    (hleaves : leaves entries = first :: second :: rest)
    (hr : ¬ Reached ((distinctKeys keys).map Path.leaf) (subtree first (second :: rest))) :
    (buildProof entries keys).computeRoot = .error .singleBranch := by
  have hleaf : InOrder (first :: second :: rest) := hleaves ▸ inOrder_leaves entries
  rw [buildProof_eq, pieces, hleaves]
  simp only [cut_of_not_reached hr, List.filterMap_cons, List.filterMap_nil, Piece.node?,
    Piece.leaf?, List.mergeSort_singleton, MapProof.computeRoot, hleaf.isLeaf_subtree]
  rfl

end

/-! ## When a built proof passes -/

/-- A key asked for lies below every position that all keys of the contents lie
below, or the contents have no two keys. -/
def Reaches (entries : Entries) (keys : List MapKey) : Prop :=
  entries.size ≤ 1 ∨ ∃ key ∈ keys, ∀ path : Path,
    (∀ stored ∈ entries, path.isPrefixOf (.leaf stored)) → path.isPrefixOf (.leaf key)

theorem length_leaves (entries : Entries) : (leaves entries).length = entries.size := by
  simp [leaves]

/-- The subtree over all leaves is the lowest position above all keys. -/
theorem reaches_iff {entries : Entries} {keys : List MapKey} {first second : Node}
    {rest : List Node} (hleaves : leaves entries = first :: second :: rest) :
    Reaches entries keys ↔
      Reached ((distinctKeys keys).map Path.leaf) (subtree first (second :: rest)) := by
  have horder : InOrder (first :: second :: rest) := hleaves ▸ inOrder_leaves entries
  have hsize : ¬ entries.size ≤ 1 := by
    rw [← length_leaves, hleaves, List.length_cons, List.length_cons]
    omega
  obtain ⟨t, ht, htips, htop, -⟩ := horder.exists_tree_subtree
  constructor
  · rintro (h | ⟨key, hkey, hall⟩)
    · exact absurd h hsize
    refine ⟨.leaf key, List.mem_map_of_mem (mem_distinctKeys.mpr hkey), ?_⟩
    rw [← Path.isPrefixOf_iff]
    apply hall
    intro stored hstored
    have hget := Std.ExtTreeMap.getElem?_eq_some_getElem hstored
    have hleaf := mem_leaves.mpr ⟨stored, _, hget, rfl⟩
    rw [hleaves, ← htips] at hleaf
    have habove := ht.top_above hleaf
    rw [htop] at habove
    exact Path.isPrefixOf_iff.mpr habove
  · rintro ⟨path, hpath, hpre⟩
    obtain ⟨key, hkey, rfl⟩ := List.mem_map.mp hpath
    refine Or.inr ⟨key, mem_distinctKeys.mp hkey, ?_⟩
    intro path' hall
    rw [Path.isPrefixOf_iff]
    refine (horder.prefix_subtree ?_).trans hpre
    intro n hn
    obtain ⟨stored, value, hget, rfl⟩ := mem_leaves.mp (hleaves ▸ hn)
    obtain ⟨hstored, -⟩ := Std.ExtTreeMap.getElem?_eq_some_iff.mp hget
    exact Path.isPrefixOf_iff.mp (hall stored hstored)

/-- The root comes out right exactly when a key reaches the stored ones. -/
theorem computeRoot_buildProof (entries : Entries) (keys : List MapKey) :
    (Reaches entries keys → (buildProof entries keys).computeRoot = .ok (root entries)) ∧
      (¬ Reaches entries keys → (buildProof entries keys).computeRoot = .error .singleBranch) := by
  have hsize := length_leaves entries
  match hleaves : leaves entries with
  | [] =>
    rw [hleaves] at hsize
    have hreaches : Reaches entries keys := Or.inl (by simp at hsize; omega)
    exact ⟨fun _ => computeRoot_buildProof_of_empty hleaves, fun h => absurd hreaches h⟩
  | [leaf] =>
    rw [hleaves] at hsize
    have hreaches : Reaches entries keys := Or.inl (by simp at hsize; omega)
    exact ⟨fun _ => computeRoot_buildProof_of_single hleaves, fun h => absurd hreaches h⟩
  | first :: second :: rest =>
    have horder : InOrder (first :: second :: rest) := hleaves ▸ inOrder_leaves entries
    rw [reaches_iff hleaves]
    refine ⟨fun hr => computeRoot_buildProof_of_two_le hleaves ?_,
      computeRoot_buildProof_of_not_reached hleaves⟩
    rw [pieces, hleaves]
    exact horder.two_le_length_cut hr

/-- A built proof that does not reach the stored keys is refused. -/
theorem check_buildProof_of_not_reaches {entries : Entries} {keys : List MapKey}
    (h : ¬ Reaches entries keys) (expected : Digest) :
    (buildProof entries keys).check expected = .error .singleBranch := by
  obtain ⟨found, missing, -, hcheck⟩ := check_buildProof entries keys expected
  rw [hcheck, (computeRoot_buildProof entries keys).2 h]
  rfl

/-- One that does passes and gives every key asked for its value. -/
theorem exists_check_buildProof {entries : Entries} {keys : List MapKey}
    (h : Reaches entries keys) :
    ∃ c, (buildProof entries keys).check (root entries) = .ok c ∧
      ∀ key ∈ keys, c.get key = .ok entries[key]? := by
  obtain ⟨found, missing, hget, hcheck⟩ :=
    check_buildProof entries keys (root entries)
  refine ⟨⟨root entries, found, missing⟩, ?_, hget _⟩
  rw [hcheck, (computeRoot_buildProof entries keys).1 h]
  exact if_pos rfl

/-- A built proof passes against the root of the contents and gives every key asked
for its value exactly when a key reaches the stored ones; else it is refused as a
single branch. -/
theorem buildProof_passes_iff (entries : Entries) (keys : List MapKey) :
    ((∃ c, (buildProof entries keys).check (root entries) = .ok c ∧
        ∀ key ∈ keys, c.get key = .ok entries[key]?) ↔ Reaches entries keys) ∧
      ((buildProof entries keys).check (root entries) = .error .singleBranch ↔
        ¬ Reaches entries keys) := by
  refine ⟨⟨?_, exists_check_buildProof⟩, ⟨?_, fun h => check_buildProof_of_not_reaches h _⟩⟩
  · rintro ⟨c, hc, -⟩
    by_cases hr : Reaches entries keys
    · exact hr
    · rw [check_buildProof_of_not_reaches hr] at hc
      cases hc
  · intro herror hr
    obtain ⟨c, hc, -⟩ := exists_check_buildProof hr
    rw [herror] at hc
    cases hc

theorem not_reaches_twoEntries : ¬ Reaches twoEntries [shortKey 1] := by
  rintro (h | ⟨key, hkey, hall⟩)
  · rw [← length_leaves, leaves_twoEntries] at h
    exact absurd h (by decide)
  · rw [List.mem_singleton.mp hkey] at hall
    -- both stored keys begin with a clear bit, the key asked for does not
    have hbelow := hall ((Path.leaf (shortKey 4)).commonPrefix (.leaf (shortKey 6)))
    apply absurd (hbelow ?_)
    · decide
    intro stored hstored
    simp only [twoEntries, Std.ExtTreeMap.mem_insert, Std.LawfulEqOrd.compare_eq_iff_eq,
      Std.ExtTreeMap.not_mem_empty, or_false] at hstored
    rcases hstored with rfl | rfl
    · decide
    · decide

/-- Not every built proof passes: one of two entries, for a key on the other side
of the trie, is refused. -/
theorem buildProof_refused_twoEntries :
    (buildProof twoEntries [shortKey 1]).check (root twoEntries) = .error .singleBranch ∧
      ¬ ∀ (entries : Entries) (keys : List MapKey),
        ∃ c, (buildProof entries keys).check (root entries) = .ok c ∧
          ∀ key ∈ keys, c.get key = .ok entries[key]? := by
  refine ⟨check_buildProof_of_not_reaches not_reaches_twoEntries _, ?_⟩
  intro h
  obtain ⟨c, hc, -⟩ := h twoEntries [shortKey 1]
  rw [check_buildProof_of_not_reaches not_reaches_twoEntries] at hc
  cases hc

end LightClient.Trie

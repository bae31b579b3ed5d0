import LightClient.Proofs.Trie.Check

/-! A map proof that passes against the root of given contents tells the truth
about them: what it shows to be present is there with that value, and what it
shows to be absent is not there. The contour of the proof and the leaves of the
contents have one root, so they agree, and each key meets just one node. -/

namespace LightClient.Trie

namespace MapProof

variable {entries : Entries} {proof : MapProof} {c : Checked}

/-- The contour of a proof that passes agrees with the leaves of the contents. -/
theorem agree_leaves (h : proof.check (root entries) = .ok c)
    (hsafe : ¬ Collision (proof.inputs ++ rootInputs entries))
    (hzero : ¬ ZeroHash (proof.inputs ++ rootInputs entries)) :
    Agree proof.contour (leaves entries) := by
  obtain ⟨-, -, -, -, hroot, -⟩ := check_eq_ok.mp h
  obtain ⟨xs, hx, hxsub⟩ := rooted_computeRoot (inOrder_contour h) hroot
  obtain ⟨ys, hy, hysub⟩ := rooted_root entries
  have hsub : xs ++ ys ⊆ proof.inputs ++ rootInputs entries := fun z hz => by
    rcases List.mem_append.mp hz with hz | hz
    · exact List.mem_append_left _ (hxsub hz)
    · exact List.mem_append_right _ (hysub hz)
  exact hx.agree hy (fun hc => hsafe (hc.mono hsub)) (fun hc => hzero (hc.mono hsub))

/-- What a proof shows to be present is there. -/
theorem get?_of_mem_entries (h : proof.check (root entries) = .ok c)
    (hsafe : ¬ Collision (proof.inputs ++ rootInputs entries))
    (hzero : ¬ ZeroHash (proof.inputs ++ rootInputs entries)) {e : Entry}
    (he : e ∈ proof.entries) : entries[e.key]? = some e.value := by
  have hagree := agree_leaves h hsafe hzero
  have hmem : Node.ofEntry e.key e.value ∈ proof.contour := mem_contour.mpr (Or.inl ⟨e, he, rfl⟩)
  obtain ⟨leaf, hleaf, hmeets⟩ := hagree.left _ hmem
  obtain ⟨key, value, hget, rfl⟩ := mem_leaves.mp hleaf
  -- two leaves that meet have one key
  have hkey : e.key = key := by
    by_cases hne : e.key = key
    · exact hne
    · exact absurd hmeets (apart_leaves hne _ _)
  subst hkey
  have hhash : sha256 e.value = sha256 value := hagree.hash_eq _ hmem _ hleaf rfl
  have hvalue : e.value = value := eq_of_sha256_eq hsafe
    (List.mem_append_left _ (value_mem_inputs he))
    (List.mem_append_right _ (value_mem_rootInputs hget)) hhash
  rw [hget, hvalue]

/-- What a proof shows to be absent is not there. -/
theorem not_mem_of_mem_missing (h : proof.check (root entries) = .ok c)
    (hsafe : ¬ Collision (proof.inputs ++ rootInputs entries))
    (hzero : ¬ ZeroHash (proof.inputs ++ rootInputs entries)) {key : MapKey}
    (hkey : key ∈ proof.missing) : key ∉ entries := by
  intro hin
  have hagree := agree_leaves h hsafe hzero
  obtain ⟨-, hentries, hmissing, hcovered, -⟩ := check_eq_ok.mp h
  have hget := Std.ExtTreeMap.getElem?_eq_some_getElem hin
  obtain ⟨n, hn, hmeets⟩ := hagree.right _ (mem_leaves.mpr ⟨key, _, hget, rfl⟩)
  rcases mem_contour.mp hn with ⟨e, he, rfl⟩ | hn
  · -- an entry that meets the leaf of the key is an entry for the key
    by_cases hne : e.key = key
    · have hlisted : c.entries[key]? = some e.value := (get_checked h).mpr (hne ▸ he)
      obtain ⟨hmem, -⟩ := Std.ExtTreeMap.getElem?_eq_some_iff.mp hlisted
      exact ((of_indexMissing hmissing).2.1 key hkey).1 hmem
    · exact apart_leaves hne _ _ hmeets
  · -- an unopened node that meets the leaf of the key covers it
    apply checkCovered_eq_ok.mp hcovered key (List.mem_append_right _ hkey) n hn
    rcases hmeets with hm | hm
    · exact hm
    · exact Path.prefix_of_path_eq (Path.eq_of_leaf_prefix hm)

theorem mem_entries_of_get {expected : Digest} (h : proof.check expected = .ok c) {key : MapKey}
    {value : Bytes} (hget : c.get key = .ok (some value)) : ⟨key, value⟩ ∈ proof.entries := by
  rw [← get_checked h]
  unfold Checked.get at hget
  split at hget
  · rename_i found
    cases hget
    exact found
  · split at hget <;> cases hget

theorem mem_missing_of_get {expected : Digest} (h : proof.check expected = .ok c) {key : MapKey}
    (hget : c.get key = .ok none) : key ∈ proof.missing := by
  rw [← mem_missing_checked h]
  unfold Checked.get at hget
  split at hget
  · cases hget
  · split at hget
    · assumption
    · cases hget

end MapProof

/-- A map proof that passes against the root of given contents is right about
every key it decides, unless two byte strings hashed for the proof or for the
root collide or one of them hashes to zeros. -/
theorem checked_proof_sound (entries : Entries) (proof : MapProof) (c : Checked)
    (h : proof.check (root entries) = .ok c) :
    ((∀ key value, c.get key = .ok (some value) → entries[key]? = some value) ∧
      ∀ key, c.get key = .ok none → key ∉ entries) ∨
    Collision (proof.inputs ++ rootInputs entries) ∨
    ZeroHash (proof.inputs ++ rootInputs entries) := by
  apply or_broken
  intro hsafe hzero
  refine ⟨?_, ?_⟩
  · intro key value hget
    exact MapProof.get?_of_mem_entries h hsafe hzero (MapProof.mem_entries_of_get h hget)
  · intro key hget
    exact MapProof.not_mem_of_mem_missing h hsafe hzero (MapProof.mem_missing_of_get h hget)

/-- Opens one of the two entries and shows a third key to be absent. -/
def oneOpened : MapProof :=
  ⟨[Node.ofEntry (shortKey 6) [11]], [⟨shortKey 4, [10]⟩], [shortKey 2]⟩

theorem computeRoot_oneOpened : oneOpened.computeRoot = .ok (root twoEntries) := by
  have hcontour : oneOpened.contour =
      [Node.ofEntry (shortKey 4) [10], Node.ofEntry (shortKey 6) [11]] := mergeSort_two
  rw [(MapProof.computeRoot_of_two_le (by decide)).1, hcontour, root_twoEntries]
  rfl

theorem check_oneOpened : oneOpened.check (root twoEntries) =
    .ok ⟨root twoEntries, (∅ : Entries).insert (shortKey 4) [10],
      (∅ : Std.ExtTreeSet MapKey).insert (shortKey 2)⟩ :=
  MapProof.check_eq_ok.mpr ⟨rfl, rfl, rfl, rfl, computeRoot_oneOpened, rfl⟩

/-- The proof over two entries passes, and what it says of its two keys is true
or the hashes break. -/
theorem checked_proof_sound_oneOpened :
    ∃ c, oneOpened.check (root twoEntries) = .ok c ∧ c.get (shortKey 4) = .ok (some [10]) ∧
      c.get (shortKey 2) = .ok none ∧
      (((∀ key value, c.get key = .ok (some value) → twoEntries[key]? = some value) ∧
        ∀ key, c.get key = .ok none → key ∉ twoEntries) ∨
      Collision (oneOpened.inputs ++ rootInputs twoEntries) ∨
      ZeroHash (oneOpened.inputs ++ rootInputs twoEntries)) :=
  ⟨_, check_oneOpened, rfl, rfl,
    checked_proof_sound twoEntries oneOpened _ check_oneOpened⟩

end LightClient.Trie

import LightClient.Proofs.Trie.Soundness

/-! Two map proofs that pass against one root agree on every key that both of them
show to be present, whatever the root stands for. Their contours cut one trie in
different places, and the leaf of the key is a node of both. -/

namespace LightClient.Trie.MapProof

variable {first second : MapProof} {root : Digest} {c d : Checked}

theorem ofEntry_mem_contour {proof : MapProof} {e : Entry} (h : e ∈ proof.entries) :
    Node.ofEntry e.key e.value ∈ proof.contour :=
  mem_contour.mpr (Or.inl ⟨e, h, rfl⟩)

/-- The contours of two proofs with one root agree, if there are nodes in both. -/
theorem agree_contours (hfirst : first.check root = .ok c) (hsecond : second.check root = .ok d)
    (hne : first.contour ≠ []) (hne' : second.contour ≠ [])
    (hsafe : ¬ Collision (first.inputs ++ second.inputs)) :
    Agree first.contour second.contour := by
  obtain ⟨-, -, -, -, hroot, -⟩ := check_eq_ok.mp hfirst
  obtain ⟨-, -, -, -, hroot', -⟩ := check_eq_ok.mp hsecond
  obtain ⟨xs, hx, hxsub⟩ := rooted_computeRoot (inOrder_contour hfirst) hroot
  obtain ⟨ys, hy, hysub⟩ := rooted_computeRoot (inOrder_contour hsecond) hroot'
  exact hx.agree_of_ne_nil hy hne hne' (not_collision_of_subset hsafe hxsub hysub)

/-- Entries under one key have one value. -/
theorem value_eq_of_check (hfirst : first.check root = .ok c) (hsecond : second.check root = .ok d)
    (hsafe : ¬ Collision (first.inputs ++ second.inputs)) {e f : Entry} (he : e ∈ first.entries)
    (hf : f ∈ second.entries) (hkey : e.key = f.key) : e.value = f.value := by
  have hleaf := ofEntry_mem_contour he
  have hleaf' := ofEntry_mem_contour hf
  have hagree := agree_contours hfirst hsecond (List.ne_nil_of_mem hleaf)
    (List.ne_nil_of_mem hleaf') hsafe
  apply eq_of_sha256_eq hsafe (List.mem_append_left _ (value_mem_inputs he))
    (List.mem_append_right _ (value_mem_inputs hf))
  exact hagree.hash_eq _ hleaf _ hleaf' (congrArg Path.leaf hkey)

/-- Values shown to be present under one key are the same. -/
theorem get_eq_get (hfirst : first.check root = .ok c) (hsecond : second.check root = .ok d)
    (hsafe : ¬ Collision (first.inputs ++ second.inputs)) {key : MapKey} {a b : Bytes}
    (ha : c.get key = .ok (some a)) (hb : d.get key = .ok (some b)) : a = b := by
  have hmem := mem_entries_of_get hfirst ha
  have hmem' := mem_entries_of_get hsecond hb
  exact value_eq_of_check hfirst hsecond hsafe hmem hmem' rfl

end LightClient.Trie.MapProof

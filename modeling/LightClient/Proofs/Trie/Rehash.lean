import LightClient.Proofs.Trie.Agreement
import LightClient.Proofs.Trie.Completeness

/-! Proofs whose nodes have other hashes. Only the last check of a map proof looks at hashes,
so when one passes and another has the same paths with other hashes, the other is refused for
its root, and for nothing else. -/

namespace LightClient.Trie

theorem inOrder_iff_map_path {nodes : List Node} :
    InOrder nodes ↔
      (nodes.map Node.path).Pairwise fun p q => Before p.bitString q.bitString := by
  rw [List.pairwise_map]
  rfl

namespace MapProof

/-- The proofs differ in nothing but the hashes of their nodes. -/
structure Rehashed (proof other : MapProof) : Prop where
  paths : other.nodes.map Node.path = proof.nodes.map Node.path
  entries : other.entries = proof.entries
  missing : other.missing = proof.missing

section
variable {proof other : MapProof} {root : Digest} {c : Checked}

theorem Rehashed.checkOrder (h : Rehashed proof other)
    (hproof : checkOrder proof.nodes = .ok ()) : checkOrder other.nodes = .ok () := by
  rw [checkOrder_eq_ok, inOrder_iff_map_path] at *
  rwa [h.paths]

theorem Rehashed.checkCovered (h : Rehashed proof other)
    (hproof : checkCovered proof.nodes proof.keys = .ok ()) :
    checkCovered other.nodes other.keys = .ok () := by
  have hkeys : other.keys = proof.keys := by rw [keys, keys, h.entries, h.missing]
  rw [checkCovered_eq_ok] at *
  rw [hkeys]
  intro key hkey
  have hall : ∀ path ∈ proof.nodes.map Node.path,
      ¬ path.bitString <+: (Path.leaf key).bitString :=
    List.forall_mem_map.mpr (hproof key hkey)
  rw [← h.paths] at hall
  intro n hn
  exact hall n.path (List.mem_map_of_mem hn)

theorem Rehashed.exists_computeRoot (h : Rehashed proof other)
    (hproof : proof.computeRoot = .ok root) : ∃ computed, other.computeRoot = .ok computed := by
  cases hother : other.computeRoot with
  | ok computed => exact ⟨computed, rfl⟩
  | error fault =>
    obtain ⟨-, hentries, node, hnodes, hbranch⟩ := computeRoot_eq_error.mp hother
    have hpaths := h.paths
    rw [hnodes] at hpaths
    obtain ⟨node', hnodes', hpath⟩ := List.map_eq_singleton_iff.mp hpaths.symm
    rw [← hpath] at hbranch
    have hrefused := computeRoot_eq_error.mpr
      ⟨rfl, h.entries ▸ hentries, node', hnodes', hbranch⟩
    rw [hproof] at hrefused
    cases hrefused

/-- The other proof is judged by its root alone. -/
theorem Rehashed.exists_check (h : Rehashed proof other) (hproof : proof.check root = .ok c) :
    ∃ computed, other.check root =
      if computed = root then .ok ⟨computed, c.entries, c.missing⟩
      else .error (.wrongRoot computed root) := by
  obtain ⟨horder, hentries, hmissing, hcovered, hroot, -⟩ := check_eq_ok.mp hproof
  obtain ⟨computed, hcomputed⟩ := h.exists_computeRoot hroot
  refine ⟨computed, ?_⟩
  unfold check
  rw [h.checkOrder horder, h.entries, hentries, h.missing, h.checkCovered hcovered, hcomputed]
  simp only [bind, Except.bind, hmissing]
  rfl

/-- If a node got another hash, the root comes out different unless the hashes above the two
contours collide: one root would make the contours agree. -/
theorem Rehashed.check_eq_error (h : Rehashed proof other) (hproof : proof.check root = .ok c)
    {m n : Node} (hm : m ∈ proof.nodes) (hn : n ∈ other.nodes) (hpath : m.path = n.path)
    (hhash : m.hash ≠ n.hash) (hsafe : ¬ Collision (proof.inputs ++ other.inputs)) :
    ∃ computed, other.check root = .error (.wrongRoot computed root) := by
  obtain ⟨computed, hother⟩ := h.exists_check hproof
  refine ⟨computed, hother.trans (if_neg ?_)⟩
  intro hroot
  rw [if_pos hroot] at hother
  have hmem := mem_contour.mpr (Or.inr hm)
  have hmem' := mem_contour.mpr (Or.inr hn)
  have hagree := agree_contours hproof hother (List.ne_nil_of_mem hmem)
    (List.ne_nil_of_mem hmem') hsafe
  exact hhash (hagree.hash_eq m hmem n hmem' hpath)

end

end MapProof

/-! ## Nodes of a built proof -/

/-- A proof for a single key opens no other leaf. -/
theorem length_entries_buildProof_le (entries : Entries) (key : MapKey) :
    (buildProof entries [key]).entries.length ≤ 1 := by
  have hnodup := nodup_entries_buildProof entries [key]
  have hkey : ∀ e ∈ (buildProof entries [key]).entries, e.key = key := fun e he =>
    List.mem_singleton.mp (mem_entries_buildProof.mp he).1
  match (buildProof entries [key]).entries, hnodup, hkey with
  | [], _, _ => exact Nat.zero_le 1
  | [_], _, _ => exact Nat.le_refl 1
  | e :: e' :: _, hnodup, hkey =>
    have hsame : e.key = e'.key := (hkey e (by simp)).trans (hkey e' (by simp)).symm
    simp [hsame] at hnodup

/-- A proof for a single key out of two entries or more keeps a node beside the way to it. -/
theorem nodes_buildProof_ne_nil {entries : Entries} {key : MapKey} (hsize : 2 ≤ entries.size)
    (hreaches : Reaches entries [key]) : (buildProof entries [key]).nodes ≠ [] := by
  rw [← length_leaves] at hsize
  match hleaves : leaves entries, hsize with
  | first :: second :: rest, _ =>
    have horder : InOrder (first :: second :: rest) := hleaves ▸ inOrder_leaves entries
    have htwo : 2 ≤ (pieces entries [key]).length := by
      rw [pieces, hleaves]
      exact horder.two_le_length_cut ((reaches_iff hleaves).mp hreaches)
    have hcontour : (buildProof entries [key]).contour.length =
        ((pieces entries [key]).map Piece.node).length := congrArg List.length contour_buildProof
    rw [MapProof.length_contour, List.length_map] at hcontour
    have hone := length_entries_buildProof_le entries key
    rw [← List.length_pos_iff]
    omega

end LightClient.Trie

import LightClient.Proofs.MerkleList.Places
import LightClient.Proofs.Trie.Recursion

/-! The order in which a proof lists its parts. Whether a proof passes and what it then says do
not depend on it: each check that looks at one part after the other amounts to a condition on
all of them, and the root is computed from maps or from nodes that are sorted first. Which
fault is met first may well depend on the order, so outcomes are compared without their
faults. -/

namespace LightClient

/-- Results with the same values have the same outcome, whatever the errors. -/
theorem toOption_eq_of_ok {ε α : Type} {x y : Except ε α} (h : ∀ a, x = .ok a → y = .ok a)
    (h' : ∀ a, y = .ok a → x = .ok a) : x.toOption = y.toOption := by
  cases x with
  | ok a =>
    rw [h a rfl]
  | error e =>
    cases y with
    | ok a => cases h' a rfl
    | error e' => rfl

/-! ## Map proofs -/

namespace Trie.MapProof

/-- The proofs list the same entries and missing keys, in whatever order. -/
structure Relists (proof other : MapProof) : Prop where
  nodes : other.nodes = proof.nodes
  entries : other.entries.Perm proof.entries
  missing : other.missing.Perm proof.missing

section
variable {proof other : MapProof}

theorem Relists.symm (h : Relists proof other) : Relists other proof :=
  ⟨h.nodes.symm, h.entries.symm, h.missing.symm⟩

theorem Relists.mem_keys (h : Relists proof other) {key : MapKey} :
    key ∈ other.keys ↔ key ∈ proof.keys := by
  simp only [keys, List.mem_append, (h.entries.map Entry.key).mem_iff, h.missing.mem_iff]

theorem indexEntries_of_perm {es es' : List Entry} {found : Entries} (hperm : es'.Perm es)
    (h : indexEntries es ∅ = .ok found) : indexEntries es' ∅ = .ok found := by
  obtain ⟨hnodup, -, hget⟩ := of_indexEntries h
  have hnodup' : (es'.map Entry.key).Nodup := (hperm.map Entry.key).nodup_iff.mpr hnodup
  have hfresh : ∀ e ∈ es', e.key ∉ (∅ : Entries) := by simp
  obtain ⟨found', hfound'⟩ := exists_indexEntries hnodup' hfresh
  obtain ⟨-, -, hget'⟩ := of_indexEntries hfound'
  have heq : found' = found := by
    apply Std.ExtTreeMap.ext_getElem?
    intro key
    apply Option.ext
    intro value
    rw [hget, hget', hperm.mem_iff]
  rw [hfound', heq]

theorem indexMissing_of_perm {entries : Entries} {keys keys' : List MapKey}
    {found : Std.ExtTreeSet MapKey} (hperm : keys'.Perm keys)
    (h : indexMissing entries keys ∅ = .ok found) : indexMissing entries keys' ∅ = .ok found := by
  obtain ⟨hnodup, hfresh, hmem⟩ := of_indexMissing h
  have hfresh' : ∀ key ∈ keys', key ∉ entries ∧ key ∉ (∅ : Std.ExtTreeSet MapKey) :=
    fun key hkey => hfresh key (hperm.mem_iff.mp hkey)
  obtain ⟨found', hfound'⟩ := exists_indexMissing (hperm.nodup_iff.mpr hnodup) hfresh'
  obtain ⟨-, -, hmem'⟩ := of_indexMissing hfound'
  have heq : found' = found := by
    apply Std.ExtTreeSet.ext_mem
    intro key
    rw [hmem, hmem', hperm.mem_iff]
  rw [hfound', heq]

theorem Relists.checkCovered (h : Relists proof other)
    (hproof : checkCovered proof.nodes proof.keys = .ok ()) :
    checkCovered other.nodes other.keys = .ok () := by
  rw [checkCovered_eq_ok] at *
  rw [h.nodes]
  exact fun key hkey => hproof key (h.mem_keys.mp hkey)

/-- Lists of at most one element have one order. -/
theorem eq_of_perm_of_length_le {α : Type} {as bs : List α} (h : as.Perm bs)
    (hlen : bs.length ≤ 1) : as = bs := by
  match bs, hlen with
  | [], _ => exact List.perm_nil.mp h
  | [b], _ => exact List.perm_singleton.mp h

/-- The root is computed from the contour, which is sorted, or from a single part. -/
theorem Relists.computeRoot_eq (h : Relists proof other) (horder : InOrder proof.contour)
    (horder' : InOrder other.contour) : other.computeRoot = proof.computeRoot := by
  have hlength := h.entries.length_eq
  by_cases htwo : 2 ≤ proof.entries.length + proof.nodes.length
  · have htwo' : 2 ≤ other.entries.length + other.nodes.length := by
      rw [hlength, h.nodes]
      exact htwo
    rw [(computeRoot_of_two_le htwo).1, (computeRoot_of_two_le htwo').1,
      contour_eq_of_perm horder horder' h.entries (.of_eq h.nodes)]
  · have hentries := eq_of_perm_of_length_le h.entries (by omega)
    rw [computeRoot, computeRoot, contour, contour, hentries, h.nodes]

/-- A proof that passes passes in any order, and says the same. -/
theorem Relists.check_of_ok (h : Relists proof other) {root : Digest} {c : Checked}
    (hproof : proof.check root = .ok c) : other.check root = .ok c := by
  have hcontour := inOrder_contour hproof
  obtain ⟨horder, hentries, hmissing, hcovered, hroot, hc⟩ := check_eq_ok.mp hproof
  have hentries' := indexEntries_of_perm h.entries hentries
  have hcovered' := h.checkCovered hcovered
  have horder' := h.nodes ▸ horder
  have hcontour' : InOrder other.contour :=
    inOrder_mergeSort (apart_contour (checkOrder_eq_ok.mp horder') (of_indexEntries hentries').1
      (checkCovered_eq_ok.mp hcovered'))
  refine check_eq_ok.mpr ⟨horder', hentries', indexMissing_of_perm h.missing hmissing, hcovered',
    ?_, hc⟩
  rw [h.computeRoot_eq hcontour hcontour', hroot]

theorem Relists.check_toOption (h : Relists proof other) (root : Digest) :
    (other.check root).toOption = (proof.check root).toOption :=
  toOption_eq_of_ok (fun _ => h.symm.check_of_ok) (fun _ => h.check_of_ok)

end

end Trie.MapProof

/-! ## List proofs -/

namespace MerkleList.ListProof

/-- The proofs list the same nodes and elements, in whatever order. -/
structure Relists (proof other : ListProof) : Prop where
  length : other.length = proof.length
  nodes : other.nodes.Perm proof.nodes
  elements : other.elements.Perm proof.elements

section
variable {proof other : ListProof} {length : Nat}

theorem Relists.symm (h : Relists proof other) : Relists other proof :=
  ⟨h.length.symm, h.nodes.symm, h.elements.symm⟩

/-- Elements that are indexed have different indices inside the list. -/
theorem of_indexElements {es : List Element} {found elements : Std.ExtTreeMap Nat Bytes}
    (h : indexElements length es found = .ok elements) :
    (es.map fun e => e.index.toNat).Nodup ∧ (∀ e ∈ es, e.index.toNat < length) ∧
      ∀ e ∈ es, e.index.toNat ∉ found := by
  induction es generalizing found with
  | nil => simp
  | cons e rest ih =>
    unfold indexElements at h
    split at h
    · cases h
    rename_i hinside
    split at h
    · cases h
    rename_i hnew
    obtain ⟨hnodup, hrest, hfresh⟩ := ih h
    rw [List.map_cons, List.nodup_cons, List.forall_mem_cons, List.forall_mem_cons]
    refine ⟨⟨?_, hnodup⟩, ⟨Nat.not_le.mp hinside, hrest⟩, hnew, ?_⟩
    · intro hmem
      obtain ⟨e', he', heq⟩ := List.mem_map.mp hmem
      apply hfresh e' he'
      rw [heq]
      exact Std.ExtTreeMap.mem_insert_self
    · exact fun e' he' hmem => hfresh e' he' (Std.ExtTreeMap.mem_insert.mpr (Or.inr hmem))

/-- Pairs with different indices make one map in any order. -/
theorem ofList_eq_of_perm {α : Type} {pairs pairs' : List (Nat × α)} (hperm : pairs'.Perm pairs)
    (hnodup : (pairs.map Prod.fst).Nodup) :
    Std.ExtTreeMap.ofList pairs' = Std.ExtTreeMap.ofList pairs := by
  have hnodup' := (hperm.map Prod.fst).nodup_iff.mpr hnodup
  apply Std.ExtTreeMap.ext_getElem?
  intro i
  apply Option.ext
  intro a
  rw [getElem?_ofList_eq_some hnodup, getElem?_ofList_eq_some hnodup', hperm.mem_iff]

theorem indexElements_of_perm {es es' : List Element} {elements : Std.ExtTreeMap Nat Bytes}
    (hperm : es'.Perm es) (h : indexElements length es ∅ = .ok elements) :
    indexElements length es' ∅ = .ok elements := by
  obtain ⟨hnodup, hinside, hfresh⟩ := of_indexElements h
  have hnodup' := (hperm.map fun e => e.index.toNat).nodup_iff.mpr hnodup
  have hpairs : ((es.map fun e => (e.index.toNat, e.value)).map Prod.fst).Nodup := by
    rw [List.map_map]
    exact hnodup
  rw [indexElements_of_nodup hnodup hinside hfresh] at h
  rw [← h, indexElements_of_nodup hnodup' (fun e he => hinside e (hperm.mem_iff.mp he))
    (fun e he => hfresh e (hperm.mem_iff.mp he))]
  simp only [← Std.ExtTreeMap.ofList_eq_insertMany_empty]
  rw [ofList_eq_of_perm (hperm.map _) hpairs]

theorem checkNodes_of_perm {nodes nodes' : List ProofNode} (hperm : nodes'.Perm nodes)
    (h : checkNodes length nodes [] = .ok ()) : checkNodes length nodes' [] = .ok () := by
  rw [checkNodes_eq_ok] at *
  obtain ⟨hinside, hnodup, hnew⟩ := h
  exact ⟨fun n hn => hinside n (hperm.mem_iff.mp hn), (hperm.map _).nodup_iff.mpr hnodup,
    fun n hn => hnew n (hperm.mem_iff.mp hn)⟩

/-- Nodes at different places stand in their levels, however they are listed. -/
theorem given_of_perm {nodes nodes' : List ProofNode} (hperm : nodes'.Perm nodes)
    (hnodup : (nodes.map ProofNode.place).Nodup) (height : Nat) :
    given nodes' height = given nodes height := by
  have hnodup' := (hperm.map ProofNode.place).nodup_iff.mpr hnodup
  apply Std.ExtTreeMap.ext_getElem?
  intro i
  apply Option.ext
  intro hash
  simp only [getElem?_given hnodup, getElem?_given hnodup', hperm.mem_iff]

/-- The climb looks at the nodes level by level. -/
theorem climb_congr {nodes nodes' : List ProofNode}
    (h : ∀ height, given nodes' height = given nodes height) (steps height : Nat)
    (computed : Level) :
    climb length nodes' steps height computed = climb length nodes steps height computed := by
  induction steps generalizing height computed with
  | zero => rfl
  | succ steps ih => simp only [climb, h, ih]

theorem Relists.computeRoot_of_ok (h : Relists proof other)
    {elements : Std.ExtTreeMap Nat Bytes} {root : Digest}
    (hproof : proof.computeRoot elements = .ok root) : other.computeRoot elements = .ok root := by
  simp only [computeRoot, h.length] at hproof ⊢
  by_cases hlength : proof.length.toNat = 0
  · simp only [if_pos hlength, h.nodes.isEmpty_eq] at hproof ⊢
    exact hproof
  simp only [if_neg hlength] at hproof ⊢
  by_cases hempty : elements.isEmpty = true
  · simp only [if_pos hempty] at hproof ⊢
    split at hproof
    · rename_i node hnodes
      have hperm := h.nodes
      rw [hnodes] at hperm
      rw [List.perm_singleton.mp hperm]
      exact hproof
    · cases hproof
  · simp only [if_neg hempty] at hproof ⊢
    obtain ⟨_, hnodes, hproof⟩ := bind_eq_ok.mp hproof
    obtain ⟨-, hnodup, -⟩ := checkNodes_eq_ok.mp hnodes
    simp only [checkNodes_of_perm h.nodes hnodes, climb_congr (given_of_perm h.nodes hnodup)]
    exact hproof

/-- A proof that passes passes in any order, and returns the same. -/
theorem Relists.verify_of_ok (h : Relists proof other) {expected : Digest} {start stop : Nat}
    {items : List (Nat × Bytes)} (hproof : proof.verify expected start stop = .ok items) :
    other.verify expected start stop = .ok items := by
  rw [verify_eq_ok] at *
  obtain ⟨hmax, hrange, elements, hindex, hsize, hfill, hroot, hitems⟩ := hproof
  rw [h.length]
  exact ⟨hmax, hrange, elements, indexElements_of_perm h.elements hindex, hsize, hfill,
    h.computeRoot_of_ok hroot, hitems⟩

theorem Relists.verify_toOption (h : Relists proof other) (expected : Digest)
    (start stop : Nat) :
    (other.verify expected start stop).toOption = (proof.verify expected start stop).toOption :=
  toOption_eq_of_ok (fun _ => h.symm.verify_of_ok) (fun _ => h.verify_of_ok)

end

end MerkleList.ListProof

/-! ## Both kinds of proof -/

/-- A map proof passes or fails however its entries and missing keys are listed, and so does a
list proof however its nodes and elements are. What a proof says when it passes is the same,
and the elements of a list proof come by ascending index. -/
theorem listing_order_irrelevant :
    (∀ (proof : Trie.MapProof) (root : Digest) (entries : List Trie.Entry)
      (missing : List Trie.MapKey),
      entries.Perm proof.entries → missing.Perm proof.missing →
        (Trie.MapProof.check ⟨proof.nodes, entries, missing⟩ root).toOption =
          (proof.check root).toOption) ∧
    ∀ (proof : MerkleList.ListProof) (root : Digest) (start stop : Nat)
      (nodes : List MerkleList.ProofNode) (elements : List MerkleList.Element),
      nodes.Perm proof.nodes → elements.Perm proof.elements →
        (MerkleList.ListProof.verify ⟨proof.length, nodes, elements⟩ root start stop).toOption =
            (proof.verify root start stop).toOption ∧
          ∀ items, proof.verify root start stop = .ok items →
            items.map Prod.fst = List.range' start (stop - start) := by
  refine ⟨?_, ?_⟩
  · intro proof root entries missing hentries hmissing
    have hlisted : Trie.MapProof.Relists proof ⟨proof.nodes, entries, missing⟩ :=
      ⟨rfl, hentries, hmissing⟩
    exact hlisted.check_toOption root
  · intro proof root start stop nodes elements hnodes helements
    have hlisted : MerkleList.ListProof.Relists proof ⟨proof.length, nodes, elements⟩ :=
      ⟨rfl, hnodes, helements⟩
    refine ⟨hlisted.verify_toOption root start stop, ?_⟩
    intro items hverify
    obtain ⟨-, -, found, -, hsize, hfill, -, rfl⟩ :=
      MerkleList.ListProof.verify_eq_ok.mp hverify
    exact MerkleList.ListProof.keys_eq_range' hsize hfill

/-- The fault does depend on the order: the first element outside the list is reported. -/
example : MerkleList.ListProof.indexElements 5 [⟨9, []⟩, ⟨8, []⟩] ∅ =
      .error (.elementOutside 9 5) ∧
    MerkleList.ListProof.indexElements 5 [⟨8, []⟩, ⟨9, []⟩] ∅ = .error (.elementOutside 8 5) :=
  ⟨rfl, rfl⟩

open Trie.MapProof (threeNodes)
open MerkleList (builtProof fiveElements)

theorem check_threeNodes :
    ∃ c, threeNodes.check (Trie.foldContour threeNodes.contour) = .ok c := by
  have hroot := (Trie.MapProof.computeRoot_of_two_le
    (show 2 ≤ threeNodes.entries.length + threeNodes.nodes.length by decide)).1
  exact ⟨⟨_, _, _⟩, Trie.MapProof.check_eq_ok.mpr ⟨rfl, rfl, rfl, rfl, hroot, rfl⟩⟩

/-- A map proof of two entries and a list proof of two elements, listed the other way round. -/
theorem listing_order_irrelevant_reversed :
    threeNodes.entries.reverse.Perm threeNodes.entries ∧
      (∃ c, (Trie.MapProof.check ⟨threeNodes.nodes, threeNodes.entries.reverse, []⟩
        (Trie.foldContour threeNodes.contour)).toOption = some c) ∧
      (MerkleList.ListProof.verify
          ⟨5, (builtProof fiveElements 1 3).nodes.reverse,
            (builtProof fiveElements 1 3).elements.reverse⟩
          (MerkleList.root fiveElements) 1 3).toOption =
        some (MerkleList.indexed fiveElements 1 3).toList := by
  obtain ⟨hmap, hlist⟩ := listing_order_irrelevant
  have hentries := threeNodes.entries.reverse_perm
  have hverify : (builtProof fiveElements 1 3).verify (MerkleList.root fiveElements) 1 3 = _ :=
    MerkleList.verify_builtProof (by decide) (by decide) (by decide)
  refine ⟨hentries, ?_, ?_⟩
  · obtain ⟨c, hcheck⟩ := check_threeNodes
    refine ⟨c, ?_⟩
    rw [hmap threeNodes _ _ [] hentries (.refl _), hcheck]
    rfl
  · have hsame := (hlist (builtProof fiveElements 1 3) (MerkleList.root fiveElements) 1 3 _ _
      (List.reverse_perm _) (List.reverse_perm _)).1
    rw [hverify] at hsame
    exact hsame

end LightClient

import LightClient.Hash.Sha256

/-! What is assumed of SHA-256: nothing. A statement about hashed data ends in
"or the inputs collide", where the inputs are the byte strings that the program
in question hashes, listed one by one. -/

namespace LightClient

/-- Two of the inputs are different and have one hash. -/
def Collision (inputs : List Bytes) : Prop :=
  ∃ x ∈ inputs, ∃ y ∈ inputs, x ≠ y ∧ sha256 x = sha256 y

/-- One of the inputs has the hash that stands for nothing at all. -/
def ZeroHash (inputs : List Bytes) : Prop := ∃ x ∈ inputs, sha256 x = .zero 32

theorem Collision.mono {xs ys : List Bytes} (h : Collision xs) (hsub : xs ⊆ ys) :
    Collision ys := by
  obtain ⟨x, hx, y, hy, hne, heq⟩ := h
  exact ⟨x, hsub hx, y, hsub hy, hne, heq⟩

theorem ZeroHash.mono {xs ys : List Bytes} (h : ZeroHash xs) (hsub : xs ⊆ ys) : ZeroHash ys := by
  obtain ⟨x, hx, heq⟩ := h
  exact ⟨x, hsub hx, heq⟩

/-- Without a collision equal hashes have equal inputs. -/
theorem eq_of_sha256_eq {inputs : List Bytes} (h : ¬ Collision inputs) {x y : Bytes}
    (hx : x ∈ inputs) (hy : y ∈ inputs) (heq : sha256 x = sha256 y) : x = y := by
  by_cases hxy : x = y
  · exact hxy
  · exact absurd ⟨x, hx, y, hy, hxy, heq⟩ h

/-- Of the inputs of two computations either side may leave some out. -/
theorem not_collision_of_subset {xs xs' ys ys' : List Bytes} (h : ¬ Collision (xs' ++ ys'))
    (hx : xs ⊆ xs') (hy : ys ⊆ ys') : ¬ Collision (xs ++ ys) := by
  intro hc
  apply h
  apply hc.mono
  rw [List.append_subset]
  exact ⟨List.subset_append_of_subset_left _ hx, List.subset_append_of_subset_right _ hy⟩

theorem not_collision_append {xs ys : List Bytes} (h : ¬ Collision (xs ++ ys)) :
    ¬ Collision xs ∧ ¬ Collision ys :=
  ⟨fun hx => h (hx.mono (List.subset_append_left _ _)),
    fun hy => h (hy.mono (List.subset_append_right _ _))⟩

theorem not_zeroHash_append {xs ys : List Bytes} (h : ¬ ZeroHash (xs ++ ys)) :
    ¬ ZeroHash xs ∧ ¬ ZeroHash ys :=
  ⟨fun hx => h (hx.mono (List.subset_append_left _ _)),
    fun hy => h (hy.mono (List.subset_append_right _ _))⟩

/-- What holds as long as the hashes do holds or the hashes break. -/
theorem or_broken {p : Prop} {inputs : List Bytes}
    (h : ¬ Collision inputs → ¬ ZeroHash inputs → p) : p ∨ Collision inputs ∨ ZeroHash inputs := by
  by_cases hsafe : Collision inputs
  · exact Or.inr (Or.inl hsafe)
  by_cases hzero : ZeroHash inputs
  · exact Or.inr (Or.inr hzero)
  exact Or.inl (h hsafe hzero)

end LightClient

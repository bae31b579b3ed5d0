import LightClient.Proofs.Block.Acceptance
import LightClient.Proofs.Block.Header
import Mathlib.Data.Finset.Card

/-! Two trusted blocks share signers. Each of them has more than two thirds of the
validators behind it, so more than a third of the validators are behind both; if
fewer than that ever sign two headers of one height, there is one block a height. -/

namespace LightClient

namespace BlockProof

/-- The validators behind a block. -/
def signers (proof : BlockProof) : Finset PublicKey :=
  (proof.precommits.map Precommit.validator).toFinset

/-- The proof holds a valid signature of the key over its header. -/
def SignedBy (S : SignatureScheme) (proof : BlockProof) (key : PublicKey) : Prop :=
  ∃ p ∈ proof.precommits, p.validator = key ∧
    S.verify key proof.header.encode p.signature = true

section
variable {S : SignatureScheme} {proof first second : BlockProof} {validators : ValidatorSet}

theorem mem_signers {key : PublicKey} :
    key ∈ proof.signers ↔ ∃ p ∈ proof.precommits, p.validator = key := by
  rw [signers, List.mem_toFinset, List.mem_map]

theorem Trusted.signers_subset (h : proof.Trusted S validators) :
    proof.signers ⊆ validators.keys.toFinset := by
  intro key hkey
  obtain ⟨p, hp, rfl⟩ := mem_signers.mp hkey
  exact List.mem_toFinset.mpr (h.flawless.members p hp)

theorem Trusted.signedBy (h : proof.Trusted S validators) {key : PublicKey}
    (hkey : key ∈ proof.signers) : proof.SignedBy S key := by
  obtain ⟨p, hp, rfl⟩ := mem_signers.mp hkey
  exact ⟨p, hp, rfl, h.flawless.signed p hp⟩

/-- More than two thirds of the validators are behind a trusted block. -/
theorem Trusted.card_signers (h : proof.Trusted S validators) :
    2 * validators.keys.length < 3 * proof.signers.card := by
  rw [signers, List.toFinset_card_of_nodup h.flawless.distinct, List.length_map]
  exact h.enough

/-- More than a third of the validators are behind both of two trusted blocks. -/
theorem Trusted.card_inter (hfirst : first.Trusted S validators)
    (hsecond : second.Trusted S validators) :
    validators.keys.length < 3 * (first.signers ∩ second.signers).card := by
  have hunion : (first.signers ∪ second.signers).card ≤ validators.keys.length := by
    calc (first.signers ∪ second.signers).card
        ≤ validators.keys.toFinset.card :=
          Finset.card_le_card (Finset.union_subset hfirst.signers_subset hsecond.signers_subset)
      _ ≤ validators.keys.length := List.toFinset_card_le _
  have hinter := Finset.card_union_add_card_inter first.signers second.signers
  have henough := hfirst.card_signers
  have henough' := hsecond.card_signers
  omega

end

end BlockProof

/-! ## One block a height -/

/-- Among the precommits that are seen, the key has valid signatures over two headers
of one height with different bytes. -/
def Equivocates (S : SignatureScheme) (seen : Set (BlockHeader × Precommit)) (key : PublicKey) :
    Prop :=
  ∃ a b : BlockHeader, ∃ p q : Precommit, (a, p) ∈ seen ∧ (b, q) ∈ seen ∧ a.height = b.height ∧
    a.encode ≠ b.encode ∧ p.validator = key ∧ q.validator = key ∧
    S.verify key a.encode p.signature = true ∧ S.verify key b.encode q.signature = true

section
variable {S : SignatureScheme} {first second : BlockProof} {validators : ValidatorSet}
  {seen : Set (BlockHeader × Precommit)}

/-- Who is behind two blocks of one height with different headers equivocates. -/
theorem equivocates_of_signedBy {key : PublicKey} (hfirst : first.SignedBy S key)
    (hsecond : second.SignedBy S key) (hseen : ∀ p ∈ first.precommits, (first.header, p) ∈ seen)
    (hseen' : ∀ p ∈ second.precommits, (second.header, p) ∈ seen)
    (hheight : first.header.height = second.header.height)
    (hne : first.header ≠ second.header) : Equivocates S seen key := by
  obtain ⟨p, hp, hkey, hvalid⟩ := hfirst
  obtain ⟨q, hq, hkey', hvalid'⟩ := hsecond
  exact ⟨first.header, second.header, p, q, hseen p hp, hseen' q hq, hheight,
    fun h => hne (BlockHeader.encode_injective h), hkey, hkey', hvalid, hvalid'⟩

/-- With at most a third of faulty validators there is one trusted header a height. -/
theorem BlockProof.Trusted.header_eq (hfirst : first.Trusted S validators)
    (hsecond : second.Trusted S validators)
    (hseen : ∀ p ∈ first.precommits, (first.header, p) ∈ seen)
    (hseen' : ∀ p ∈ second.precommits, (second.header, p) ∈ seen) {faulty : Finset PublicKey}
    (hfaulty : ∀ key ∈ validators.keys, Equivocates S seen key → key ∈ faulty)
    (hfew : 3 * faulty.card ≤ validators.keys.length)
    (hheight : first.header.height = second.header.height) : first.header = second.header := by
  by_contra hne
  have hsubset : first.signers ∩ second.signers ⊆ faulty := by
    intro key hkey
    obtain ⟨hkey₁, hkey₂⟩ := Finset.mem_inter.mp hkey
    apply hfaulty key (List.mem_toFinset.mp (hfirst.signers_subset hkey₁))
    exact equivocates_of_signedBy (hfirst.signedBy hkey₁) (hsecond.signedBy hkey₂) hseen hseen'
      hheight hne
  have := Finset.card_le_card hsubset
  have := hfirst.card_inter hsecond
  omega

end

namespace Query

/-- More than a third of the validators are behind both of two accepted blocks, with
valid signatures in both; so if at most a third of them ever equivocate, two accepted
blocks of one height have one header. -/
theorem verifyBlockProof_quorums_intersect (S : SignatureScheme) (validators : ValidatorSet)
    (first second : BlockProof)
    (hfirst : ∃ hash, verifyBlockProof S first validators = .ok hash)
    (hsecond : ∃ hash, verifyBlockProof S second validators = .ok hash) :
    validators.keys.length < 3 * (first.signers ∩ second.signers).card ∧
    (∀ key ∈ first.signers ∩ second.signers,
      key ∈ validators.keys ∧ first.SignedBy S key ∧ second.SignedBy S key) ∧
    (∀ (seen : Set (BlockHeader × Precommit)) (faulty : Finset PublicKey),
      (∀ p ∈ first.precommits, (first.header, p) ∈ seen) →
      (∀ p ∈ second.precommits, (second.header, p) ∈ seen) →
      (∀ key ∈ validators.keys, Equivocates S seen key → key ∈ faulty) →
      3 * faulty.card ≤ validators.keys.length →
      first.header.height = second.header.height → first.header = second.header) := by
  obtain ⟨_, hfirst⟩ := hfirst
  obtain ⟨_, hsecond⟩ := hsecond
  obtain ⟨hfirst, -⟩ := verifyBlockProof_eq_ok.mp hfirst
  obtain ⟨hsecond, -⟩ := verifyBlockProof_eq_ok.mp hsecond
  refine ⟨hfirst.card_inter hsecond, ?_, ?_⟩
  · intro key hkey
    obtain ⟨hkey₁, hkey₂⟩ := Finset.mem_inter.mp hkey
    exact ⟨List.mem_toFinset.mp (hfirst.signers_subset hkey₁), hfirst.signedBy hkey₁,
      hsecond.signedBy hkey₂⟩
  · intro seen faulty hseen hseen' hfaulty hfew hheight
    exact hfirst.header_eq hsecond hseen hseen' hfaulty hfew hheight

/-- All precommits to one header, and all precommits of one validator. -/
def oneFaulty : Set (BlockHeader × Precommit) :=
  {x | x.1 = emptyHeader ∨ x.2.validator = numberedKey 1}

theorem eq_of_equivocates_oneFaulty {key : PublicKey}
    (h : Equivocates stampScheme oneFaulty key) : key = numberedKey 1 := by
  obtain ⟨a, b, p, q, ha, hb, -, hne, hp, hq, -, -⟩ := h
  rcases ha with ha | ha
  · rcases hb with hb | hb
    · exact absurd (congrArg BlockHeader.encode (ha.trans hb.symm)) hne
    · exact hq.symm.trans hb
  · exact hp.symm.trans ha

/-- Three validators behind each of two blocks, with two in common; a fourth of the
validators equivocates. -/
theorem verifyBlockProof_quorums_intersect_fourValidators :
    (∃ hash, verifyBlockProof stampScheme (stampedBy [1, 2, 3]) fourValidators = .ok hash) ∧
    (∃ hash, verifyBlockProof stampScheme (stampedBy [4, 3, 2]) fourValidators = .ok hash) ∧
    4 < 3 * ((stampedBy [1, 2, 3]).signers ∩ (stampedBy [4, 3, 2]).signers).card ∧
    (stampedBy [4, 3, 2]).SignedBy stampScheme (numberedKey 2) ∧
    (∀ key ∈ fourValidators.keys, Equivocates stampScheme oneFaulty key →
      key ∈ ({numberedKey 1} : Finset PublicKey)) ∧
    (stampedBy [1, 2, 3]).header = (stampedBy [4, 3, 2]).header := by
  have hfirst : ∃ hash,
      verifyBlockProof stampScheme (stampedBy [1, 2, 3]) fourValidators = .ok hash :=
    ⟨_, verifyBlockProof_eq_ok.mpr ⟨⟨by decide, ⟨by decide, by decide, by decide⟩, by decide⟩, rfl⟩⟩
  have hsecond : ∃ hash,
      verifyBlockProof stampScheme (stampedBy [4, 3, 2]) fourValidators = .ok hash :=
    ⟨_, verifyBlockProof_eq_ok.mpr ⟨⟨by decide, ⟨by decide, by decide, by decide⟩, by decide⟩, rfl⟩⟩
  have hfaulty : ∀ key ∈ fourValidators.keys, Equivocates stampScheme oneFaulty key →
      key ∈ ({numberedKey 1} : Finset PublicKey) := fun _ _ h =>
    Finset.mem_singleton.mpr (eq_of_equivocates_oneFaulty h)
  obtain ⟨hcard, hsigned, hheader⟩ :=
    verifyBlockProof_quorums_intersect stampScheme fourValidators _ _ hfirst hsecond
  refine ⟨hfirst, hsecond, hcard, (hsigned _ (by decide)).2.2, hfaulty, ?_⟩
  exact hheader oneFaulty {numberedKey 1} (fun _ _ => Or.inl rfl) (fun _ _ => Or.inl rfl) hfaulty
    (by decide) rfl

end Query

end LightClient

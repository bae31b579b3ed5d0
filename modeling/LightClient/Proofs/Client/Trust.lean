import LightClient.Client
import LightClient.Node.Scripted
import LightClient.Proofs.Block.Quorum
import LightClient.Proofs.Query.Soundness
import LightClient.Proofs.Request

/-! Whom a client trusts. It checks what a node serves against the validators that the
same node serves, so an accepted block has these validators behind it, and those of the
network only as far as the node serves them. A node that serves keys of its own is
believed whatever it says. -/

namespace LightClient

/-- More than two thirds of the keys of the set have signatures in the proof that
verify over its header. -/
def BlockProof.VouchedBy (S : SignatureScheme) (proof : BlockProof) (validators : ValidatorSet) :
    Prop :=
  ∃ signers ⊆ validators.keys.toFinset,
    (∀ key ∈ signers, proof.SignedBy S key) ∧
      2 * validators.keys.toFinset.card < 3 * signers.card

/-- The set holds all keys that are served, and is no larger than what is served. -/
structure ValidatorSet.Covers (network served : ValidatorSet) : Prop where
  subset : served.keys ⊆ network.keys
  card_le : network.keys.toFinset.card ≤ served.keys.length

section
variable {S : SignatureScheme} {proof : BlockProof} {served network : ValidatorSet}

theorem ValidatorSet.covers_self (served : ValidatorSet) : served.Covers served where
  subset := List.Subset.refl _
  card_le := List.toFinset_card_le _

/-- The trust of the served validators is that of a network that covers them. -/
theorem BlockProof.Trusted.vouchedBy (h : proof.Trusted S served)
    (hcovers : network.Covers served) : proof.VouchedBy S network := by
  refine ⟨proof.signers, ?_, fun key hkey => h.signedBy hkey, ?_⟩
  · intro key hkey
    have hserved := List.mem_toFinset.mp (h.signers_subset hkey)
    exact List.mem_toFinset.mpr (hcovers.subset hserved)
  · have henough := h.card_signers
    have hcard := hcovers.card_le
    omega

/-- Where no key of a set has signed, the set does not vouch. -/
theorem BlockProof.not_vouchedBy (h : ∀ key ∈ network.keys, ¬ proof.SignedBy S key) :
    ¬ proof.VouchedBy S network := by
  rintro ⟨signers, hsubset, hsigned, henough⟩
  have hnone : signers = ∅ := by
    apply Finset.eq_empty_of_forall_notMem
    intro key hkey
    exact h key (List.mem_toFinset.mp (hsubset hkey)) (hsigned key hkey)
  rw [hnone, Finset.card_empty] at henough
  omega

end

namespace Client

section
variable {S : SignatureScheme} {σ : Type} {client : Client σ} {s : σ}

theorem verifiedAccount_eq_ok {key : PublicKey} {v : VerifiedAccount} :
    (client.verifiedAccount S key s).1 = .ok v ↔
      ∃ served response, (client.node.validators s).1 = .ok served ∧
        (client.node.account key (client.node.validators s).2).1 = .ok response ∧
          Query.verifyAccount S client.config served key response = .ok v := by
  simp only [verifiedAccount, Request.bind_fst_eq_ok, Request.ofExcept_apply]
  constructor
  · rintro ⟨served, hserved, response, hresponse, h⟩
    exact ⟨served, response, hserved, hresponse, h⟩
  · rintro ⟨served, response, hserved, hresponse, h⟩
    exact ⟨served, hserved, response, hresponse, h⟩

theorem verifiedBlock_eq_ok {height : UInt64} {v : VerifiedBlock} :
    (client.verifiedBlock S height s).1 = .ok v ↔
      ∃ served proof, (client.node.validators s).1 = .ok served ∧
        (client.node.block height (client.node.validators s).2).1 = .ok proof ∧
          Query.verifyBlock S served height proof = .ok v := by
  simp only [verifiedBlock, Request.bind_fst_eq_ok, Request.ofExcept_apply]
  constructor
  · rintro ⟨served, hserved, proof, hproof, h⟩
    exact ⟨served, proof, hserved, hproof, h⟩
  · rintro ⟨served, proof, hserved, hproof, h⟩
    exact ⟨served, hserved, proof, hproof, h⟩

end

end Client

/-- What a client returns has more than two thirds of the validators behind it that the
node served with it, and more than two thirds of a network that covers these. -/
theorem Client.verified_vouchedBy_served {σ : Type} (S : SignatureScheme) (client : Client σ)
    (s : σ) :
    (∀ key v, (client.verifiedAccount S key s).1 = .ok v →
      ∃ served response, (client.node.validators s).1 = .ok served ∧
        (client.node.account key (client.node.validators s).2).1 = .ok response ∧
        response.blockProof.header = v.block ∧
        ∀ network : ValidatorSet, network.Covers served →
          response.blockProof.VouchedBy S network) ∧
    (∀ height v, (client.verifiedBlock S height s).1 = .ok v →
      ∃ served proof, (client.node.validators s).1 = .ok served ∧
        (client.node.block height (client.node.validators s).2).1 = .ok proof ∧
        proof.header = v.block ∧
        ∀ network : ValidatorSet, network.Covers served → proof.VouchedBy S network) := by
  constructor
  · intro key v h
    obtain ⟨served, response, hserved, hresponse, hverified⟩ := verifiedAccount_eq_ok.mp h
    obtain ⟨hblock, hheader, -⟩ := Query.verifyAccount_eq_ok.mp hverified
    obtain ⟨htrusted, -⟩ := Query.verifyBlockProof_eq_ok.mp hblock
    exact ⟨served, response, hserved, hresponse, hheader.symm, fun _ => htrusted.vouchedBy⟩
  · intro height v h
    obtain ⟨served, proof, hserved, hproof, hverified⟩ := verifiedBlock_eq_ok.mp h
    obtain ⟨-, htrusted, rfl⟩ := Query.verifyBlock_eq_ok.mp hverified
    exact ⟨served, proof, hserved, hproof, rfl, fun _ => htrusted.vouchedBy⟩

/-! ## A node with validators of its own -/

open Query (neutralKey neutralScheme stampScheme stampedBy numberedKey fourValidators emptyHeader
  oneAnswer oneVerified)

/-- A client of a node that serves fixed validators, one account and one block. -/
def clientOf (validators : ValidatorSet) (block : BlockProof) : Client ScriptedNode.State where
  config := .standard
  node := ScriptedNode.node ⟨validators, some oneAnswer, some block, ⟨none⟩, .unknown, false⟩
  valid := rfl

theorem verifiedBlock_clientOf {validators : ValidatorSet} {block : BlockProof}
    (h : block.Trusted stampScheme validators) (s : ScriptedNode.State) :
    ((clientOf validators block).verifiedBlock stampScheme block.header.height s).1 =
      .ok ⟨block.header, block.header.hash, block.precommits.length⟩ :=
  Client.verifiedBlock_eq_ok.mpr
    ⟨validators, block, rfl, rfl, Query.verifyBlock_eq_ok.mpr ⟨rfl, h, rfl⟩⟩

/-- With an honest node three of the four validators are behind the block. -/
theorem Client.verified_vouchedBy_served_fourValidators :
    ((clientOf fourValidators (stampedBy [4, 1, 3])).verifiedBlock stampScheme 7 (.initial [])).1 =
        .ok ⟨emptyHeader, emptyHeader.hash, 3⟩ ∧
      fourValidators.Covers fourValidators ∧
      ∃ proof, ((clientOf fourValidators (stampedBy [4, 1, 3])).node.block 7 (.initial [])).1 =
          .ok proof ∧
        proof.header = emptyHeader ∧ proof.VouchedBy stampScheme fourValidators := by
  have hok := verifiedBlock_clientOf Query.trusted_stampedBy_three (.initial [])
  have hcovers := fourValidators.covers_self
  obtain ⟨served, proof, hserved, hproof, hheader, hvouched⟩ :=
    (Client.verified_vouchedBy_served stampScheme
      (clientOf fourValidators (stampedBy [4, 1, 3])) (.initial [])).2 7 _ hok
  cases hserved
  exact ⟨hok, hcovers, proof, hproof, hheader, hvouched _ hcovers⟩

/-- Keys that are not those of the network. -/
def foreignValidators : ValidatorSet := ⟨[5, 6, 7, 8].map numberedKey⟩

/-- A block that they have signed. -/
def foreignBlock : BlockProof where
  header := ⟨5, .replicate 32 1, .replicate 32 2, .replicate 32 3, 0⟩
  precommits := (stampedBy [5, 6, 7, 8]).precommits

theorem trusted_foreignBlock : foreignBlock.Trusted stampScheme foreignValidators :=
  ⟨by decide, ⟨by decide, by decide, by decide⟩, by decide⟩

/-- A node that serves other keys than those of the network, and signs with them, is
believed, though no validator of the network has signed. -/
theorem Client.verified_without_network :
    ((clientOf foreignValidators foreignBlock).verifiedBlock stampScheme 5 (.initial [])).1 =
        .ok ⟨foreignBlock.header, foreignBlock.header.hash, 4⟩ ∧
      (∀ key ∈ fourValidators.keys, ¬ foreignBlock.SignedBy stampScheme key) ∧
      ¬ foreignBlock.VouchedBy stampScheme fourValidators ∧
      ((clientOf ⟨[neutralKey]⟩ (stampedBy [])).verifiedAccount neutralScheme neutralKey
        (.initial [])).1 = .ok oneVerified ∧
      ¬ oneAnswer.blockProof.VouchedBy neutralScheme fourValidators := by
  have hunsigned : ∀ key ∈ fourValidators.keys, ¬ foreignBlock.SignedBy stampScheme key := by
    rintro key hkey ⟨p, hp, rfl, -⟩
    revert p
    decide
  refine ⟨verifiedBlock_clientOf trusted_foreignBlock _, hunsigned,
    BlockProof.not_vouchedBy hunsigned, ?_, ?_⟩
  · exact Client.verifiedAccount_eq_ok.mpr
      ⟨⟨[neutralKey]⟩, oneAnswer, rfl, rfl, Query.verifyAccount_oneAnswer⟩
  · apply BlockProof.not_vouchedBy
    rintro key hkey ⟨p, hp, rfl, -⟩
    rw [List.mem_singleton.mp hp] at hkey
    exact absurd hkey (by decide)

end LightClient

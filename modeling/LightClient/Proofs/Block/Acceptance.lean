import LightClient.Proofs.Except
import LightClient.Query
import Mathlib.Order.Bounds.Basic

/-! When a block is trusted. The precommits are counted one by one until the first
that is flawed, so the count is the length of the longest flawless prefix, and the
block is trusted when that is the whole list and more than two thirds of the set. -/

namespace LightClient

/-- The precommits come from different validators of the set, and each of their
signatures over the message verifies. -/
structure Flawless (S : SignatureScheme) (validators : ValidatorSet) (message : Bytes)
    (precommits : List Precommit) : Prop where
  members : ∀ p ∈ precommits, p.validator ∈ validators.keys
  distinct : (precommits.map Precommit.validator).Nodup
  signed : ∀ p ∈ precommits, S.verify p.validator message p.signature = true

section
variable {S : SignatureScheme} {validators : ValidatorSet} {message : Bytes}
  {precommits : List Precommit}

theorem Flawless.sublist {others : List Precommit} (h : Flawless S validators message precommits)
    (hsub : others.Sublist precommits) : Flawless S validators message others where
  members p hp := h.members p (hsub.subset hp)
  distinct := h.distinct.sublist (hsub.map _)
  signed p hp := h.signed p (hsub.subset hp)

/-- Neither the order of the precommits nor that of the validators matters. -/
theorem Flawless.perm {others : List Precommit} {keys : List PublicKey}
    (h : Flawless S validators message precommits) (hprecommits : others.Perm precommits)
    (hkeys : keys.Perm validators.keys) : Flawless S ⟨keys⟩ message others where
  members p hp := hkeys.mem_iff.mpr (h.members p (hprecommits.mem_iff.mp hp))
  distinct := (hprecommits.map _).nodup_iff.mpr h.distinct
  signed p hp := h.signed p (hprecommits.mem_iff.mp hp)

/-! ## Counting -/

/-- The precommits are flawless and none of them is from a validator seen before. -/
def FlawlessAfter (S : SignatureScheme) (validators : ValidatorSet) (message : Bytes)
    (seen : List PublicKey) (precommits : List Precommit) : Prop :=
  Flawless S validators message precommits ∧ ∀ p ∈ precommits, p.validator ∉ seen

theorem flawlessAfter_nil {seen : List PublicKey} :
    FlawlessAfter S validators message seen [] :=
  ⟨⟨by simp, by simp, by simp⟩, by simp⟩

/-- The first of the precommits passes the three checks of a single one, and the
others are flawless after it. -/
theorem flawlessAfter_cons {seen : List PublicKey} {p : Precommit} :
    FlawlessAfter S validators message seen (p :: precommits) ↔
      (p.validator ∈ validators.keys ∧ p.validator ∉ seen ∧
        S.verify p.validator message p.signature = true) ∧
      FlawlessAfter S validators message (p.validator :: seen) precommits := by
  constructor
  · rintro ⟨⟨hmembers, hdistinct, hsigned⟩, hfresh⟩
    rw [List.forall_mem_cons] at hmembers hsigned hfresh
    rw [List.map_cons, List.nodup_cons] at hdistinct
    refine ⟨⟨hmembers.1, hfresh.1, hsigned.1⟩, ⟨hmembers.2, hdistinct.2, hsigned.2⟩, ?_⟩
    intro q hq hmem
    rcases List.mem_cons.mp hmem with heq | hseen
    · exact hdistinct.1 (heq ▸ List.mem_map_of_mem hq)
    · exact hfresh.2 q hq hseen
  · rintro ⟨⟨hmember, hnew, hvalid⟩, ⟨hmembers, hdistinct, hsigned⟩, hfresh⟩
    refine ⟨⟨?_, ?_, ?_⟩, ?_⟩
    · exact List.forall_mem_cons.mpr ⟨hmember, hmembers⟩
    · rw [List.map_cons, List.nodup_cons]
      refine ⟨?_, hdistinct⟩
      intro hmem
      obtain ⟨q, hq, heq⟩ := List.mem_map.mp hmem
      exact hfresh q hq (heq ▸ List.mem_cons_self)
    · exact List.forall_mem_cons.mpr ⟨hvalid, hsigned⟩
    · refine List.forall_mem_cons.mpr ⟨hnew, ?_⟩
      intro q hq hseen
      exact hfresh q hq (List.mem_cons_of_mem _ hseen)

namespace BlockProof

/-- All precommits are counted when they are flawless. -/
theorem countSigners_of_flawless {seen : List PublicKey}
    (h : FlawlessAfter S validators message seen precommits) :
    countSigners S validators message precommits seen = .ok (seen.length + precommits.length) := by
  induction precommits generalizing seen with
  | nil => rfl
  | cons p rest ih =>
    obtain ⟨hfirst, hrest⟩ := flawlessAfter_cons.mp h
    rw [countSigners, if_pos hfirst, ih hrest, List.length_cons, List.length_cons]
    congr 1
    omega

/-- Otherwise the count stops at the first precommit that is flawed. -/
theorem exists_countSigners_eq_error {seen : List PublicKey}
    (h : ¬ FlawlessAfter S validators message seen precommits) :
    ∃ k < precommits.length,
      countSigners S validators message precommits seen = .error (seen.length + k) ∧
        FlawlessAfter S validators message seen (precommits.take k) ∧
        ¬ FlawlessAfter S validators message seen (precommits.take (k + 1)) := by
  induction precommits generalizing seen with
  | nil => exact absurd flawlessAfter_nil h
  | cons p rest ih =>
    rw [flawlessAfter_cons, not_and] at h
    by_cases hfirst : p.validator ∈ validators.keys ∧ p.validator ∉ seen ∧
        S.verify p.validator message p.signature = true
    · obtain ⟨k, hk, hcount, hflawless, hflawed⟩ := ih (h hfirst)
      refine ⟨k + 1, Nat.succ_lt_succ hk, ?_, ?_, ?_⟩
      · rw [countSigners, if_pos hfirst, hcount, List.length_cons]
        congr 1
        omega
      · rw [List.take_succ_cons, flawlessAfter_cons]
        exact ⟨hfirst, hflawless⟩
      · rw [List.take_succ_cons, flawlessAfter_cons]
        exact fun hall => hflawed hall.2
    · refine ⟨0, Nat.succ_pos _, ?_, flawlessAfter_nil, ?_⟩
      · rw [countSigners, if_neg hfirst]
        rfl
      · rw [List.take_succ_cons, flawlessAfter_cons]
        exact fun hall => hfirst hall.1

end BlockProof

theorem flawlessAfter_nil_iff :
    FlawlessAfter S validators message [] precommits ↔
      Flawless S validators message precommits := by
  simp [FlawlessAfter]

theorem countSigners_eq_ok {n : Nat} :
    BlockProof.countSigners S validators message precommits [] = .ok n ↔
      Flawless S validators message precommits ∧ n = precommits.length := by
  by_cases hall : FlawlessAfter S validators message [] precommits
  · rw [BlockProof.countSigners_of_flawless hall, List.length_nil, Nat.zero_add, Except.ok.injEq,
      eq_comm, and_iff_right (flawlessAfter_nil_iff.mp hall)]
  · obtain ⟨k, -, hcount, -⟩ := BlockProof.exists_countSigners_eq_error hall
    rw [hcount]
    constructor
    · intro h
      cases h
    · rintro ⟨hflawless, -⟩
      exact absurd (flawlessAfter_nil_iff.mpr hflawless) hall

/-- Whatever the count ends in, it is the length of the longest flawless prefix. -/
theorem isGreatest_countSigners {n : Nat}
    (h : BlockProof.countSigners S validators message precommits [] = .ok n ∨
      BlockProof.countSigners S validators message precommits [] = .error n) :
    IsGreatest
      {k | k ≤ precommits.length ∧ Flawless S validators message (precommits.take k)} n := by
  rcases h with hok | herror
  · obtain ⟨hflawless, rfl⟩ := countSigners_eq_ok.mp hok
    refine ⟨⟨Nat.le_refl _, ?_⟩, fun k hk => hk.1⟩
    rwa [List.take_length]
  · have hflawed : ¬ FlawlessAfter S validators message [] precommits := by
      rw [flawlessAfter_nil_iff]
      intro hall
      rw [countSigners_eq_ok.mpr ⟨hall, rfl⟩] at herror
      cases herror
    obtain ⟨k, hk, hcount, hflawless, hnext⟩ := BlockProof.exists_countSigners_eq_error hflawed
    rw [hcount, List.length_nil, Nat.zero_add, Except.error.injEq] at herror
    subst herror
    refine ⟨⟨Nat.le_of_lt hk, hflawless.1⟩, ?_⟩
    intro m hm
    -- a longer flawless prefix would hold the first flawed precommit
    by_contra hlt
    apply hnext
    rw [flawlessAfter_nil_iff]
    apply hm.2.sublist
    exact List.take_sublist_take_left (by omega)

end

/-! ## Trust -/

/-- Twice a number is less than three times another from two thirds and one on. -/
theorem isLeast_quorum (validators : ValidatorSet) :
    IsLeast {q | 2 * validators.keys.length < 3 * q} validators.quorum := by
  have h : validators.quorum = validators.keys.length * 2 / 3 + 1 := rfl
  refine ⟨?_, ?_⟩
  · show 2 * validators.keys.length < 3 * validators.quorum
    omega
  · intro q (hq : 2 * validators.keys.length < 3 * q)
    omega

namespace BlockProof

/-- What it takes to trust a block. -/
structure Trusted (S : SignatureScheme) (proof : BlockProof) (validators : ValidatorSet) :
    Prop where
  nonempty : 0 < validators.keys.length
  flawless : Flawless S validators proof.header.encode proof.precommits
  enough : 2 * validators.keys.length < 3 * proof.precommits.length

section
variable {S : SignatureScheme} {proof : BlockProof} {validators : ValidatorSet}

theorem Trusted.perm {precommits : List Precommit} {keys : List PublicKey}
    (h : proof.Trusted S validators) (hprecommits : precommits.Perm proof.precommits)
    (hkeys : keys.Perm validators.keys) : Trusted S ⟨proof.header, precommits⟩ ⟨keys⟩ where
  nonempty := by
    rw [hkeys.length_eq]
    exact h.nonempty
  flawless := h.flawless.perm hprecommits hkeys
  enough := by
    rw [hkeys.length_eq, hprecommits.length_eq]
    exact h.enough

/-- A count of an empty set of validators is zero. -/
theorem countSigners_of_empty {message : Bytes} {precommits : List Precommit}
    (h : validators.keys = []) :
    countSigners S validators message precommits [] = .ok 0 ∨
      countSigners S validators message precommits [] = .error 0 := by
  cases precommits with
  | nil => exact Or.inl rfl
  | cons p rest =>
    right
    rw [countSigners, if_neg]
    · rfl
    · rw [h]
      exact fun hall => List.not_mem_nil hall.1

/-- The verdict of a proof that is not trusted reports the longest flawless prefix. -/
theorem verify_of_not_trusted (h : ¬ proof.Trusted S validators) :
    ∃ signed,
      proof.verify S validators =
        .error ⟨signed, validators.quorum, validators.keys.length⟩ ∧
      IsGreatest {k | k ≤ proof.precommits.length ∧
        Flawless S validators proof.header.encode (proof.precommits.take k)} signed := by
  unfold verify
  by_cases hempty : validators.keys.length = 0
  · refine ⟨0, if_pos hempty, ?_⟩
    exact isGreatest_countSigners (countSigners_of_empty (List.length_eq_zero_iff.mp hempty))
  · simp only [if_neg hempty]
    cases hcount : countSigners S validators proof.header.encode proof.precommits [] with
    | error signed => exact ⟨signed, rfl, isGreatest_countSigners (Or.inr hcount)⟩
    | ok signed =>
      refine ⟨signed, if_neg ?_, isGreatest_countSigners (Or.inl hcount)⟩
      intro henough
      obtain ⟨hflawless, rfl⟩ := countSigners_eq_ok.mp hcount
      exact h ⟨Nat.pos_of_ne_zero hempty, hflawless, henough⟩

theorem verify_of_trusted (h : proof.Trusted S validators) :
    proof.verify S validators = .ok proof.header.hash := by
  obtain ⟨hpos, hflawless, henough⟩ := h
  have hcount := countSigners_eq_ok.mpr ⟨hflawless, rfl⟩
  unfold verify
  simp only [if_neg (Nat.ne_of_gt hpos), hcount, if_pos henough]

theorem verify_eq_ok {hash : Digest} :
    proof.verify S validators = .ok hash ↔
      proof.Trusted S validators ∧ hash = proof.header.hash := by
  by_cases h : proof.Trusted S validators
  · rw [verify_of_trusted h, Except.ok.injEq, eq_comm, and_iff_right h]
  · obtain ⟨signed, herror, -⟩ := verify_of_not_trusted h
    rw [herror]
    constructor
    · intro hok
      cases hok
    · rintro ⟨htrusted, -⟩
      exact absurd htrusted h

end

end BlockProof

namespace Query

theorem verifyBlockProof_eq_ok {S : SignatureScheme} {proof : BlockProof}
    {validators : ValidatorSet} {hash : Digest} :
    verifyBlockProof S proof validators = .ok hash ↔
      proof.Trusted S validators ∧ hash = proof.header.hash := by
  rw [verifyBlockProof, mapError_eq_ok, BlockProof.verify_eq_ok]

theorem verifyBlock_eq_ok {S : SignatureScheme} {validators : ValidatorSet} {height : UInt64}
    {proof : BlockProof} {v : VerifiedBlock} :
    verifyBlock S validators height proof = .ok v ↔
      proof.header.height = height ∧ proof.Trusted S validators ∧
        v = ⟨proof.header, proof.header.hash, proof.precommits.length⟩ := by
  unfold verifyBlock
  split
  · rename_i hheight
    simp only [bind_eq_ok, verifyBlockProof_eq_ok, pure, Except.pure, Except.ok.injEq]
    constructor
    · rintro ⟨hash, ⟨htrusted, rfl⟩, rfl⟩
      exact ⟨hheight, htrusted, rfl⟩
    · rintro ⟨-, htrusted, rfl⟩
      exact ⟨_, ⟨htrusted, rfl⟩, rfl⟩
  · rename_i hheight
    constructor
    · intro h
      cases h
    · rintro ⟨h, -⟩
      exact absurd h hheight

/-- A block proof is accepted exactly when different validators of a set that is not
empty, more than two thirds of it, all have valid signatures in it, in whatever order.
A refusal reports the size of the set, the least number that is more than two thirds
of it, and the length of the longest flawless prefix of the precommits. -/
theorem verifyBlockProof_exact (S : SignatureScheme) (validators : ValidatorSet)
    (proof : BlockProof) :
    (∀ hash, verifyBlockProof S proof validators = .ok hash ↔
      proof.Trusted S validators ∧ hash = proof.header.hash) ∧
    (¬ proof.Trusted S validators → ∃ signed,
      verifyBlockProof S proof validators =
        .error (.untrustedBlock ⟨signed, validators.quorum, validators.keys.length⟩) ∧
      IsGreatest {k | k ≤ proof.precommits.length ∧
        Flawless S validators proof.header.encode (proof.precommits.take k)} signed) ∧
    IsLeast {q | 2 * validators.keys.length < 3 * q} validators.quorum ∧
    (∀ precommits keys, precommits.Perm proof.precommits → keys.Perm validators.keys →
      ∀ hash, verifyBlockProof S ⟨proof.header, precommits⟩ ⟨keys⟩ = .ok hash ↔
        verifyBlockProof S proof validators = .ok hash) := by
  refine ⟨fun _ => verifyBlockProof_eq_ok, ?_, isLeast_quorum validators, ?_⟩
  · intro h
    obtain ⟨signed, herror, hgreatest⟩ := BlockProof.verify_of_not_trusted h
    exact ⟨signed, mapError_eq_error.mpr ⟨_, herror, rfl⟩, hgreatest⟩
  · intro precommits keys hprecommits hkeys hash
    rw [verifyBlockProof_eq_ok, verifyBlockProof_eq_ok]
    apply and_congr_left
    intro _
    exact ⟨fun h => h.perm hprecommits.symm hkeys.symm, fun h => h.perm hprecommits hkeys⟩

/-- The signature that a key makes under any message. -/
def stamp (key : PublicKey) : Signature := ⟨⟨key.bytes.toList ++ key.bytes.toList, by simp⟩⟩

/-- A scheme in which every key has one signature. -/
def stampScheme : SignatureScheme where
  publicKey seed := ⟨seed⟩
  sign _ key _ := stamp key
  verify key _ signature := signature = stamp key
  isValid _ := true

def numberedKey (n : UInt8) : PublicKey := ⟨.replicate 32 n⟩

def fourValidators : ValidatorSet := ⟨[1, 2, 3, 4].map numberedKey⟩

/-- The header of a block without transactions. -/
def emptyHeader : BlockHeader := ⟨7, .zero 32, .zero 32, .zero 32, 0⟩

/-- The block proof with precommits of the numbered keys. -/
def stampedBy (numbers : List UInt8) : BlockProof :=
  ⟨emptyHeader, numbers.map fun n => ⟨numberedKey n, stamp (numberedKey n)⟩⟩

theorem trusted_stampedBy_three : (stampedBy [4, 1, 3]).Trusted stampScheme fourValidators where
  nonempty := by decide
  flawless := ⟨by decide, by decide, by decide⟩
  enough := by decide

/-- A repeated validator spoils the proof after two precommits, and three of four
validators are enough in any order. -/
theorem verifyBlockProof_exact_fourValidators :
    ¬ (stampedBy [1, 2, 1, 3]).Trusted stampScheme fourValidators ∧
    (∃ signed, verifyBlockProof stampScheme (stampedBy [1, 2, 1, 3]) fourValidators =
        .error (.untrustedBlock ⟨signed, 3, 4⟩) ∧
      IsGreatest {k | k ≤ 4 ∧ Flawless stampScheme fourValidators emptyHeader.encode
        ((stampedBy [1, 2, 1, 3]).precommits.take k)} signed) ∧
    (stampedBy [1, 3, 4]).precommits.Perm (stampedBy [4, 1, 3]).precommits ∧
    fourValidators.keys.reverse.Perm fourValidators.keys ∧
    verifyBlockProof stampScheme (stampedBy [1, 3, 4]) ⟨fourValidators.keys.reverse⟩ =
      .ok emptyHeader.hash := by
  have hflawed : ¬ (stampedBy [1, 2, 1, 3]).Trusted stampScheme fourValidators := fun h =>
    absurd h.flawless.distinct (by decide)
  have hperm : (stampedBy [1, 3, 4]).precommits.Perm (stampedBy [4, 1, 3]).precommits := by decide
  have hreverse : fourValidators.keys.reverse.Perm fourValidators.keys := List.reverse_perm _
  have hexact := verifyBlockProof_exact stampScheme fourValidators (stampedBy [4, 1, 3])
  refine ⟨hflawed,
    (verifyBlockProof_exact stampScheme fourValidators (stampedBy [1, 2, 1, 3])).2.1 hflawed,
    hperm, hreverse, ?_⟩
  exact (hexact.2.2.2 _ _ hperm hreverse _).mpr
    ((hexact.1 _).mpr ⟨trusted_stampedBy_three, rfl⟩)

end Query

end LightClient

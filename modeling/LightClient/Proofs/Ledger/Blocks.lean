import LightClient.Proofs.Ledger.Answer

/-! The blocks of a ledger. They count up from zero, each names the one before it, and a
commit turns the whole pool into one of them: it never fails and never loses the pool. -/

namespace LightClient.Ledger

/-! ## The chain -/

/-- An element of a list with one more at its end. -/
theorem getElem?_concat_eq_some {α : Type} {as : List α} {a b : α} {i : Nat} :
    (as ++ [a])[i]? = some b ↔ as[i]? = some b ∨ i = as.length ∧ a = b := by
  grind

variable {S : SignatureScheme} (ledger : Ledger S)

/-- The blocks count up from zero, each names the one before it, and all validators have
signed them. -/
structure Chained (s : State) : Prop where
  latest_eq : s.blocks.getLast? = some s.latest
  height_eq : ∀ (i : Nat) proof, s.blocks[i]? = some proof →
    proof.header.height = UInt64.ofNat i
  prevHash_eq : ∀ (i : Nat) proof next, s.blocks[i]? = some proof →
    s.blocks[i + 1]? = some next → next.header.prevHash = proof.header.hash
  signed : ∀ proof ∈ s.blocks, proof = ledger.signBlock proof.header

section
variable {ledger} {s : State}

theorem chained_initial (ledger : Ledger S) (faults : Faults) :
    ledger.Chained (ledger.initial faults) where
  latest_eq := rfl
  height_eq i proof h := by
    obtain ⟨rfl, rfl⟩ : i = 0 ∧ ledger.signBlock ledger.genesis = proof := by
      simpa [initial, List.getElem?_singleton] using h
    rfl
  prevHash_eq i proof next _ hnext := by simp [initial] at hnext
  signed proof h := by
    rw [List.mem_singleton.mp h]
    rfl

theorem Chained.of_sameChain (h : ledger.Chained s) {s' : State} (hsame : SameChain s s') :
    ledger.Chained s' := by
  obtain ⟨hlatest, hheight, hprevHash, hsigned⟩ := h
  rw [← hsame.latest] at hlatest
  rw [← hsame.blocks] at hlatest hheight hprevHash hsigned
  exact ⟨hlatest, hheight, hprevHash, hsigned⟩

/-- The latest block stands right before the end. -/
theorem Chained.exists_blocks_eq (h : ledger.Chained s) :
    ∃ earlier, s.blocks = earlier ++ [s.latest] ∧
      s.latest.header.height = UInt64.ofNat earlier.length := by
  obtain ⟨earlier, hblocks⟩ := List.getLast?_eq_some_iff.mp h.latest_eq
  refine ⟨earlier, hblocks, h.height_eq _ _ ?_⟩
  rw [hblocks]
  exact List.getElem?_concat_length

/-- A block with the next header continues the chain. -/
theorem Chained.extend (h : ledger.Chained s) (hashes : List Digest) (root : Digest) :
    ledger.Chained (ledger.extend s hashes root) where
  latest_eq := List.getLast?_concat
  height_eq i proof hproof := by
    obtain ⟨earlier, hblocks, hheight⟩ := h.exists_blocks_eq
    rcases getElem?_concat_eq_some.mp hproof with hold | ⟨rfl, rfl⟩
    · exact h.height_eq i proof hold
    · show s.latest.header.height + 1 = _
      rw [hheight, hblocks, List.length_append, List.length_singleton, UInt64.ofNat_add]
      rfl
  prevHash_eq i proof next hproof hnext := by
    obtain ⟨earlier, hblocks, -⟩ := h.exists_blocks_eq
    rcases getElem?_concat_eq_some.mp hnext with hold | ⟨hlast, rfl⟩
    · have hlt : i + 1 < s.blocks.length := (List.getElem?_eq_some_iff.mp hold).1
      rcases getElem?_concat_eq_some.mp hproof with hproof | ⟨heq, -⟩
      · exact h.prevHash_eq i proof next hproof hold
      · omega
    · -- the new block stands after the latest one
      have hi : i = earlier.length := by
        rw [hblocks, List.length_append, List.length_singleton] at hlast
        omega
      have hlatest : s.blocks[i]? = some s.latest := by
        rw [hi, hblocks]
        exact List.getElem?_concat_length
      rcases getElem?_concat_eq_some.mp hproof with hproof | ⟨heq, -⟩
      · obtain rfl := Option.some.inj (hlatest.symm.trans hproof)
        rfl
      · omega
  signed proof hproof := by
    rcases List.mem_append.mp hproof with hold | hnew
    · exact h.signed proof hold
    · rw [List.mem_singleton.mp hnew]
      rfl

/-- Every operation keeps the chain. -/
theorem Chained.after (h : ledger.Chained s) (hsound : ledger.Sound s) (op : Operation) :
    ledger.Chained (ledger.after s op) := by
  have hstep := hsound.steps op
  generalize ledger.after s op = s' at hstep
  rcases hstep.same_or_executed with ⟨-, hsame⟩ | ⟨-, root, -, rfl⟩
  · exact h.of_sameChain hsame
  · obtain ⟨hlatest, hheight, hprevHash, hsigned⟩ := h
    rw [← s.executed_blocks] at hlatest hheight hprevHash hsigned
    rw [← s.executed_latest] at hlatest
    exact Chained.extend ⟨hlatest, hheight, hprevHash, hsigned⟩ _ _

end

theorem chained_run (faults : Faults) (ops : List Operation) :
    ledger.Chained (ledger.run faults ops) :=
  ledger.run_keeps (chained_initial ledger faults) (fun _ op hsound h => h.after hsound op) ops

/-! ## What a commit leaves -/

/-- The pool has become the latest block. -/
structure Drained (s s' : State) : Prop where
  pool_eq : s'.pool = []
  blocks_eq : s'.blocks = s.blocks ++ [s'.latest]
  txHash_eq : s'.latest.header.txHash = MerkleList.root (s.pool.map fun p => p.hash.toList)
  toNat_txCount : s'.latest.header.txCount.toNat = s.pool.length

section
variable {ledger} {s : State}

/-- In a sound state a commit succeeds. -/
theorem Sound.commit_eq_ok (h : ledger.Sound s) : (ledger.commit s).1 = .ok () := by
  obtain ⟨root, hroot⟩ := (h.kept.executeAll s.pool).exists_stateHash ledger
  rw [commit_of_admitted h.admitted hroot]

/-- An operation that commits leaves a block for the pool. -/
theorem drained_after (h : ledger.Sound s) (hpool : s.pool.length < UInt32.size) {op : Operation}
    (hcommits : ledger.commits s op = true) : Drained s (ledger.after s op) := by
  obtain ⟨root, heq⟩ := (h.steps op).exists_extend hcommits
  rw [heq]
  refine ⟨State.executed_pool s, ?_, ?_, ?_⟩
  · simp only [Ledger.extend, State.executed_blocks]
  · show MerkleList.root ((s.pool.map Pooled.hash).map FixedBytes.toList) = _
    rw [List.map_map]
    rfl
  · show (UInt32.ofNat (s.pool.map Pooled.hash).length).toNat = _
    rw [List.length_map, UInt32.toNat_ofNat_of_lt' hpool]

/-- Any other operation keeps the pool and the blocks. -/
theorem pool_prefix_after (h : ledger.Sound s) {op : Operation}
    (hcommits : ledger.commits s op = false) :
    s.pool <+: (ledger.after s op).pool ∧ (ledger.after s op).blocks = s.blocks := by
  refine ⟨?_, ((h.steps op).same hcommits).blocks⟩
  have hpool := executedBy_append_pool h op
  rw [executedBy_of_not_commits hcommits] at hpool
  exact ⟨_, hpool.symm⟩

end

/-! ## What the blocks list -/

/-- The block commits to the executions and says how many there are. -/
structure Numbers (block : BlockProof) (executions : List Execution) : Prop
    extends Lists block executions where
  toNat_txCount : block.header.txCount.toNat = executions.length

section
variable {ledger} {s : State}

theorem Lists.numbers {block : BlockProof} {executions : List Execution}
    (h : Lists block executions) (hlength : executions.length < UInt32.size) :
    Numbers block executions where
  toLists := h
  toNat_txCount := by rw [h.txCount_eq, UInt32.toNat_ofNat_of_lt' hlength]

/-- Each block lists a pool as it was at some time of the run. -/
theorem exists_pool_of_mem_logFrom {ops : List Operation} {executions : List Execution}
    (h : executions ∈ ledger.logFrom s ops) :
    ∃ earlier, earlier <+: ops ∧
      executions.map Execution.pooled = (earlier.foldl ledger.after s).pool := by
  induction ops generalizing s with
  | nil => exact absurd h List.not_mem_nil
  | cons op ops ih =>
    rcases List.mem_append.mp h with hfirst | hrest
    · rw [executedBy] at hfirst
      split at hfirst
      · rw [List.mem_singleton.mp hfirst, Books.map_pooled_executeAll]
        exact ⟨[], List.nil_prefix, rfl⟩
      · exact absurd hfirst List.not_mem_nil
    · obtain ⟨earlier, hprefix, hpool⟩ := ih hrest
      exact ⟨op :: earlier, List.cons_prefix_cons.mpr ⟨rfl, hprefix⟩, hpool⟩

theorem length_logFrom_le (ledger : Ledger S) (s : State) (ops : List Operation) :
    (ledger.logFrom s ops).length ≤ ops.length := by
  induction ops generalizing s with
  | nil => exact Nat.le_refl _
  | cons op ops ih =>
    have hrest := ih (ledger.after s op)
    have hfirst : (ledger.executedBy s op).length ≤ 1 := by
      rw [executedBy]
      split
      · exact Nat.le_refl _
      · exact Nat.zero_le _
    rw [logFrom, List.length_append, List.length_cons]
    omega

end

/-- The first block of a run lists nothing, and the others list the log. -/
theorem lists_blocks (faults : Faults) (ops : List Operation) :
    List.Forall₂ Lists (ledger.run faults ops).blocks ([] :: ledger.log faults ops) := by
  obtain ⟨added, hblocks, hlists⟩ := exists_blocks_foldl_after (sound_initial ledger faults) ops
  rw [run, hblocks]
  exact .cons ⟨rfl, rfl⟩ hlists

theorem numbers_blocks {faults : Faults} {ops : List Operation}
    (hpools : ∀ earlier, earlier <+: ops →
      (ledger.run faults earlier).pool.length < UInt32.size) :
    List.Forall₂ Numbers (ledger.run faults ops).blocks ([] :: ledger.log faults ops) := by
  have hshort : ∀ executions ∈ [] :: ledger.log faults ops, executions.length < UInt32.size := by
    rw [List.forall_mem_cons]
    refine ⟨by decide, ?_⟩
    intro executions hmem
    obtain ⟨earlier, hprefix, hpool⟩ := exists_pool_of_mem_logFrom hmem
    have hlength := congrArg List.length hpool
    rw [List.length_map] at hlength
    rw [hlength]
    exact hpools earlier hprefix
  have hboth := List.forall₂_and_left _ _ |>.mpr ⟨hshort, (ledger.lists_blocks faults ops).flip⟩
  exact (hboth.imp fun _ _ h => h.2.numbers h.1).flip

/-- A run has no more blocks than operations, the first one apart. -/
theorem length_blocks_run_le (faults : Faults) (ops : List Operation) :
    (ledger.run faults ops).blocks.length ≤ ops.length + 1 := by
  have hlength := (ledger.lists_blocks faults ops).length_eq
  have hlog := length_logFrom_le ledger (ledger.initial faults) ops
  rw [List.length_cons, log] at hlength
  omega

theorem length_pool_run_le (faults : Faults) (ops : List Operation) :
    (ledger.run faults ops).pool.length ≤ ops.length := by
  have hpool := congrArg List.length (ledger.executed_append_pool faults ops)
  have hadmitted := List.length_filterMap_le ledger.admitted? ops
  rw [List.length_append] at hpool
  omega

/-! ## What the blocks prove -/

/-- The blocks count up from zero to the latest one, each names the one before it, the
latest one fixes the accounts as they are, and each passes with the precommits of all
validators as long as none are held back. -/
structure Verifiable (s : State) : Prop where
  toNat_height : ∀ (i : Nat) proof, s.blocks[i]? = some proof → proof.header.height.toNat = i
  prevHash_eq : ∀ (i : Nat) proof next, s.blocks[i]? = some proof →
    s.blocks[i + 1]? = some next → next.header.prevHash = proof.header.hash
  latest_eq : s.blocks.getLast? = some s.latest
  stateHash_eq : ∃ table, accountTable s.books.accounts = .ok table ∧
    s.latest.header.stateHash = Trie.root (ledger.stateMap table)
  verified : s.faults.keepPrecommits = none → ∀ height : UInt64,
    height.toNat < s.blocks.length → ∃ proof,
      s.blocks[height.toNat]? = some proof ∧ (Ledger.block height s).1 = .ok proof ∧
      Query.verifyBlock S ledger.validatorSet height proof =
        .ok ⟨proof.header, proof.header.hash, ledger.validators.length⟩

section
variable {ledger} {s : State}

/-- What the validators sign passes with all their precommits. -/
theorem verifyBlock_signBlock (lawful : S.Lawful) (hvalidators : ledger.validators ≠ [])
    (hdistinct : ledger.validatorSet.keys.Nodup) (header : BlockHeader) :
    Query.verifyBlock S ledger.validatorSet header.height (ledger.signBlock header) =
      .ok ⟨header, header.hash, ledger.validators.length⟩ := by
  refine Query.verifyBlock_eq_ok.mpr
    ⟨rfl, trusted_signBlock lawful hvalidators hdistinct header, ?_⟩
  have hcount : (ledger.signBlock header).precommits.length = ledger.validators.length :=
    List.length_map _
  rw [hcount]
  rfl

/-- The ledger serves the block at a height as it is. -/
theorem block_of_getElem? (hkeep : s.faults.keepPrecommits = none) {height : UInt64}
    {proof : BlockProof} (hproof : s.blocks[height.toNat]? = some proof) :
    (Ledger.block height s).1 = .ok proof := by
  have htamper : s.faults.tamperBlock proof = proof := by
    simp only [Faults.tamperBlock, hkeep]
  simp only [Ledger.block, Request.ofState_apply, hproof, htamper]

theorem Chained.verifiable (h : ledger.Chained s) (hsound : ledger.Sound s) (lawful : S.Lawful)
    (hvalidators : ledger.validators ≠ []) (hdistinct : ledger.validatorSet.keys.Nodup)
    (hblocks : s.blocks.length < UInt64.size) : ledger.Verifiable s where
  toNat_height i proof hproof := by
    have hlt : i < s.blocks.length := (List.getElem?_eq_some_iff.mp hproof).1
    rw [h.height_eq i proof hproof]
    exact UInt64.toNat_ofNat_of_lt' (by omega)
  prevHash_eq := h.prevHash_eq
  latest_eq := h.latest_eq
  stateHash_eq := by
    obtain ⟨table, htable, hroot⟩ := (stateHash_eq_ok ledger).mp hsound.hashed
    exact ⟨table, htable, hroot.symm⟩
  verified hkeep height hheight := by
    have hproof := List.getElem?_eq_getElem hheight
    have hsigned := h.signed _ (List.mem_of_getElem? hproof)
    have heq : s.blocks[height.toNat].header.height = height := by
      rw [h.height_eq _ _ hproof, UInt64.ofNat_toNat]
    have hverify := verifyBlock_signBlock lawful hvalidators hdistinct
      s.blocks[height.toNat].header
    rw [← hsigned, heq] at hverify
    exact ⟨_, hproof, block_of_getElem? hkeep hproof, hverify⟩

end

/-- At any time of a run a commit succeeds, and a question about a status does. The pool
is only ever emptied into a block of its own. The blocks are a chain that passes. Each
after the first lists a pool as it stood at some time of the run, and together they list
the transactions that were let in, in order, but for those that still wait. What they list
is what was executed: it makes the books out of empty ones. -/
theorem blocks_run {S : SignatureScheme} (ledger : Ledger S) (faults : Faults)
    (ops : List Operation) (lawful : S.Lawful) (hvalidators : ledger.validators ≠ [])
    (hdistinct : ledger.validatorSet.keys.Nodup)
    (hblocks : (ledger.run faults ops).blocks.length < UInt64.size)
    (hpools : ∀ earlier, earlier <+: ops →
      (ledger.run faults earlier).pool.length < UInt32.size) :
    ((ledger.commit (ledger.run faults ops)).1 = .ok () ∧
      ∀ hash, ∃ status, (ledger.status hash (ledger.run faults ops)).1 = .ok status) ∧
    (∀ op, ledger.commits (ledger.run faults ops) op = true →
      Drained (ledger.run faults ops) (ledger.run faults (ops ++ [op]))) ∧
    (∀ op, ledger.commits (ledger.run faults ops) op = false →
      (ledger.run faults ops).pool <+: (ledger.run faults (ops ++ [op])).pool ∧
        (ledger.run faults (ops ++ [op])).blocks = (ledger.run faults ops).blocks) ∧
    ledger.Verifiable (ledger.run faults ops) ∧
    List.Forall₂ Numbers (ledger.run faults ops).blocks ([] :: ledger.log faults ops) ∧
    (∀ executions ∈ ledger.log faults ops, ∃ earlier, earlier <+: ops ∧
      executions.map Execution.pooled = (ledger.run faults earlier).pool) ∧
    executedOf (ledger.log faults ops) ++ (ledger.run faults ops).pool =
      ops.filterMap ledger.admitted? ∧
    Books.empty.executeAll (executedOf (ledger.log faults ops)) =
      ((ledger.run faults ops).books, (ledger.log faults ops).flatten) := by
  have hsound := ledger.sound_run faults ops
  have hchained := ledger.chained_run faults ops
  refine ⟨⟨hsound.commit_eq_ok, fun hash => ⟨_, status_eq hsound hash⟩⟩, ?_, ?_,
    hchained.verifiable hsound lawful hvalidators hdistinct hblocks,
    ledger.numbers_blocks hpools, fun _ => exists_pool_of_mem_logFrom,
    ledger.executed_append_pool faults ops, executeAll_log ledger faults ops⟩
  · intro op hcommits
    rw [run_append]
    exact drained_after hsound (hpools ops List.prefix_rfl) hcommits
  · intro op hcommits
    rw [run_append]
    exact pool_prefix_after hsound hcommits

open Query (stampScheme)

/-- Two creations become one block, which passes with all four precommits, though the
ledger has stopped committing. -/
theorem blocks_run_openedTwice :
    stampScheme.Lawful ∧ stampLedger.validators ≠ [] ∧ stampLedger.validatorSet.keys.Nodup ∧
      (stampLedger.run .off openedTwice).blocks.length < UInt64.size ∧
      (∀ earlier, earlier <+: openedTwice →
        (stampLedger.run .off earlier).pool.length < UInt32.size) ∧
      stampLedger.commits (stampLedger.run .off openedTwice) .commit = true ∧
      Drained (stampLedger.run .off openedTwice)
        (stampLedger.run .off (openedTwice ++ [.commit])) ∧
      (stampLedger.run .off openedTwice).faults.keepPrecommits = none ∧
      (1 : UInt64).toNat < (stampLedger.run .off openedTwice).blocks.length ∧
      ∃ proof, (Ledger.block 1 (stampLedger.run .off openedTwice)).1 = .ok proof ∧
        Query.verifyBlock stampScheme stampLedger.validatorSet 1 proof =
          .ok ⟨proof.header, proof.header.hash, 4⟩ := by
  have hvalidators : stampLedger.validators ≠ [] := by decide
  have hdistinct : stampLedger.validatorSet.keys.Nodup := by decide
  have hsize : openedTwice.length + 1 < UInt64.size := by decide
  have hblocks := Nat.lt_of_le_of_lt (stampLedger.length_blocks_run_le .off openedTwice) hsize
  have hpools : ∀ earlier, earlier <+: openedTwice →
      (stampLedger.run .off earlier).pool.length < UInt32.size := by
    intro earlier hprefix
    have hlength : openedTwice.length < UInt32.size := by decide
    exact Nat.lt_of_le_of_lt
      ((stampLedger.length_pool_run_le .off earlier).trans hprefix.length_le) hlength
  have hkeep : (stampLedger.run .off openedTwice).faults.keepPrecommits = none := by
    rw [openedTwice, run_append, List.foldl_cons, List.foldl_nil]
    rfl
  have htwo : (1 : UInt64).toNat < (stampLedger.run .off openedTwice).blocks.length := by
    have hlength := (stampLedger.lists_blocks .off openedTwice).length_eq
    have hlog : stampLedger.log .off openedTwice ≠ [] := by
      intro hnil
      have hexecuted := executedOf_openedTwice
      rw [hnil] at hexecuted
      cases hexecuted
    have hpos := List.length_pos_iff.mpr hlog
    rw [List.length_cons] at hlength
    show 1 < _
    omega
  obtain ⟨-, hdrained, -, hverifiable, -⟩ := blocks_run stampLedger .off openedTwice
    lawful_stampScheme hvalidators hdistinct hblocks hpools
  obtain ⟨proof, -, hserved, hverified⟩ := hverifiable.verified hkeep 1 htwo
  exact ⟨lawful_stampScheme, hvalidators, hdistinct, hblocks, hpools, rfl, hdrained _ rfl, hkeep,
    htwo, proof, hserved, hverified⟩

end LightClient.Ledger

import Sui.Consensus.Context

/-!
# Block verification

`SignedBlockVerifier::verify_block` of `consensus/src/block_verifier.rs`, with every check in order and the error it returns.
The reject votes of a block (`transaction_votes`) are not among what is checked.
-/

namespace Sui

open Library Checked List BlockRef

/-- The errors of `verify_block`, with the data they report. -/
inductive ConsensusError where
  | wrongEpoch (expected actual : Nat)
  | unexpectedGenesisBlock
  | invalidAuthorityIndex (index : AuthorityIndex) (max : Nat)
  | signatureVerificationFailure
  | tooManyAncestors (count size : Nat)
  | insufficientParentStakes (parentStakes quorum : Nat)
  | invalidAncestorPosition (blockAuthority ancestorAuthority : AuthorityIndex) (position : Nat)
  | invalidAncestorRound (ancestor block : Nat)
  | invalidGenesisAncestor (ancestor : BlockRef)
  | duplicatedAncestorsAuthority (authority : AuthorityIndex)
  | transactionTooLarge (size limit : Nat)
  | tooManyTransactions (count limit : Nat)
  | tooManyTransactionBytes (size limit : Nat)
deriving DecidableEq, Repr

/-- `ensure!`: return the error unless the condition holds. -/
def ensure (c : Bool) (e : ConsensusError) : Except ConsensusError Unit := assert c e

/-- What the loop over the ancestors of a block has counted so far. -/
structure AncestorScan where
  position : Nat
  seenAncestors : BTreeSet AuthorityIndex
  parentStakes : Nat

/-- One pass of the loop over the ancestors in `verify_block`. -/
def verifyAncestor (ctx : Context) (block : Block) (scan : AncestorScan) (ancestor : BlockRef) :
    Except ConsensusError AncestorScan := do
  ensure (ctx.committee.isValidIndex ancestor.author) (.invalidAuthorityIndex ancestor.author (ctx.committee.size - 1))
  ensure (!((scan.position == 0 && ancestor.author != block.author)
      || (scan.position > 0 && ancestor.author == block.author)))
    (.invalidAncestorPosition block.author ancestor.author scan.position)
  ensure (!(ancestor.round ≥ block.round)) (.invalidAncestorRound ancestor.round block.round)
  ensure (!(ancestor.round == genesisRound && !(genesisRefs ctx).contains ancestor)) (.invalidGenesisAncestor ancestor)
  ensure (ancestor.author ∉ scan.seenAncestors) (.duplicatedAncestorsAuthority ancestor.author)
  return {
    position := scan.position + 1
    seenAncestors := insert ancestor.author scan.seenAncestors
    parentStakes :=
      if ancestor.round == block.round - 1 then scan.parentStakes + ctx.committee.stake ancestor.author
      else scan.parentStakes }

/-- `check_transactions`: the limits on the transactions of a block. -/
def checkTransactions (ctx : Context) (batch : List Transaction) : Except ConsensusError Unit := do
  let maxTransactionSizeLimit := ctx.protocolConfig.maxTransactionSizeBytes
  batch.forM fun t =>
    ensure (!(t.data.length > maxTransactionSizeLimit && maxTransactionSizeLimit > 0))
      (.transactionTooLarge t.data.length maxTransactionSizeLimit)
  let maxNumTransactionsLimit := ctx.protocolConfig.maxNumTransactionsInBlock
  ensure (!(batch.length > maxNumTransactionsLimit && maxNumTransactionsLimit > 0))
    (.tooManyTransactions batch.length maxNumTransactionsLimit)
  let totalTransactionsSizeLimit := ctx.protocolConfig.maxTransactionsInBlockBytes
  -- the source reports the number of the transactions as the size
  ensure (!((batch.map fun t => t.data.length).sum > totalTransactionsSizeLimit && totalTransactionsSizeLimit > 0))
    (.tooManyTransactionBytes batch.length totalTransactionsSizeLimit)

def verifyBlock (ctx : Context) (block : SignedBlock) : Except ConsensusError Unit := do
  let committee := ctx.committee
  ensure (block.epoch == committee.epoch) (.wrongEpoch committee.epoch block.epoch)
  ensure (block.round != 0) .unexpectedGenesisBlock
  ensure (committee.isValidIndex block.author) (.invalidAuthorityIndex block.author (committee.size - 1))
  ensure (ctx.signatureIsValid block) .signatureVerificationFailure
  ensure (!(block.ancestors.length > committee.size)) (.tooManyAncestors block.ancestors.length committee.size)
  ensure (!block.ancestors.isEmpty) (.insufficientParentStakes 0 committee.quorumThreshold)
  let scan ← block.ancestors.foldlM (verifyAncestor ctx block.toBlock) ⟨0, ∅, 0⟩
  ensure (committee.reachedQuorum scan.parentStakes)
    (.insufficientParentStakes scan.parentStakes committee.quorumThreshold)
  checkTransactions ctx block.transactions

namespace BlockVerifierAux

/-- What the loop has established of the ancestors it has passed. -/
structure Scanned (ctx : Context) (block : Block) (pre : List BlockRef) (scan : AncestorScan) : Prop where
  position : scan.position = pre.length
  authors : scan.seenAncestors = (pre.map author).toFinset
  nodup : (pre.map author).Nodup
  stakes : scan.parentStakes = ctx.committee.stakeOf ((pre.filter fun a => a.round == block.round - 1).map author).toFinset
  valid : ∀ a ∈ pre, a.author < ctx.committee.size
  rounds : ∀ a ∈ pre, a.round < block.round
  genesis : ∀ a ∈ pre, a.round = 0 → a ∈ genesisRefs ctx
  first : ∀ a ∈ pre.head?, a.author = block.author

/-- The step lemma of the loop over the ancestors. -/
theorem scanned_step {ctx : Context} {block : Block} {pre : List BlockRef} {scan scan' : AncestorScan} {a : BlockRef}
    (h : Scanned ctx block pre scan) (hs : verifyAncestor ctx block scan a = .ok scan') :
    Scanned ctx block (pre ++ [a]) scan' := by
  unfold verifyAncestor ensure at hs
  simp only [bind_ok, assert_ok, pure_ok, exists_and_left, exists_const] at hs
  obtain ⟨hvalid, hpos, hround, hgen, hseen, rfl⟩ := hs
  simp only [Bool.not_eq_true', Bool.or_eq_false_iff, Bool.and_eq_false_iff, beq_eq_false_iff_ne, bne_eq_false_iff_eq,
    decide_eq_false_iff_not, decide_eq_true_eq, Bool.not_eq_false', contains_iff_mem] at hpos hround hgen hseen
  rw [h.authors, mem_toFinset] at hseen
  have hnodup : ((pre ++ [a]).map author).Nodup := by
    rw [map_append, nodup_append]
    refine ⟨h.nodup, by simp, ?_⟩
    intro x hx y hy hxy
    simp only [map_cons, map_nil, mem_singleton] at hy
    exact hseen (by rw [← hy, ← hxy]; exact hx)
  refine ⟨by simp [h.position], by simp [h.authors, Finset.union_comm], hnodup, ?_, ?_, ?_, ?_, ?_⟩
  · rw [filter_append, map_append, toFinset_append]
    by_cases hp : a.round = block.round - 1
    · have hnew : a.author ∉ ((pre.filter fun a => a.round == block.round - 1).map author).toFinset := by
        rw [mem_toFinset]
        intro hm
        exact hseen ((List.filter_sublist.map _).subset hm)
      simp only [hp, beq_self_eq_true, if_true, filter_cons_of_pos, filter_nil, map_cons, map_nil,
        toFinset_cons, toFinset_nil, insert_empty_eq, Finset.union_singleton, h.stakes, Committee.stakeOf,
        Quorum.weight_insert hnew]
      omega
    · simp [hp, h.stakes]
  · intro x hx
    rcases mem_concat.mp hx with hx | rfl
    · exact h.valid x hx
    · simpa [Committee.isValidIndex] using hvalid
  · intro x hx
    rcases mem_concat.mp hx with hx | rfl
    · exact h.rounds x hx
    · omega
  · intro x hx hx0
    rcases mem_concat.mp hx with hx | rfl
    · exact h.genesis x hx hx0
    · exact hgen.resolve_left (fun hne => hne hx0)
  · intro x hx
    cases pre with
    | nil =>
      simp only [nil_append, List.head?_cons, Option.mem_def, Option.some.injEq] at hx
      subst hx
      have h0 : scan.position = 0 := h.position
      exact hpos.1.resolve_left (fun hne => hne h0)
    | cons =>
      simp only [cons_append, List.head?_cons] at hx
      exact h.first x (by simpa using hx)

end BlockVerifierAux

/-- What a block that passed `verify_block` is known to satisfy. -/
structure WellFormed (ctx : Context) (b : Block) : Prop where
  epoch : b.epoch = ctx.committee.epoch
  round_pos : 0 < b.round
  author_valid : b.author < ctx.committee.size
  authors_nodup : (b.ancestors.map author).Nodup
  authors_valid : ∀ a ∈ b.ancestors, a.author < ctx.committee.size
  rounds : ∀ a ∈ b.ancestors, a.round < b.round
  genesis : ∀ a ∈ b.ancestors, a.round = 0 → a ∈ genesisRefs ctx
  first : ∀ a ∈ b.ancestors.head?, a.author = b.author
  nonempty : b.ancestors ≠ []
  parents : ctx.committee.quorumThreshold ≤
    ctx.committee.stakeOf ((b.ancestors.filter fun a => a.round == b.round - 1).map author).toFinset

/-- The specification of `verify_block`: what it accepts is well formed. -/
theorem wellFormed_of_verifyBlock {ctx : Context} {b : SignedBlock} (h : verifyBlock ctx b = .ok ()) :
    WellFormed ctx b.toBlock := by
  unfold verifyBlock ensure at h
  simp only [bind_ok, assert_ok, exists_and_left, exists_const] at h
  obtain ⟨hepoch, hround, hauthor, -, -, hne, scan, hscan, hquorum, -⟩ := h
  have hs : BlockVerifierAux.Scanned ctx b.toBlock b.ancestors scan :=
    foldlM_invariant (BlockVerifierAux.Scanned ctx b.toBlock) hscan
      ⟨rfl, rfl, nodup_nil, by simp [Committee.stakeOf], by simp, by simp, by simp, by simp⟩
      (fun pre a post c c' _ hc hstep => BlockVerifierAux.scanned_step hc hstep)
  refine ⟨by simpa using hepoch, by simpa [Nat.pos_iff_ne_zero] using hround, by simpa [Committee.isValidIndex] using hauthor,
    hs.nodup, hs.valid, hs.rounds, hs.genesis, hs.first, by simpa using hne, ?_⟩
  rw [← hs.stakes]
  simpa [Committee.reachedQuorum] using hquorum

end Sui

import Sui.Consensus.RoundTracker
import Sui.Consensus.Universe

/-!
# The quorum commit index

`consensus/src/commit_vote_monitor.rs` keeps the highest commit index that each authority has voted for. The quorum commit index
is the rank of these indices by stake from above.
-/

namespace Sui

open Library Checked List RoundTracker

/-- The indexing of the highest votes by the author of a block. -/
inductive VotePanic where
  | indexOutOfBounds
deriving DecidableEq, Repr

structure CommitVoteMonitor where
  context : Context
  highestVotedCommits : List Nat

namespace CommitVoteMonitor

def new (context : Context) : CommitVoteMonitor := ⟨context, replicate context.committee.size 0⟩

/-- One pass of the loop of `observe_block`. -/
def observeVote (author : AuthorityIndex) (m : CommitVoteMonitor) (vote : CommitRef) : Except VotePanic CommitVoteMonitor := do
  let highest ← expect m.highestVotedCommits[author]? .indexOutOfBounds
  return if vote.index > highest then { m with highestVotedCommits := m.highestVotedCommits.set author vote.index } else m

def observeBlock (m : CommitVoteMonitor) (block : VerifiedBlock) : Except VotePanic CommitVoteMonitor :=
  block.commitVotes.foldlM (observeVote block.author) m

/-- `CommitVoteMonitor::quorum_commit_index`. Without a quorum it is `GENESIS_COMMIT_INDEX`. -/
def quorumCommitIndex (m : CommitVoteMonitor) : Nat :=
  let votes := (m.highestVotedCommits.zip m.context.committee.authorities).map fun p => (p.1, p.2.stake)
  (crossing m.context.committee.quorumThreshold 0 (votes.insertionSort fun a b => pairLe b a)).getD 0

/-- The votes of blocks: the author and the index of each. -/
def votesOf (blocks : List VerifiedBlock) : List (AuthorityIndex × Nat) :=
  blocks.flatMap fun b => b.commitVotes.map fun v => (b.author, v.index)

variable (ctx : Context)

/-- The members that have voted for an index or a higher one. -/
def voters (votes : List (AuthorityIndex × Nat)) (index : Nat) : Finset AuthorityIndex :=
  ctx.committee.members.filter fun a => ∃ v ∈ votes, v.1 = a ∧ index ≤ v.2

/-- Members with a quorum have voted for an index or a higher one. -/
def HasQuorum (votes : List (AuthorityIndex × Nat)) (index : Nat) : Prop :=
  ctx.committee.quorumThreshold ≤ ctx.committee.stakeOf (voters ctx votes index)

/-- The largest index with a quorum, or 0 if there is none. -/
structure QuorumIndex (votes : List (AuthorityIndex × Nat)) (index : Nat) : Prop where
  reached : index = 0 ∨ HasQuorum ctx votes index
  largest : ∀ i, 0 < i → HasQuorum ctx votes i → i ≤ index

/-- The state after votes: an authority has voted for what its highest vote reaches. -/
structure Observed (votes : List (AuthorityIndex × Nat)) (m : CommitVoteMonitor) : Prop where
  context : m.context = ctx
  length : m.highestVotedCommits.length = ctx.committee.size
  highest : ∀ a x, m.highestVotedCommits[a]? = some x → ∀ i, 0 < i → (i ≤ x ↔ ∃ v ∈ votes, v.1 = a ∧ i ≤ v.2)

theorem observed_new : Observed ctx [] (new ctx) := by
  refine ⟨rfl, length_replicate, fun a x hx i hi => ?_⟩
  obtain ⟨ha, rfl⟩ := List.getElem?_eq_some_iff.mp hx
  simp only [new, getElem_replicate, not_mem_nil, false_and, exists_false, iff_false]
  omega

variable {ctx} {votes votes' : List (AuthorityIndex × Nat)} {m : CommitVoteMonitor}

theorem Observed.observeVote (h : Observed ctx votes m) {author : AuthorityIndex} (ha : author < ctx.committee.size)
    (vote : CommitRef) : ∃ m', observeVote author m vote = .ok m' ∧ Observed ctx (votes ++ [(author, vote.index)]) m' := by
  have hlt : author < m.highestVotedCommits.length := h.length ▸ ha
  have hget := getElem?_eq_getElem hlt
  have hrun : CommitVoteMonitor.observeVote author m vote = .ok { m with
      highestVotedCommits := m.highestVotedCommits.set author (max m.highestVotedCommits[author] vote.index) } := by
    rw [CommitVoteMonitor.observeVote, hget, expect_some, ok_bind, pure_eq_ok]
    split
    · rw [max_eq_right (by omega)]
    · rw [max_eq_left (by omega), set_getElem_self]
  refine ⟨_, hrun, h.context, length_set.trans h.length, fun a x hx i hi => ?_⟩
  simp only [mem_append, mem_singleton, or_and_right, exists_or, exists_eq_left]
  rw [getElem?_set] at hx
  split at hx
  · rename_i heq
    subst heq
    rw [← h.highest _ _ hget i hi, ← Option.some.inj hx, le_max_iff]
    simp only [true_and]
  · rename_i hne
    simp only [h.highest _ _ hx i hi, hne, false_and, or_false]

/-- Blocks of valid authors are observed, and the state is the one of their votes. -/
theorem observeBlocks_ok {blocks : List VerifiedBlock} (hblocks : ∀ b ∈ blocks, b.author < ctx.committee.size) :
    ∃ m, blocks.foldlM observeBlock (new ctx) = .ok m ∧ Observed ctx (votesOf blocks) m := by
  refine foldlM_total (fun done m => Observed ctx (votesOf done) m) (observed_new ctx) fun done b post m hsplit h => ?_
  have hb : b.author < ctx.committee.size := hblocks b (by simp [hsplit])
  obtain ⟨m', hrun, h'⟩ := foldlM_total (f := CommitVoteMonitor.observeVote b.author) (l := b.commitVotes)
    (fun pre m => Observed ctx (votesOf done ++ pre.map fun v => (b.author, v.index)) m) (by simpa using h)
    fun pre v _ c _ hc => by simpa using hc.observeVote hb v
  exact ⟨m', hrun, by simpa [votesOf] using h'⟩

/-- The index that the walk over the sorted votes returns is the rank of the highest votes by stake. -/
theorem Observed.quorumIndex (h : Observed ctx votes m) (hc : ctx.committee.Built) : QuorumIndex ctx votes m.quorumCommitIndex := by
  obtain ⟨hsum, -, hqpos, -, hqle⟩ := hc.positive
  let highest : AuthorityIndex → Nat := fun a => m.highestVotedCommits[a]?.getD 0
  have hvoters : ∀ i, 0 < i → voters ctx votes i = {a ∈ ctx.committee.members | i ≤ highest a} := by
    intro i hi
    refine Finset.filter_congr fun a ha => ?_
    have hget := getElem?_eq_getElem (h.length ▸ Finset.mem_range.mp ha)
    rw [← h.highest a _ hget i hi]
    simp only [highest, hget, Option.getD_some]
  have hpairs : ((m.highestVotedCommits.zip ctx.committee.authorities).map fun p => (p.1, p.2.stake)) =
      (range ctx.committee.size).map fun a => (highest a, ctx.committee.stake a) :=
    Committee.zip_authorities (f := id) h.length fun a x ha => congrArg (Option.getD · 0) ha
  have hsorted := pairwise_insertionSort (fun a b => pairLe b a)
    ((m.highestVotedCommits.zip ctx.committee.authorities).map fun p => (p.1, p.2.stake))
  obtain ⟨x, hx, hrank⟩ := exists_crossing (r := fun x y => y ≤ x) le_refl
    (hsorted.imp fun h => by unfold pairLe at h; omega) ((perm_insertionSort _ _).trans (.of_eq hpairs)) rfl hqpos (hsum ▸ hqle)
  have heq : m.quorumCommitIndex = x := by
    rw [quorumCommitIndex, h.context]
    exact congrArg (Option.getD · 0) hx
  rw [heq]
  refine ⟨?_, fun i hi hq => ?_⟩
  · rcases Nat.eq_zero_or_pos x with hzero | hpos
    · exact .inl hzero
    · rw [HasQuorum, hvoters x hpos]
      exact .inr hrank.reached
  · rw [HasQuorum, hvoters i hi] at hq
    obtain ⟨a, ha, hax⟩ := hrank.exists_rest (Finset.filter_subset _ _) hq
    exact le_trans (Finset.mem_filter.mp ha).2 hax

/-- More votes do not lower the index. -/
theorem QuorumIndex.mono {i i' : Nat} (h : QuorumIndex ctx votes i) (h' : QuorumIndex ctx votes' i') (hsub : votes ⊆ votes') :
    i ≤ i' := by
  rcases Nat.eq_zero_or_pos i with hzero | hpos
  · omega
  · refine h'.largest i hpos (le_trans (h.reached.resolve_left hpos.ne') (ctx.committee.stakeOf_mono fun a ha => ?_))
    obtain ⟨hmem, v, hv, hva⟩ := Finset.mem_filter.mp ha
    exact Finset.mem_filter.mpr ⟨hmem, v, hsub hv, hva⟩

/-- After every run the quorum commit index is the largest one that a quorum has voted for or exceeded. It does not go down, and
while the faulty authorities have less than the validity threshold, an honest one has voted for it or a higher one. -/
theorem quorumCommitIndex_exact (hc : ctx.committee.Built) {blocks : List VerifiedBlock}
    (hblocks : ∀ b ∈ blocks, b.author < ctx.committee.size) :
    ∃ m, blocks.foldlM observeBlock (new ctx) = .ok m ∧ QuorumIndex ctx (votesOf blocks) m.quorumCommitIndex ∧
      (∀ pre post m', blocks = pre ++ post → pre.foldlM observeBlock (new ctx) = .ok m' →
        m'.quorumCommitIndex ≤ m.quorumCommitIndex) ∧
      ∀ faulty : Finset AuthorityIndex, ctx.committee.stakeOf faulty < ctx.committee.validityThreshold →
        m.quorumCommitIndex = 0 ∨ ∃ a ∈ voters ctx (votesOf blocks) m.quorumCommitIndex, a ∉ faulty := by
  obtain ⟨m, hrun, hm⟩ := observeBlocks_ok hblocks
  have hindex := hm.quorumIndex hc
  refine ⟨m, hrun, hindex, ?_, fun faulty hfaulty => hindex.reached.imp_right fun hq => ?_⟩
  · rintro pre post m' rfl hpre
    obtain ⟨m1, hrun1, hm1⟩ := observeBlocks_ok fun b hb => hblocks b (mem_append_left _ hb)
    obtain rfl := ok_unique hrun1 hpre
    refine (hm1.quorumIndex hc).mono hindex ?_
    rw [votesOf, votesOf, flatMap_append]
    exact subset_append_left _ _
  · by_contra hnone
    have hle := ctx.committee.stakeOf_mono fun a ha => by_contra fun hnot => hnone ⟨a, ha, hnot⟩
    have := le_trans hc.positive.2.2.2.1 (le_trans hq hle)
    omega

/-- Three authorities vote for commits up to 3, and the faulty one for a commit that does not exist. -/
def votingBlocks : List VerifiedBlock :=
  [(0, [3, 2]), (1, [3]), (2, [2]), (3, [9])].map fun p => { honestBlock 1 p.1 with commitVotes := p.2.map fun i => ⟨i, 0⟩ }

theorem quorumCommitIndex_four : ∃ m, votingBlocks.foldlM observeBlock (new (fourContext false)) = .ok m ∧ m.quorumCommitIndex = 3 ∧
    QuorumIndex (fourContext false) (votesOf votingBlocks) 3 ∧
    ∃ a ∈ voters (fourContext false) (votesOf votingBlocks) 3, a ∉ (fourUniverse false).faulty := by
  obtain ⟨m, hrun, hindex, -, hhonest⟩ := @quorumCommitIndex_exact (fourContext false) (.inl ⟨0, [⟨2⟩, ⟨2⟩, ⟨1⟩, ⟨1⟩], rfl⟩)
    votingBlocks (by decide)
  have heq : m.quorumCommitIndex = 3 := by
    rw [← Except.ok.inj hrun]
    decide +kernel
  rw [heq] at hindex hhonest
  exact ⟨m, hrun, heq, hindex, (hhonest (fourUniverse false).faulty (by decide)).resolve_left (by decide)⟩

end CommitVoteMonitor

end Sui

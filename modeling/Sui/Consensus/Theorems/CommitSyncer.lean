import Sui.Consensus.Lemmas.CommitSyncer
import Sui.Consensus.Universe

/-!
# No commit is skipped

The commits between the synced index and the last scheduled one stay in the ranges of the syncer, each in one of them, and Core
takes every batch that it is handed.
-/

namespace Sui

open Library CommitSyncer

/-- At any time of a run the pending, fetched and in-flight ranges cover the commits after the synced index up to the highest
scheduled one, each once; and whatever a fetch returns and Core commits meanwhile, every batch is handed to Core without a gap,
as long as Core commits whole batches. -/
theorem SyncReachable.covered_without_gap {ctx : Context} {parameters : CommitSyncParameters} {n : SyncNode}
    (h : SyncReachable ctx parameters n) :
    (∀ highest ∈ n.syncer.highestScheduledIndex, ∀ i, n.syncer.syncedCommitIndex < i → i ≤ highest →
      ∃ r : CommitRange, (r ∈ n.syncer.pendingFetches ∨ r ∈ n.syncer.inflightFetches ∨ n.syncer.fetchedRanges[r]?.isSome) ∧
        r.start ≤ i ∧ i ≤ r.last) ∧
    (BTreeSet.iter n.syncer.pendingFetches ++ n.syncer.inflightFetches ++ BTreeSet.iter (BTreeMap.keySet n.syncer.fetchedRanges)).Pairwise
      (fun r r' => ∀ i, ¬ (r.holds i = true ∧ r'.holds i = true)) ∧
    ∀ r ∈ n.syncer.inflightFetches, ∀ certified, Fetched ctx r certified → ∀ progress : CoreProgress,
      progress.CommitsWholeBatch → ∃ out, CommitSyncer.handleFetchResult progress n.lastCommitIndex r.last certified
          { n.syncer with inflightFetches := n.syncer.inflightFetches.erase r } = .ok out ∧
        (∀ m ∈ out.handed, m.Accepted) ∧ out.failed = none := by
  have hsound := SyncNode.Sound.of_reachable h
  refine ⟨fun highest hhighest i hlo hhi => ?_, ?_, fun r hr certified hfetched progress hcore => ?_⟩
  · have hscheduled : i ≤ n.syncer.scheduled := by
      rw [scheduled, Option.mem_def.mp hhighest]
      exact hhi
    have hcount := hsound.covers.covered i hlo hscheduled
    rw [count_eq] at hcount
    obtain ⟨r, hr, hholds⟩ := List.countP_pos_iff.mp (hcount ▸ Nat.one_pos)
    have hbounds := CommitRange.holds_iff.mp hholds
    exact ⟨r, mem_ranges.mp hr, hbounds.1, Nat.le_sub_one_of_lt hbounds.2⟩
  · refine pairwise_disjoint_of_countP CommitRange.holds fun i => ?_
    have honce := hsound.covers.once i
    rw [count_eq] at honce
    exact honce
  · obtain ⟨out, hout, -, haccepted, hfailed⟩ := hsound.handleFetchResult hr hfetched hcore
    exact ⟨out, hout, haccepted, hfailed⟩

/-- Batches of two commits. -/
def pairParameters : CommitSyncParameters := ⟨2, 4, 2, true⟩

def emptyCommit (index : Nat) : Commit := ⟨index, index - 1, 0, ⟨index, 0, index⟩, []⟩

/-- Blocks of the three authorities that are not faulty, which vote for a commit. -/
def commitVoters (index : Nat) : List SignedBlock :=
  [0, 1, 2].map fun a => { (honestBlock 1 a).toSignedBlock with commitVotes := [⟨index, index⟩] }

/-- Core commits what it is given and nothing else. -/
def idleCore : CoreProgress := ⟨fun _ => 0, fun _ last commits => last + commits.length⟩

/-- The commit that a fetch returns of its range, with its votes. -/
def partFetched (index : Nat) : CertifiedCommits :=
  ⟨[⟨.newTrusted (fourContext false) (emptyCommit index), []⟩], (commitVoters index).map (.newVerified (fourContext false))⟩

/-- The second of two ranges in flight returns one of its two commits, which waits for the first range. -/
theorem SyncReachable.covered_without_gap_partial :
    ∃ s out, SyncReachable (fourContext false) pairParameters ⟨s, 0⟩ ∧ s.inflightFetches = [.new 1 2, .new 3 4] ∧
      CommitSyncer.handleFetchResult idleCore 0 4 (partFetched 3)
        { s with inflightFetches := s.inflightFetches.erase (.new 3 4) } = .ok out ∧ out.failed = none := by
  have hstart : SyncReachable (fourContext false) pairParameters ⟨.new 0, 0⟩ := .start 0
  have hrun : ((CommitSyncer.new 0).tryScheduleOnce pairParameters 5 0 0).toOption.map
      (fun s => (s.tryStartFetches pairParameters 4).inflightFetches) = some [.new 1 2, .new 3 4] := by decide +kernel
  have hfetched : Fetched (fourContext false) (.new 3 4) (partFetched 3) := ⟨[emptyCommit 3], commitVoters 3, by decide +kernel⟩
  cases hschedule : (CommitSyncer.new 0).tryScheduleOnce pairParameters 5 0 0 with
  | error =>
    rw [hschedule] at hrun
    cases hrun
  | ok s =>
    rw [hschedule] at hrun
    have hinflight : (s.tryStartFetches pairParameters 4).inflightFetches = [.new 1 2, .new 3 4] := Option.some.inj hrun
    have hreach : SyncReachable (fourContext false) pairParameters ⟨s.tryStartFetches pairParameters 4, 0⟩ :=
      (hstart.step (.schedule 5 0 hschedule)).step (.start 4)
    obtain ⟨-, -, hhandled⟩ := hreach.covered_without_gap
    obtain ⟨out, hout, -, hfailed⟩ := hhandled (.new 3 4) (by rw [hinflight]; decide) _ hfetched idleCore fun _ _ _ => le_rfl
    exact ⟨_, out, hreach, hinflight, hout, hfailed⟩

end Sui

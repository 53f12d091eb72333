import Sui.Consensus.BlockVerifier
import Sui.Consensus.Commit

/-!
# The commit syncer

`consensus/src/commit_syncer.rs`: ranges of commits that other nodes have voted for are fetched, and certified commits are
handed to Core in order; and from `consensus/src/core.rs` what Core does with them. What a fetch returns is left to the
environment as far as `verify_commits` accepts it. Metrics, timeouts and the choice of peers are left out.
-/

namespace Sui

open Library Checked

structure CommitSyncParameters where
  commitSyncBatchSize : Nat
  commitSyncBatchesAhead : Nat
  commitSyncParallelFetches : Nat
  isValidator : Bool
deriving DecidableEq, Repr

namespace CommitRange

/-- The fields in the order in which ranges are compared. -/
def key (r : CommitRange) : Nat ×ₗ Nat := toLex (r.start, r.stop)

theorem key_injective : Function.Injective key := by
  rintro ⟨⟩ ⟨⟩ h
  simpa [key] using h

instance : LinearOrder CommitRange := LinearOrder.lift' key key_injective

def holds (r : CommitRange) (i : Nat) : Bool := r.start ≤ i && i < r.stop

end CommitRange

/-- `CertifiedCommit`: a commit with its blocks. -/
structure CertifiedCommit where
  commit : TrustedCommit
  blocks : List VerifiedBlock
deriving DecidableEq, Repr

/-- `CertifiedCommits`: certified commits, and the blocks that vote for the last one. -/
structure CertifiedCommits where
  commits : List CertifiedCommit
  votes : List VerifiedBlock
deriving DecidableEq, Repr

/-- The errors of the commit syncer and of Core, and the panics of the syncer. -/
inductive SyncError where
  | unexpectedStartCommit (start : Nat) (commit : Commit)
  | unexpectedCommitSequence (prevCommit currCommit : Commit)
  | noCommitReceived
  | invalidBlock (error : ConsensusError)
  | notEnoughCommitVotes (stake : Nat) (commit : Commit)
  | unexpectedCertifiedCommitIndex (expectedCommitIndex commitIndex : Nat)
  | stepByZero
  | thresholdOverflow
  | noCommits
deriving DecidableEq, Repr

/-! ## Verification of what a peer returns -/

/-- The place of a commit in the range, in `verify_commits`: at its start, or after the commit before. -/
def checkSequence (commitRange : CommitRange) (lastCommit : Option TrustedCommit) (commit : Commit) : Except SyncError Unit :=
  match lastCommit with
  | none => assert (commit.index = commitRange.start) (.unexpectedStartCommit commitRange.start commit)
  | some lastCommit =>
    assert (commit.index = lastCommit.index + 1 && commit.previousDigest = lastCommit.digest)
      (.unexpectedCommitSequence lastCommit.toCommit commit)

/-- The loop over the commits in `verify_commits`. -/
def collectCommits (ctx : Context) (commitRange : CommitRange) : List TrustedCommit → List Commit → Except SyncError (List TrustedCommit)
  | commits, [] => return commits
  | commits, commit :: rest => do
    checkSequence commitRange commits.getLast? commit
    -- commits past the end of the range are not processed
    if commit.index > commitRange.last then return commits
    else collectCommits ctx commitRange (commits ++ [.newTrusted ctx commit]) rest

/-- One vote block in `verify_commits`: the block, and its author is counted if it votes for the last commit. -/
def collectVote (ctx : Context) (endCommitRef : CommitRef) (acc : StakeAggregator .quorum × List VerifiedBlock) (block : SignedBlock) :
    Except SyncError (StakeAggregator .quorum × List VerifiedBlock) :=
  match verifyBlock ctx block with
  | .error e => .error (.invalidBlock e)
  | .ok _ =>
    .ok (if endCommitRef ∈ block.commitVotes then acc.1.addUnique block.author ctx.committee else acc.1,
      acc.2 ++ [VerifiedBlock.newVerified ctx block])

/-- `verify_commits`, on commits and blocks that were parsed. -/
def verifyCommits (ctx : Context) (commitRange : CommitRange) (serializedCommits : List Commit) (serializedVoteBlocks : List SignedBlock) :
    Except SyncError (List TrustedCommit × List VerifiedBlock) := do
  let commits ← collectCommits ctx commitRange [] serializedCommits
  let endCommit ← expect commits.getLast? .noCommitReceived
  let (stakeAggregator, voteBlocks) ← serializedVoteBlocks.foldlM (collectVote ctx endCommit.reference) (.new, [])
  assert (stakeAggregator.reachedThreshold ctx.committee) (.notEnoughCommitVotes stakeAggregator.stake endCommit.toCommit)
  return (commits, voteBlocks)

/-- What a fetch of a range can return: the commits that `verify_commits` accepted, with blocks. -/
def Fetched (ctx : Context) (commitRange : CommitRange) (certified : CertifiedCommits) : Prop :=
  ∃ serializedCommits serializedVoteBlocks,
    verifyCommits ctx commitRange serializedCommits serializedVoteBlocks = .ok (certified.commits.map CertifiedCommit.commit, certified.votes)

/-! ## Core -/

def filterNewCommits (lastCommitIndex : Nat) (commits : List CertifiedCommit) : Except SyncError (List CertifiedCommit) := do
  let commits := commits.filter fun c => c.commit.index > lastCommitIndex
  match commits.head? with
  | none => return commits
  | some commit => do
    assert (commit.commit.index = lastCommitIndex + 1)
      (.unexpectedCertifiedCommitIndex (lastCommitIndex + 1) commit.commit.index)
    return commits

/-- What Core does with batches: the number of commits that it makes before one, and its last index after `Core::try_commit` on
the new ones. -/
structure CoreProgress where
  before : CommitRange → Nat
  tryCommit : CommitRange → Nat → List CertifiedCommit → Nat

/-- Core commits the whole batch, and perhaps leaders that it decides itself. This is assumed of the loop of `try_commit`, which goes on
until no certified commit is left. -/
def CoreProgress.CommitsWholeBatch (progress : CoreProgress) : Prop :=
  ∀ range lastCommitIndex commits, lastCommitIndex + commits.length ≤ progress.tryCommit range lastCommitIndex commits

/-- `Core::add_certified_commits`, on the index of the last commit. -/
def addCertifiedCommits (tryCommit : Nat → List CertifiedCommit → Nat) (lastCommitIndex : Nat) (certified : CertifiedCommits) :
    Except SyncError Nat := do
  let commits ← filterNewCommits lastCommitIndex certified.commits
  return tryCommit lastCommitIndex commits

/-! ## The syncer -/

structure CommitSyncer where
  inflightFetches : List CommitRange
  pendingFetches : BTreeSet CommitRange
  fetchedRanges : BTreeMap CommitRange CertifiedCommits
  highestScheduledIndex : Option Nat
  highestFetchedCommitIndex : Nat
  syncedCommitIndex : Nat

/-- A batch handed to Core: the synced index at that time, and the last commit of Core when it handles the batch. -/
structure Handed where
  syncedCommitIndex : Nat
  lastCommitIndex : Nat
  certified : CertifiedCommits

namespace CommitSyncer

def new (lastCommitIndex : Nat) : CommitSyncer :=
  { inflightFetches := []
    pendingFetches := ∅
    fetchedRanges := ∅
    highestScheduledIndex := none
    highestFetchedCommitIndex := 0
    syncedCommitIndex := lastCommitIndex }

variable (parameters : CommitSyncParameters)

/-- `unhandled_commits_threshold`, a plain product of `u32`: the model fails where a debug build panics and a release build wraps. -/
def unhandledCommitsThreshold : Except SyncError Nat := do
  let threshold := parameters.commitSyncBatchSize * (parameters.commitSyncBatchesAhead % 2 ^ 32)
  assert (threshold < 2 ^ 32) .thresholdOverflow
  return threshold

/-- The loop of `try_schedule_once` over the ends of the ranges before. -/
def scheduleRanges (batchSize quorumCommitIndex highestHandledIndex threshold : Nat) : CommitSyncer → List Nat → CommitSyncer
  | s, [] => s
  | s, prevEnd :: rest =>
    let rangeStart := prevEnd + 1
    let rangeEnd := prevEnd + batchSize
    if quorumCommitIndex < rangeEnd then s
    else if highestHandledIndex + threshold < rangeEnd then s
    else scheduleRanges batchSize quorumCommitIndex highestHandledIndex threshold
      { s with
        pendingFetches := insert (CommitRange.new rangeStart rangeEnd) s.pendingFetches
        highestScheduledIndex := some rangeEnd } rest

/-- `(first..=last).step_by(step)`. -/
def stepBy (first last step : Nat) : List Nat :=
  if first ≤ last then (List.range ((last - first) / step + 1)).map fun i => first + i * step else []

def tryScheduleOnce (quorumCommitIndex localCommitIndex highestHandledIndex : Nat)
    (s : CommitSyncer) : Except SyncError CommitSyncer := do
  let s := { s with syncedCommitIndex := max s.syncedCommitIndex localCommitIndex }
  let threshold ← unhandledCommitsThreshold parameters
  let fetchAfterIndex := max s.syncedCommitIndex (s.highestScheduledIndex.getD 0)
  assert (parameters.commitSyncBatchSize ≠ 0) .stepByZero
  return scheduleRanges parameters.commitSyncBatchSize quorumCommitIndex highestHandledIndex threshold s
    (stepBy fetchAfterIndex quorumCommitIndex parameters.commitSyncBatchSize)

/-- The parallelism of `try_start_fetches`. -/
def targetParallelFetches (knownPeersCount fetchedRanges : Nat) : Nat :=
  if parameters.isValidator then
    max (min (min parameters.commitSyncParallelFetches (knownPeersCount * 2 / 3)) (parameters.commitSyncBatchesAhead - fetchedRanges)) 1
  else max (min parameters.commitSyncParallelFetches (parameters.commitSyncBatchesAhead - fetchedRanges)) 1

/-- The loop of `try_start_fetches`, over the pending ranges that are left. -/
def startFetches (target : Nat) : CommitSyncer → List CommitRange → CommitSyncer
  | s, [] => s
  | s, commitRange :: rest =>
    if s.inflightFetches.length ≥ target then s
    else startFetches target
      { s with
        pendingFetches := s.pendingFetches.erase commitRange
        inflightFetches := s.inflightFetches ++ [commitRange] } rest

def tryStartFetches (knownPeersCount : Nat) (s : CommitSyncer) : CommitSyncer :=
  startFetches (targetParallelFetches parameters knownPeersCount s.fetchedRanges.size) s (BTreeSet.iter s.pendingFetches)

/-- What is left after a fetch result was handled, what was handed to Core, and the panic of Core if any. -/
structure Handling where
  syncer : CommitSyncer
  lastCommitIndex : Nat
  handed : List Handed
  failed : Option SyncError

/-- The loop of `handle_fetch_result`, over the fetched ranges that are left. -/
def processFetched (progress : CoreProgress) : Handling → List (CommitRange × CertifiedCommits) → Handling
  | h, [] => h
  | h, (range, certified) :: rest =>
    if range.start ≤ h.syncer.syncedCommitIndex + 1 then
      let s := { h.syncer with fetchedRanges := h.syncer.fetchedRanges.erase range }
      if range.last ≤ s.syncedCommitIndex then processFetched progress { h with syncer := s } rest
      else
        let lastCommitIndex := h.lastCommitIndex + progress.before range
        let handed := h.handed ++ [⟨s.syncedCommitIndex, lastCommitIndex, certified⟩]
        match addCertifiedCommits (progress.tryCommit range) lastCommitIndex certified with
        | .error e => { syncer := s, lastCommitIndex, handed, failed := some e }
        | .ok lastCommitIndex =>
          processFetched progress
            { syncer := { s with syncedCommitIndex := max s.syncedCommitIndex range.last }
              lastCommitIndex
              handed
              failed := none } rest
    else h -- a gap before the earliest fetched range

/-- What `handle_fetch_result` does before its loop. -/
def receive (lastCommitIndex targetEnd commitStart commitEnd : Nat) (certified : CertifiedCommits) (s : CommitSyncer) : CommitSyncer :=
  let s := { s with highestFetchedCommitIndex := max s.highestFetchedCommitIndex commitEnd }
  let s := if commitEnd < targetEnd then
      { s with pendingFetches := insert (CommitRange.new (commitEnd + 1) targetEnd) s.pendingFetches }
    else s
  let s := { s with syncedCommitIndex := max s.syncedCommitIndex lastCommitIndex }
  if s.syncedCommitIndex < commitEnd then
    { s with fetchedRanges := s.fetchedRanges.insert (CommitRange.new commitStart commitEnd) certified }
  else s

def handleFetchResult (progress : CoreProgress) (lastCommitIndex targetEnd : Nat) (certified : CertifiedCommits)
    (s : CommitSyncer) : Except SyncError Handling := do
  let first ← expect certified.commits.head? .noCommits
  let last ← expect certified.commits.getLast? .noCommits
  let s := s.receive lastCommitIndex targetEnd first.commit.index last.commit.index certified
  return processFetched progress { syncer := s, lastCommitIndex, handed := [], failed := none } s.fetchedRanges.toList

end CommitSyncer

/-! ## Runs -/

/-- The commit syncer, and the last commit of Core. -/
structure SyncNode where
  syncer : CommitSyncer
  lastCommitIndex : Nat

/-- A step of the syncer or of Core. -/
inductive SyncStep (ctx : Context) (parameters : CommitSyncParameters) : SyncNode → SyncNode → Prop
  | schedule {n : SyncNode} {s : CommitSyncer} (quorumCommitIndex highestHandledIndex : Nat)
      (h : n.syncer.tryScheduleOnce parameters quorumCommitIndex n.lastCommitIndex highestHandledIndex = .ok s) :
      SyncStep ctx parameters n { n with syncer := s }
  | start {n : SyncNode} (knownPeersCount : Nat) :
      SyncStep ctx parameters n { n with syncer := n.syncer.tryStartFetches parameters knownPeersCount }
  | fetched {n : SyncNode} {range : CommitRange} {certified : CertifiedCommits} {h : CommitSyncer.Handling}
      {progress : CoreProgress} (hcore : progress.CommitsWholeBatch) (hmem : range ∈ n.syncer.inflightFetches)
      (hfetched : Fetched ctx range certified)
      (hrun : CommitSyncer.handleFetchResult progress n.lastCommitIndex range.last certified
        { n.syncer with inflightFetches := n.syncer.inflightFetches.erase range } = .ok h) :
      SyncStep ctx parameters n ⟨h.syncer, h.lastCommitIndex⟩
  | commit {n : SyncNode} (count : Nat) : SyncStep ctx parameters n { n with lastCommitIndex := n.lastCommitIndex + count }

/-- What a node reaches after it was started with some last commit. -/
inductive SyncReachable (ctx : Context) (parameters : CommitSyncParameters) : SyncNode → Prop
  | start (lastCommitIndex : Nat) : SyncReachable ctx parameters ⟨.new lastCommitIndex, lastCommitIndex⟩
  | step {n n' : SyncNode} (h : SyncReachable ctx parameters n) (hstep : SyncStep ctx parameters n n') :
      SyncReachable ctx parameters n'

end Sui

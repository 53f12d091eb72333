import Sui.Consensus.Commit

/-!
# The sliding window leader schedule

`consensus/src/leader_schedule_v3.rs`: scores of the authorities over a window of recent commits, and the leaders that they
allow. The shuffle is a function of the seed, and of a host name only whether it is empty is kept. Gauges are left out; the
checked multiplication on the way to them is kept.
-/

namespace Sui

open Library Checked

/-- What the leader schedule reads of the context and of the protocol configuration. -/
structure LeaderScheduleConfig where
  context : Context
  leaderScheduleWindowSize : Nat
  leaderScheduleUpdateInterval : Nat
  hostnameIsEmpty : AuthorityIndex → Bool
  /-- `by_score.shuffle(&mut StdRng::from_seed(seed))`. -/
  shuffle : Digest → List (AuthorityIndex × Nat) → List (AuthorityIndex × Nat)

variable (cfg : LeaderScheduleConfig) (s : LeaderScheduleV3) (ctx : Context)

namespace LeaderScheduleConfig

/-- `leader_schedule_window_size`, at least 1. -/
def windowSize : Nat := max cfg.leaderScheduleWindowSize 1

/-- `leader_schedule_update_interval`, at least 1. -/
def updateInterval : Nat := max cfg.leaderScheduleUpdateInterval 1

end LeaderScheduleConfig

/-- The assertions and unwraps of the leader schedule. -/
inductive SchedulePanic where
  | indexOverflow
  | notConsecutive
  | leaderRoundsNotIncreasing
  | leaderMissing (leader : BlockRef)
  | scanEndsTooEarly
  | windowIsEmpty
  | indexOutOfBounds
  | notAnAuthority
  | checkedMul
  | checkedAdd
  | checkedSub
deriving DecidableEq, Repr

/-- `ScoresEntry`: what one scored commit contributes. -/
structure ScoresEntry where
  commitRef : CommitRef
  scoreContributions : List Nat
  numLeaders : Nat
  leaderStakes : Nat
deriving DecidableEq, Repr

structure NextCommitLeaderSchedule where
  nextCommitIndex : Nat
  minNextLeaderRound : Nat
  allowedLeaders : List AuthorityIndex
deriving DecidableEq, Repr

structure LeaderScheduleV3 where
  totalScoresPerAuthority : List Nat
  totalNumLeaders : Nat
  totalLeaderStakes : Nat
  pendingCommits : List CommittedSubDag
  scoresEntries : List ScoresEntry
  currentSchedule : NextCommitLeaderSchedule

namespace LeaderScheduleV3

def maxPendingCommits : Nat := 3

/-- `checked_mul` on `u64`. -/
def checkedMul (a b : Nat) : Except SchedulePanic Nat := do
  assert (a * b < 2 ^ 64) .checkedMul
  return a * b

def checkedAdd (a b : Nat) : Except SchedulePanic Nat := do
  assert (a + b < 2 ^ 64) .checkedAdd
  return a + b

def checkedSub (a b : Nat) : Except SchedulePanic Nat := do
  assert (b ≤ a) .checkedSub
  return a - b

def nextCommitIndex : Nat := (s.pendingCommits.getLast?.map fun c => c.commitRef.index).getD 0 + 1

def minNextLeaderRound : Nat := (s.pendingCommits.getLast?.map fun c => c.leader.round).getD 0 + 1

/-- The eight bytes of a number, lowest first, as a number whose first byte is the highest. -/
def leBytes (n : Nat) : Nat := (List.range 8).foldl (fun acc i => acc * 256 + n / 256 ^ i % 256) 0

/-- The seed before the first commit: the start of the epoch, the epoch and sixteen zeros. -/
def epochSeed : Digest := (leBytes ctx.epochStartTimestampMs * 2 ^ 64 + leBytes ctx.committee.epoch) * 2 ^ 128

/-- The seed of the shuffle: the digest of the last commit. -/
def seed : Digest :=
  (s.pendingCommits.getLast?.map fun c => c.commitRef.digest).getD (epochSeed cfg.context)

def toAuthorityIndex (i : Nat) : Option AuthorityIndex := if ctx.committee.isValidIndex i then some i else none

/-- The loop that drops the authorities of lowest scores, given last first, while their stake is within the cutoff. -/
def dropBad (ctx : Context) (cutoff : Nat) : Nat → List (AuthorityIndex × Nat) → List (AuthorityIndex × Nat)
  | _, [] => []
  | accumulatedBadStake, p :: rest =>
    if accumulatedBadStake + ctx.committee.stake p.1 > cutoff then p :: rest
    else dropBad ctx cutoff (accumulatedBadStake + ctx.committee.stake p.1) rest

/-- The product with the total stake is a plain one of `u64`: the model fails where a debug build panics and a release build wraps. -/
def selectAllowedLeadersWithFixedConfig : Except SchedulePanic (List AuthorityIndex) := do
  let byScore ← s.totalScoresPerAuthority.zipIdx.mapM fun p => do
    let authorityIndex ← expect (toAuthorityIndex cfg.context p.2) .notAnAuthority
    return (authorityIndex, p.1)
  -- a stable sort, highest scores first
  let byScore := (cfg.shuffle (s.seed cfg) byScore).insertionSort fun a b => b.2 ≤ a.2
  let product ← checkedMul cfg.context.protocolConfig.badNodesStakeThreshold cfg.context.committee.totalStake
  return ((dropBad cfg.context (product / 100) 0 byScore.reverse).reverse).map Prod.fst

def computeNextCommitLeaderSchedule : Except SchedulePanic NextCommitLeaderSchedule := do
  let allowedLeaders ← s.selectAllowedLeadersWithFixedConfig cfg
  return { nextCommitIndex := s.nextCommitIndex, minNextLeaderRound := s.minNextLeaderRound, allowedLeaders }

/-- `LeaderScheduleV3::new`, with zero scores. -/
def new : Except SchedulePanic LeaderScheduleV3 := do
  let schedule : LeaderScheduleV3 :=
    { totalScoresPerAuthority := List.replicate cfg.context.committee.size 0
      totalNumLeaders := 0
      totalLeaderStakes := 0
      pendingCommits := []
      scoresEntries := []
      currentSchedule := ⟨0, 0, []⟩ }
  let currentSchedule ← schedule.computeNextCommitLeaderSchedule cfg
  return { schedule with currentSchedule }

def refreshCurrentSchedule : Except SchedulePanic LeaderScheduleV3 :=
  if (s.nextCommitIndex - 1) % cfg.updateInterval = 0 then do
    let currentSchedule ← s.computeNextCommitLeaderSchedule cfg
    return { s with currentSchedule }
  else return { s with
    currentSchedule :=
      { nextCommitIndex := s.nextCommitIndex
        minNextLeaderRound := s.minNextLeaderRound
        allowedLeaders := s.currentSchedule.allowedLeaders } }

/-- The checked multiplication of `report_metrics`, for each authority with a host name. -/
def reportMetrics : Except SchedulePanic Unit :=
  s.totalScoresPerAuthority.zipIdx.forM fun p => do
    let authorityIndex ← expect (toAuthorityIndex cfg.context p.2) .notAnAuthority
    if cfg.hostnameIsEmpty authorityIndex then return ()
    else do
      let _ ← checkedMul s.totalLeaderStakes cfg.context.committee.totalStake
      return ()

/-- The commits up to and including the first one whose leader round is above `upper`. -/
def takeUntilAbove (upper : Nat) : List CommittedSubDag → List CommittedSubDag
  | [] => []
  | c :: rest => if c.leader.round > upper then [c] else c :: takeUntilAbove upper rest

def scanCommitsUntilLeaderRoundAbove (commits : List CommittedSubDag) (upper : Nat) : Except SchedulePanic (List CommittedSubDag) := do
  let out := takeUntilAbove upper commits
  assert (out.getLast?.any fun c => c.leader.round > upper) .scanEndsTooEarly
  return out

def stakes (authorities : List AuthorityIndex) : Nat :=
  ((BTreeSet.iter authorities.toFinset).map ctx.committee.stake).sum

/-- The contribution of one author of voting blocks to the scores. -/
def contribution (leaderRefs : BTreeSet BlockRef) (certifyingBlocks votingBlocks : List VerifiedBlock) :
    Except SchedulePanic (Option Nat) :=
  match votingBlocks with
  | [votingBlock] => do
    let votedForStake := stakes ctx ((votingBlock.ancestors.filter (· ∈ leaderRefs)).map BlockRef.author)
    if votedForStake = 0 then return none
    else do
      let certifiedByStake := stakes ctx ((certifyingBlocks.filter fun b => votingBlock.reference ∈ b.ancestors).map (·.author))
      let score ← checkedMul votedForStake certifiedByStake
      return some score
  | _ => return none -- an author that equivocated

/-- The contributions of a commit to the scores. -/
def scoreContributions (leaderRefs : BTreeSet BlockRef) (votingBlocks certifyingBlocks : List VerifiedBlock) :
    Except SchedulePanic (List Nat) :=
  (BTreeSet.iter (votingBlocks.map (·.author)).toFinset).foldlM (fun contributions a => do
    let score ← contribution ctx leaderRefs certifyingBlocks (votingBlocks.filter fun b => b.author = a)
    match score with
    | none => return contributions
    | some score => do
      assert (a < contributions.length) .indexOutOfBounds
      return contributions.set a score) (List.replicate ctx.committee.size 0)

/-- The entry that `add_commit` produces for `C-3`. -/
def scoresEntry (cMinus3 cMinus2 cMinus1 c : CommittedSubDag) : Except SchedulePanic ScoresEntry := do
  let leaderRound := cMinus3.leader.round
  let voteRound := leaderRound + 1
  let certifyRound := leaderRound + 2
  assert (cMinus3.leader.round < cMinus2.leader.round && cMinus2.leader.round < cMinus1.leader.round &&
    cMinus1.leader.round < c.leader.round) .leaderRoundsNotIncreasing
  let leaderRefs := ((cMinus3.blocks.filter fun b => b.round = leaderRound).map VerifiedBlock.reference).toFinset
  assert (leaderRefs ≠ ∅) (.leaderMissing cMinus3.leader)
  assert (cMinus3.leader ∈ leaderRefs) (.leaderMissing cMinus3.leader)
  let votingCommits ← scanCommitsUntilLeaderRoundAbove [cMinus2, cMinus1, c] voteRound
  let certifyingCommits ← scanCommitsUntilLeaderRoundAbove [cMinus2, cMinus1, c] certifyRound
  let votingBlocks := votingCommits.flatMap fun cmt => cmt.blocks.filter fun b => b.round = voteRound
  let certifyingBlocks := certifyingCommits.flatMap fun cmt => cmt.blocks.filter fun b => b.round = certifyRound
  let contributions ← scoreContributions ctx leaderRefs votingBlocks certifyingBlocks
  return {
    commitRef := cMinus3.commitRef
    scoreContributions := contributions
    numLeaders := (BTreeSet.iter leaderRefs).length
    leaderStakes := ((BTreeSet.iter leaderRefs).map fun r => ctx.committee.stake r.author).sum }

/-- A loop over the contributions of an entry that updates the totals by authority. -/
def updateTotals (op : Nat → Nat → Except SchedulePanic Nat) : List Nat → List Nat → Except SchedulePanic (List Nat)
  | totals, [] => return totals
  | [], _ :: _ => throw .indexOutOfBounds
  | total :: totals, delta :: deltas => do
    let total ← op total delta
    let totals ← updateTotals op totals deltas
    return total :: totals

/-- The three running totals updated by an entry. -/
def updateEntry (op : Nat → Nat → Except SchedulePanic Nat) (s : LeaderScheduleV3) (e : ScoresEntry) :
    Except SchedulePanic LeaderScheduleV3 := do
  let totalScoresPerAuthority ← updateTotals op s.totalScoresPerAuthority e.scoreContributions
  let totalNumLeaders ← op s.totalNumLeaders e.numLeaders
  let totalLeaderStakes ← op s.totalLeaderStakes e.leaderStakes
  return { s with totalScoresPerAuthority, totalNumLeaders, totalLeaderStakes }

/-- The loop that evicts entries while the window is full, over the entries that are left. -/
def evict (cfg : LeaderScheduleConfig) (s : LeaderScheduleV3) : List ScoresEntry → Except SchedulePanic LeaderScheduleV3
  | [] => do
    assert (0 < cfg.windowSize) .windowIsEmpty
    return { s with scoresEntries := [] }
  | evicted :: entries =>
    if (evicted :: entries).length ≥ cfg.windowSize then do
      let s ← s.updateEntry checkedSub evicted
      evict cfg s entries
    else return { s with scoresEntries := evicted :: entries }

/-- What `add_commit` does after the state has the new commit. -/
def finish : Except SchedulePanic LeaderScheduleV3 := do
  let s ← s.refreshCurrentSchedule cfg
  s.reportMetrics cfg
  return s

/-- The commit follows the last pending one. -/
def isNext (c : CommittedSubDag) : Bool :=
  s.pendingCommits.getLast?.all fun last => c.commitRef.index = last.commitRef.index + 1

def addCommit (c : CommittedSubDag) : Except SchedulePanic LeaderScheduleV3 := do
  assert (s.isNext c) .notConsecutive
  match s.pendingCommits with
  | cMinus3 :: cMinus2 :: cMinus1 :: _ => do
    let entry ← scoresEntry cfg.context cMinus3 cMinus2 cMinus1 c
    let s ← evict cfg s s.scoresEntries
    let s ← s.updateEntry checkedAdd entry
    finish cfg { s with
      scoresEntries := s.scoresEntries ++ [entry]
      pendingCommits := s.pendingCommits.tail ++ [c] }
  | _ => finish cfg { s with pendingCommits := s.pendingCommits ++ [c] }

/-- A fresh schedule to which some commits are added. -/
def addCommits (commits : List CommittedSubDag) : Except SchedulePanic LeaderScheduleV3 := do
  let s ← new cfg
  commits.foldlM (addCommit cfg) s

/-- The sum with the pending commits is a plain one of `u32`: the model fails where a debug build panics and a release build
wraps. -/
def replayStart (lastCommitIndex : Nat) : Except SchedulePanic Nat := do
  let lastScheduleUpdateIndex := lastCommitIndex / cfg.updateInterval * cfg.updateInterval + 1
  assert (cfg.windowSize + maxPendingCommits < 2 ^ 32) .indexOverflow
  return max (lastScheduleUpdateIndex - (cfg.windowSize + maxPendingCommits)) 1

/-- `from_store`, over the committed sub-dags of the store. -/
def fromStore (stored : List CommittedSubDag) : Except SchedulePanic LeaderScheduleV3 :=
  match stored.getLast? with
  | none => new cfg
  | some last => do
    let replayStart ← replayStart cfg last.commitRef.index
    addCommits cfg (stored.filter fun c => replayStart ≤ c.commitRef.index ∧ c.commitRef.index ≤ last.commitRef.index)

end LeaderScheduleV3

end Sui

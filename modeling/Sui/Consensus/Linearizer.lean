import Sui.Consensus.DagState

/-!
# Linearizer

`consensus/src/linearizer.rs`: a committed leader is expanded into its sub-dag, the blocks of its history above the GC round
that are not committed yet. `Linearizer::update_blocks_pruned_metric` is left out.
-/

namespace Sui

open Library Checked

/-- The errors of `median_timestamp_by_stake`. -/
inductive MedianError where
  | noBlocks
  | stakeBelowQuorum (totalStake quorumThreshold : Nat)
deriving DecidableEq, Repr

namespace Linearizer

/-! ## The timestamp of a commit -/

/-- The loop of `median_timestamps_by_stake_inner`: the first timestamp with more than half of the stake up to it. -/
def medianLoop (totalStake : Nat) : Nat → List (Nat × Nat) → Option Nat
  | _, [] => none
  | cumulativeStake, (ts, stake) :: timestamps =>
    if cumulativeStake + stake > totalStake / 2 then some ts else medianLoop totalStake (cumulativeStake + stake) timestamps

/-- `median_timestamps_by_stake_inner`. The list is not empty where it is called. -/
def medianTimestampsByStakeInner (timestamps : List (Nat × Nat)) (totalStake : Nat) : Nat :=
  let sorted := timestamps.insertionSort fun a b => a.1 ≤ b.1
  (medianLoop totalStake 0 sorted).getD (sorted.getLast?.elim 0 Prod.fst)

variable (ctx : Context)

def medianTimestampByStake (blocks : List VerifiedBlock) : Except MedianError Nat := do
  let timestamps := blocks.map fun b => (b.timestampMs, ctx.committee.stake b.author)
  let totalStake := (timestamps.map Prod.snd).sum
  assert (!timestamps.isEmpty) .noBlocks
  assert (!(totalStake < ctx.committee.quorumThreshold)) (.stakeBelowQuorum totalStake ctx.committee.quorumThreshold)
  return medianTimestampsByStakeInner timestamps totalStake

def calculateCommitTimestamp (d : DagState) (leaderBlock : VerifiedBlock) (lastCommitTimestampMs : Nat) : Except Panic Nat := do
  let blockRefs := leaderBlock.ancestors.filter fun r => r.round == leaderBlock.round - 1
  let blocks ← blockRefs.mapM fun r => expect (d.getBlock r) (Panic.parentBlockMissing r)
  match medianTimestampByStake ctx blocks with
  | .ok timestampMs => return max timestampMs lastCommitTimestampMs
  | .error _ => throw (Panic.noMedianTimestamp leaderBlock.reference)

/-! ## The sub-dag of a leader -/

/-- The state of the loop of `linearize_sub_dag`. The top of the stack `buffer` is the head of the list. -/
structure Traversal where
  dag : DagState
  buffer : List VerifiedBlock
  toCommit : List VerifiedBlock

/-- The ancestors of a block above the GC round that are not committed. -/
def uncommittedAncestors (gcRound : Nat) (d : DagState) (x : VerifiedBlock) : Except Panic (List BlockRef) :=
  x.ancestors.filterM fun ancestor =>
    if ancestor.round > gcRound then do
      let committed ← d.isCommitted ancestor
      return !committed
    else
      return false

/-- An ancestor is marked as committed and put on the stack. -/
def pushAncestor (s : Traversal) (ancestor : VerifiedBlock) : Except Panic Traversal := do
  let (dag, first) ← s.dag.setCommitted ancestor.reference
  assert first (Panic.blockCommittedTwice ancestor.reference)
  return { s with dag, buffer := ancestor :: s.buffer }

/-- One pass of the loop of `linearize_sub_dag`. -/
def linearizeBody (gcRound : Nat) (s : Traversal) : Except Panic (Loop.Pass Traversal (DagState × List VerifiedBlock)) :=
  match s.buffer with
  | [] => return .done (s.dag, s.toCommit)
  | x :: buffer => do
    let refs ← uncommittedAncestors gcRound s.dag x
    let ancestors ← refs.mapM fun r => expect (s.dag.getBlock r) (Panic.uncommittedBlockMissing r)
    let s ← ancestors.foldlM pushAncestor { s with buffer, toCommit := s.toCommit ++ [x] }
    return .next s

def linearizeSubDag (d : DagState) (leaderBlock : VerifiedBlock) : Except Panic (DagState × List VerifiedBlock) := do
  let gcRound := d.gcRound ctx
  let (dag, first) ← d.setCommitted leaderBlock.reference
  assert first (Panic.leaderCommittedTwice leaderBlock.reference)
  let (dag, toCommit) ← Loop.run Panic.outOfFuel (linearizeBody gcRound) ((BTreeMap.keySet d.recentBlocks).card + 2)
    ⟨dag, [leaderBlock], []⟩
  assert (toCommit.all fun block => block.round > gcRound) (Panic.committedAtOrBelowGcRound gcRound)
  return (dag, sortSubDagBlocks toCommit)

def collectSubDagAndCommit (d : DagState) (leaderBlock : VerifiedBlock) :
    Except Panic (DagState × CommittedSubDag × TrustedCommit) := do
  let (dag, toCommit) ← linearizeSubDag ctx d leaderBlock
  let timestampMs ← calculateCommitTimestamp ctx dag leaderBlock d.lastCommitTimestampMs
  let commit := TrustedCommit.newTrusted ctx
    { index := d.lastCommitIndex + 1
      previousDigest := d.lastCommitDigest
      timestampMs
      leader := leaderBlock.reference
      blocks := toCommit.map VerifiedBlock.reference }
  return (dag, CommittedSubDag.new leaderBlock.reference toCommit timestampMs commit.reference, commit)

/-- One pass of the loop of `handle_commit`. -/
def commitLeader (s : DagState × List CommittedSubDag) (leaderBlock : VerifiedBlock) :
    Except Panic (DagState × List CommittedSubDag) := do
  let (dag, subDag, commit) ← collectSubDagAndCommit ctx s.1 leaderBlock
  let dag ← dag.addCommit commit
  return (dag, s.2 ++ [subDag])

def handleCommit (d : DagState) (committedLeaders : List VerifiedBlock) : Except Panic (DagState × List CommittedSubDag) :=
  committedLeaders.foldlM (commitLeader ctx) (d, [])

end Linearizer

end Sui

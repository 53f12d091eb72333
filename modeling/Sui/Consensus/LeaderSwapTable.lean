import Sui.Consensus.LeaderScoring

/-!
# The leader swap table

`LeaderSwapTable` of `consensus/src/leader_schedule.rs`. Of the context it reads the committee. What the seeded generators do is
a parameter, and host names, which only serve debugging, are left out.
-/

namespace Sui

open Library Checked

/-- The generators seeded by a commit index and by a leader slot: a shuffle, and the choice of one element. -/
structure SwapRng where
  shuffle : Nat → List (AuthorityIndex × Nat) → List (AuthorityIndex × Nat)
  choose : Nat → Nat → List (AuthorityIndex × Nat) → Option (AuthorityIndex × Nat)
  shuffle_perm : ∀ commitIndex l, (shuffle commitIndex l).Perm l
  choose_mem : ∀ {round offset l x}, choose round offset l = some x → x ∈ l
  choose_none : ∀ {round offset l}, choose round offset l = none → l = []

/-- The assertions and unwraps of the table. -/
inductive SwapPanic where
  | thresholdOutOfRange
  | notAnAuthority
  | scoresDoNotMatchCommittee
  | multiLeader
  | noGoodNode
deriving DecidableEq, Repr

def ReputationScores.authoritiesByScore (scores : ReputationScores) (c : Committee) :
    Except SwapPanic (List (AuthorityIndex × Nat)) :=
  scores.scoresPerAuthority.zipIdx.mapM fun p => do
    assert (c.isValidIndex p.2) .notAnAuthority
    return (p.2, p.1)

/-- `LeaderSwapTable`: the nodes are kept with their stakes. -/
structure LeaderSwapTable where
  goodNodes : List (AuthorityIndex × Nat)
  badNodes : BTreeMap AuthorityIndex Nat
  reputationScores : ReputationScores

namespace LeaderSwapTable

/-- The loop of `retrieve_first_nodes`. -/
def firstNodes (c : Committee) (cutoff : Nat) : Nat → List (AuthorityIndex × Nat) → List (AuthorityIndex × Nat)
  | _, [] => []
  | stake, (a, _) :: rest =>
    if stake + c.stake a > cutoff then [] else (a, c.stake a) :: firstNodes c cutoff (stake + c.stake a) rest

/-- The stake that the good nodes may have, and the bad ones. The product is one of `u64`, which wraps in a release build. -/
def cutoff (c : Committee) (stakeThreshold : Nat) : Nat := stakeThreshold * c.totalStake % 2 ^ 64 / 100

def retrieveFirstNodes (c : Committee) (authorities : List (AuthorityIndex × Nat)) (stakeThreshold : Nat) :
    List (AuthorityIndex × Nat) := firstNodes c (cutoff c stakeThreshold) 0 authorities

def newInner (rng : SwapRng) (c : Committee) (swapStakeThreshold commitIndex : Nat) (scores : ReputationScores) :
    Except SwapPanic LeaderSwapTable := do
  assert (swapStakeThreshold ≤ 33) .thresholdOutOfRange
  if scores.scoresPerAuthority.isEmpty then
    return ⟨[], ∅, ReputationScores.default⟩
  let byScore ← scores.authoritiesByScore c
  assert (byScore.length = c.size) .scoresDoNotMatchCommittee
  -- a stable sort, highest scores first
  let byScore := (rng.shuffle commitIndex byScore).insertionSort fun a b => b.2 ≤ a.2
  let goodNodes := retrieveFirstNodes c byScore swapStakeThreshold
  let badNodes := (retrieveFirstNodes c byScore.reverse swapStakeThreshold).foldl (fun m p => m.insert p.1 p.2) ∅
  return ⟨goodNodes, badNodes, scores⟩

def swap (rng : SwapRng) (t : LeaderSwapTable) (leader : AuthorityIndex) (leaderRound leaderOffset : Nat) :
    Except SwapPanic (Option AuthorityIndex) := do
  if t.badNodes[leader]?.isSome then
    assert (leaderOffset = 0) .multiLeader
    let node ← expect (rng.choose leaderRound leaderOffset t.goodNodes) .noGoodNode
    return some node.1
  return none

end LeaderSwapTable

end Sui

import Sui.Execution.SharedObjectVersions

/-!
# Congestion control of shared objects

`authority/shared_object_congestion_tracker.rs` and the debts of `consensus_quarantine.rs`: the cost of the transactions of a
commit on each object, the deferral of what would start too late, and the debt that an object carries on. A transaction is its
shared input objects and its estimate. The stored debts are those that a lookup finds, in the quarantine or in the table below
it.
-/

namespace Sui.Congestion

open Library Checked

def saturatingAdd (a b : Nat) : Nat := min (a + b) (2 ^ 64 - 1)

def saturatingMul (a b : Nat) : Nat := min (a * b) (2 ^ 64 - 1)

structure ExecutionTimeEstimateParams where
  targetUtilization : Nat
  allowedTxnCostOverageBurstLimitUs : Nat
  randomnessScalar : Nat
deriving DecidableEq, Repr

structure Params where
  params : ExecutionTimeEstimateParams
  forRandomness : Bool
deriving DecidableEq, Repr

/-- `ConsensusCommitInfo`: the round and the estimated commit period. -/
structure ConsensusCommitInfo where
  round : Nat
  commitPeriodMicros : Nat
deriving DecidableEq, Repr

namespace Params

def commitBudget (self : Params) (commitInfo : ConsensusCommitInfo) : Nat :=
  let budget := saturatingMul commitInfo.commitPeriodMicros self.params.targetUtilization / 100
  if self.forRandomness then saturatingMul budget self.params.randomnessScalar / 100 else budget

def maxBurst (self : Params) : Nat :=
  let burst := self.params.allowedTxnCostOverageBurstLimitUs
  if self.forRandomness then saturatingMul burst self.params.randomnessScalar / 100 else burst

end Params

inductive DeferralKey where
  | randomness (deferredFromRound : Nat)
  | consensusRound (futureRound deferredFromRound : Nat)
deriving DecidableEq, Repr

def DeferralKey.deferredFromRound : DeferralKey → Nat
  | .randomness deferredFromRound => deferredFromRound
  | .consensusRound _ deferredFromRound => deferredFromRound

/-- A transaction of a commit, with its estimate. It may be deferred for another reason than congestion. -/
structure Transaction where
  digest : TransactionDigest
  sharedInputObjects : List SharedInputObject
  estimateUs : Nat
  deferredOtherwise : Bool
deriving DecidableEq, Repr

/-- The assertions of congestion control. -/
inductive CongestionPanic where
  | noSharedInputObjects
  | noCongestedObjects
  | costDecreased
  | roundNotLater
deriving DecidableEq, Repr

structure SharedObjectCongestionTracker where
  objectExecutionCost : BTreeMap ObjectID Nat
  params : Params

namespace SharedObjectCongestionTracker

variable (self : SharedObjectCongestionTracker)

/-- The cost of an object so far. -/
def cost (id : ObjectID) : Nat := self.objectExecutionCost[id]?.getD 0

def computeTxStartAtCost (sharedInputObjects : List SharedInputObject) : Except CongestionPanic Nat :=
  expect (sharedInputObjects.map fun obj => self.cost obj.id).max? .noSharedInputObjects

def shouldDeferDueToObjectCongestion (cert : Transaction)
    (previouslyDeferredTxDigests : BTreeMap TransactionDigest DeferralKey) (commitInfo : ConsensusCommitInfo) :
    Except CongestionPanic (Option (DeferralKey × List ObjectID)) := do
  if cert.sharedInputObjects.isEmpty then return none
  else
    let startCost ← self.computeTxStartAtCost cert.sharedInputObjects
    let budget := self.params.commitBudget commitInfo
    let burstLimit := saturatingAdd budget self.params.maxBurst
    if startCost ≤ burstLimit then return none
    else
      let congestedObjects := (cert.sharedInputObjects.filter fun obj => startCost = self.cost obj.id).map SharedInputObject.id
      assert (!congestedObjects.isEmpty) .noCongestedObjects
      let deferredFromRound := (previouslyDeferredTxDigests[cert.digest]?.map DeferralKey.deferredFromRound).getD commitInfo.round
      return some (.consensusRound (commitInfo.round + 1) deferredFromRound, congestedObjects)

/-- One object in the loop of `bump_object_execution_cost`. -/
def bumpObject (endCost : Nat) (objectExecutionCost : BTreeMap ObjectID Nat) (obj : SharedInputObject) :
    Except CongestionPanic (BTreeMap ObjectID Nat) :=
  if obj.mutability.isExclusive then do
    assert (objectExecutionCost[obj.id]?.all fun oldEndCost => oldEndCost ≤ endCost) .costDecreased
    return objectExecutionCost.insert obj.id endCost
  else return objectExecutionCost

def bumpObjectExecutionCost (txCost : Nat) (cert : Transaction) : Except CongestionPanic SharedObjectCongestionTracker := do
  if cert.sharedInputObjects.isEmpty then return self
  else
    let startCost ← self.computeTxStartAtCost cert.sharedInputObjects
    let endCost := saturatingAdd startCost txCost
    let objectExecutionCost ← cert.sharedInputObjects.foldlM (bumpObject endCost) self.objectExecutionCost
    return { self with objectExecutionCost }

/-- The accumulated debts of `finish_commit`. -/
def accumulatedDebts (commitInfo : ConsensusCommitInfo) : List (ObjectID × Nat) :=
  self.objectExecutionCost.toList.filterMap fun entry =>
    let remainingCost := entry.2 - self.params.commitBudget commitInfo
    if 0 < remainingCost then some (entry.1, remainingCost) else none

end SharedObjectCongestionTracker

/-! ## Debts between commits -/

/-- The debts as a lookup finds them: the round they were accumulated in and the amount. -/
abbrev ObjectDebts := BTreeMap ObjectID (Nat × Nat)

/-- The debt of an object at a round, in `load_initial_object_debts`. The product wraps. -/
def initialDebt (perCommitBudget currentRound : Nat) (debt : Nat × Nat) : Except CongestionPanic Nat := do
  assert (debt.1 < currentRound) .roundNotLater
  let numRounds := currentRound - debt.1 - 1
  return debt.2 - perCommitBudget * numRounds % 2 ^ 64

/-- `load_initial_object_debts`, with the per commit budget of the protocol configuration. -/
def loadInitialObjectDebts (debts : ObjectDebts) (perCommitBudget currentRound : Nat) (transactions : List Transaction) :
    Except CongestionPanic (List (ObjectID × Nat)) :=
  let sharedInputObjectIds := BTreeSet.iter (transactions.flatMap fun tx => tx.sharedInputObjects.map SharedInputObject.id).toFinset
  (sharedInputObjectIds.filterMap fun id => debts[id]?.map fun debt => (id, debt)).mapM fun entry => do
    return (entry.1, ← initialDebt perCommitBudget currentRound entry.2)

/-- The debts with those of a commit, in `insert_congestion_control_debts`. -/
def insertCongestionControlDebts (debts : ObjectDebts) (round : Nat) (accumulatedDebts : List (ObjectID × Nat)) : ObjectDebts :=
  accumulatedDebts.foldl (fun debts entry => debts.insert entry.1 (round, entry.2)) debts

/-- One transaction of a commit: it is deferred, or its cost is added and it is scheduled. -/
def processTransaction (previouslyDeferredTxDigests : BTreeMap TransactionDigest DeferralKey) (commitInfo : ConsensusCommitInfo)
    (acc : SharedObjectCongestionTracker × List Transaction) (tx : Transaction) :
    Except CongestionPanic (SharedObjectCongestionTracker × List Transaction) := do
  if tx.deferredOtherwise then return acc
  else
    match ← acc.1.shouldDeferDueToObjectCongestion tx previouslyDeferredTxDigests commitInfo with
    | some _ => return acc
    | none => return (← acc.1.bumpObjectExecutionCost tx.estimateUs tx, acc.2 ++ [tx])

/-- A commit, with the digests that were deferred before it. -/
structure Commit where
  info : ConsensusCommitInfo
  transactions : List Transaction
  previouslyDeferredTxDigests : BTreeMap TransactionDigest DeferralKey

/-- The transactions that a commit schedules, and the debts after it. -/
def processCommit (params : Params) (perCommitBudget : Nat) (debts : ObjectDebts) (commit : Commit) :
    Except CongestionPanic (List Transaction × ObjectDebts) := do
  let initialObjectDebts ← loadInitialObjectDebts debts perCommitBudget commit.info.round commit.transactions
  let tracker : SharedObjectCongestionTracker := ⟨initialObjectDebts.foldl (fun m e => m.insert e.1 e.2) ∅, params⟩
  let (tracker, scheduled) ←
    commit.transactions.foldlM (processTransaction commit.previouslyDeferredTxDigests commit.info) (tracker, [])
  return (scheduled, insertCongestionControlDebts debts commit.info.round (tracker.accumulatedDebts commit.info))

/-- The transactions that a run of commits schedules, and the debts after it. -/
def processCommits (params : Params) (perCommitBudget : Nat) (debts : ObjectDebts) (commits : List Commit) :
    Except CongestionPanic (List Transaction × ObjectDebts) :=
  commits.foldlM (fun acc commit => do
    let (scheduled, debts) ← processCommit params perCommitBudget acc.2 commit
    return (acc.1 ++ scheduled, debts)) ([], debts)

end Sui.Congestion

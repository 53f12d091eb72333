import Sui.Library.Directory
import Sui.System.ValidatorSet

/-!
# The lifecycle of a validator

`sui-system/sources/validator_set.move`: a validator registers as a candidate, requests to join, is active, and leaves on its
own or because of its stake, at the end of an epoch. `sui_system_state_inner.move` has the calls. Of a validator the gas prices,
the operation cap, the proofs of possession and the texts that no check reads are left out. So are events, and what an epoch
takes from the storage fund and the subsidies: the rewards of an epoch are arguments.
-/

namespace Sui

open Library Checked ValidatorSet U64

/-- `ValidatorMetadata`: the fields that are compared, and those that replace them in the next epoch. -/
structure ValidatorMetadata where
  name : String
  netAddress : String
  p2pAddress : String
  primaryAddress : String
  workerAddress : String
  protocolPubkeyBytes : List UInt8
  networkPubkeyBytes : List UInt8
  workerPubkeyBytes : List UInt8
  nextEpochNetAddress : Option String
  nextEpochP2pAddress : Option String
  nextEpochPrimaryAddress : Option String
  nextEpochWorkerAddress : Option String
  nextEpochProtocolPubkeyBytes : Option (List UInt8)
  nextEpochNetworkPubkeyBytes : Option (List UInt8)
  nextEpochWorkerPubkeyBytes : Option (List UInt8)
deriving DecidableEq, Repr

/-- `Validator`, in any of the places that the set keeps validators in. -/
structure ValidatorEntry extends ActiveValidator where
  metadata : ValidatorMetadata
  nextEpochCommissionRate : Nat

def bothSomeAndEqual {α : Type} [DecidableEq α] (a b : Option α) : Bool := a.any fun a => b.any fun b => a = b

/-- A value of the next epoch that is one of the current epoch. -/
def someAndEqual {α : Type} [DecidableEq α] (next : Option α) (current : α) : Bool := next.any fun v => v = current

namespace ValidatorMetadata

/-- The comparison of the values of the current epoch, in `is_duplicate`. -/
def duplicatesCurrent (self other : ValidatorMetadata) : Bool :=
  self.name = other.name || self.netAddress = other.netAddress || self.p2pAddress = other.p2pAddress ||
    self.primaryAddress = other.primaryAddress || self.workerAddress = other.workerAddress ||
    self.protocolPubkeyBytes = other.protocolPubkeyBytes || self.networkPubkeyBytes = other.networkPubkeyBytes ||
    self.networkPubkeyBytes = other.workerPubkeyBytes || self.workerPubkeyBytes = other.workerPubkeyBytes ||
    self.workerPubkeyBytes = other.networkPubkeyBytes

/-- The comparison of the values of the next epoch, in `is_duplicate`. -/
def duplicatesNext (self other : ValidatorMetadata) : Bool :=
  bothSomeAndEqual self.nextEpochNetAddress other.nextEpochNetAddress ||
    bothSomeAndEqual self.nextEpochP2pAddress other.nextEpochP2pAddress ||
    bothSomeAndEqual self.nextEpochPrimaryAddress other.nextEpochPrimaryAddress ||
    bothSomeAndEqual self.nextEpochWorkerAddress other.nextEpochWorkerAddress ||
    bothSomeAndEqual self.nextEpochProtocolPubkeyBytes other.nextEpochProtocolPubkeyBytes ||
    bothSomeAndEqual self.nextEpochNetworkPubkeyBytes other.nextEpochNetworkPubkeyBytes ||
    bothSomeAndEqual self.nextEpochNetworkPubkeyBytes other.nextEpochWorkerPubkeyBytes ||
    bothSomeAndEqual self.nextEpochWorkerPubkeyBytes other.nextEpochWorkerPubkeyBytes ||
    bothSomeAndEqual self.nextEpochWorkerPubkeyBytes other.nextEpochNetworkPubkeyBytes

/-- The values of the next epoch against the current ones of another validator, in `is_duplicate`. -/
def nextDuplicatesCurrent (self other : ValidatorMetadata) : Bool :=
  someAndEqual self.nextEpochNetAddress other.netAddress || someAndEqual self.nextEpochP2pAddress other.p2pAddress ||
    someAndEqual self.nextEpochPrimaryAddress other.primaryAddress || someAndEqual self.nextEpochWorkerAddress other.workerAddress ||
    someAndEqual self.nextEpochProtocolPubkeyBytes other.protocolPubkeyBytes ||
    someAndEqual self.nextEpochNetworkPubkeyBytes other.networkPubkeyBytes ||
    someAndEqual self.nextEpochNetworkPubkeyBytes other.workerPubkeyBytes ||
    someAndEqual self.nextEpochWorkerPubkeyBytes other.workerPubkeyBytes ||
    someAndEqual self.nextEpochWorkerPubkeyBytes other.networkPubkeyBytes

end ValidatorMetadata

variable (self : ValidatorSet) (v : ValidatorEntry) (validators : List ValidatorEntry) (validator : ValidatorEntry)
  (records : ReportRecords)

namespace ValidatorEntry

def stakingPoolId : Nat := v.stakingPool.id

def totalStake : Nat := v.stakingPool.suiBalance

def isPreactive (v : ValidatorEntry) : Bool := v.stakingPool.isPreactive

/-- `Validator::new`: a validator without stake. The id of its pool is fresh. -/
def new (suiAddress poolId commissionRate : Nat) (metadata : ValidatorMetadata) : ValidatorEntry :=
  { suiAddress, votingPower := 0, commissionRate, nextEpochStake := 0, stakingPool := .new poolId, metadata,
    nextEpochCommissionRate := commissionRate }

def isDuplicate (self other : ValidatorEntry) : Bool :=
  self.suiAddress = other.suiAddress || self.metadata.duplicatesCurrent other.metadata ||
    self.metadata.duplicatesNext other.metadata || self.metadata.nextDuplicatesCurrent other.metadata ||
    other.metadata.nextDuplicatesCurrent self.metadata

/-- `deactivate`, with `deactivate_staking_pool`. -/
def deactivate (deactivationEpoch : Nat) : Except Abort ValidatorEntry := do
  assert (!v.stakingPool.isInactive) .deactivationOfInactivePool
  return { v with stakingPool := { v.stakingPool with deactivationEpoch := some deactivationEpoch } }

def activate (activationEpoch : Nat) : Except Abort ValidatorEntry := do
  return { v with stakingPool := ← v.stakingPool.activateStakingPool activationEpoch }

def requestAddStake (v : ValidatorEntry) (stake epoch : Nat) : Except Abort (ValidatorEntry × StakedSui) := do
  let (active, stakedSui) ← v.toActiveValidator.requestAddStake stake epoch
  return ({ v with toActiveValidator := active }, stakedSui)

def requestWithdrawStake (v : ValidatorEntry) (stakedSui : StakedSui) (epoch : Nat) : Except Abort (ValidatorEntry × Nat) := do
  let (stakingPool, withdrawAmount) ← v.stakingPool.requestWithdrawStake stakedSui epoch
  let _ ← sub withdrawAmount stakedSui.principal
  let nextEpochStake ← sub v.nextEpochStake withdrawAmount
  return ({ v with stakingPool, nextEpochStake }, withdrawAmount)

def convertToFungibleStakedSui (v : ValidatorEntry) (stakedSui : StakedSui) (epoch : Nat) :
    Except Abort (ValidatorEntry × FungibleStakedSui) := do
  let (stakingPool, fungibleStakedSui) ← v.stakingPool.convertToFungibleStakedSui stakedSui epoch
  return ({ v with stakingPool }, fungibleStakedSui)

def redeemFungibleStakedSui (v : ValidatorEntry) (fungibleStakedSui : FungibleStakedSui) (epoch : Nat) :
    Except Abort (ValidatorEntry × Nat) := do
  let (stakingPool, sui) ← v.stakingPool.redeemFungibleStakedSui fungibleStakedSui epoch
  let nextEpochStake ← sub v.nextEpochStake sui
  return ({ v with stakingPool, nextEpochStake }, sui)

def adjustStakeAndGasPrice : ValidatorEntry := { v with commissionRate := v.nextEpochCommissionRate }

def processPendingStakesAndWithdraws (v : ValidatorEntry) (epoch : Nat) : Except Abort ValidatorEntry := do
  return { v with stakingPool := ← v.stakingPool.processPendingStakesAndWithdraws epoch }

def effectuateStagedMetadata : ValidatorEntry :=
  let m := v.metadata
  { v with metadata :=
    { name := m.name
      netAddress := m.nextEpochNetAddress.getD m.netAddress
      p2pAddress := m.nextEpochP2pAddress.getD m.p2pAddress
      primaryAddress := m.nextEpochPrimaryAddress.getD m.primaryAddress
      workerAddress := m.nextEpochWorkerAddress.getD m.workerAddress
      protocolPubkeyBytes := m.nextEpochProtocolPubkeyBytes.getD m.protocolPubkeyBytes
      networkPubkeyBytes := m.nextEpochNetworkPubkeyBytes.getD m.networkPubkeyBytes
      workerPubkeyBytes := m.nextEpochWorkerPubkeyBytes.getD m.workerPubkeyBytes
      nextEpochNetAddress := none
      nextEpochP2pAddress := none
      nextEpochPrimaryAddress := none
      nextEpochWorkerAddress := none
      nextEpochProtocolPubkeyBytes := none
      nextEpochNetworkPubkeyBytes := none
      nextEpochWorkerPubkeyBytes := none } }

end ValidatorEntry

def Table.add {V : Type} (table : BTreeMap Nat V) (k : Nat) (v : V) : Except Abort (BTreeMap Nat V) := do
  assert table[k]?.isNone .fieldAlreadyExists
  return table.insert k v

def Table.remove {V : Type} (table : BTreeMap Nat V) (k : Nat) : Except Abort (V × BTreeMap Nat V) := do
  let v ← expect table[k]? .fieldDoesNotExist
  return (v, table.erase k)

/-- The reports of an epoch: the reporters of each reported validator. -/
abbrev ReportRecords := VecMap Nat (List Nat)

/-- `ValidatorSet`. The entry of `extra_fields` is the last field. -/
structure ValidatorSet where
  totalStake : Nat
  activeValidators : List ValidatorEntry
  pendingActiveValidators : List ValidatorEntry
  pendingRemovals : List Nat
  stakingPoolMappings : BTreeMap Nat Nat
  inactiveValidators : BTreeMap Nat ValidatorEntry
  validatorCandidates : BTreeMap Nat ValidatorEntry
  atRiskValidators : VecMap Nat Nat
  votingPowerAdmissionStartEpoch : Option Nat

namespace ValidatorSet

def minStakingThreshold : Nat := 1000000000

def phaseLength : Nat := 14

def quorumThreshold : Nat := 6667

/-- `find_validator`, and `find_validator_from_table_vec`. -/
def findEntry (validatorAddress : Nat) : Option Nat :=
  validators.findIdx? fun v => v.suiAddress == validatorAddress

def calculateTotalStakes : Except Abort Nat :=
  validators.foldlM (fun stake v => add stake v.totalStake) 0

/-- `voting_power::set_voting_power` on the validators of the set. -/
def setVotingPowers (totalStake : Nat) : Except Abort (List ValidatorEntry) := do
  let powers ← VotingPower.setVotingPower (validators.map fun v => ⟨v.totalStake, v.votingPower⟩) totalStake
  return validators.zipWith (fun v p => { v with votingPower := p.votingPower }) powers

def new (initActiveValidators : List ValidatorEntry) : Except Abort ValidatorSet := do
  let totalStake ← calculateTotalStakes initActiveValidators
  let stakingPoolMappings ← initActiveValidators.foldlM (fun m v => Table.add m v.stakingPoolId v.suiAddress) ∅
  let activeValidators ← setVotingPowers initActiveValidators totalStake
  return { totalStake, activeValidators, pendingActiveValidators := [], pendingRemovals := [], stakingPoolMappings,
           inactiveValidators := ∅, validatorCandidates := ∅, atRiskValidators := [], votingPowerAdmissionStartEpoch := none }

/-! ## Adding and removing validators -/

def assertNoPendingOrActiveDuplicates : Except Abort Unit := do
  let duplicate := fun v : ValidatorEntry => v.suiAddress != validator.suiAddress && v.isDuplicate validator
  assert (!self.activeValidators.any duplicate) .duplicateValidator
  assert (!self.pendingActiveValidators.any duplicate) .duplicateValidator

def requestAddValidatorCandidate : Except Abort ValidatorSet := do
  assert self.validatorCandidates[validator.suiAddress]?.isNone .alreadyValidatorCandidate
  assert (findEntry self.activeValidators validator.suiAddress).isNone .alreadyValidator
  assert (findEntry self.pendingActiveValidators validator.suiAddress).isNone .alreadyValidator
  self.assertNoPendingOrActiveDuplicates validator
  assert validator.isPreactive .validatorNotCandidate
  let stakingPoolMappings ← Table.add self.stakingPoolMappings validator.stakingPoolId validator.suiAddress
  let validatorCandidates ← Table.add self.validatorCandidates validator.suiAddress validator
  return { self with stakingPoolMappings, validatorCandidates }

def requestRemoveValidatorCandidate (sender epoch : Nat) : Except Abort ValidatorSet := do
  assert self.validatorCandidates[sender]?.isSome .notValidatorCandidate
  let (validator, validatorCandidates) ← Table.remove self.validatorCandidates sender
  assert validator.isPreactive .validatorNotCandidate
  let (_, stakingPoolMappings) ← Table.remove self.stakingPoolMappings validator.stakingPoolId
  let deactivated ← validator.deactivate epoch
  let inactiveValidators ← Table.add self.inactiveValidators validator.stakingPoolId deactivated
  return { self with validatorCandidates, stakingPoolMappings, inactiveValidators }

/-- The start epoch in `get_voting_power_thresholds`: without an entry the first phase has not started. -/
def admissionStartEpoch (epoch : Nat) : Except Abort Nat :=
  match self.votingPowerAdmissionStartEpoch with
  | some startEpoch => return startEpoch
  | none => add epoch 1

/-- `get_voting_power_thresholds`: the thresholds for joining, for being at risk and for leaving at once. -/
def getVotingPowerThresholds (epoch : Nat) : Except Abort (Nat × Nat × Nat) := do
  let startEpoch ← self.admissionStartEpoch epoch
  let phase2 ← add startEpoch phaseLength
  if epoch < phase2 then return (12, 8, 4)
  else
    let phase3 ← add startEpoch (2 * phaseLength)
    return if epoch < phase3 then (6, 4, 2) else (3, 2, 1)

def canJoin (stake epoch : Nat) : Except Abort Bool := do
  let (minJoiningVotingPower, _, _) ← self.getVotingPowerThresholds epoch
  let futureTotalStake ← add self.totalStake stake
  let futureValidatorVotingPower ← VotingPower.deriveRawVotingPower stake futureTotalStake
  return decide (futureValidatorVotingPower ≥ minJoiningVotingPower)

def requestAddValidator (sender epoch : Nat) : Except Abort ValidatorSet := do
  assert self.validatorCandidates[sender]?.isSome .notValidatorCandidate
  let (validator, validatorCandidates) ← Table.remove self.validatorCandidates sender
  self.assertNoPendingOrActiveDuplicates validator
  assert validator.isPreactive .validatorNotCandidate
  assert (← self.canJoin validator.totalStake epoch) .minJoiningStakeNotReached
  return { self with validatorCandidates, pendingActiveValidators := self.pendingActiveValidators ++ [validator] }

def requestRemoveValidator (sender : Nat) : Except Abort ValidatorSet := do
  let validatorIndex ← expect (findEntry self.activeValidators sender) .notAValidator
  assert (!self.pendingRemovals.contains validatorIndex) .validatorAlreadyRemoved
  return { self with pendingRemovals := self.pendingRemovals ++ [validatorIndex] }

def nextEpochValidatorCount : Except Abort Nat := do
  let remaining ← sub self.activeValidators.length self.pendingRemovals.length
  add remaining self.pendingActiveValidators.length

/-! ## Stakes -/

/-- A change of the validator of `get_candidate_or_active_validator_mut`. -/
def modifyCandidateOrActive {α : Type} (self : ValidatorSet) (validatorAddress : Nat)
    (f : ValidatorEntry → Except Abort (ValidatorEntry × α)) : Except Abort (ValidatorSet × α) :=
  match self.validatorCandidates[validatorAddress]? with
  | some candidate => do
    let (candidate, a) ← f candidate
    return ({ self with validatorCandidates := self.validatorCandidates.insert validatorAddress candidate }, a)
  | none => do
    let idx ← expect (findEntry self.activeValidators validatorAddress) .notAValidator
    let validator ← expect self.activeValidators[idx]? .indexOutOfBounds
    let (validator, a) ← f validator
    return ({ self with activeValidators := self.activeValidators.set idx validator }, a)

def requestAddStake (self : ValidatorSet) (validatorAddress stake epoch : Nat) : Except Abort (ValidatorSet × StakedSui) := do
  assert (stake ≥ minStakingThreshold) .stakingBelowThreshold
  self.modifyCandidateOrActive validatorAddress fun v => v.requestAddStake stake epoch

/-- A change of the validator of a pool, which is in the mappings or inactive. -/
def modifyByPoolId {α : Type} (self : ValidatorSet) (stakingPoolId : Nat)
    (f : ValidatorEntry → Except Abort (ValidatorEntry × α)) : Except Abort (ValidatorSet × α) :=
  match self.stakingPoolMappings[stakingPoolId]? with
  | some validatorAddress => self.modifyCandidateOrActive validatorAddress f
  | none => do
    let validator ← expect self.inactiveValidators[stakingPoolId]? .noPoolFound
    let (validator, a) ← f validator
    return ({ self with inactiveValidators := self.inactiveValidators.insert stakingPoolId validator }, a)

def requestWithdrawStake (self : ValidatorSet) (stakedSui : StakedSui) (epoch : Nat) : Except Abort (ValidatorSet × Nat) :=
  self.modifyByPoolId stakedSui.poolId fun v => v.requestWithdrawStake stakedSui epoch

def convertToFungibleStakedSui (self : ValidatorSet) (stakedSui : StakedSui) (epoch : Nat) :
    Except Abort (ValidatorSet × FungibleStakedSui) :=
  self.modifyByPoolId stakedSui.poolId fun v => v.convertToFungibleStakedSui stakedSui epoch

def redeemFungibleStakedSui (self : ValidatorSet) (fungibleStakedSui : FungibleStakedSui) (epoch : Nat) :
    Except Abort (ValidatorSet × Nat) :=
  self.modifyByPoolId fungibleStakedSui.poolId fun v => v.redeemFungibleStakedSui fungibleStakedSui epoch

/-! ## Departures -/

/-- A record without one of its reporters, which is dropped with the last of them. -/
def withoutReporter (reporter : Nat) (record : Nat × List Nat) : Option (Nat × List Nat) :=
  let reporters := record.2.erase reporter
  if reporters.isEmpty then none else some (record.1, reporters)

/-- `clean_report_records_leaving_validator`: the reports about the validator and the reports of the validator. -/
def cleanReportRecordsLeavingValidator (leavingValidatorAddr : Nat) : ReportRecords :=
  (records.filter fun r => r.1 != leavingValidatorAddr).filterMap fun r =>
    if r.2.contains leavingValidatorAddr then withoutReporter leavingValidatorAddr r else some r

/-- `process_validator_departure`: the stake that is removed is the last component. -/
def processValidatorDeparture (epoch : Nat) : Except Abort (ValidatorSet × ReportRecords × Nat) := do
  let newEpoch ← add epoch 1
  let (_, stakingPoolMappings) ← Table.remove self.stakingPoolMappings validator.stakingPoolId
  let deactivated ← validator.deactivate newEpoch
  let inactiveValidators ← Table.add self.inactiveValidators validator.stakingPoolId deactivated
  return ({ self with
    stakingPoolMappings
    inactiveValidators
    atRiskValidators := self.atRiskValidators.filter fun r => r.1 != validator.suiAddress },
    cleanReportRecordsLeavingValidator records validator.suiAddress, validator.totalStake)

def departAt (index : Nat) (records : ReportRecords) (epoch : Nat) : Except Abort (ValidatorSet × ReportRecords × Nat) := do
  let validator ← expect self.activeValidators[index]? .indexOutOfBounds
  processValidatorDeparture { self with activeValidators := self.activeValidators.eraseIdx index } validator records epoch

/-- `process_pending_removals`: from the largest index on. -/
def processPendingRemovals (epoch : Nat) : Except Abort (ValidatorSet × ReportRecords) :=
  (self.pendingRemovals.insertionSort (· ≤ ·)).reverse.foldlM (fun acc index => do
    let (self, records, _) ← acc.1.departAt index acc.2 epoch
    return (self, records)) ({ self with pendingRemovals := [] }, records)

/-! ## The positions in the next epoch -/

/-- The number of epochs for which a validator has been at risk, with this one. -/
def bumpAtRisk (atRiskValidators : VecMap Nat Nat) (validatorAddress : Nat) : Except Abort (VecMap Nat Nat × Nat) :=
  match atRiskValidators.lookup validatorAddress with
  | some numEpochs => do
    let numEpochs ← add numEpochs 1
    return (atRiskValidators.map fun r => if r.1 == validatorAddress then (r.1, numEpochs) else r, numEpochs)
  | none => return (atRiskValidators ++ [(validatorAddress, 1)], 1)

/-- What the loops of `update_validator_positions_and_calculate_total_stake` change: the set, the records and the removed stake. -/
structure Positions where
  set : ValidatorSet
  records : ReportRecords
  totalRemovedStake : Nat

/-- A departure in the loop. -/
def Positions.depart (p : Positions) (i epoch : Nat) : Except Abort Positions := do
  let (set, records, removedStake) ← p.set.departAt i p.records epoch
  return { set, records, totalRemovedStake := ← add p.totalRemovedStake removedStake }

/-- One active validator in the loop. -/
def Positions.updateOne (lowStakeGracePeriod epoch initialTotalStake low veryLow : Nat) (p : Positions) (i : Nat) :
    Except Abort Positions := do
  let validator ← expect p.set.activeValidators[i]? .indexOutOfBounds
  let votingPower ← VotingPower.deriveRawVotingPower validator.totalStake initialTotalStake
  if votingPower ≥ low then
    return { p with set := { p.set with
      atRiskValidators := p.set.atRiskValidators.filter fun r => r.1 != validator.suiAddress } }
  else if votingPower ≥ veryLow then
    let (atRiskValidators, newLowStakePeriod) ← bumpAtRisk p.set.atRiskValidators validator.suiAddress
    let p := { p with set := { p.set with atRiskValidators } }
    if newLowStakePeriod > lowStakeGracePeriod then p.depart i epoch else return p
  else p.depart i epoch

/-- The loop over the active validators, from the last one on. -/
def Positions.updateActive (lowStakeGracePeriod epoch initialTotalStake low veryLow : Nat) :
    Nat → Positions → Except Abort Positions
  | 0, p => return p
  | i + 1, p => do
    let p ← p.updateOne lowStakeGracePeriod epoch initialTotalStake low veryLow i
    updateActive lowStakeGracePeriod epoch initialTotalStake low veryLow i p

/-- One pending validator: it joins, or it is a candidate again. -/
def Positions.join (epoch initialTotalStake minJoining : Nat) (p : Positions) (validator : ValidatorEntry) :
    Except Abort Positions := do
  let votingPower ← VotingPower.deriveRawVotingPower validator.totalStake initialTotalStake
  if votingPower ≥ minJoining then
    let validator ← validator.activate epoch
    return { p with set := { p.set with activeValidators := p.set.activeValidators ++ [validator] } }
  else
    let validatorCandidates ← Table.add p.set.validatorCandidates validator.suiAddress validator
    return { p with set := { p.set with validatorCandidates }, totalRemovedStake := ← add p.totalRemovedStake validator.totalStake }

/-- `update_validator_positions_and_calculate_total_stake`. The pending validators are taken from the last one on. -/
def updateValidatorPositionsAndCalculateTotalStake (lowStakeGracePeriod : Nat) (records : ReportRecords)
    (epoch : Nat) : Except Abort (ValidatorSet × ReportRecords × Nat) := do
  let pendingActiveValidators := self.pendingActiveValidators.reverse
  let pendingTotalStake ← calculateTotalStakes pendingActiveValidators
  let activeTotalStake ← calculateTotalStakes self.activeValidators
  let initialTotalStake ← add activeTotalStake pendingTotalStake
  let (minJoining, low, veryLow) ← self.getVotingPowerThresholds epoch
  let p : Positions := ⟨{ self with pendingActiveValidators := [] }, records, 0⟩
  let p ← p.updateActive lowStakeGracePeriod epoch initialTotalStake low veryLow self.activeValidators.length
  let p ← pendingActiveValidators.foldlM (Positions.join epoch initialTotalStake minJoining) p
  return (p.set, p.records, ← sub initialTotalStake p.totalRemovedStake)

/-! ## The end of an epoch -/

/-- `compute_slashed_validators`: the records are taken from the last one on. -/
def computeSlashedValidators (activeValidators : List ActiveValidator) (records : ReportRecords) : Except Abort (List Nat) :=
  records.reverse.foldlM (fun slashed record => do
    assert (findValidator activeValidators record.1).isSome .nonValidatorInReportRecords
    let reporterVotes ← sumVotingPowerByAddresses activeValidators record.2
    return if reporterVotes ≥ quorumThreshold then slashed ++ [record.1] else slashed) []

/-- The rewards of an epoch, and the rate at which rewards are slashed. -/
structure EpochRewards where
  computationReward : Nat
  storageFundReward : Nat
  rewardSlashingRate : Nat

/-- The first part of `advance_epoch`: the rewards are distributed and the pending stakes and withdrawals are processed. -/
def processRewardsAndStakes (rewards : EpochRewards) (records : ReportRecords) (epoch : Nat) : Except Abort ValidatorSet := do
  let _ ← add epoch 1
  let active := self.activeValidators.map ValidatorEntry.toActiveValidator
  let slashed ← computeSlashedValidators active records
  let (staking, storageFund) ←
    computeRewards active slashed rewards.rewardSlashingRate rewards.computationReward rewards.storageFundReward
  let distribution ← distributeReward epoch active staking storageFund rewards.computationReward rewards.storageFundReward
  let activeValidators := self.activeValidators.zipWith (fun v a => { v with toActiveValidator := a }) distribution.validators
  let activeValidators ← (activeValidators.map ValidatorEntry.adjustStakeAndGasPrice).mapM fun v =>
    v.processPendingStakesAndWithdraws epoch
  return { self with
    activeValidators
    votingPowerAdmissionStartEpoch := some (self.votingPowerAdmissionStartEpoch.getD epoch) }

/-- The second part of `advance_epoch`: the validators leave and join. -/
def changeValidators (lowStakeGracePeriod : Nat) (records : ReportRecords) (epoch : Nat) :
    Except Abort (ValidatorSet × ReportRecords × Nat) := do
  let (self, records) ← self.processPendingRemovals records epoch
  self.updateValidatorPositionsAndCalculateTotalStake lowStakeGracePeriod records epoch

def advanceEpoch (rewards : EpochRewards) (lowStakeGracePeriod : Nat) (records : ReportRecords) (epoch : Nat) :
    Except Abort (ValidatorSet × ReportRecords) := do
  let self ← self.processRewardsAndStakes rewards records epoch
  let (self, records, newTotalStake) ← self.changeValidators lowStakeGracePeriod records epoch
  let activeValidators ← setVotingPowers self.activeValidators newTotalStake
  return ({ self with
    totalStake := newTotalStake
    activeValidators := activeValidators.map ValidatorEntry.effectuateStagedMetadata }, records)

/-- A change of the validator of `any_validator_mut`. -/
def modifyAny (validator : Nat) (f : ValidatorEntry → ValidatorEntry) : Except Abort ValidatorSet :=
  match findEntry self.activeValidators validator with
  | some idx => return { self with activeValidators := self.activeValidators.modify idx f }
  | none =>
    match findEntry self.pendingActiveValidators validator with
    | some idx => return { self with pendingActiveValidators := self.pendingActiveValidators.modify idx f }
    | none => do
      let candidate ← expect self.validatorCandidates[validator]? .fieldDoesNotExist
      return { self with validatorCandidates := self.validatorCandidates.insert validator (f candidate) }

def liveValidators : List ValidatorEntry :=
  self.activeValidators ++ self.pendingActiveValidators ++ BTreeMap.values self.validatorCandidates

def allValidators : List ValidatorEntry := self.liveValidators ++ BTreeMap.values self.inactiveValidators

end ValidatorSet

/-! ## The system state -/

/-- `SystemParametersV2`: the parameters of the validator committee. -/
structure SystemParameters where
  minValidatorCount : Nat
  maxValidatorCount : Nat
  validatorLowStakeGracePeriod : Nat

/-- `SuiSystemStateInnerV2`: the validators, the reports of the epoch and the epoch. -/
structure SystemState where
  validators : ValidatorSet
  validatorReportRecords : ReportRecords
  epoch : Nat

/-- The calls that change the validators. All setters are one call with any values; the rewards of an epoch are those of
`validator_set::advance_epoch`. -/
inductive EntryPoint where
  | requestAddValidatorCandidate (sender poolId commissionRate : Nat) (metadata : ValidatorMetadata)
  | requestRemoveValidatorCandidate (sender : Nat)
  | requestAddValidator (sender : Nat)
  | requestRemoveValidator (sender : Nat)
  | setValidator (validator : Nat) (metadata : ValidatorMetadata) (commissionRate nextEpochCommissionRate : Nat)
  | requestAddStake (validatorAddress stake : Nat)
  | requestWithdrawStake (stakedSui : StakedSui)
  | convertToFungibleStakedSui (stakedSui : StakedSui)
  | redeemFungibleStakedSui (fungibleStakedSui : FungibleStakedSui)
  | reportValidator (reporter reportee : Nat)
  | undoReportValidator (reporter reportee : Nat)
  | advanceEpoch (rewards : ValidatorSet.EpochRewards)
  /-- The end of an epoch in safe mode, which does not touch the validators. -/
  | advanceEpochSafeMode

namespace SystemState

/-- `create`, with the validators of genesis. -/
def genesis : Except Abort SystemState := do
  return ⟨← new validators, [], 0⟩

def reportValidator (self : SystemState) (reporter reportee : Nat) : Except Abort SystemState := do
  assert (findEntry self.validators.activeValidators reportee).isSome .notValidator
  assert (findEntry self.validators.activeValidators reporter).isSome .notAValidator
  assert (reporter != reportee) .cannotReportOneself
  match self.validatorReportRecords.lookup reportee with
  | none => return { self with validatorReportRecords := self.validatorReportRecords ++ [(reportee, [reporter])] }
  | some reporters =>
    if reporters.contains reporter then return self
    else return { self with validatorReportRecords :=
      self.validatorReportRecords.map fun r => if r.1 == reportee then (r.1, r.2 ++ [reporter]) else r }

def undoReportValidator (self : SystemState) (reporter reportee : Nat) : Except Abort SystemState := do
  assert (findEntry self.validators.activeValidators reporter).isSome .notAValidator
  let reporters ← expect (self.validatorReportRecords.lookup reportee) .reportRecordNotFound
  assert (reporters.contains reporter) .reportRecordNotFound
  return { self with validatorReportRecords := self.validatorReportRecords.filterMap fun r =>
    if r.1 == reportee then withoutReporter reporter r else some r }

def call (params : SystemParameters) (self : SystemState) : EntryPoint → Except Abort SystemState
  | .requestAddValidatorCandidate sender poolId commissionRate metadata => do
    let validators ← self.validators.requestAddValidatorCandidate (.new sender poolId commissionRate metadata)
    return { self with validators }
  | .requestRemoveValidatorCandidate sender => do
    let validators ← self.validators.requestRemoveValidatorCandidate sender self.epoch
    return { self with validators }
  | .requestAddValidator sender => do
    assert ((← self.validators.nextEpochValidatorCount) < params.maxValidatorCount) .limitExceeded
    let validators ← self.validators.requestAddValidator sender self.epoch
    return { self with validators }
  | .requestRemoveValidator sender => do
    assert (self.validators.activeValidators.length < params.minValidatorCount ||
      (← self.validators.nextEpochValidatorCount) > params.minValidatorCount) .limitExceeded
    let validators ← self.validators.requestRemoveValidator sender
    return { self with validators }
  | .setValidator validator metadata commissionRate nextEpochCommissionRate => do
    let validators ← self.validators.modifyAny validator fun v => { v with metadata, commissionRate, nextEpochCommissionRate }
    return { self with validators }
  | .requestAddStake validatorAddress stake => do
    let (validators, _) ← self.validators.requestAddStake validatorAddress stake self.epoch
    return { self with validators }
  | .requestWithdrawStake stakedSui => do
    let (validators, _) ← self.validators.requestWithdrawStake stakedSui self.epoch
    return { self with validators }
  | .convertToFungibleStakedSui stakedSui => do
    let (validators, _) ← self.validators.convertToFungibleStakedSui stakedSui self.epoch
    return { self with validators }
  | .redeemFungibleStakedSui fungibleStakedSui => do
    let (validators, _) ← self.validators.redeemFungibleStakedSui fungibleStakedSui self.epoch
    return { self with validators }
  | .reportValidator reporter reportee => self.reportValidator reporter reportee
  | .undoReportValidator reporter reportee => self.undoReportValidator reporter reportee
  | .advanceEpoch rewards => do
    assert (rewards.rewardSlashingRate ≤ basisPointDenominator) .bpsTooLarge
    let epoch ← add self.epoch 1
    let (validators, validatorReportRecords) ← self.validators.advanceEpoch rewards params.validatorLowStakeGracePeriod
      self.validatorReportRecords self.epoch
    return { validators, validatorReportRecords, epoch }
  | .advanceEpochSafeMode => do
    let epoch ← add self.epoch 1
    return { self with epoch }

/-- The pool of a new candidate has a new id. -/
def Admissible (self : SystemState) : EntryPoint → Prop
  | .requestAddValidatorCandidate _ poolId _ _ => ∀ v ∈ self.validators.allValidators, v.stakingPoolId ≠ poolId
  | _ => True

instance (self : SystemState) (c : EntryPoint) : Decidable (self.Admissible c) := by
  cases c <;> unfold Admissible <;> infer_instance

end SystemState

/-- The states that the calls lead to, from validators of genesis that have different addresses. -/
inductive SystemRun (params : SystemParameters) : SystemState → Prop
  | genesis {validators : List ValidatorEntry} {s : SystemState} (haddress : (validators.map fun v => v.suiAddress).Nodup)
      (hpool : ∀ v ∈ validators, v.stakingPool.isInactive = false) (h : SystemState.genesis validators = .ok s) : SystemRun params s
  | call {s s' : SystemState} (c : EntryPoint) (hs : SystemRun params s) (hadm : s.Admissible c) (hc : s.call params c = .ok s') :
      SystemRun params s'

namespace SystemState

/-- A sequence of calls, if all of them are admissible and none of them aborts. -/
def calls (params : SystemParameters) (self : SystemState) : List EntryPoint → Option SystemState
  | [] => some self
  | c :: cs =>
    if self.Admissible c then
      match self.call params c with
      | .ok next => next.calls params cs
      | .error _ => none
    else none

theorem calls_run {params : SystemParameters} {s s' : SystemState} (hs : SystemRun params s) (cs : List EntryPoint)
    (h : s.calls params cs = some s') : SystemRun params s' := by
  induction cs generalizing s with
  | nil => exact Option.some.inj h ▸ hs
  | cons c _ ih =>
    rw [calls] at h
    split at h
    · rename_i hadm
      split at h
      · rename_i s1 hc
        exact ih (hs.call c hadm hc) h
      · cases h
    · cases h

end SystemState

end Sui

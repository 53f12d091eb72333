import Sui.System.StakingPool
import Sui.System.VotingPower

/-!
# The rewards of the validators

`sui-system/sources/validator_set.move`, from `advance_epoch`: the computation rewards of an epoch are shared by voting power
and the rewards of the storage fund equally, slashed validators lose a part to the others, and the amounts are split off the two
balances. Events are left out.
-/

namespace Sui

open Library Checked

/-- `Validator`, in the active set. -/
structure ActiveValidator where
  suiAddress : Nat
  votingPower : Nat
  commissionRate : Nat
  nextEpochStake : Nat
  stakingPool : StakingPool

namespace ActiveValidator

def requestAddStake (v : ActiveValidator) (stake epoch : Nat) : Except Abort (ActiveValidator × StakedSui) := do
  let (stakingPool, stakedSui) ← v.stakingPool.validatorRequestAddStake stake epoch
  let nextEpochStake ← U64.add v.nextEpochStake stake
  return ({ v with stakingPool, nextEpochStake }, stakedSui)

def depositStakeRewards (v : ActiveValidator) (reward : Nat) : Except Abort ActiveValidator := do
  let nextEpochStake ← U64.add v.nextEpochStake reward
  let stakingPool ← v.stakingPool.depositRewards reward
  return { v with nextEpochStake, stakingPool }

end ActiveValidator

namespace ValidatorSet

def basisPointDenominator : Nat := 10000

/-! ## Validators by address -/

variable (validators : List ActiveValidator)

def findValidator (validatorAddress : Nat) : Option Nat :=
  validators.findIdx? fun v => v.suiAddress == validatorAddress

def getValidatorIndices (validatorAddresses : List Nat) : Except Abort (List Nat) :=
  validatorAddresses.mapM fun a => expect (findValidator validators a) .notAValidator

def getValidatorRef (validatorAddress : Nat) : Except Abort ActiveValidator := do
  let idx ← expect (findValidator validators validatorAddress) .notAValidator
  expect validators[idx]? .indexOutOfBounds

def sumVotingPowerByAddresses (vs : List ActiveValidator) (addresses : List Nat) : Except Abort Nat :=
  addresses.foldlM (fun sum addr => do
    let validator ← getValidatorRef vs addr
    U64.add sum validator.votingPower) 0

/-! ## The amounts -/

/-- `compute_unadjusted_reward_distribution`: the staking rewards and the storage fund rewards before slashing. -/
def computeUnadjustedRewardDistribution
    (totalVotingPower totalStakingReward totalStorageFundReward : Nat) : Except Abort (List Nat × List Nat) := do
  let storageFundRewardPerValidator ← Word.div .divisionByZero totalStorageFundReward validators.length
  let stakingRewardAmounts ← validators.mapM fun v => U64.mulDiv v.votingPower totalStakingReward totalVotingPower
  return (stakingRewardAmounts, validators.map fun _ => storageFundRewardPerValidator)

/-- The adjustments of one kind of rewards: their sum, and the one of each slashed validator by its index. -/
structure RewardAdjustments where
  total : Nat
  individual : VecMap Nat Nat

/-- One validator in `compute_reward_adjustments`, for one kind of rewards. -/
def adjustReward (rewardSlashingRate : Nat) (unadjustedAmounts : List Nat) (adjustments : RewardAdjustments) (validatorIndex : Nat) :
    Except Abort RewardAdjustments := do
  let unadjusted ← expect unadjustedAmounts[validatorIndex]? .indexOutOfBounds
  let adjustment ← U64.mulDiv unadjusted rewardSlashingRate basisPointDenominator
  let individual ← adjustments.individual.insert validatorIndex adjustment
  let total ← U64.add adjustments.total adjustment
  return { total, individual }

/-- `compute_reward_adjustments`: the adjustments of the staking rewards and of the storage fund rewards. -/
def computeRewardAdjustments (slashedValidatorIndices : List Nat) (rewardSlashingRate : Nat)
    (unadjustedStakingRewardAmounts unadjustedStorageFundRewardAmounts : List Nat) :
    Except Abort (RewardAdjustments × RewardAdjustments) :=
  slashedValidatorIndices.foldlM (fun acc validatorIndex => do
    let staking ← adjustReward rewardSlashingRate unadjustedStakingRewardAmounts acc.1 validatorIndex
    let storageFund ← adjustReward rewardSlashingRate unadjustedStorageFundRewardAmounts acc.2 validatorIndex
    return (staking, storageFund)) (⟨0, []⟩, ⟨0, []⟩)

/-- One amount in `compute_adjusted_reward_distribution`, with a share of all adjustments for one that is not slashed. -/
def adjustedAmount (individual : VecMap Nat Nat) (i : Nat) (unadjustedAmounts : List Nat) (share : Except Abort Nat) :
    Except Abort Nat := do
  let unadjusted ← expect unadjustedAmounts[i]? .indexOutOfBounds
  match individual.lookup i with
  | some adjustment => U64.sub unadjusted adjustment
  | none => do
    let adjustment ← share
    U64.add unadjusted adjustment

def computeAdjustedRewardDistribution (totalVotingPower totalSlashedValidatorVotingPower : Nat)
    (unadjustedStakingRewardAmounts unadjustedStorageFundRewardAmounts : List Nat) (staking storageFund : RewardAdjustments) :
    Except Abort (List Nat × List Nat) := do
  let totalUnslashedValidatorVotingPower ← U64.sub totalVotingPower totalSlashedValidatorVotingPower
  let numUnslashedValidators ← U64.sub validators.length staking.individual.length
  let amounts ← validators.zipIdx.mapM fun p => do
    let stakingAmount ← adjustedAmount staking.individual p.2 unadjustedStakingRewardAmounts
      (U64.mulDiv staking.total p.1.votingPower totalUnslashedValidatorVotingPower)
    let storageFundAmount ← adjustedAmount storageFund.individual p.2 unadjustedStorageFundRewardAmounts
      (Word.div .divisionByZero storageFund.total numUnslashedValidators)
    return (stakingAmount, storageFundAmount)
  return amounts.unzip

/-- The part of `advance_epoch` that computes the amounts. -/
def computeRewards (activeValidators : List ActiveValidator) (slashedValidators : List Nat)
    (rewardSlashingRate computationReward storageFundReward : Nat) : Except Abort (List Nat × List Nat) := do
  let (unadjustedStaking, unadjustedStorageFund) ← computeUnadjustedRewardDistribution activeValidators VotingPower.totalVotingPower
    computationReward storageFundReward
  let totalSlashedValidatorVotingPower ← sumVotingPowerByAddresses activeValidators slashedValidators
  let indices ← getValidatorIndices activeValidators slashedValidators
  let (staking, storageFund) ← computeRewardAdjustments indices rewardSlashingRate unadjustedStaking unadjustedStorageFund
  computeAdjustedRewardDistribution activeValidators VotingPower.totalVotingPower totalSlashedValidatorVotingPower unadjustedStaking
    unadjustedStorageFund staking storageFund

/-! ## The distribution -/

/-- The validators that got their rewards, the stakes sent to them, and the rest of both balances. -/
structure Distribution where
  validators : List ActiveValidator
  stakes : List StakedSui
  stakingRewards : Nat
  storageFundReward : Nat

/-- The reward of a validator, which is staked unless it is zero. -/
def stakeReward (validator : ActiveValidator) (validatorReward epoch : Nat) : Except Abort (ActiveValidator × List StakedSui) :=
  if validatorReward > 0 then do
    let (validator, rewardsStake) ← validator.requestAddStake validatorReward epoch
    return (validator, [rewardsStake])
  else return (validator, [])

/-- One validator in `distribute_reward`. -/
def distributeOne (epoch : Nat) (adjustedStakingRewardAmounts adjustedStorageFundRewardAmounts : List Nat) (d : Distribution)
    (p : ActiveValidator × Nat) : Except Abort Distribution := do
  let stakingRewardAmount ← expect adjustedStakingRewardAmounts[p.2]? .indexOutOfBounds
  let stakingRewards ← Balance.split d.stakingRewards stakingRewardAmount
  let validatorCommissionAmount ← U64.mulDiv stakingRewardAmount p.1.commissionRate basisPointDenominator
  let stakerReward ← Balance.split stakingRewardAmount validatorCommissionAmount
  let storageFundAmount ← expect adjustedStorageFundRewardAmounts[p.2]? .indexOutOfBounds
  let storageFundReward ← Balance.split d.storageFundReward storageFundAmount
  let validatorReward ← U64.add validatorCommissionAmount storageFundAmount
  let (validator, stake) ← stakeReward p.1 validatorReward epoch
  let validator ← validator.depositStakeRewards stakerReward
  return { validators := d.validators ++ [validator], stakes := d.stakes ++ stake, stakingRewards, storageFundReward }

def distributeReward (epoch : Nat) (validators : List ActiveValidator)
    (adjustedStakingRewardAmounts adjustedStorageFundRewardAmounts : List Nat) (stakingRewards storageFundReward : Nat) : Except Abort Distribution := do
  assert (validators.length > 0) .validatorSetEmpty
  validators.zipIdx.foldlM (distributeOne epoch adjustedStakingRewardAmounts adjustedStorageFundRewardAmounts)
    ⟨[], [], stakingRewards, storageFundReward⟩

end ValidatorSet

end Sui

import Sui.System.Move

/-!
# Staking pools

`sui-system/sources/staking_pool.move`: the pool of a validator, the stakes in it and the fungible tokens that stakes can be
converted to. Of the bag of extra fields the two entries that the module uses are kept, and the epoch of a transaction is an
argument. `deactivate_staking_pool`, the functions that split and join stakes and the getters are left out.
-/

namespace Sui

open Library Checked U64

structure PoolTokenExchangeRate where
  suiAmount : Nat
  poolTokenAmount : Nat
deriving DecidableEq, Repr

/-- `StakedSui`: a stake in a pool. -/
structure StakedSui where
  poolId : Nat
  stakeActivationEpoch : Nat
  principal : Nat
deriving DecidableEq, Repr

/-- `FungibleStakedSui`: an amount of pool tokens. -/
structure FungibleStakedSui where
  poolId : Nat
  value : Nat
deriving DecidableEq, Repr

/-- `FungibleStakedSuiData`: the supply of the fungible tokens and the principal behind them. -/
structure FungibleStakedSuiData where
  totalSupply : Nat
  principal : Nat
deriving DecidableEq, Repr

/-- `StakingPool`. The entries of `extra_fields` are the last two fields. -/
structure StakingPool where
  id : Nat
  activationEpoch : Option Nat
  deactivationEpoch : Option Nat
  suiBalance : Nat
  rewardsPool : Nat
  poolTokenBalance : Nat
  exchangeRates : BTreeMap Nat PoolTokenExchangeRate
  pendingStake : Nat
  pendingTotalSuiWithdraw : Nat
  pendingPoolTokenWithdraw : Nat
  fungibleStakedSuiData : Option FungibleStakedSuiData
  underflowSuiBalance : Option Nat

variable (pool : StakingPool) (stakedSui : StakedSui) (epoch : Nat) (rate : PoolTokenExchangeRate)

namespace PoolTokenExchangeRate

/-- `initial_exchange_rate`. -/
def initial : PoolTokenExchangeRate := ⟨0, 0⟩

def getSuiAmount (tokenAmount : Nat) : Except Abort Nat :=
  if rate.suiAmount = 0 ∨ rate.poolTokenAmount = 0 then return tokenAmount
  else mulDiv rate.suiAmount tokenAmount rate.poolTokenAmount

def getTokenAmount (suiAmount : Nat) : Except Abort Nat :=
  if rate.suiAmount = 0 ∨ rate.poolTokenAmount = 0 then return suiAmount
  else mulDiv rate.poolTokenAmount suiAmount rate.suiAmount

/-- `calculate_fungible_staked_sui_withdraw_amount`: the principal and the rewards for an amount of fungible tokens. -/
def calculateFungibleStakedSuiWithdrawAmount (latestExchangeRate : PoolTokenExchangeRate)
    (fungibleStakedSuiValue principalAmount totalSupply : Nat) : Except Abort (Nat × Nat) := do
  let totalSuiAmount ← latestExchangeRate.getSuiAmount totalSupply
  let principalAmount := min principalAmount totalSuiAmount
  let totalRewards ← sub totalSuiAmount principalAmount
  let principalWithdrawAmount ← mulDiv fungibleStakedSuiValue principalAmount totalSupply
  let rewardsWithdrawAmount ← mulDiv fungibleStakedSuiValue totalRewards totalSupply
  let expectedSuiAmount ← latestExchangeRate.getSuiAmount fungibleStakedSuiValue
  let withdrawAmount ← add principalWithdrawAmount rewardsWithdrawAmount
  assert (withdrawAmount ≤ expectedSuiAmount) .invariantFailure
  return (principalWithdrawAmount, rewardsWithdrawAmount)

end PoolTokenExchangeRate

namespace StakingPool

/-- `new`: an empty pool. -/
def new (id : Nat) : StakingPool where
  id
  activationEpoch := none
  deactivationEpoch := none
  suiBalance := 0
  rewardsPool := 0
  poolTokenBalance := 0
  exchangeRates := ∅
  pendingStake := 0
  pendingTotalSuiWithdraw := 0
  pendingPoolTokenWithdraw := 0
  fungibleStakedSuiData := none
  underflowSuiBalance := none

def isPreactive : Bool := pool.activationEpoch.isNone

def isInactive : Bool := pool.deactivationEpoch.isSome

def isPreactiveAtEpoch : Bool := pool.activationEpoch.elim true fun a => a > epoch

/-! ## Exchange rates -/

/-- The loop of `pool_token_exchange_rate_at_epoch`: the latest entry from the activation epoch to an epoch. -/
def exchangeRateLoop (rates : BTreeMap Nat PoolTokenExchangeRate) (activationEpoch : Nat) :
    Nat → Except Abort PoolTokenExchangeRate
  | 0 =>
    if 0 ≥ activationEpoch then
      match rates[0]? with
      | some rate => return rate
      | none => throw .underflow
    else return .initial
  | epoch + 1 =>
    if epoch + 1 ≥ activationEpoch then
      match rates[epoch + 1]? with
      | some rate => return rate
      | none => exchangeRateLoop rates activationEpoch epoch
    else return .initial

def poolTokenExchangeRateAtEpoch : Except Abort PoolTokenExchangeRate :=
  if pool.isPreactiveAtEpoch epoch then return .initial
  else
    let clampedEpoch := pool.deactivationEpoch.getD epoch
    exchangeRateLoop pool.exchangeRates (pool.activationEpoch.getD 0) (min clampedEpoch epoch)

def checkBalanceInvariants : Except Abort Unit := do
  let exchangeRate ← pool.poolTokenExchangeRateAtEpoch epoch
  let expected ← exchangeRate.getTokenAmount pool.suiBalance
  assert (expected = pool.poolTokenBalance) .tokenBalancesDoNotMatchExchangeRate

/-! ## Stake requests -/

def requestAddStake (stake stakeActivationEpoch : Nat) : Except Abort (StakingPool × StakedSui) := do
  assert (!pool.isInactive) .delegationToInactivePool
  assert (stake > 0) .delegationOfZeroSui
  let pendingStake ← add pool.pendingStake stake
  return ({ pool with pendingStake }, { poolId := pool.id, stakeActivationEpoch, principal := stake })

/-- `withdraw_from_principal`: the pool tokens and the principal of a stake. -/
def withdrawFromPrincipal : Except Abort (Nat × Nat) := do
  assert (stakedSui.poolId = pool.id) .wrongPool
  let exchangeRate ← pool.poolTokenExchangeRateAtEpoch stakedSui.stakeActivationEpoch
  let poolTokenWithdrawAmount ← exchangeRate.getTokenAmount stakedSui.principal
  return (poolTokenWithdrawAmount, stakedSui.principal)

/-- `withdraw_rewards`: the rewards of a stake, at most what is in the rewards pool. -/
def withdrawRewards (principalWithdrawAmount poolTokenWithdrawAmount epoch : Nat) : Except Abort (StakingPool × Nat) := do
  let exchangeRate ← pool.poolTokenExchangeRateAtEpoch epoch
  let totalSuiWithdrawAmount ← exchangeRate.getSuiAmount poolTokenWithdrawAmount
  let rewardWithdrawAmount := min (totalSuiWithdrawAmount - principalWithdrawAmount) pool.rewardsPool
  let rewardsPool ← Balance.split pool.rewardsPool rewardWithdrawAmount
  return ({ pool with rewardsPool }, rewardWithdrawAmount)

/-- The SUI balance in `process_pending_stake_withdraw`, and the amount by which it underflows. -/
def withdrawnBalance : Except Abort (Nat × Option Nat) :=
  if pool.suiBalance ≥ pool.pendingTotalSuiWithdraw then
    return (pool.suiBalance - pool.pendingTotalSuiWithdraw, pool.underflowSuiBalance)
  else if pool.isInactive then
    return (0, pool.underflowSuiBalance)
  else do
    assert pool.underflowSuiBalance.isNone .fieldAlreadyExists
    return (0, some (pool.pendingTotalSuiWithdraw - pool.suiBalance))

def processPendingStakeWithdraw : Except Abort StakingPool := do
  let (suiBalance, underflowSuiBalance) ← pool.withdrawnBalance
  return { pool with
    suiBalance
    underflowSuiBalance
    poolTokenBalance := pool.poolTokenBalance - pool.pendingPoolTokenWithdraw
    pendingTotalSuiWithdraw := 0
    pendingPoolTokenWithdraw := 0 }

/-- The withdrawal of a stake whose activation epoch is not later, in `request_withdraw_stake`. -/
def withdrawActiveStake : Except Abort (StakingPool × Nat) := do
  let (poolTokenWithdrawAmount, principalWithdrawAmount) ← pool.withdrawFromPrincipal stakedSui
  let (pool, rewardsWithdraw) ← pool.withdrawRewards principalWithdrawAmount poolTokenWithdrawAmount epoch
  let totalSuiWithdrawAmount ← add principalWithdrawAmount rewardsWithdraw
  let pendingTotalSuiWithdraw ← add pool.pendingTotalSuiWithdraw totalSuiWithdrawAmount
  let pendingPoolTokenWithdraw ← add pool.pendingPoolTokenWithdraw poolTokenWithdrawAmount
  return ({ pool with pendingTotalSuiWithdraw, pendingPoolTokenWithdraw }, totalSuiWithdrawAmount)

/-- `request_withdraw_stake`: the SUI that is withdrawn is the second component. -/
def requestWithdrawStake : Except Abort (StakingPool × Nat) :=
  if stakedSui.stakeActivationEpoch > epoch ∧ pool.isPreactive = false then do
    let pendingStake ← sub pool.pendingStake stakedSui.principal
    return ({ pool with pendingStake }, stakedSui.principal)
  else do
    let (pool, withdrawn) ← pool.withdrawActiveStake stakedSui epoch
    if pool.isInactive || pool.isPreactive then
      return (← pool.processPendingStakeWithdraw, withdrawn)
    else
      return (pool, withdrawn)

/-! ## Fungible tokens -/

def redeemFungibleStakedSui (fungibleStakedSui : FungibleStakedSui) (epoch : Nat) : Except Abort (StakingPool × Nat) := do
  assert (fungibleStakedSui.poolId = pool.id) .wrongPool
  let latestExchangeRate ← pool.poolTokenExchangeRateAtEpoch epoch
  let data ← expect pool.fungibleStakedSuiData .fieldDoesNotExist
  let (principalAmount, rewardsAmount) ← latestExchangeRate.calculateFungibleStakedSuiWithdrawAmount
    fungibleStakedSui.value data.principal data.totalSupply
  let totalSupply ← sub data.totalSupply fungibleStakedSui.value
  let principal ← Balance.split data.principal principalAmount
  let rewardsPool ← Balance.split pool.rewardsPool rewardsAmount
  let suiOut ← add principalAmount rewardsAmount
  let pendingTotalSuiWithdraw ← add pool.pendingTotalSuiWithdraw suiOut
  let pendingPoolTokenWithdraw ← add pool.pendingPoolTokenWithdraw fungibleStakedSui.value
  return ({ pool with
    fungibleStakedSuiData := some { totalSupply, principal }
    rewardsPool
    pendingTotalSuiWithdraw
    pendingPoolTokenWithdraw }, suiOut)

/-- The supply and the principal of the fungible tokens after a conversion. -/
def addFungible (data : Option FungibleStakedSuiData) (poolTokenAmount principal : Nat) : Except Abort FungibleStakedSuiData :=
  match data with
  | none => return { totalSupply := poolTokenAmount, principal }
  | some data => do
    let totalSupply ← add data.totalSupply poolTokenAmount
    let principal ← add data.principal principal
    return { totalSupply, principal }

def convertToFungibleStakedSui : Except Abort (StakingPool × FungibleStakedSui) := do
  assert (stakedSui.poolId = pool.id) .wrongPool
  assert (epoch ≥ stakedSui.stakeActivationEpoch) .cannotMintFungibleStakedSuiYet
  assert (!pool.isPreactive && !pool.isInactive) .poolPreactiveOrInactive
  let exchangeRate ← pool.poolTokenExchangeRateAtEpoch stakedSui.stakeActivationEpoch
  let poolTokenAmount ← exchangeRate.getTokenAmount stakedSui.principal
  assert (poolTokenAmount > 0) .stakedSuiBelowThreshold
  let data ← addFungible pool.fungibleStakedSuiData poolTokenAmount stakedSui.principal
  return ({ pool with fungibleStakedSuiData := some data }, { poolId := stakedSui.poolId, value := poolTokenAmount })

/-! ## Epoch boundaries -/

def depositRewards (rewards : Nat) : Except Abort StakingPool := do
  let suiBalance ← add pool.suiBalance rewards
  let rewardsPool ← add pool.rewardsPool rewards
  return { pool with suiBalance, rewardsPool }

def processPendingStake : Except Abort StakingPool := do
  let latestExchangeRate : PoolTokenExchangeRate := ⟨pool.suiBalance, pool.poolTokenBalance⟩
  let suiDiff := pool.underflowSuiBalance.getD 0
  let suiBalance ← add pool.suiBalance pool.pendingStake
  let suiBalance ← sub suiBalance suiDiff
  let poolTokenBalance ← latestExchangeRate.getTokenAmount suiBalance
  return { pool with underflowSuiBalance := none, suiBalance, poolTokenBalance, pendingStake := 0 }

/-- `Table::add` of an exchange rate. -/
def addExchangeRate : Except Abort StakingPool := do
  assert pool.exchangeRates[epoch]?.isNone .fieldAlreadyExists
  return { pool with exchangeRates := pool.exchangeRates.insert epoch rate }

def processPendingStakesAndWithdraws : Except Abort StakingPool := do
  let newEpoch ← add epoch 1
  let pool ← pool.processPendingStakeWithdraw
  let pool ← pool.processPendingStake
  let pool ← pool.addExchangeRate newEpoch ⟨pool.suiBalance, pool.poolTokenBalance⟩
  pool.checkBalanceInvariants newEpoch
  return pool

def activateStakingPool (activationEpoch : Nat) : Except Abort StakingPool := do
  let pool ← pool.addExchangeRate activationEpoch .initial
  assert pool.isPreactive .poolAlreadyActive
  assert (!pool.isInactive) .activationOfInactivePool
  return { pool with activationEpoch := some activationEpoch }

/-- The part of `Validator::request_add_stake` about the pool: a stake in a pool that is not active yet is processed right away. -/
def validatorRequestAddStake (stake epoch : Nat) : Except Abort (StakingPool × StakedSui) := do
  assert (stake > 0) .invalidStakeAmount
  let stakeEpoch ← add epoch 1
  let (pool, stakedSui) ← pool.requestAddStake stake stakeEpoch
  if pool.isPreactive then
    return (← pool.processPendingStake, stakedSui)
  else
    return (pool, stakedSui)

/-- The part of `Validator::request_add_stake_at_genesis` about the pool. -/
def validatorRequestAddStakeAtGenesis (stake epoch : Nat) : Except Abort (StakingPool × StakedSui) := do
  assert (epoch = 0) .calledDuringNonGenesis
  assert (stake > 0) .invalidStakeAmount
  let (pool, stakedSui) ← pool.requestAddStake stake 0
  return (← pool.processPendingStake, stakedSui)

end StakingPool

end Sui

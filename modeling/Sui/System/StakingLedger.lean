import Sui.System.StakingPool

/-!
# A pool and the stakes in it

A staking pool with everything that was staked in it and not withdrawn yet, and the calls that `validator.move`,
`validator_set.move` and `genesis.move` make on a pool that is not deactivated: stakes and withdrawals during an epoch, rewards
and the processing of the pending amounts at its end, the activation of a pool, and an epoch that ends without any call (a pool
that is not active, or safe mode).
-/

namespace Sui

open Library

/-- A pool, the epoch, and the stakes and the fungible tokens of the pool that are outstanding. -/
structure StakingLedger where
  pool : StakingPool
  epoch : Nat
  staked : List StakedSui
  fungible : List FungibleStakedSui

/-- A call on the pool, or the end of an epoch. -/
inductive PoolCall where
  | requestAddStake (stake : Nat)
  | requestAddStakeAtGenesis (stake : Nat)
  | requestWithdrawStake (stakedSui : StakedSui)
  | convertToFungibleStakedSui (stakedSui : StakedSui)
  | redeemFungibleStakedSui (fungibleStakedSui : FungibleStakedSui)
  | depositRewards (rewards : Nat)
  /-- The end of an epoch in which the pool is active. -/
  | advanceEpoch
  /-- The end of an epoch in which the pool becomes active. -/
  | activate
  | activateAtGenesis
  /-- The end of an epoch that does not touch the pool. -/
  | skipEpoch

namespace StakingLedger

/-- A new pool. -/
def new (id epoch : Nat) : StakingLedger := ⟨.new id, epoch, [], []⟩

def call (l : StakingLedger) : PoolCall → Except Abort StakingLedger
  | .requestAddStake stake => do
    let (pool, stakedSui) ← l.pool.validatorRequestAddStake stake l.epoch
    return { l with pool, staked := stakedSui :: l.staked }
  | .requestAddStakeAtGenesis stake => do
    let (pool, stakedSui) ← l.pool.validatorRequestAddStakeAtGenesis stake l.epoch
    return { l with pool, staked := stakedSui :: l.staked }
  | .requestWithdrawStake stakedSui => do
    let (pool, _) ← l.pool.requestWithdrawStake stakedSui l.epoch
    return { l with pool, staked := l.staked.erase stakedSui }
  | .convertToFungibleStakedSui stakedSui => do
    let (pool, fungibleStakedSui) ← l.pool.convertToFungibleStakedSui stakedSui l.epoch
    return { l with pool, staked := l.staked.erase stakedSui, fungible := fungibleStakedSui :: l.fungible }
  | .redeemFungibleStakedSui fungibleStakedSui => do
    let (pool, _) ← l.pool.redeemFungibleStakedSui fungibleStakedSui l.epoch
    return { l with pool, fungible := l.fungible.erase fungibleStakedSui }
  | .depositRewards rewards => do
    let pool ← l.pool.depositRewards rewards
    return { l with pool }
  | .advanceEpoch => do
    let pool ← l.pool.processPendingStakesAndWithdraws l.epoch
    return { l with pool, epoch := l.epoch + 1 }
  | .activate => do
    let pool ← l.pool.activateStakingPool l.epoch
    return { l with pool, epoch := l.epoch + 1 }
  | .activateAtGenesis => do
    let pool ← l.pool.activateStakingPool 0
    return { l with pool }
  | .skipEpoch => return { l with epoch := l.epoch + 1 }

/-- The callers' discipline: what is presented is outstanding, the end of an epoch is for active pools and only safe mode skips
one, and the calls of genesis come first. -/
def Admissible (safeMode : Bool) (l : StakingLedger) : PoolCall → Prop
  | .requestAddStake _ | .activate => True
  | .requestAddStakeAtGenesis _ => l.pool.isPreactive = true
  | .requestWithdrawStake stakedSui | .convertToFungibleStakedSui stakedSui => stakedSui ∈ l.staked
  | .redeemFungibleStakedSui fungibleStakedSui => fungibleStakedSui ∈ l.fungible
  | .depositRewards _ | .advanceEpoch => l.pool.isPreactive = false
  | .activateAtGenesis => l.epoch = 0 ∧ ∀ s ∈ l.staked, s.stakeActivationEpoch = 0
  | .skipEpoch => l.pool.isPreactive = true ∨ safeMode = true

instance (safeMode : Bool) (l : StakingLedger) (c : PoolCall) : Decidable (l.Admissible safeMode c) := by
  cases c <;> unfold Admissible <;> infer_instance

end StakingLedger

/-- The states that admissible calls lead to, from a new pool. `safeMode` says whether epochs in safe mode are among them. -/
inductive StakingRun (safeMode : Bool) : StakingLedger → Prop
  | new (id epoch : Nat) : StakingRun safeMode (.new id epoch)
  | call {l l' : StakingLedger} (c : PoolCall) (hl : StakingRun safeMode l) (hadm : l.Admissible safeMode c)
      (hc : l.call c = .ok l') : StakingRun safeMode l'

namespace StakingLedger

/-- A sequence of calls, if all of them are admissible and none of them aborts. -/
def calls (safeMode : Bool) (l : StakingLedger) : List PoolCall → Option StakingLedger
  | [] => some l
  | c :: cs =>
    if l.Admissible safeMode c then
      match l.call c with
      | .ok l' => l'.calls safeMode cs
      | .error _ => none
    else none

theorem calls_run {safeMode : Bool} {l l' : StakingLedger} (hl : StakingRun safeMode l) (cs : List PoolCall)
    (h : l.calls safeMode cs = some l') : StakingRun safeMode l' := by
  induction cs generalizing l with
  | nil => exact Option.some.inj h ▸ hl
  | cons c _ ih =>
    rw [calls] at h
    split at h
    · rename_i hadm
      split at h
      · rename_i l1 hc
        exact ih (hl.call c hadm hc) h
      · cases h
    · cases h

end StakingLedger

end Sui

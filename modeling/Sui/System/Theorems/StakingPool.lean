import Sui.System.Lemmas.StakingTokens

/-!
# Conservation in a staking pool, and the redemption of fungible tokens

What a pool holds and takes in, less what is being withdrawn, is what the stakers own. The functions of the pool alone do not
give this: they rely on a stake in a pool that is not active being processed at once.

A fungible token can be redeemed as long as its share in the rewards, at the rate of the epoch, is in the rewards pool. The rate
is rounded in favour of the old stakes, so that the share can be larger than all the rewards there are.
-/

namespace Sui

open Library StakingPool StakingLedger

namespace StakingLedger

/-- The accounting identity of a staking pool in every reachable state. No withdrawal of an outstanding stake and no processing
aborts unless an amount does not fit, and once the pending amounts are processed the balance check passes. -/
theorem stakingPool_conservation {safeMode : Bool} {l : StakingLedger} (h : StakingRun safeMode l) :
    (l.pool.suiBalance : ℤ) + l.pool.pendingStake - l.pool.pendingTotalSuiWithdraw =
      l.pool.rewardsPool + l.principals + l.pool.fungiblePrincipal ∧
    l.pool.underflowSuiBalance = none ∧
    (∀ s ∈ l.staked, Checked.ErrorsIn Abort.IsOverflow (l.pool.requestWithdrawStake s l.epoch)) ∧
    (l.pool.isPreactive = false → Checked.ErrorsIn Abort.IsOverflow (l.pool.processPendingStakesAndWithdraws l.epoch) ∧
      ∀ pool1, l.epoch + 1 < 2 ^ 64 → l.pool.processPending = .ok pool1 →
        ∃ pool', l.pool.processPendingStakesAndWithdraws l.epoch = .ok pool') := by
  have hc := conserved_of_run h
  refine ⟨?_, hc.noUnderflow, fun s hs => ?_, fun hpre => ?_⟩
  · have hbal := hc.balance
    omega
  · exact requestWithdrawStake_errors hc.notInactive hc.noUnderflow (hc.own s hs) hc.rate_total
      fun hact hpre => hc.principal_le_pending hpre hs hact
  · obtain ⟨a, ha⟩ : ∃ a, l.pool.activationEpoch = some a :=
      Option.ne_none_iff_exists'.mp fun hnone => by rw [isPreactive, hnone] at hpre; cases hpre
    have hfree : l.pool.exchangeRates[l.epoch + 1]? = none :=
      Option.not_isSome_iff_eq_none.mp fun hsome => absurd (hc.rates _ hsome) (Nat.not_succ_le_self _)
    exact ⟨processPendingStakesAndWithdraws_errors hc.notInactive hc.noUnderflow hc.withdraw_le ha (hc.active a ha).1 hfree,
      fun pool1 he h1 => processPendingStakesAndWithdraws_of_processPending hc.notInactive hc.noUnderflow hc.withdraw_le
        ha (hc.active a ha).1 hfree he h1⟩

/-- A pool that becomes active with one stake, and gets another stake and rewards. -/
theorem stakingPool_conservation_two :
    ∃ l pool', (new 7 0).calls false [.requestAddStake 3, .activate, .requestAddStake 5, .depositRewards 2] = some l ∧
      (l.pool.suiBalance : ℤ) + l.pool.pendingStake - l.pool.pendingTotalSuiWithdraw =
        l.pool.rewardsPool + l.principals + l.pool.fungiblePrincipal ∧ l.pool.underflowSuiBalance = none ∧ l.staked.length = 2 ∧
      (∀ s ∈ l.staked, Checked.ErrorsIn Abort.IsOverflow (l.pool.requestWithdrawStake s l.epoch)) ∧
      l.pool.processPendingStakesAndWithdraws l.epoch = .ok pool' := by
  have hrun : ((new 7 0).calls false [.requestAddStake 3, .activate, .requestAddStake 5, .depositRewards 2]).any (fun l =>
      decide (l.pool.isPreactive = false ∧ l.epoch = 1 ∧ l.staked.length = 2 ∧ l.pool.processPending.toOption.isSome)) := by
    decide +kernel
  obtain ⟨l, hl, hchecks⟩ := (Option.any_eq_true _ _).mp hrun
  obtain ⟨hactive, hepoch, hlength, hpending⟩ := of_decide_eq_true hchecks
  obtain ⟨hbalance, hnone, hwithdraw, hprocess⟩ := stakingPool_conservation (calls_run (.new 7 0) _ hl)
  cases hpool1 : l.pool.processPending with
  | error => simp [hpool1, Except.toOption] at hpending
  | ok pool1 =>
    obtain ⟨pool', hpool'⟩ := (hprocess hactive).2 pool1 (by rw [hepoch]; decide) hpool1
    exact ⟨l, pool', hl, hbalance, hnone, hlength, hwithdraw, hpool'⟩

/-- A stake that is added to a pool before its activation and is not processed: its withdrawal takes it from a balance that it was
never added to. -/
theorem requestWithdrawStake_unprocessed : ∃ pool1 s pool2 out, (StakingPool.new 7).requestAddStake 5 1 = .ok (pool1, s) ∧
      pool1.requestWithdrawStake s 0 = .ok (pool2, out) ∧
      (pool2.suiBalance : ℤ) + pool2.pendingStake - pool2.pendingTotalSuiWithdraw = 5 ∧
      pool2.rewardsPool + pool2.fungiblePrincipal = 0 :=
  ⟨_, _, _, _, rfl, rfl, rfl, rfl⟩

/-- The redemption of an outstanding token succeeds if and only if the rewards pool covers the rewards of the token. -/
theorem redeemFungibleStakedSui_succeeds_iff {l : StakingLedger} (h : StakingRun false l) (hactive : l.pool.isPreactive = false)
    {f : FungibleStakedSui} (hf : f ∈ l.fungible) :
    ∃ now data, l.pool.poolTokenExchangeRateAtEpoch l.epoch = .ok now ∧ l.pool.fungibleStakedSuiData = some data ∧
      ((∃ r, l.pool.redeemFungibleStakedSui f l.epoch = .ok r) ↔ rewardsShare now f.value data ≤ l.pool.rewardsPool) :=
  (backed_of_run h).redeem_iff (conserved_of_run h) hactive hf

/-- The calls of a pool whose only stake is converted, and that takes in rewards and a second stake. -/
def convertedThenDiluted (secondStake : Nat) : List PoolCall :=
  [.requestAddStake 100000000000, .activate, .convertToFungibleStakedSui ⟨7, 1, 100000000000⟩, .requestAddStake secondStake,
    .depositRewards 6000000000, .advanceEpoch]

/-- With a second stake that the rate converts without a loss, the token is redeemed. -/
theorem redeemFungibleStakedSui_succeeds_iff_exact : ∃ l, (new 7 0).calls false (convertedThenDiluted 1060000000) = some l ∧
      ∃ now data, l.pool.poolTokenExchangeRateAtEpoch l.epoch = .ok now ∧ l.pool.fungibleStakedSuiData = some data ∧
        ((∃ r, l.pool.redeemFungibleStakedSui ⟨7, 100000000000⟩ l.epoch = .ok r) ↔
          rewardsShare now 100000000000 data ≤ l.pool.rewardsPool) := by
  refine ⟨((new 7 0).calls false (convertedThenDiluted 1060000000)).get (by decide +kernel), by simp, ?_⟩
  refine redeemFungibleStakedSui_succeeds_iff (calls_run (.new 7 0) (convertedThenDiluted 1060000000) (by simp)) ?_
    (f := ⟨7, 100000000000⟩) ?_
  · decide +kernel
  · decide +kernel

/-- The second stake is rounded down by almost one token, so that the first is worth one more than all there is: its redemption
aborts. -/
theorem redeemFungibleStakedSui_aborts :
    ∃ l, (new 7 0).calls false (convertedThenDiluted 1000000043) = some l ∧ l.pool.isPreactive = false ∧
      ⟨7, 100000000000⟩ ∈ l.fungible ∧ l.pool.redeemFungibleStakedSui ⟨7, 100000000000⟩ l.epoch = .error .notEnough := by
  refine ⟨((new 7 0).calls false (convertedThenDiluted 1000000043)).get (by decide +kernel), by simp, ?_, ?_, ?_⟩
  · decide +kernel
  · decide +kernel
  · decide +kernel

/-- Without safe mode the fungible supply is what the holders have, the pending stake is that of the stakes that are not active
yet, and the pool's tokens cover the active stakes, the fungible ones and the pending withdrawals. -/
theorem poolTokens_backed {l : StakingLedger} (h : StakingRun false l) :
    (l.fungible.map FungibleStakedSui.value).sum = l.pool.fungibleSupply ∧
    (l.pool.isPreactive = false → l.pool.pendingStake = l.pendingPrincipals ∧
      l.pool.pendingPoolTokenWithdraw + l.activeTokens + l.pool.fungibleSupply ≤ l.pool.poolTokenBalance) := by
  have hbacked := backed_of_run h
  exact ⟨hbacked.supply, fun hactive => ⟨hbacked.pending hactive, hbacked.tokens hactive⟩⟩

/-- A pool with a converted stake, an active one and a pending one. -/
theorem poolTokens_backed_converted :
    ∃ l, (new 7 0).calls false (convertedThenDiluted 1060000000 ++ [.requestAddStake 2000000000]) = some l ∧
      (l.fungible.map FungibleStakedSui.value).sum = l.pool.fungibleSupply ∧ l.pool.pendingStake = l.pendingPrincipals ∧
      l.pendingPrincipals = 2000000000 ∧ 0 < l.activeTokens ∧
      l.pool.pendingPoolTokenWithdraw + l.activeTokens + l.pool.fungibleSupply ≤ l.pool.poolTokenBalance := by
  have hrun : ((new 7 0).calls false (convertedThenDiluted 1060000000 ++ [.requestAddStake 2000000000])).any (fun l =>
      decide (l.pool.isPreactive = false ∧ l.pendingPrincipals = 2000000000 ∧ 0 < l.activeTokens)) := by decide +kernel
  obtain ⟨l, hl, hchecks⟩ := (Option.any_eq_true _ _).mp hrun
  obtain ⟨hpreactive, hprincipals, htokens⟩ := of_decide_eq_true hchecks
  obtain ⟨hsupply, hactive⟩ := poolTokens_backed (calls_run (.new 7 0) _ hl)
  exact ⟨l, hl, hsupply, (hactive hpreactive).1, hprincipals, htokens, (hactive hpreactive).2⟩

end StakingLedger

namespace PoolTokenExchangeRate

open StakingPool in
/-- If the SUI amount of the total supply is computed, those of every part are: the principal is at most the recorded one, and
together they are the SUI amount of the part, less at most two coins. -/
theorem calculateFungible_tight {rate : PoolTokenExchangeRate} {value principal supply t : Nat}
    (hsui : rate.suiAmount < 2 ^ 64) (hsupply : 0 < supply) (hfits : supply < 2 ^ 64) (hvalue : value ≤ supply)
    (htotal : rate.getSuiAmount supply = .ok t) : ∃ principalAmount rewardsAmount expected,
    rate.calculateFungibleStakedSuiWithdrawAmount value principal supply = .ok (principalAmount, rewardsAmount) ∧
    rate.getSuiAmount value = .ok expected ∧ principalAmount ≤ principal ∧
    principalAmount + rewardsAmount ≤ expected ∧ expected ≤ principalAmount + rewardsAmount + 2 := by
  obtain ⟨data, rfl, rfl⟩ : ∃ data : FungibleStakedSuiData, data.totalSupply = supply ∧ data.principal = principal :=
    ⟨⟨_, _⟩, rfl, rfl⟩
  have hX : rate.suiFor data.totalSupply < 2 ^ 64 :=
    (meets_getSuiAmount rate data.totalSupply).2 t htotal ▸ convert_lt htotal hfits
  exact ⟨_, _, _, calculateFungible_total hsui hX hsupply hfits hvalue,
    getSuiAmount_eq hsui (lt_of_le_of_lt hvalue hfits) (lt_of_le_of_lt (suiFor_mono hvalue) hX),
    le_trans (share_le hvalue) (Nat.min_le_left _ _), shares_bounds rate hsupply hvalue⟩

/-- Four of five tokens at a rate of three to two: two coins are lost. -/
theorem calculateFungible_tight_two_lost : ∃ principalAmount rewardsAmount expected,
    calculateFungibleStakedSuiWithdrawAmount ⟨3, 2⟩ 4 1 5 = .ok (principalAmount, rewardsAmount) ∧
    getSuiAmount ⟨3, 2⟩ 4 = .ok expected ∧ principalAmount ≤ 1 ∧
    principalAmount + rewardsAmount ≤ expected ∧ expected ≤ principalAmount + rewardsAmount + 2 :=
  calculateFungible_tight (by decide) (by decide) (by decide) (by decide) (t := 7) rfl

/-- A rate of more coins for each token than the supply leaves room for: the SUI amount of the supply does not fit. -/
theorem calculateFungible_aborts :
    calculateFungibleStakedSuiWithdrawAmount ⟨2 ^ 64 - 1, 1⟩ 1 1 2 = .error .castOverflow := rfl

end PoolTokenExchangeRate

end Sui

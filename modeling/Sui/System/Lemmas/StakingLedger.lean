import Mathlib.Algebra.BigOperators.Group.List.Basic
import Sui.System.Lemmas.StakingPool
import Sui.System.StakingLedger

/-!
# The accounting of SUI in a staking pool

`Conserved` is the accounting of SUI: what the pool has and takes in, less what is being withdrawn, is what the stakers own. It
holds in every run, safe mode included.
-/

namespace Sui

open Library Checked BTreeMap StakingPool List StakedSui StakingLedger

namespace StakingPool

def fungiblePrincipal (pool : StakingPool) : Nat := pool.fungibleStakedSuiData.elim 0 (·.principal)

def fungibleSupply (pool : StakingPool) : Nat := pool.fungibleStakedSuiData.elim 0 (·.totalSupply)

end StakingPool

namespace StakedSui

/-- The principal of a stake that is not active yet. -/
def pendingPrincipal (epoch : Nat) (s : StakedSui) : Nat := if epoch < s.stakeActivationEpoch then s.principal else 0

end StakedSui

namespace StakingLedger

def principals (l : StakingLedger) : Nat := (l.staked.map StakedSui.principal).sum

def pendingPrincipals (l : StakingLedger) : Nat := (l.staked.map (StakedSui.pendingPrincipal l.epoch)).sum

/-- The accounting of SUI. -/
structure Conserved (l : StakingLedger) : Prop where
  notInactive : l.pool.deactivationEpoch = none
  noUnderflow : l.pool.underflowSuiBalance = none
  balance : l.pool.suiBalance + l.pool.pendingStake =
    l.pool.pendingTotalSuiWithdraw + l.pool.rewardsPool + l.principals + l.pool.fungiblePrincipal
  own : ∀ s ∈ l.staked, s.poolId = l.pool.id
  upcoming : ∀ s ∈ l.staked, s.stakeActivationEpoch ≤ l.epoch + 1
  pending : l.pool.isPreactive = false → l.pendingPrincipals ≤ l.pool.pendingStake
  /-- A pool that is not active yet has stakes and nothing else. -/
  preactive : l.pool.isPreactive = true → l.pool.pendingStake = 0 ∧ l.pool.pendingTotalSuiWithdraw = 0 ∧
    l.pool.pendingPoolTokenWithdraw = 0 ∧ l.pool.rewardsPool = 0 ∧ l.pool.fungibleStakedSuiData = none ∧
    l.pool.poolTokenBalance = l.pool.suiBalance ∧ l.pool.exchangeRates = ∅
  active : ∀ a, l.pool.activationEpoch = some a → a ≤ l.epoch ∧ l.pool.exchangeRates[a]?.isSome
  rates : ∀ e, l.pool.exchangeRates[e]?.isSome → e ≤ l.epoch

variable {l l' : StakingLedger}

theorem conserved_new (id epoch : Nat) : Conserved (.new id epoch) where
  notInactive := rfl
  noUnderflow := rfl
  balance := rfl
  own := by simp [new]
  upcoming := by simp [new]
  pending := fun h => by cases h
  preactive := fun _ => ⟨rfl, rfl, rfl, rfl, rfl, rfl, rfl⟩
  active := fun a h => by cases h
  rates := fun e h => by
    rw [show (new id epoch).pool.exchangeRates[e]? = none from get_empty e] at h
    cases h

namespace Conserved

theorem rate_total (h : Conserved l) (e : Nat) : ∃ rate, l.pool.poolTokenExchangeRateAtEpoch e = .ok rate :=
  rateAt_total h.notInactive (fun a ha => (h.active a ha).2) e

variable {s : StakedSui}

section

variable (h : Conserved l)

include h

/-- The withdrawals are covered by the balance and the pending stake. -/
theorem withdraw_le : l.pool.pendingTotalSuiWithdraw ≤ l.pool.suiBalance + l.pool.pendingStake := by
  have := h.balance
  omega

/-- A stake in a pool that is not active yet is added at once, at par. -/
theorem withProcessedStake (hpre : l.pool.isPreactive = true) {act : Nat} (hact : act ≤ l.epoch + 1) (stake : Nat) :
    Conserved { l with pool := l.pool.withProcessedStake stake, staked := ⟨l.pool.id, act, stake⟩ :: l.staked } := by
  obtain ⟨hps, hptw, hppt, hrew, hdata, htok, hrates⟩ := h.preactive hpre
  have hbal := h.balance
  refine ⟨h.notInactive, h.noUnderflow, ?_, ?_, ?_, ?_, ?_, h.active, h.rates⟩
  · simp only [principals, fungiblePrincipal, StakingPool.withProcessedStake, map_cons, sum_cons] at hbal ⊢
    omega
  · exact forall_mem_cons.mpr ⟨rfl, h.own⟩
  · exact forall_mem_cons.mpr ⟨hact, h.upcoming⟩
  · intro hactive
    exact absurd (hpre.symm.trans hactive) (by simp)
  · intro _
    refine ⟨rfl, hptw, hppt, hrew, hdata, ?_, hrates⟩
    simp only [StakingPool.withProcessedStake]
    rw [htok, PoolTokenExchangeRate.tokensFor_par]

theorem requestAddStake {stake : Nat} (hc : l.call (.requestAddStake stake) = .ok l') : Conserved l' := by
  simp only [call, bind_ok, pure_ok] at hc
  obtain ⟨⟨pool', s⟩, hc, rfl⟩ := hc
  obtain ⟨-, rfl, ⟨hpre, rfl, -⟩ | ⟨hpre, rfl⟩⟩ := validatorRequestAddStake_ok h.noUnderflow hc
  · exact h.withProcessedStake hpre (le_refl _) stake
  · have hbal := h.balance
    have hpend := h.pending hpre
    refine ⟨h.notInactive, h.noUnderflow, ?_, forall_mem_cons.mpr ⟨rfl, h.own⟩,
      forall_mem_cons.mpr ⟨le_refl _, h.upcoming⟩, fun _ => ?_, fun hp => absurd (hp.symm.trans hpre) nofun, h.active, h.rates⟩
    · simp only [principals, fungiblePrincipal, map_cons, sum_cons] at hbal ⊢
      omega
    · simp only [pendingPrincipals, map_cons, sum_cons, pendingPrincipal] at hpend ⊢
      rw [if_pos (Nat.lt_succ_self _)]
      omega

theorem requestAddStakeAtGenesis {stake : Nat} (hpre : l.pool.isPreactive = true)
    (hc : l.call (.requestAddStakeAtGenesis stake) = .ok l') : Conserved l' := by
  simp only [call, bind_ok, pure_ok] at hc
  obtain ⟨⟨pool', s⟩, hc, rfl⟩ := hc
  obtain ⟨-, rfl, rfl, -⟩ := validatorRequestAddStakeAtGenesis_ok h.noUnderflow hc
  exact h.withProcessedStake hpre (Nat.zero_le _) stake

/-- The pending principal of one stake is part of the pending stake. -/
theorem principal_le_pending (hpre : l.pool.isPreactive = false) (hs : s ∈ l.staked)
    (hact : l.epoch < s.stakeActivationEpoch) : s.principal ≤ l.pool.pendingStake := by
  have hle : s.pendingPrincipal l.epoch ≤ l.pendingPrincipals :=
    single_le_sum (fun _ _ => Nat.zero_le _) _ (mem_map_of_mem hs)
  rw [pendingPrincipal, if_pos hact] at hle
  exact le_trans hle (h.pending hpre)

end

theorem principals_erase (hs : s ∈ l.staked) :
    s.principal + ((l.staked.erase s).map principal).sum = l.principals := sum_map_erase _ hs

theorem pendingPrincipals_erase (hs : s ∈ l.staked) :
    s.pendingPrincipal l.epoch + ((l.staked.erase s).map (pendingPrincipal l.epoch)).sum = l.pendingPrincipals :=
  sum_map_erase _ hs

theorem requestWithdrawStake (h : Conserved l) (hs : s ∈ l.staked)
    (hc : l.call (.requestWithdrawStake s) = .ok l') : Conserved l' := by
  simp only [call, bind_ok, pure_ok] at hc
  obtain ⟨⟨pool', out⟩, hc, rfl⟩ := hc
  have hbal := h.balance
  have hprin := principals_erase hs
  have hpend := pendingPrincipals_erase hs
  have hown : ∀ x ∈ l.staked.erase s, x.poolId = l.pool.id := fun x hx => h.own x (mem_of_mem_erase hx)
  have hup : ∀ x ∈ l.staked.erase s, x.stakeActivationEpoch ≤ l.epoch + 1 := fun x hx => h.upcoming x (mem_of_mem_erase hx)
  cases hpre : l.pool.isPreactive with
  | true =>
    obtain ⟨hps, hptw, hppt, hrew, hdata, htok, hrates⟩ := h.preactive hpre
    have hle : s.principal ≤ l.pool.suiBalance := by
      simp only [fungiblePrincipal, hdata, Option.elim_none] at hbal
      omega
    obtain rfl := requestWithdrawStake_preactive h.notInactive h.noUnderflow hpre hptw hppt hle hc
    refine ⟨h.notInactive, h.noUnderflow, ?_, hown, hup, fun hp => absurd (hpre.symm.trans hp) (by simp), fun _ => ?_, h.active, h.rates⟩
    · simp only [principals, fungiblePrincipal] at hbal hprin ⊢
      omega
    · exact ⟨hps, hptw, hppt, hrew, hdata, by simp only [htok], hrates⟩
  | false =>
    have hpending := h.pending hpre
    by_cases hact : l.epoch < s.stakeActivationEpoch
    · have hle := h.principal_le_pending hpre hs hact
      rw [pendingPrincipal, if_pos hact] at hpend
      rw [requestWithdrawStake_pending hpre hact hle] at hc
      obtain ⟨rfl, -⟩ := Prod.mk.inj (Except.ok.inj hc)
      refine ⟨h.notInactive, h.noUnderflow, ?_, hown, hup, fun _ => ?_, fun hp => absurd (hp.symm.trans hpre) (by simp), h.active, h.rates⟩
      · simp only [principals, fungiblePrincipal] at hbal hprin ⊢
        omega
      · simp only [pendingPrincipals] at hpend hpending ⊢
        omega
    · obtain ⟨t, r, hfrom, hr, rfl⟩ := requestWithdrawStake_active h.notInactive hpre (by omega) hc
      refine ⟨h.notInactive, h.noUnderflow, ?_, hown, hup, fun _ => ?_, fun hp => absurd (hp.symm.trans hpre) (by simp), h.active, h.rates⟩
      · simp only [principals, fungiblePrincipal] at hbal hprin ⊢
        omega
      · simp only [pendingPrincipals] at hpend hpending ⊢
        omega

theorem convertToFungibleStakedSui (h : Conserved l) (hs : s ∈ l.staked)
    (hc : l.call (.convertToFungibleStakedSui s) = .ok l') : Conserved l' := by
  simp only [call, bind_ok, pure_ok] at hc
  obtain ⟨⟨pool', f⟩, hc, rfl⟩ := hc
  obtain ⟨-, -, hpre, -, -, -, rfl⟩ := convertToFungibleStakedSui_ok hc
  have hbal := h.balance
  have hprin := principals_erase hs
  have hpend := pendingPrincipals_erase hs
  have hpending := h.pending hpre
  refine ⟨h.notInactive, h.noUnderflow, ?_, fun x hx => h.own x (mem_of_mem_erase hx),
    fun x hx => h.upcoming x (mem_of_mem_erase hx), fun _ => ?_, fun hp => absurd (hp.symm.trans hpre) nofun, h.active, h.rates⟩
  · simp only [principals, fungiblePrincipal, Option.elim_some] at hbal hprin ⊢
    omega
  · simp only [pendingPrincipals] at hpend hpending ⊢
    omega

theorem redeemFungibleStakedSui (h : Conserved l) {f : FungibleStakedSui}
    (hc : l.call (.redeemFungibleStakedSui f) = .ok l') : Conserved l' := by
  simp only [call, bind_ok, pure_ok] at hc
  obtain ⟨⟨pool', out⟩, hc, rfl⟩ := hc
  obtain ⟨now, data, -, hdata, -, -, hprincipal, hrewards, rfl⟩ := redeemFungibleStakedSui_ok hc
  have hbal := h.balance
  refine ⟨h.notInactive, h.noUnderflow, ?_, h.own, h.upcoming, h.pending, fun hp => ?_, h.active, h.rates⟩
  · simp only [principals, fungiblePrincipal, hdata, Option.elim_some] at hbal ⊢
    omega
  · -- there are no fungible tokens in a pool that is not active
    have hnone := (h.preactive hp).2.2.2.2.1
    rw [hdata] at hnone
    cases hnone

theorem depositRewards (h : Conserved l) {rewards : Nat} (hpre : l.pool.isPreactive = false)
    (hc : l.call (.depositRewards rewards) = .ok l') : Conserved l' := by
  simp only [call, bind_ok, pure_ok] at hc
  obtain ⟨pool', hc, rfl⟩ := hc
  obtain ⟨-, rfl⟩ := depositRewards_ok hc
  have hbal := h.balance
  refine ⟨h.notInactive, h.noUnderflow, ?_, h.own, h.upcoming, h.pending, fun hp => absurd (hp.symm.trans hpre) nofun, h.active, h.rates⟩
  simp only [principals, fungiblePrincipal] at hbal ⊢
  omega

/-- No principal is pending once all stakes have become active. -/
theorem sum_pendingPrincipal_eq_zero {staked : List StakedSui} {epoch : Nat}
    (h : ∀ s ∈ staked, s.stakeActivationEpoch ≤ epoch) : (staked.map (pendingPrincipal epoch)).sum = 0 := by
  refine sum_eq_zero fun x hx => ?_
  obtain ⟨s, hs, rfl⟩ := mem_map.mp hx
  exact if_neg (by have := h s hs; omega)

theorem advanceEpoch (h : Conserved l) (hpre : l.pool.isPreactive = false) (hc : l.call .advanceEpoch = .ok l') : Conserved l' := by
  simp only [call, bind_ok, pure_ok] at hc
  obtain ⟨pool', hc, rfl⟩ := hc
  have hp := processed_of_ok h.notInactive h.noUnderflow h.withdraw_le hc
  have hbal := h.balance
  have hpre' : pool'.isPreactive = false := by rw [StakingPool.isPreactive, hp.activation]; exact hpre
  refine ⟨hp.deactivation.trans h.notInactive, hp.underflow, ?_, fun s hs => (h.own s hs).trans hp.id.symm,
    fun s hs => Nat.le_succ_of_le (h.upcoming s hs), fun _ => le_of_eq_of_le (sum_pendingPrincipal_eq_zero h.upcoming) (Nat.zero_le _),
    fun hp => absurd (hp.symm.trans hpre') (by simp), fun a ha => ?_, fun e he => ?_⟩
  · simp only [principals, fungiblePrincipal, hp.balance, hp.pending.1, hp.pending.2.1, hp.rewards, hp.data] at hbal ⊢
    omega
  · obtain ⟨hle, hsome⟩ := h.active a (hp.activation ▸ ha)
    refine ⟨Nat.le_succ_of_le hle, ?_⟩
    simp only [hp.rates, get_insert]
    split
    · rfl
    · exact hsome
  · simp only [hp.rates, get_insert] at he
    split_ifs at he with heq
    · exact heq.ge
    · exact Nat.le_succ_of_le (h.rates e he)

/-- The activation of a pool: its first rate is one to one. -/
theorem activated (h : Conserved l) {epoch' : Nat} {pool' : StakingPool} (hc : l.pool.activateStakingPool l.epoch = .ok pool')
    (hle : l.epoch ≤ epoch') (hnext : ∀ s ∈ l.staked, s.stakeActivationEpoch ≤ epoch') :
    Conserved { l with pool := pool', epoch := epoch' } := by
  obtain ⟨hpre, rfl⟩ := activateStakingPool_ok hc
  obtain ⟨hps, -, -, -, -, -, hrates⟩ := h.preactive hpre
  refine ⟨h.notInactive, h.noUnderflow, h.balance, h.own, fun s hs => Nat.le_succ_of_le (hnext s hs),
    fun _ => le_of_eq_of_le (sum_pendingPrincipal_eq_zero hnext) (Nat.zero_le _), nofun, fun a ha => ?_, fun e he => ?_⟩
  · obtain rfl := Option.some.inj ha
    refine ⟨hle, ?_⟩
    simp only [get_insert, if_pos, Option.isSome_some]
  · simp only [hrates, get_insert] at he
    split_ifs at he with heq
    · exact heq ▸ hle
    · rw [get_empty] at he
      cases he

theorem skipEpoch (h : Conserved l) : Conserved { l with epoch := l.epoch + 1 } :=
  ⟨h.notInactive, h.noUnderflow, h.balance, h.own, fun s hs => Nat.le_succ_of_le (h.upcoming s hs),
    fun _ => le_of_eq_of_le (sum_pendingPrincipal_eq_zero h.upcoming) (Nat.zero_le _), h.preactive,
    fun a ha => ⟨Nat.le_succ_of_le (h.active a ha).1, (h.active a ha).2⟩, fun e he => Nat.le_succ_of_le (h.rates e he)⟩

/-- Every call keeps the accounting. -/
theorem call (h : Conserved l) {safeMode : Bool} {c : PoolCall} (hadm : l.Admissible safeMode c) (hc : l.call c = .ok l') :
    Conserved l' := by
  cases c with
  | requestAddStake => exact h.requestAddStake hc
  | requestAddStakeAtGenesis => exact h.requestAddStakeAtGenesis hadm hc
  | requestWithdrawStake => exact h.requestWithdrawStake hadm hc
  | convertToFungibleStakedSui => exact h.convertToFungibleStakedSui hadm hc
  | redeemFungibleStakedSui => exact h.redeemFungibleStakedSui hc
  | depositRewards => exact h.depositRewards hadm hc
  | advanceEpoch => exact h.advanceEpoch hadm hc
  | activate =>
    obtain ⟨pool', hc, hl⟩ := bind_ok.mp hc
    exact Except.ok.inj hl ▸ h.activated hc (Nat.le_succ _) h.upcoming
  | activateAtGenesis =>
    obtain ⟨hzero, hgenesis⟩ := hadm
    obtain ⟨pool', hc, hl⟩ := bind_ok.mp hc
    exact Except.ok.inj hl ▸ h.activated (hzero ▸ hc) (le_refl _) fun s hs => hgenesis s hs ▸ Nat.zero_le _
  | skipEpoch => exact Except.ok.inj hc ▸ h.skipEpoch

end Conserved

/-- The accounting of SUI holds in every run. -/
theorem conserved_of_run {safeMode : Bool} (h : StakingRun safeMode l) : Conserved l := by
  induction h with
  | new id epoch => exact conserved_new id epoch
  | call c _ hadm hc ih => exact ih.call hadm hc

end StakingLedger

end Sui

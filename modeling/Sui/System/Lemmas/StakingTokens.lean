import Sui.System.Lemmas.StakingLedger

/-!
# The accounting of pool tokens

In runs without safe mode the tokens of the active stakes, the fungible tokens and the tokens that are being withdrawn are covered
by the tokens of the pool: what rounding loses is lost by the stakers.
-/

namespace Sui

open Library Checked BTreeMap StakingPool List PoolTokenExchangeRate StakedSui StakingLedger FungibleStakedSui Conserved Option

namespace PoolTokenExchangeRate

/-- When a pool takes in new stakes, its tokens cover those before and those that the new rate gives for the new stakes. -/
theorem sum_tokensFor_le {α : Type} {S P old new : Nat} (f : α → Nat) (l : List α) (hnew : (l.map f).sum = new) (hold : old ≤ P)
    (hzero : S = 0 → old = 0) :
    old + (l.map fun a => tokensFor ⟨S + new, tokensFor ⟨S, P⟩ (S + new)⟩ (f a)).sum ≤ tokensFor ⟨S, P⟩ (S + new) := by
  by_cases h : S = 0 ∨ P = 0
  · -- an empty pool starts at par
    have hpar : tokensFor ⟨S, P⟩ (S + new) = S + new := if_pos h
    simp only [hpar, tokensFor_par, hnew]
    rcases h with h | h
    · rw [hzero h]
      omega
    · omega
  · have hS : 0 < S := by omega
    have htokens : tokensFor ⟨S, P⟩ (S + new) = P * (S + new) / S := if_neg h
    have hpos : 0 < P * (S + new) / S := by
      refine Nat.div_pos ?_ hS
      exact le_trans (Nat.le_add_right _ _) (Nat.le_mul_of_pos_left _ (by omega))
    have hsum : (l.map fun a => tokensFor ⟨S + new, P * (S + new) / S⟩ (f a)).sum ≤ P * (S + new) / S * new / (S + new) := by
      have hone : ∀ a, tokensFor ⟨S + new, P * (S + new) / S⟩ (f a) = f a * (P * (S + new) / S) / (S + new) := by
        intro a
        rw [tokensFor, if_neg (by simp only; omega), Nat.mul_comm]
      simp only [hone]
      refine le_trans (sum_mul_div_le f l _ _) ?_
      rw [hnew, Nat.mul_comm]
    have hissue := issue_le (P := P) (s := new) hS
    rw [htokens]
    omega

end PoolTokenExchangeRate

namespace StakingPool

variable {pool pool' : StakingPool} {s : StakedSui}

def tokensOf (pool : StakingPool) (s : StakedSui) : Nat :=
  match pool.withdrawFromPrincipal s with
  | .ok (t, _) => t
  | .error _ => 0

theorem tokensOf_eq {t p : Nat} (h : pool.withdrawFromPrincipal s = .ok (t, p)) : pool.tokensOf s = t := by
  rw [tokensOf, h]

/-- The tokens of a stake depend on the rate at its activation. -/
theorem tokensOf_congr (hid : pool'.id = pool.id)
    (hrate : pool'.poolTokenExchangeRateAtEpoch s.stakeActivationEpoch = pool.poolTokenExchangeRateAtEpoch s.stakeActivationEpoch) :
    pool'.tokensOf s = pool.tokensOf s := by
  unfold tokensOf withdrawFromPrincipal
  rw [hid, hrate]

/-- A stake has at most the tokens of its principal at the rate of its activation. -/
theorem tokensOf_le {rate : PoolTokenExchangeRate} (h : pool.poolTokenExchangeRateAtEpoch s.stakeActivationEpoch = .ok rate) :
    pool.tokensOf s ≤ rate.tokensFor s.principal := by
  unfold tokensOf
  split
  · rename_i t p hfrom
    obtain ⟨rate', hrate', rfl, -⟩ := withdrawFromPrincipal_ok hfrom
    exact ok_unique h hrate' ▸ le_refl _
  · exact Nat.zero_le _

/-- The tokens of a stake, once it is active. -/
def activeTokens (pool : StakingPool) (epoch : Nat) (s : StakedSui) : Nat :=
  if s.stakeActivationEpoch ≤ epoch then pool.tokensOf s else 0

/-- The tokens of a stake depend on the rates only. -/
theorem SameFrame.activeTokens (h : SameFrame pool pool') (epoch : Nat) : pool'.activeTokens epoch = pool.activeTokens epoch := by
  funext s
  rw [StakingPool.activeTokens, StakingPool.activeTokens, tokensOf_congr h.id (h.rateAt _)]

end StakingPool

namespace StakingLedger

def activeTokens (l : StakingLedger) : Nat := (l.staked.map (l.pool.activeTokens l.epoch)).sum

/-- The accounting of pool tokens. -/
structure Backed (l : StakingLedger) : Prop where
  stakes : ∀ s ∈ l.staked, 0 < s.principal
  fungible : ∀ f ∈ l.fungible, f.poolId = l.pool.id ∧ 0 < f.value
  supply : (l.fungible.map value).sum = l.pool.fungibleSupply
  principal : 0 < l.pool.fungibleSupply → 0 < l.pool.fungiblePrincipal
  fits : l.pool.suiBalance < 2 ^ 64 ∧ l.pool.poolTokenBalance < 2 ^ 64
  pending : l.pool.isPreactive = false → l.pool.pendingStake = l.pendingPrincipals
  tokens : l.pool.isPreactive = false →
    l.pool.pendingPoolTokenWithdraw + l.activeTokens + l.pool.fungibleSupply ≤ l.pool.poolTokenBalance
  /-- The rate of the epoch is that of the balances at its start. -/
  rate : l.pool.isPreactive = false → ∃ now, l.pool.poolTokenExchangeRateAtEpoch l.epoch = .ok now ∧
    (now = .initial ∨ now.poolTokenAmount = l.pool.poolTokenBalance ∧ now.suiAmount < 2 ^ 64)

variable {l l' : StakingLedger}

theorem backed_new (id epoch : Nat) : Backed (.new id epoch) where
  stakes := by simp [new]
  fungible := by simp [new]
  supply := rfl
  principal := nofun
  fits := ⟨Nat.two_pow_pos 64, Nat.two_pow_pos 64⟩
  pending := nofun
  tokens := nofun
  rate := nofun

namespace Backed

variable {s : StakedSui}

/-- The tokens without a stake and those of the stake are all. -/
theorem activeTokens_erase (hs : s ∈ l.staked) :
    l.pool.activeTokens l.epoch s + ((l.staked.erase s).map (l.pool.activeTokens l.epoch)).sum = l.activeTokens :=
  sum_map_erase _ hs

variable {pool' : StakingPool}

section

variable (h : Backed l)

include h

/-- A call during an epoch: the tokens of the pool stay, and those of the stakes are counted at the same rates. -/
theorem of_sameFrame (hsame : l.pool.SameFrame pool') {staked : List StakedSui}
    {fungible : List FungibleStakedSui} (hstakes : ∀ s ∈ staked, 0 < s.principal)
    (hfungible : ∀ f ∈ fungible, f.poolId = l.pool.id ∧ 0 < f.value)
    (hsupply : (fungible.map value).sum = pool'.fungibleSupply)
    (hprincipal : 0 < pool'.fungibleSupply → 0 < pool'.fungiblePrincipal) (hfits : pool'.suiBalance < 2 ^ 64)
    (hbalance : pool'.poolTokenBalance = l.pool.poolTokenBalance)
    (hpending : l.pool.isPreactive = false → pool'.pendingStake = (staked.map (pendingPrincipal l.epoch)).sum)
    (htokens : l.pool.isPreactive = false →
      pool'.pendingPoolTokenWithdraw + (staked.map (l.pool.activeTokens l.epoch)).sum + pool'.fungibleSupply ≤
        l.pool.poolTokenBalance) :
    Backed ⟨pool', l.epoch, staked, fungible⟩ := by
  have hpre := hsame.isPreactive
  refine ⟨hstakes, fun f hf => hsame.id ▸ hfungible f hf, hsupply, hprincipal, ⟨hfits, hbalance ▸ h.fits.2⟩,
    fun hp => hpending (hpre ▸ hp), fun hp => ?_, fun hp => ?_⟩
  · simp only [activeTokens, hsame.activeTokens, hbalance]
    exact htokens (hpre ▸ hp)
  · obtain ⟨now, hnow, hcases⟩ := h.rate (hpre ▸ hp)
    exact ⟨now, (hsame.rateAt _).trans hnow, hbalance ▸ hcases⟩

/-- A stake that is processed before the activation is backed. -/
theorem withProcessedStake (hc : Conserved l) (hpre : l.pool.isPreactive = true) {act stake : Nat}
    (hpos : 0 < stake) (hfits : (l.pool.withProcessedStake stake).suiBalance < 2 ^ 64) :
    Backed ⟨l.pool.withProcessedStake stake, l.epoch, ⟨l.pool.id, act, stake⟩ :: l.staked, l.fungible⟩ := by
  obtain ⟨-, -, -, -, -, htok, -⟩ := hc.preactive hpre
  have hactive : (l.pool.withProcessedStake stake).isPreactive = true := hpre
  refine ⟨forall_mem_cons.mpr ⟨hpos, h.stakes⟩, h.fungible, h.supply, h.principal, ⟨hfits, ?_⟩,
    fun hp => absurd (hp.symm.trans hactive) (by simp), fun hp => absurd (hp.symm.trans hactive) (by simp),
    fun hp => absurd (hp.symm.trans hactive) (by simp)⟩
  simp only [StakingPool.withProcessedStake] at hfits ⊢
  rw [htok, tokensFor_par]
  exact hfits

theorem requestAddStake (hc : Conserved l) {stake : Nat} (hcall : l.call (.requestAddStake stake) = .ok l') : Backed l' := by
  simp only [call, bind_ok, pure_ok] at hcall
  obtain ⟨⟨pool', s⟩, hcall, rfl⟩ := hcall
  obtain ⟨hpos, rfl, ⟨hpre, rfl, hfits⟩ | ⟨hpre, hpool'⟩⟩ := validatorRequestAddStake_ok hc.noUnderflow hcall
  · exact h.withProcessedStake hc hpre hpos hfits
  · refine h.of_sameFrame (sameFrame_validatorRequestAddStake hcall) (forall_mem_cons.mpr ⟨hpos, h.stakes⟩) h.fungible (hpool' ▸ h.supply) (hpool' ▸ h.principal)
      (hpool' ▸ h.fits.1) (hpool' ▸ rfl) (fun _ => ?_) (fun _ => ?_)
    · have hpend := h.pending hpre
      simp only [hpool', pendingPrincipals, map_cons, sum_cons, pendingPrincipal] at hpend ⊢
      rw [if_pos (Nat.lt_succ_self _), hpend, Nat.add_comm]
    · have hzero : l.pool.activeTokens l.epoch ⟨l.pool.id, l.epoch + 1, stake⟩ = 0 := if_neg (Nat.not_succ_le_self _)
      rw [map_cons, sum_cons, hzero, Nat.zero_add, hpool']
      exact h.tokens hpre

theorem requestAddStakeAtGenesis (hc : Conserved l) {stake : Nat} (hpre : l.pool.isPreactive = true)
    (hcall : l.call (.requestAddStakeAtGenesis stake) = .ok l') : Backed l' := by
  simp only [call, bind_ok, pure_ok] at hcall
  obtain ⟨⟨pool', s⟩, hcall, rfl⟩ := hcall
  obtain ⟨hpos, rfl, rfl, hfits⟩ := validatorRequestAddStakeAtGenesis_ok hc.noUnderflow hcall
  exact h.withProcessedStake hc hpre hpos hfits

/-- A withdrawal moves the tokens of the stake to the pending ones. -/
theorem requestWithdrawStake (hc : Conserved l) (hs : s ∈ l.staked)
    (hcall : l.call (.requestWithdrawStake s) = .ok l') : Backed l' := by
  simp only [call, bind_ok, pure_ok] at hcall
  obtain ⟨⟨pool', out⟩, hcall, rfl⟩ := hcall
  have hsame := sameFrame_requestWithdrawStake hcall
  have hstakes : ∀ x ∈ l.staked.erase s, 0 < x.principal := fun x hx => h.stakes x (mem_of_mem_erase hx)
  cases hpre : l.pool.isPreactive with
  | true =>
    obtain ⟨-, hptw, hppt, -, hdata, htok, -⟩ := hc.preactive hpre
    have hle : s.principal ≤ l.pool.suiBalance := by
      have hbal := hc.balance
      have hprin := principals_erase hs
      simp only [fungiblePrincipal, hdata, elim_none] at hbal
      obtain ⟨hps, -⟩ := hc.preactive hpre
      omega
    obtain rfl := requestWithdrawStake_preactive hc.notInactive hc.noUnderflow hpre hptw hppt hle hcall
    refine ⟨hstakes, h.fungible, h.supply, h.principal, ⟨lt_of_le_of_lt (Nat.sub_le _ _) h.fits.1,
      lt_of_le_of_lt (Nat.sub_le _ _) h.fits.2⟩, fun hp => absurd (hpre.symm.trans hp) (by simp),
      fun hp => absurd (hpre.symm.trans hp) (by simp), fun hp => absurd (hpre.symm.trans hp) (by simp)⟩
  | false =>
    have hpend := pendingPrincipals_erase hs
    have htok := activeTokens_erase hs
    have hpending := h.pending hpre
    have htokens := h.tokens hpre
    by_cases hact : l.epoch < s.stakeActivationEpoch
    · rw [pendingPrincipal, if_pos hact] at hpend
      rw [requestWithdrawStake_pending hpre hact (hc.principal_le_pending hpre hs hact)] at hcall
      have hpool' := (Prod.mk.inj (Except.ok.inj hcall)).1.symm
      refine h.of_sameFrame hsame hstakes h.fungible (hpool' ▸ h.supply) (hpool' ▸ h.principal) (hpool' ▸ h.fits.1) (hpool' ▸ rfl)
        (fun _ => ?_) (fun _ => ?_)
      · simp only [hpool']
        omega
      · simp only [hpool', fungibleSupply] at htokens ⊢
        omega
    · obtain ⟨t, r, hfrom, hr, hpool'⟩ := requestWithdrawStake_active hc.notInactive hpre (by omega) hcall
      rw [pendingPrincipal, if_neg hact] at hpend
      rw [StakingPool.activeTokens, if_pos (by omega), tokensOf_eq hfrom] at htok
      refine h.of_sameFrame hsame hstakes h.fungible (hpool' ▸ h.supply) (hpool' ▸ h.principal) (hpool' ▸ h.fits.1) (hpool' ▸ rfl)
        (fun _ => ?_) (fun _ => ?_)
      · simp only [hpool']
        omega
      · simp only [hpool', fungibleSupply] at htokens ⊢
        omega

/-- A conversion moves the tokens of the stake to the supply. -/
theorem convertToFungibleStakedSui (hs : s ∈ l.staked)
    (hcall : l.call (.convertToFungibleStakedSui s) = .ok l') : Backed l' := by
  simp only [call, bind_ok, pure_ok] at hcall
  obtain ⟨⟨pool', f⟩, hcall, rfl⟩ := hcall
  obtain ⟨hid, hact, hpre, hvalue, hfid, hfrom, hpool'⟩ := convertToFungibleStakedSui_ok hcall
  have hpend := pendingPrincipals_erase hs
  have htok := activeTokens_erase hs
  rw [pendingPrincipal, if_neg (by omega)] at hpend
  rw [StakingPool.activeTokens, if_pos hact, tokensOf_eq hfrom] at htok
  have hpending := h.pending hpre
  have htokens := h.tokens hpre
  have hsupply := h.supply
  refine h.of_sameFrame (sameFrame_convertToFungibleStakedSui hcall) (fun x hx => h.stakes x (mem_of_mem_erase hx))
    (forall_mem_cons.mpr ⟨⟨hfid.trans hid, hvalue⟩, h.fungible⟩) ?_ (fun _ => ?_) (hpool' ▸ h.fits.1) (hpool' ▸ rfl)
    (fun _ => ?_) (fun _ => ?_)
  · simp only [hpool', fungibleSupply, map_cons, sum_cons, elim_some] at hsupply ⊢
    omega
  · have := h.stakes s hs
    simp only [hpool', fungiblePrincipal, elim_some]
    omega
  · simp only [hpool']
    omega
  · simp only [hpool', fungibleSupply, elim_some] at htokens ⊢
    omega

/-- A redemption moves fungible tokens to the pending ones. -/
theorem redeemFungibleStakedSui {f : FungibleStakedSui} (hf : f ∈ l.fungible)
    (hcall : l.call (.redeemFungibleStakedSui f) = .ok l') : Backed l' := by
  simp only [call, bind_ok, pure_ok] at hcall
  obtain ⟨⟨pool', out⟩, hcall, rfl⟩ := hcall
  obtain ⟨now, data, -, hdata, hpos, hvalue, -, -, hpool'⟩ := redeemFungibleStakedSui_ok hcall
  have hsupply := h.supply
  have herase : f.value + ((l.fungible.erase f).map value).sum = (l.fungible.map value).sum :=
    sum_map_erase _ hf
  refine h.of_sameFrame (sameFrame_redeemFungibleStakedSui hcall) h.stakes (fun x hx => h.fungible x (mem_of_mem_erase hx)) ?_ (fun hleft => ?_)
    (hpool' ▸ h.fits.1) (hpool' ▸ rfl) (hpool' ▸ h.pending) (fun hpre => ?_)
  · simp only [hpool', fungibleSupply, hdata, elim_some] at hsupply ⊢
    omega
  · have hprincipal := h.principal
    simp only [hpool', fungibleSupply, fungiblePrincipal, hdata, elim_some] at hleft hprincipal ⊢
    -- a proper share of the principal leaves some of it
    have hle := Nat.min_le_left data.principal (now.suiFor data.totalSupply)
    rcases Nat.eq_zero_or_pos (min data.principal (now.suiFor data.totalSupply)) with hzero | hmin
    · rw [principalShare, hzero, Nat.mul_zero, Nat.zero_div]
      exact hprincipal hpos
    · have hlt : principalShare now f.value data < min data.principal (now.suiFor data.totalSupply) :=
        share_lt (by omega) hmin
      omega
  · have htokens := h.tokens hpre
    simp only [hpool', fungibleSupply, activeTokens, hdata, elim_some] at htokens ⊢
    omega

theorem depositRewards {rewards : Nat} (hcall : l.call (.depositRewards rewards) = .ok l') : Backed l' := by
  simp only [call, bind_ok, pure_ok] at hcall
  obtain ⟨pool', hcall, rfl⟩ := hcall
  obtain ⟨hfits, hpool'⟩ := depositRewards_ok hcall
  exact h.of_sameFrame (sameFrame_depositRewards hcall) h.stakes h.fungible (hpool' ▸ h.supply) (hpool' ▸ h.principal) (hpool' ▸ hfits) (hpool' ▸ rfl)
    (hpool' ▸ h.pending) (hpool' ▸ h.tokens)

end

theorem sum_pendingPrincipal_le (epoch : Nat) (staked : List StakedSui) :
    (staked.map (StakedSui.pendingPrincipal epoch)).sum ≤ (staked.map StakedSui.principal).sum := by
  refine sum_le_sum fun s _ => ?_
  rw [StakedSui.pendingPrincipal]
  split
  · exact le_refl _
  · exact Nat.zero_le _

/-- When nothing but new stakes is left, no stake is active. -/
theorem activeTokens_eq_zero (h : Backed l) (hall : l.principals ≤ l.pendingPrincipals) : l.activeTokens = 0 := by
  refine sum_eq_zero fun x hx => ?_
  obtain ⟨s, hs, rfl⟩ := mem_map.mp hx
  refine if_neg fun hact => ?_
  have hprin := principals_erase hs
  have hpend := pendingPrincipals_erase hs
  have hle := sum_pendingPrincipal_le l.epoch (l.staked.erase s)
  have hpos := h.stakes s hs
  rw [StakedSui.pendingPrincipal, if_neg (by omega)] at hpend
  omega

/-- The tokens of a stake after an epoch: those it had, or those of its principal at the new rate. -/
theorem activeTokens_next (hc : Conserved l) (hp : l.pool.Processed l.epoch pool')
    (hrate : pool'.poolTokenExchangeRateAtEpoch (l.epoch + 1) = .ok ⟨pool'.suiBalance, pool'.poolTokenBalance⟩)
    (hs : s ∈ l.staked) :
    pool'.activeTokens (l.epoch + 1) s ≤ l.pool.activeTokens l.epoch s +
      tokensFor ⟨pool'.suiBalance, pool'.poolTokenBalance⟩ (s.pendingPrincipal l.epoch) := by
  have hup := hc.upcoming s hs
  rw [StakingPool.activeTokens, if_pos hup, StakingPool.activeTokens, pendingPrincipal]
  by_cases hact : s.stakeActivationEpoch ≤ l.epoch
  · have hsame : pool'.tokensOf s = l.pool.tokensOf s :=
      tokensOf_congr hp.id (by
        unfold poolTokenExchangeRateAtEpoch isPreactiveAtEpoch
        rw [hp.activation, hp.deactivation, hp.rates, exchangeRateLoop_insert (by omega)])
    rw [if_pos hact, hsame]
    exact Nat.le_add_right _ _
  · have heq : s.stakeActivationEpoch = l.epoch + 1 := by omega
    rw [if_neg hact, if_pos (by omega), Nat.zero_add]
    exact tokensOf_le (heq ▸ hrate)

/-- At the end of an epoch stakes become active, at a rate that rounds down. -/
theorem advanceEpoch (h : Backed l) (hc : Conserved l) (hpre : l.pool.isPreactive = false)
    (hcall : l.call .advanceEpoch = .ok l') : Backed l' := by
  simp only [call, bind_ok, pure_ok] at hcall
  obtain ⟨pool', hcall, rfl⟩ := hcall
  have hp := processed_of_ok hc.notInactive hc.noUnderflow hc.withdraw_le hcall
  obtain ⟨a, ha⟩ : ∃ a, l.pool.activationEpoch = some a :=
    ne_none_iff_exists'.mp fun hnone => by rw [StakingPool.isPreactive, hnone] at hpre; cases hpre
  have hrate : pool'.poolTokenExchangeRateAtEpoch (l.epoch + 1) = .ok ⟨pool'.suiBalance, pool'.poolTokenBalance⟩ := by
    have hle : a ≤ l.epoch + 1 := Nat.le_succ_of_le (hc.active a ha).1
    rw [rateAt_of_le (hp.activation.trans ha) (hp.deactivation.trans hc.notInactive) hle]
    refine exchangeRateLoop_of_entry hle ?_
    rw [hp.rates, get_insert, if_pos rfl]
  have hbal := hc.balance
  have hpending := h.pending hpre
  have htokens := h.tokens hpre
  have hle : l.pendingPrincipals ≤ l.principals := sum_pendingPrincipal_le l.epoch l.staked
  have hsupply : pool'.fungibleSupply = l.pool.fungibleSupply := by rw [fungibleSupply, hp.data]; rfl
  have hprincipal : pool'.fungiblePrincipal = l.pool.fungiblePrincipal := by rw [fungiblePrincipal, hp.data]; rfl
  refine ⟨h.stakes, fun f hf => hp.id ▸ h.fungible f hf, h.supply.trans hsupply.symm, fun hpos => ?_, hp.fits, fun _ => ?_,
    fun _ => ?_, fun _ => ⟨_, hrate, .inr ⟨rfl, hp.fits.1⟩⟩⟩
  · exact hprincipal ▸ h.principal (hsupply ▸ hpos)
  · exact hp.pending.1.trans (sum_pendingPrincipal_eq_zero hc.upcoming).symm
  · have hbalance : pool'.suiBalance = l.pool.suiBalance - l.pool.pendingTotalSuiWithdraw + l.pendingPrincipals := by
      rw [hp.balance]
      omega
    have hsum : (l.staked.map (pool'.activeTokens (l.epoch + 1))).sum ≤ l.activeTokens + (l.staked.map fun s =>
        tokensFor ⟨pool'.suiBalance, pool'.poolTokenBalance⟩ (s.pendingPrincipal l.epoch)).sum := by
      rw [activeTokens, ← sum_map_add]
      exact sum_le_sum fun s hs => activeTokens_next hc hp hrate hs
    have hcover := sum_tokensFor_le (S := l.pool.suiBalance - l.pool.pendingTotalSuiWithdraw)
      (P := l.pool.poolTokenBalance - l.pool.pendingPoolTokenWithdraw) (StakedSui.pendingPrincipal l.epoch) l.staked
      (rfl : _ = l.pendingPrincipals) (show l.activeTokens + l.pool.fungibleSupply ≤ _ by omega) (fun hempty => ?_)
    · rw [← hbalance, ← hp.tokens] at hcover
      simp only [hp.pending.2.2, hsupply, activeTokens] at hsum hcover ⊢
      omega
    · -- a pool with nothing but new stakes has no active stake and no fungible token
      have hnone := h.activeTokens_eq_zero (by omega)
      have hzero : l.pool.fungibleSupply = 0 := by
        by_contra hne
        have := h.principal (Nat.pos_of_ne_zero hne)
        omega
      omega

/-- A pool that becomes active: all its stakes are at par. -/
theorem activated (h : Backed l) (hc : Conserved l) {epoch' : Nat}
    (hcall : l.pool.activateStakingPool l.epoch = .ok pool') (hle : l.epoch ≤ epoch' ∧ epoch' ≤ l.epoch + 1)
    (hnext : ∀ s ∈ l.staked, s.stakeActivationEpoch ≤ epoch') : Backed ⟨pool', epoch', l.staked, l.fungible⟩ := by
  obtain ⟨hpre, hpool'⟩ := activateStakingPool_ok hcall
  obtain ⟨hps, hptw, hppt, hrew, hdata, htok, hrates⟩ := hc.preactive hpre
  have ha : pool'.activationEpoch = some l.epoch := by rw [hpool']
  have hd : pool'.deactivationEpoch = none := by rw [hpool']; exact hc.notInactive
  have hentry : pool'.exchangeRates[l.epoch]? = some .initial := by rw [hpool', get_insert, if_pos rfl]
  have hnone : pool'.exchangeRates[l.epoch + 1]? = none := by
    rw [hpool', get_insert, if_neg (Nat.ne_of_lt (Nat.lt_succ_self _)), hrates, get_empty]
  have hrate : ∀ e ≤ epoch', pool'.poolTokenExchangeRateAtEpoch e = .ok .initial := by
    intro e he
    rcases lt_trichotomy e l.epoch with hlt | rfl | hgt
    · exact rateAt_of_lt ha hlt
    · rw [rateAt_of_le ha hd (le_refl _)]
      exact exchangeRateLoop_of_entry (le_refl _) hentry
    · obtain rfl : e = l.epoch + 1 := by omega
      rw [rateAt_of_le ha hd (by omega), exchangeRateLoop, if_pos (by omega), hnone]
      exact exchangeRateLoop_of_entry (le_refl _) hentry
  have hsum : (l.staked.map (pool'.activeTokens epoch')).sum ≤ l.principals := by
    refine sum_le_sum fun s hs => ?_
    rw [StakingPool.activeTokens, if_pos (hnext s hs)]
    exact le_of_le_of_eq (tokensOf_le (hrate _ (hnext s hs))) (tokensFor_initial _)
  have hbal := hc.balance
  refine ⟨h.stakes, hpool' ▸ h.fungible, hpool' ▸ h.supply, hpool' ▸ h.principal, hpool' ▸ h.fits, fun _ => ?_, fun _ => ?_,
    fun _ => ⟨.initial, hrate epoch' (le_refl _), .inl rfl⟩⟩
  · have hzero := sum_pendingPrincipal_eq_zero hnext
    simp only [hpool', hps, pendingPrincipals, hzero]
  · simp only [activeTokens, fungiblePrincipal, hdata, elim_none] at hsum hbal ⊢
    simp only [hpool', fungibleSupply, hdata, hppt, elim_none] at hsum ⊢
    omega

/-- Every call keeps the accounting of the tokens, outside of safe mode. -/
theorem call (h : Backed l) (hc : Conserved l) {c : PoolCall} (hadm : l.Admissible false c) (hcall : l.call c = .ok l') :
    Backed l' := by
  cases c with
  | requestAddStake => exact h.requestAddStake hc hcall
  | requestAddStakeAtGenesis => exact h.requestAddStakeAtGenesis hc hadm hcall
  | requestWithdrawStake => exact h.requestWithdrawStake hc hadm hcall
  | convertToFungibleStakedSui => exact h.convertToFungibleStakedSui hadm hcall
  | redeemFungibleStakedSui => exact h.redeemFungibleStakedSui hadm hcall
  | depositRewards => exact h.depositRewards hcall
  | advanceEpoch => exact h.advanceEpoch hc hadm hcall
  | activate =>
    obtain ⟨pool', hcall, hl⟩ := bind_ok.mp hcall
    exact Except.ok.inj hl ▸ h.activated hc hcall ⟨Nat.le_succ _, le_refl _⟩ hc.upcoming
  | activateAtGenesis =>
    obtain ⟨hzero, hgenesis⟩ := hadm
    obtain ⟨pool', hcall, hl⟩ := bind_ok.mp hcall
    exact Except.ok.inj hl ▸ h.activated hc (hzero ▸ hcall) ⟨le_refl _, Nat.le_succ _⟩ fun s hs => hgenesis s hs ▸ Nat.zero_le _
  | skipEpoch =>
    have hpre : l.pool.isPreactive = true := hadm.resolve_right nofun
    rw [← Except.ok.inj hcall]
    exact ⟨h.stakes, h.fungible, h.supply, h.principal, h.fits, fun hp => absurd (hp.symm.trans hpre) nofun,
      fun hp => absurd (hp.symm.trans hpre) nofun, fun hp => absurd (hp.symm.trans hpre) nofun⟩

end Backed

end StakingLedger

/-! ## Redeeming fungible tokens -/

namespace StakingPool

variable {rate : PoolTokenExchangeRate} {value : Nat} {data : FungibleStakedSuiData}

/-- The two shares of a token are worth the token, up to two coins that are lost. -/
theorem shares_bounds (rate : PoolTokenExchangeRate) (hT : 0 < data.totalSupply) (hvalue : value ≤ data.totalSupply) :
    principalShare rate value data + rewardsShare rate value data ≤ rate.suiFor value ∧
    rate.suiFor value ≤ principalShare rate value data + rewardsShare rate value data + 2 := by
  have hsplit := Nat.add_sub_cancel' (Nat.min_le_right data.principal (rate.suiFor data.totalSupply))
  obtain ⟨S, P, hP, hrate⟩ := rate.exists_suiFor
  unfold principalShare rewardsShare
  rw [hrate] at hsplit ⊢
  rw [hrate]
  exact ⟨redeem_le hP hT hsplit, le_redeem hP hT hvalue hsplit⟩

/-- The amounts of a redemption are computed without an abort when the SUI amount of all tokens fits. -/
theorem calculateFungible_total (hsui : rate.suiAmount < 2 ^ 64) (hX : rate.suiFor data.totalSupply < 2 ^ 64)
    (hT : 0 < data.totalSupply) (hfits : data.totalSupply < 2 ^ 64) (hvalue : value ≤ data.totalSupply) :
    rate.calculateFungibleStakedSuiWithdrawAmount value data.principal data.totalSupply =
      .ok (principalShare rate value data, rewardsShare rate value data) := by
  have hE : rate.suiFor value < 2 ^ 64 := lt_of_le_of_lt (suiFor_mono hvalue) hX
  have htotal := getSuiAmount_eq hsui hfits hX
  have hexpected := getSuiAmount_eq hsui (lt_of_le_of_lt hvalue hfits) hE
  have hmin := Nat.min_le_right data.principal (rate.suiFor data.totalSupply)
  have hshares := (shares_bounds rate hT hvalue).1
  have hmulDiv : ∀ m ≤ rate.suiFor data.totalSupply,
      U64.mulDiv value m data.totalSupply = .ok (value * m / data.totalSupply) := fun m hm =>
    U64.mulDiv_eq (by omega) (by omega) hT (lt_of_le_of_lt (share_le hvalue) (by omega))
  simp only [calculateFungibleStakedSuiWithdrawAmount, htotal, ok_bind, U64.sub, Word.sub_eq hmin,
    hmulDiv _ hmin, hmulDiv _ (Nat.sub_le _ _), hexpected]
  unfold principalShare rewardsShare at hshares ⊢
  rw [U64.add, Word.add_eq (by omega), ok_bind, decide_eq_true hshares]
  rfl

end StakingPool

namespace StakingLedger

variable {l : StakingLedger}

/-- A token is a part of the supply. -/
theorem Backed.value_le_supply (h : Backed l) {f : FungibleStakedSui} (hf : f ∈ l.fungible) : f.value ≤ l.pool.fungibleSupply :=
  h.supply ▸ single_le_sum (fun _ _ => Nat.zero_le _) _ (mem_map_of_mem hf)

/-- An outstanding token of an active pool can be redeemed if and only if the rewards pool covers its share in the rewards. -/
theorem Backed.redeem_iff (h : Backed l) (hc : Conserved l) (hpre : l.pool.isPreactive = false) {f : FungibleStakedSui}
    (hf : f ∈ l.fungible) :
    ∃ now data, l.pool.poolTokenExchangeRateAtEpoch l.epoch = .ok now ∧ l.pool.fungibleStakedSuiData = some data ∧
      ((∃ r, l.pool.redeemFungibleStakedSui f l.epoch = .ok r) ↔ rewardsShare now f.value data ≤ l.pool.rewardsPool) := by
  obtain ⟨now, hnow, hcases⟩ := h.rate hpre
  obtain ⟨hid, hpos⟩ := h.fungible f hf
  have hvalue := h.value_le_supply hf
  obtain ⟨data, hdata⟩ : ∃ data, l.pool.fungibleStakedSuiData = some data := by
    refine ne_none_iff_exists'.mp fun hnone => ?_
    rw [fungibleSupply, hnone, elim_none] at hvalue
    omega
  refine ⟨now, data, hnow, hdata, fun hok => ?_, fun hrewards => ?_⟩
  · obtain ⟨⟨pool', out⟩, hok⟩ := hok
    obtain ⟨now', data', hnow', hdata', -, -, -, hle, -⟩ := redeemFungibleStakedSui_ok hok
    obtain rfl := ok_unique hnow hnow'
    obtain rfl := some.inj (hdata.symm.trans hdata')
    exact hle
  · have hbal := hc.balance
    have hpending := h.pending hpre
    have htokens := h.tokens hpre
    have hle : l.pendingPrincipals ≤ l.principals := Backed.sum_pendingPrincipal_le l.epoch l.staked
    obtain ⟨hfitsS, hfitsP⟩ := h.fits
    simp only [fungibleSupply, fungiblePrincipal, hdata, elim_some] at hvalue hbal htokens
    obtain ⟨hsui, hX⟩ : now.suiAmount < 2 ^ 64 ∧ now.suiFor data.totalSupply < 2 ^ 64 := by
      rcases hcases with rfl | hcases
      · exact ⟨Nat.two_pow_pos 64, by rw [suiFor_initial]; omega⟩
      · exact ⟨hcases.2, suiFor_lt hcases.2 (by omega) (by omega)⟩
    have hcalc : now.calculateFungibleStakedSuiWithdrawAmount f.value data.principal data.totalSupply =
        .ok (principalShare now f.value data, rewardsShare now f.value data) :=
      calculateFungible_total hsui hX (by omega) (by omega) hvalue
    have hprincipal : principalShare now f.value data ≤ data.principal :=
      le_trans (share_le hvalue) (Nat.min_le_left _ _)
    simp only [StakingPool.redeemFungibleStakedSui, hid, decide_true, assert_true, ok_bind, hnow, hdata,
      expect_some, hcalc, U64.sub, Word.sub_eq hvalue, Balance.split_eq hprincipal, Balance.split_eq hrewards]
    rw [U64.add, Word.add_eq (by omega), ok_bind, U64.add, Word.add_eq (by omega), ok_bind, U64.add,
      Word.add_eq (by omega), ok_bind]
    exact ⟨_, rfl⟩

/-- The accounting of the tokens holds in every run without safe mode. -/
theorem backed_of_run (h : StakingRun false l) : Backed l := by
  induction h with
  | new id epoch => exact backed_new id epoch
  | call c hl hadm hc ih => exact ih.call (conserved_of_run hl) hadm hc

end StakingLedger

end Sui

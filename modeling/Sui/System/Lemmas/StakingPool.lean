import Sui.Library.Shares
import Sui.System.StakingPool

/-!
# What the functions of a staking pool do

Exchange rates as numbers, the lookup of a rate, and for each function the pool that it returns.
-/

namespace Sui

open Library Checked BTreeMap Balance U64 PoolTokenExchangeRate Abort

/-- An abort because a number does not fit: the amounts of the pool are too large. -/
def Abort.IsOverflow (e : Abort) : Prop := e = .overflow ∨ e = .castOverflow

variable {b : Nat}

theorem U64.add_ok {a c : Nat} : U64.add a b = .ok c ↔ a + b < 2 ^ 64 ∧ a + b = c := Word.add_ok

theorem U64.sub_ok {a c : Nat} : U64.sub a b = .ok c ↔ b ≤ a ∧ a - b = c := Word.sub_ok

theorem U64.add_errors (a b : Nat) : ErrorsIn IsOverflow (U64.add a b) := .ite fun _ => .inl rfl

theorem Balance.split_ok {v c : Nat} : split b v = .ok c ↔ v ≤ b ∧ b - v = c := by
  unfold split
  simp only [bind_ok, assert_ok, decide_eq_true_eq, pure_ok, exists_and_left, ge_iff_le, exists_const]

theorem Balance.split_eq {v : Nat} (h : v ≤ b) : split b v = .ok (b - v) := split_ok.mpr ⟨h, rfl⟩

namespace PoolTokenExchangeRate

variable {rate : PoolTokenExchangeRate} {x t : Nat} {e : Abort}

/-- The pool tokens for an amount of SUI. -/
def tokensFor (rate : PoolTokenExchangeRate) (x : Nat) : Nat :=
  if rate.suiAmount = 0 ∨ rate.poolTokenAmount = 0 then x else rate.poolTokenAmount * x / rate.suiAmount

/-- The SUI for an amount of pool tokens. -/
def suiFor (rate : PoolTokenExchangeRate) (x : Nat) : Nat :=
  if rate.suiAmount = 0 ∨ rate.poolTokenAmount = 0 then x else rate.suiAmount * x / rate.poolTokenAmount

/-- The conversions of both directions. -/
theorem meets_convert {p : Prop} [Decidable p] {a : Nat} (hb : ¬ p → b ≠ 0) (x : Nat) :
    Meets IsOverflow (· = if p then x else a * x / b) (if p then return x else mulDiv a x b) := by
  split
  · exact .ok rfl
  · exact ⟨errorsIn_mulDiv (.inl rfl) (fun h => absurd h (hb ‹_›)) (.inr rfl) _ _, fun t ht => (mulDiv_ok ht).2.1⟩

theorem meets_getTokenAmount (rate : PoolTokenExchangeRate) (x : Nat) :
    Meets IsOverflow (· = rate.tokensFor x) (rate.getTokenAmount x) := meets_convert (by omega) x

theorem meets_getSuiAmount (rate : PoolTokenExchangeRate) (x : Nat) :
    Meets IsOverflow (· = rate.suiFor x) (rate.getSuiAmount x) := meets_convert (by omega) x

theorem convert_lt {p : Prop} [Decidable p] {a : Nat} (h : (if p then return x else mulDiv a x b) = Except.ok t) (hx : x < 2 ^ 64) :
    t < 2 ^ 64 := by
  split at h
  · exact Except.ok.inj h ▸ hx
  · exact (mulDiv_ok h).2.2

theorem tokensFor_initial (x : Nat) : initial.tokensFor x = x := if_pos (.inl rfl)

theorem suiFor_initial (x : Nat) : initial.suiFor x = x := if_pos (.inl rfl)

/-- At par a token is a coin. -/
theorem tokensFor_par (S x : Nat) : tokensFor ⟨S, S⟩ x = x := by
  unfold tokensFor
  split_ifs with hne
  · rfl
  · exact Nat.mul_div_cancel_left _ (Nat.pos_of_ne_zero fun h => hne (.inl h))

/-- A balance that only grew since its rate has tokens. -/
theorem eq_tokensFor_of_zero {S P S' : Nat} (hle : S ≤ S') (h : S' = 0 ∨ tokensFor ⟨S, P⟩ S' = 0) :
    S' = tokensFor ⟨S, P⟩ S' := by
  unfold tokensFor at h ⊢
  split_ifs at h with hne
  · rw [if_pos ‹_›]
  · have hpos : 0 < P * S' / S :=
      Nat.div_pos (le_trans hle (Nat.le_mul_of_pos_left _ (by simp only at hne; omega))) (by simp only at hne; omega)
    simp only at h hne
    omega

/-- The tokens of a balance at its own rate. -/
theorem getTokenAmount_self {S P : Nat} (hS : S < 2 ^ 64) (hP : P < 2 ^ 64) (h : S = 0 ∨ P = 0 → S = P) :
    getTokenAmount ⟨S, P⟩ S = .ok P := by
  unfold getTokenAmount
  split_ifs with hne
  · exact congrArg _ (h ‹_›)
  · have hpos : 0 < S := Nat.pos_of_ne_zero fun h => hne (.inl h)
    have hcancel : P * S / S = P := Nat.mul_div_cancel _ hpos
    rw [mulDiv_eq hP hS hpos (by rw [hcancel]; exact hP), hcancel]

/-- A rate is a quotient, which is one if there is no rate yet. -/
theorem exists_suiFor (rate : PoolTokenExchangeRate) : ∃ S P, 0 < P ∧ ∀ x, rate.suiFor x = S * x / P := by
  by_cases hinit : rate.suiAmount = 0 ∨ rate.poolTokenAmount = 0
  · exact ⟨1, 1, Nat.one_pos, fun x => by rw [suiFor, if_pos hinit, Nat.one_mul, Nat.div_one]⟩
  · exact ⟨rate.suiAmount, rate.poolTokenAmount, by omega, fun x => if_neg hinit⟩

theorem suiFor_mono {y : Nat} (hle : x ≤ y) : rate.suiFor x ≤ rate.suiFor y := by
  obtain ⟨S, P, -, hrate⟩ := exists_suiFor rate
  rw [hrate, hrate]
  exact Nat.div_le_div_right (Nat.mul_le_mul_left _ hle)

/-- The SUI of at most all pool tokens is at most all the SUI. -/
theorem suiFor_lt (hs : rate.suiAmount < 2 ^ 64) (hx : x < 2 ^ 64)
    (h : rate.suiAmount = 0 ∨ rate.poolTokenAmount = 0 ∨ x ≤ rate.poolTokenAmount) : rate.suiFor x < 2 ^ 64 := by
  unfold suiFor
  split
  · exact hx
  · rw [Nat.mul_comm]
    exact lt_of_le_of_lt (share_le (by omega)) hs

theorem getSuiAmount_eq (hs : rate.suiAmount < 2 ^ 64) (hx : x < 2 ^ 64) (h : rate.suiFor x < 2 ^ 64) :
    rate.getSuiAmount x = .ok (rate.suiFor x) := by
  unfold getSuiAmount suiFor at *
  split
  · rfl
  · rw [if_neg ‹_›] at h
    exact mulDiv_eq hs hx (by omega) h

end PoolTokenExchangeRate

namespace StakingPool

variable {pool pool' : StakingPool} {epoch : Nat}

/-! ## The lookup of an exchange rate -/

variable {rate : PoolTokenExchangeRate} {rates : BTreeMap Nat PoolTokenExchangeRate}

theorem exchangeRateLoop_insert {a k e : Nat}
    (h : e < k) : exchangeRateLoop (rates.insert k rate) a e = exchangeRateLoop rates a e := by
  induction e with
  | zero =>
    rw [exchangeRateLoop, exchangeRateLoop, get_insert, if_neg (show ¬ k = 0 by omega)]
  | succ e ih =>
    rw [exchangeRateLoop, exchangeRateLoop, get_insert, if_neg (show ¬ k = e + 1 by omega), ih (by omega)]

theorem exchangeRateLoop_of_entry {a e : Nat}
    (ha : a ≤ e) (h : rates[e]? = some rate) : exchangeRateLoop rates a e = .ok rate := by
  cases e with
  | zero => rw [exchangeRateLoop, if_pos (by omega), h]; rfl
  | succ => rw [exchangeRateLoop, if_pos (by omega), h]; rfl

variable {a : Nat}

/-- The scan finds a rate, at the latest at the activation epoch. -/
theorem exchangeRateLoop_total (hentry : rates[a]?.isSome) (e : Nat) : ∃ rate, exchangeRateLoop rates a e = .ok rate := by
  induction e with
  | zero =>
    rw [exchangeRateLoop]
    split
    · obtain rfl : a = 0 := by omega
      obtain ⟨rate, hrate⟩ := Option.isSome_iff_exists.mp hentry
      exact ⟨rate, by rw [hrate]; rfl⟩
    · exact ⟨_, rfl⟩
  | succ e ih =>
    rw [exchangeRateLoop]
    split_ifs with hle
    · split
      · exact ⟨_, rfl⟩
      · exact ih
    · exact ⟨_, rfl⟩

theorem rateAt_of_preactive (h : pool.isPreactive = true) (e : Nat) : pool.poolTokenExchangeRateAtEpoch e = .ok .initial := by
  have hnone : pool.activationEpoch = none := Option.isNone_iff_eq_none.mp h
  rw [poolTokenExchangeRateAtEpoch, isPreactiveAtEpoch, hnone]
  rfl

theorem rateAt_of_lt {e : Nat} (ha : pool.activationEpoch = some a) (h : e < a) :
    pool.poolTokenExchangeRateAtEpoch e = .ok .initial := by
  rw [poolTokenExchangeRateAtEpoch, isPreactiveAtEpoch, ha, if_pos (by simpa using h)]
  rfl

theorem rateAt_of_le {e : Nat} (ha : pool.activationEpoch = some a) (hd : pool.deactivationEpoch = none) (h : a ≤ e) :
    pool.poolTokenExchangeRateAtEpoch e = exchangeRateLoop pool.exchangeRates a e := by
  rw [poolTokenExchangeRateAtEpoch, isPreactiveAtEpoch, ha, hd, if_neg (by simpa using h)]
  simp only [Option.getD_none, Option.getD_some, Nat.min_self]

/-- A pool that is not deactivated has a rate for every epoch. -/
theorem rateAt_total (hd : pool.deactivationEpoch = none)
    (hentry : ∀ a, pool.activationEpoch = some a → pool.exchangeRates[a]?.isSome) (e : Nat) :
    ∃ rate, pool.poolTokenExchangeRateAtEpoch e = .ok rate := by
  cases ha : pool.activationEpoch with
  | none => exact ⟨_, rateAt_of_preactive (by rw [isPreactive, ha]; rfl) e⟩
  | some a =>
    by_cases h : a ≤ e
    · rw [rateAt_of_le ha hd h]
      exact exchangeRateLoop_total (hentry a ha) e
    · exact ⟨_, rateAt_of_lt ha (by omega)⟩

/-! ## Stake requests -/

variable {s : StakedSui} {stake : Nat}

theorem requestAddStake_ok {act : Nat} (h : pool.requestAddStake stake act = .ok (pool', s)) :
    0 < stake ∧ s = ⟨pool.id, act, stake⟩ ∧ pool' = { pool with pendingStake := pool.pendingStake + stake } := by
  unfold requestAddStake at h
  simp only [bind_ok, assert_ok, add_ok, pure_ok, Prod.mk.injEq, decide_eq_true_eq] at h
  obtain ⟨-, -, -, hpos, -, ⟨-, rfl⟩, rfl, rfl⟩ := h
  exact ⟨hpos, rfl, rfl⟩

theorem processPendingStake_ok (h : pool.processPendingStake = .ok pool') :
    pool.suiBalance + pool.pendingStake < 2 ^ 64 ∧ pool'.poolTokenBalance < 2 ^ 64 ∧
    pool' = { pool with
      underflowSuiBalance := none
      suiBalance := pool.suiBalance + pool.pendingStake - pool.underflowSuiBalance.getD 0
      poolTokenBalance := tokensFor ⟨pool.suiBalance, pool.poolTokenBalance⟩
        (pool.suiBalance + pool.pendingStake - pool.underflowSuiBalance.getD 0)
      pendingStake := 0 } := by
  unfold processPendingStake at h
  simp only [bind_ok, add_ok, sub_ok, pure_ok] at h
  obtain ⟨-, ⟨hlt, rfl⟩, -, ⟨hle, rfl⟩, t, ht, rfl⟩ := h
  rw [← (meets_getTokenAmount _ _).2 _ ht]
  exact ⟨hlt, convert_lt ht (by omega), rfl⟩

theorem processPendingStake_errors (hle : pool.underflowSuiBalance.getD 0 ≤ pool.suiBalance + pool.pendingStake) :
    ErrorsIn IsOverflow pool.processPendingStake := by
  unfold processPendingStake
  refine .bind (add_errors _ _) fun sum hsum => ?_
  obtain ⟨-, rfl⟩ := add_ok.mp hsum
  rw [U64.sub, Word.sub_eq hle, ok_bind]
  exact .bind (meets_getTokenAmount _ _).1 fun t _ => .ok _

/-- The pool with a stake that was processed at once. -/
def withProcessedStake (pool : StakingPool) (stake : Nat) : StakingPool :=
  { pool with
    suiBalance := pool.suiBalance + (pool.pendingStake + stake)
    poolTokenBalance := PoolTokenExchangeRate.tokensFor ⟨pool.suiBalance, pool.poolTokenBalance⟩
      (pool.suiBalance + (pool.pendingStake + stake))
    pendingStake := 0 }

section

variable (hu : pool.underflowSuiBalance = none)

include hu

theorem requestAddStake_processPendingStake {act : Nat} {pool1 : StakingPool}
    (h : pool.requestAddStake stake act = .ok (pool1, s)) (hp : pool1.processPendingStake = .ok pool') :
    0 < stake ∧ s = ⟨pool.id, act, stake⟩ ∧ pool' = pool.withProcessedStake stake ∧
      (pool.withProcessedStake stake).suiBalance < 2 ^ 64 := by
  obtain ⟨hpos, rfl, rfl⟩ := requestAddStake_ok h
  obtain ⟨hlt, -, rfl⟩ := processPendingStake_ok hp
  refine ⟨hpos, rfl, ?_, hlt⟩
  simp only [withProcessedStake, hu, Option.getD_none, Nat.sub_zero]

theorem validatorRequestAddStake_ok (h : pool.validatorRequestAddStake stake epoch = .ok (pool', s)) :
    0 < stake ∧ s = ⟨pool.id, epoch + 1, stake⟩ ∧ ((pool.isPreactive = true ∧ pool' = pool.withProcessedStake stake ∧
          (pool.withProcessedStake stake).suiBalance < 2 ^ 64) ∨
        (pool.isPreactive = false ∧ pool' = { pool with pendingStake := pool.pendingStake + stake })) := by
  unfold validatorRequestAddStake at h
  simp only [bind_ok, add_ok] at h
  obtain ⟨-, -, -, ⟨-, rfl⟩, ⟨pool1, s1⟩, hadd, h⟩ := h
  obtain ⟨hpos, rfl, hpool⟩ := requestAddStake_ok hadd
  have hpre : pool1.isPreactive = pool.isPreactive := by rw [hpool]; rfl
  split_ifs at h with hact
  · simp only [bind_ok, pure_ok, Prod.mk.injEq] at h
    obtain ⟨pool2, hp, rfl, rfl⟩ := h
    exact ⟨hpos, rfl, .inl ⟨hpre ▸ hact, (requestAddStake_processPendingStake hu hadd hp).2.2⟩⟩
  · simp only [pure_ok, Prod.mk.injEq] at h
    obtain ⟨rfl, rfl⟩ := h
    exact ⟨hpos, rfl, .inr ⟨hpre ▸ eq_false_of_ne_true hact, hpool⟩⟩

theorem validatorRequestAddStakeAtGenesis_ok (h : pool.validatorRequestAddStakeAtGenesis stake epoch = .ok (pool', s)) :
    0 < stake ∧ s = ⟨pool.id, 0, stake⟩ ∧ pool' = pool.withProcessedStake stake ∧
      (pool.withProcessedStake stake).suiBalance < 2 ^ 64 := by
  unfold validatorRequestAddStakeAtGenesis at h
  simp only [bind_ok, pure_ok, Prod.mk.injEq] at h
  obtain ⟨-, -, -, -, ⟨pool1, s1⟩, hadd, pool2, hp, rfl, rfl⟩ := h
  exact requestAddStake_processPendingStake hu hadd hp

end

/-- A withdrawal that the balance does not cover is kept as an underflow, for the pending stake that follows. -/
theorem processPendingStakeWithdraw_eq (hd : pool.deactivationEpoch = none) (hu : pool.underflowSuiBalance = none) :
    pool.processPendingStakeWithdraw = .ok { pool with
      suiBalance := pool.suiBalance - pool.pendingTotalSuiWithdraw
      underflowSuiBalance :=
        if pool.suiBalance ≥ pool.pendingTotalSuiWithdraw then none
        else some (pool.pendingTotalSuiWithdraw - pool.suiBalance)
      poolTokenBalance := pool.poolTokenBalance - pool.pendingPoolTokenWithdraw
      pendingTotalSuiWithdraw := 0
      pendingPoolTokenWithdraw := 0 } := by
  unfold processPendingStakeWithdraw withdrawnBalance isInactive
  rw [hd, hu]
  by_cases h : pool.suiBalance ≥ pool.pendingTotalSuiWithdraw
  · rw [if_pos h, if_pos h]
    rfl
  · rw [if_neg h, if_neg h, Nat.sub_eq_zero_of_le (show pool.suiBalance ≤ pool.pendingTotalSuiWithdraw by omega)]
    rfl

theorem withdrawRewards_ok {p t r : Nat} (h : pool.withdrawRewards p t epoch = .ok (pool', r)) :
    ∃ rate, pool.poolTokenExchangeRateAtEpoch epoch = .ok rate ∧ r = min (rate.suiFor t - p) pool.rewardsPool ∧
      pool' = { pool with rewardsPool := pool.rewardsPool - r } := by
  unfold withdrawRewards at h
  simp only [bind_ok, split_ok, pure_ok, Prod.mk.injEq] at h
  obtain ⟨rate, hrate, x, hx, -, ⟨-, rfl⟩, rfl, rfl⟩ := h
  obtain rfl := (meets_getSuiAmount _ _).2 _ hx
  exact ⟨rate, hrate, rfl, rfl⟩

theorem withdrawRewards_errors (hrate : pool.poolTokenExchangeRateAtEpoch epoch = .ok rate)
    (p t : Nat) : ErrorsIn IsOverflow (pool.withdrawRewards p t epoch) := by
  unfold withdrawRewards
  rw [hrate, ok_bind]
  refine .bind (meets_getSuiAmount _ _).1 fun x _ => ?_
  simp only [split_eq (Nat.min_le_right _ _), ok_bind]
  exact .ok _

theorem withdrawFromPrincipal_ok {t p : Nat} (h : pool.withdrawFromPrincipal s = .ok (t, p)) :
    ∃ rate, pool.poolTokenExchangeRateAtEpoch s.stakeActivationEpoch = .ok rate ∧ t = rate.tokensFor s.principal ∧
      p = s.principal := by
  unfold withdrawFromPrincipal at h
  simp only [bind_ok, assert_ok, pure_ok, Prod.mk.injEq] at h
  obtain ⟨-, -, rate, hrate, t', ht, rfl, rfl⟩ := h
  exact ⟨rate, hrate, (meets_getTokenAmount _ _).2 _ ht, rfl⟩

variable {out : Nat}

theorem withdrawActiveStake_ok (h : pool.withdrawActiveStake s epoch = .ok (pool', out)) :
    ∃ t r now, pool.withdrawFromPrincipal s = .ok (t, s.principal) ∧ pool.poolTokenExchangeRateAtEpoch epoch = .ok now ∧
      r = min (now.suiFor t - s.principal) pool.rewardsPool ∧
      pool' = { pool with
        rewardsPool := pool.rewardsPool - r
        pendingTotalSuiWithdraw := pool.pendingTotalSuiWithdraw + (s.principal + r)
        pendingPoolTokenWithdraw := pool.pendingPoolTokenWithdraw + t } := by
  unfold withdrawActiveStake at h
  simp only [bind_ok, add_ok, pure_ok, Prod.mk.injEq] at h
  obtain ⟨⟨t, p⟩, hfrom, ⟨pool1, r⟩, hrewards, -, ⟨-, rfl⟩, -, ⟨-, rfl⟩, -, ⟨-, rfl⟩, rfl, rfl⟩ := h
  obtain ⟨-, -, -, rfl⟩ := withdrawFromPrincipal_ok hfrom
  obtain ⟨now, hnow, hr, rfl⟩ := withdrawRewards_ok hrewards
  exact ⟨t, r, now, hfrom, hnow, hr, rfl⟩

theorem withdrawActiveStake_errors (hid : s.poolId = pool.id)
    (hrate : ∀ e, ∃ rate, pool.poolTokenExchangeRateAtEpoch e = .ok rate) :
    ErrorsIn IsOverflow (pool.withdrawActiveStake s epoch) := by
  obtain ⟨rate, hstake⟩ := hrate s.stakeActivationEpoch
  obtain ⟨now, hnow⟩ := hrate epoch
  unfold withdrawActiveStake
  refine .bind ?_ fun w _ => .bind (withdrawRewards_errors hnow _ _) fun r _ => .bind (add_errors _ _) fun _ _ =>
    .bind (add_errors _ _) fun _ _ => .bind (add_errors _ _) fun _ _ => .ok _
  unfold withdrawFromPrincipal
  rw [hid, decide_eq_true rfl, assert_true, ok_bind, hstake, ok_bind]
  exact .bind (meets_getTokenAmount _ _).1 fun t _ => .ok _

/-- The withdrawal of a stake that is not active yet, from an active pool. -/
theorem requestWithdrawStake_pending (hpre : pool.isPreactive = false) (hact : epoch < s.stakeActivationEpoch)
    (hle : s.principal ≤ pool.pendingStake) :
    pool.requestWithdrawStake s epoch = .ok ({ pool with pendingStake := pool.pendingStake - s.principal }, s.principal) := by
  rw [requestWithdrawStake, if_pos ⟨hact, hpre⟩, U64.sub, Word.sub_eq hle, ok_bind]
  rfl

section

variable (hd : pool.deactivationEpoch = none)

include hd

/-- The withdrawal of an active stake from an active pool waits for the end of the epoch. -/
theorem requestWithdrawStake_active (hpre : pool.isPreactive = false) (hact : s.stakeActivationEpoch ≤ epoch)
    (h : pool.requestWithdrawStake s epoch = .ok (pool', out)) :
    ∃ t r, pool.withdrawFromPrincipal s = .ok (t, s.principal) ∧ r ≤ pool.rewardsPool ∧ pool' = { pool with
        rewardsPool := pool.rewardsPool - r
        pendingTotalSuiWithdraw := pool.pendingTotalSuiWithdraw + (s.principal + r)
        pendingPoolTokenWithdraw := pool.pendingPoolTokenWithdraw + t } := by
  rw [requestWithdrawStake, if_neg (by omega), bind_ok] at h
  obtain ⟨⟨pool1, out1⟩, h1, h⟩ := h
  obtain ⟨t, r, now, hfrom, -, hr, hpool1⟩ := withdrawActiveStake_ok h1
  have hpre1 : pool1.isPreactive = false := by rw [hpool1]; exact hpre
  have hd1 : pool1.isInactive = false := by rw [hpool1, isInactive, hd]; rfl
  simp only [hpre1, hd1, Bool.or_false, Bool.false_eq_true, if_false, pure_ok, Prod.mk.injEq] at h
  exact ⟨t, r, hfrom, by omega, h.1 ▸ hpool1⟩

/-- A withdrawal from a pool that is not active yet is at par and takes effect at once. -/
theorem requestWithdrawStake_preactive (hu : pool.underflowSuiBalance = none) (hpre : pool.isPreactive = true)
    (hptw : pool.pendingTotalSuiWithdraw = 0) (hppt : pool.pendingPoolTokenWithdraw = 0) (hle : s.principal ≤ pool.suiBalance)
    (h : pool.requestWithdrawStake s epoch = .ok (pool', out)) :
    pool' = { pool with
      suiBalance := pool.suiBalance - s.principal
      poolTokenBalance := pool.poolTokenBalance - s.principal } := by
  rw [requestWithdrawStake, if_neg (by rw [hpre]; nofun), bind_ok] at h
  obtain ⟨⟨pool1, out1⟩, h1, h⟩ := h
  obtain ⟨t, r, now, hfrom, hnow, hr, hpool1⟩ := withdrawActiveStake_ok h1
  obtain ⟨rate, hrate, ht, -⟩ := withdrawFromPrincipal_ok hfrom
  obtain rfl := Except.ok.inj ((rateAt_of_preactive hpre _).symm.trans hrate)
  obtain rfl := Except.ok.inj ((rateAt_of_preactive hpre _).symm.trans hnow)
  rw [tokensFor_initial] at ht
  rw [ht, suiFor_initial, Nat.sub_self, Nat.zero_min] at hr
  subst hr ht
  rw [Nat.sub_zero, hptw, hppt, Nat.zero_add, Nat.zero_add, Nat.add_zero] at hpool1
  have hpre1 : pool1.isPreactive = true := by rw [hpool1]; exact hpre
  have hd1 : pool1.deactivationEpoch = none := by rw [hpool1]; exact hd
  have hu1 : pool1.underflowSuiBalance = none := by rw [hpool1]; exact hu
  simp only [hpre1, Bool.or_true, if_true, bind_ok, processPendingStakeWithdraw_eq hd1 hu1, Except.ok.injEq,
    exists_eq_left', pure_eq_ok, Prod.mk.injEq] at h
  rw [← h.1, hpool1]
  simp only [if_pos (show pool.suiBalance ≥ s.principal from hle), hptw, hppt, hu]

/-- A withdrawal of an outstanding stake aborts only when an amount does not fit. -/
theorem requestWithdrawStake_errors (hu : pool.underflowSuiBalance = none) (hid : s.poolId = pool.id)
    (hrate : ∀ e, ∃ rate, pool.poolTokenExchangeRateAtEpoch e = .ok rate)
    (hle : epoch < s.stakeActivationEpoch → pool.isPreactive = false → s.principal ≤ pool.pendingStake) :
    ErrorsIn IsOverflow (pool.requestWithdrawStake s epoch) := by
  by_cases hdirect : epoch < s.stakeActivationEpoch ∧ pool.isPreactive = false
  · rw [requestWithdrawStake_pending hdirect.2 hdirect.1 (hle hdirect.1 hdirect.2)]
    exact .ok _
  · rw [requestWithdrawStake, if_neg hdirect]
    refine .bind (withdrawActiveStake_errors hid hrate) fun w hw => ?_
    obtain ⟨pool1, out⟩ := w
    obtain ⟨t, r, now, -, -, -, hpool1⟩ := withdrawActiveStake_ok hw
    have hd1 : pool1.deactivationEpoch = none := by rw [hpool1]; exact hd
    have hu1 : pool1.underflowSuiBalance = none := by rw [hpool1]; exact hu
    simp only [processPendingStakeWithdraw_eq hd1 hu1]
    split
    · exact .ok _
    · exact .ok _

end

/-! ## Fungible tokens -/

theorem addFungible_ok {data : Option FungibleStakedSuiData} {t p : Nat} {data' : FungibleStakedSuiData}
    (h : addFungible data t p = .ok data') :
    data' = ⟨data.elim 0 (·.totalSupply) + t, data.elim 0 (·.principal) + p⟩ := by
  cases data with
  | none =>
    simp only [addFungible, pure_ok] at h
    simp only [Option.elim_none, Nat.zero_add, h]
  | some =>
    simp only [addFungible, bind_ok, add_ok, pure_ok] at h
    obtain ⟨-, ⟨-, rfl⟩, -, ⟨-, rfl⟩, rfl⟩ := h
    rfl

theorem convertToFungibleStakedSui_ok {f : FungibleStakedSui} (h : pool.convertToFungibleStakedSui s epoch = .ok (pool', f)) :
    s.poolId = pool.id ∧ s.stakeActivationEpoch ≤ epoch ∧ pool.isPreactive = false ∧ 0 < f.value ∧
    f.poolId = s.poolId ∧ pool.withdrawFromPrincipal s = .ok (f.value, s.principal) ∧
    pool' = { pool with
      fungibleStakedSuiData :=
        some ⟨pool.fungibleStakedSuiData.elim 0 (·.totalSupply) + f.value,
          pool.fungibleStakedSuiData.elim 0 (·.principal) + s.principal⟩ } := by
  unfold convertToFungibleStakedSui at h
  simp only [bind_ok, assert_ok, pure_ok, Prod.mk.injEq, decide_eq_true_eq, Bool.and_eq_true, Bool.not_eq_true'] at h
  obtain ⟨-, hid, -, hact, -, ⟨hpre, -⟩, rate, hrate, t, ht, -, hpos, data, hdata, rfl, rfl⟩ := h
  obtain rfl := addFungible_ok hdata
  refine ⟨hid, hact, hpre, hpos, rfl, ?_, rfl⟩
  rw [withdrawFromPrincipal, hid, decide_eq_true rfl, assert_true, ok_bind, hrate, ok_bind, ht]
  rfl

/-- The rewards that a share of the fungible tokens gets, of a supply with a principal. -/
def rewardsShare (rate : PoolTokenExchangeRate) (value : Nat) (data : FungibleStakedSuiData) : Nat :=
  value * (rate.suiFor data.totalSupply - min data.principal (rate.suiFor data.totalSupply)) / data.totalSupply

def principalShare (rate : PoolTokenExchangeRate) (value : Nat) (data : FungibleStakedSuiData) : Nat :=
  value * min data.principal (rate.suiFor data.totalSupply) / data.totalSupply

theorem calculateFungible_ok {value : Nat} {data : FungibleStakedSuiData}
    (h : rate.calculateFungibleStakedSuiWithdrawAmount value data.principal data.totalSupply = .ok (a, b)) :
    0 < data.totalSupply ∧ a = principalShare rate value data ∧ b = rewardsShare rate value data := by
  unfold calculateFungibleStakedSuiWithdrawAmount at h
  simp only [bind_ok, sub_ok, pure_ok, Prod.mk.injEq] at h
  obtain ⟨x, hx, -, ⟨-, rfl⟩, a', ha, b', hb, -, -, -, -, -, -, rfl, rfl⟩ := h
  obtain rfl := (meets_getSuiAmount _ _).2 _ hx
  exact ⟨(mulDiv_ok ha).1, (mulDiv_ok ha).2.1, (mulDiv_ok hb).2.1⟩

theorem redeemFungibleStakedSui_ok {f : FungibleStakedSui} (h : pool.redeemFungibleStakedSui f epoch = .ok (pool', out)) :
    ∃ now data, pool.poolTokenExchangeRateAtEpoch epoch = .ok now ∧ pool.fungibleStakedSuiData = some data ∧
      0 < data.totalSupply ∧ f.value ≤ data.totalSupply ∧ principalShare now f.value data ≤ data.principal ∧
      rewardsShare now f.value data ≤ pool.rewardsPool ∧
      pool' = { pool with
        fungibleStakedSuiData := some ⟨data.totalSupply - f.value, data.principal - principalShare now f.value data⟩
        rewardsPool := pool.rewardsPool - rewardsShare now f.value data
        pendingTotalSuiWithdraw :=
          pool.pendingTotalSuiWithdraw + (principalShare now f.value data + rewardsShare now f.value data)
        pendingPoolTokenWithdraw := pool.pendingPoolTokenWithdraw + f.value } := by
  unfold redeemFungibleStakedSui at h
  simp only [bind_ok, assert_ok, expect_ok, add_ok, sub_ok, split_ok, pure_ok, Prod.mk.injEq] at h
  obtain ⟨-, -, now, hnow, data, hdata, ⟨a, b⟩, hcalc, -, ⟨hvalue, rfl⟩, -, ⟨ha, rfl⟩, -, ⟨hb, rfl⟩, -, ⟨-, rfl⟩, -,
    ⟨-, rfl⟩, -, ⟨-, rfl⟩, rfl, rfl⟩ := h
  obtain ⟨hpos, rfl, rfl⟩ := calculateFungible_ok hcalc
  exact ⟨now, data, hnow, hdata, hpos, hvalue, ha, hb, rfl⟩

/-! ## Epoch boundaries -/

theorem depositRewards_ok {r : Nat} (h : pool.depositRewards r = .ok pool') : pool.suiBalance + r < 2 ^ 64 ∧
      pool' = { pool with suiBalance := pool.suiBalance + r, rewardsPool := pool.rewardsPool + r } := by
  unfold depositRewards at h
  simp only [bind_ok, add_ok, pure_ok] at h
  obtain ⟨-, ⟨hlt, rfl⟩, -, ⟨-, rfl⟩, rfl⟩ := h
  exact ⟨hlt, rfl⟩

theorem activateStakingPool_ok (h : pool.activateStakingPool a = .ok pool') : pool.isPreactive = true ∧
      pool' = { pool with activationEpoch := some a, exchangeRates := pool.exchangeRates.insert a .initial } := by
  unfold activateStakingPool addExchangeRate at h
  simp only [bind_ok, assert_ok, pure_ok] at h
  obtain ⟨-, ⟨-, -, rfl⟩, -, hpre, -, -, rfl⟩ := h
  exact ⟨hpre, rfl⟩

/-! ## What the requests keep -/

/-- What no request changes of a pool. -/
structure SameFrame (pool pool' : StakingPool) : Prop where
  id : pool'.id = pool.id
  activationEpoch : pool'.activationEpoch = pool.activationEpoch
  deactivationEpoch : pool'.deactivationEpoch = pool.deactivationEpoch
  exchangeRates : pool'.exchangeRates = pool.exchangeRates

theorem SameFrame.trans {p q r : StakingPool} (h : SameFrame p q) (h' : SameFrame q r) : SameFrame p r :=
  ⟨h'.id.trans h.id, h'.activationEpoch.trans h.activationEpoch, h'.deactivationEpoch.trans h.deactivationEpoch,
    h'.exchangeRates.trans h.exchangeRates⟩

theorem SameFrame.rateAt (h : SameFrame pool pool') (e : Nat) :
    pool'.poolTokenExchangeRateAtEpoch e = pool.poolTokenExchangeRateAtEpoch e := by
  unfold poolTokenExchangeRateAtEpoch isPreactiveAtEpoch
  rw [h.activationEpoch, h.deactivationEpoch, h.exchangeRates]

theorem SameFrame.isPreactive (h : SameFrame pool pool') : pool'.isPreactive = pool.isPreactive := by
  rw [StakingPool.isPreactive, h.activationEpoch]
  rfl

theorem sameFrame_processPendingStake (h : pool.processPendingStake = .ok pool') : SameFrame pool pool' := by
  simp only [processPendingStake, bind_ok, pure_ok] at h
  obtain ⟨_, _, _, _, _, _, rfl⟩ := h
  exact ⟨rfl, rfl, rfl, rfl⟩

theorem sameFrame_processPendingStakeWithdraw (h : pool.processPendingStakeWithdraw = .ok pool') : SameFrame pool pool' := by
  simp only [processPendingStakeWithdraw, bind_ok, pure_ok] at h
  obtain ⟨_, _, rfl⟩ := h
  exact ⟨rfl, rfl, rfl, rfl⟩

theorem sameFrame_requestAddStake (h : pool.requestAddStake stake epoch = .ok (pool', s)) : SameFrame pool pool' := by
  simp only [requestAddStake, bind_ok, pure_ok, Prod.mk.injEq] at h
  obtain ⟨_, _, _, _, _, _, rfl, rfl⟩ := h
  exact ⟨rfl, rfl, rfl, rfl⟩

theorem sameFrame_validatorRequestAddStake
    (h : pool.validatorRequestAddStake stake epoch = .ok (pool', s)) : SameFrame pool pool' := by
  unfold validatorRequestAddStake at h
  simp only [bind_ok] at h
  obtain ⟨_, _, _, _, ⟨pool1, s1⟩, hadd, h⟩ := h
  have hframe := sameFrame_requestAddStake hadd
  dsimp only at h
  split at h
  · rw [bind_ok] at h
    obtain ⟨pool2, hpending, h⟩ := h
    cases h
    exact hframe.trans (sameFrame_processPendingStake hpending)
  · cases h
    exact hframe

theorem sameFrame_withdrawActiveStake (h : pool.withdrawActiveStake s epoch = .ok (pool', out)) : SameFrame pool pool' := by
  unfold withdrawActiveStake withdrawRewards at h
  simp only [bind_ok] at h
  obtain ⟨_, _, ⟨pool1, r⟩, ⟨_, _, _, _, _, _, hrewards⟩, _, _, _, _, _, _, h⟩ := h
  cases hrewards
  cases h
  exact ⟨rfl, rfl, rfl, rfl⟩

theorem sameFrame_requestWithdrawStake (h : pool.requestWithdrawStake s epoch = .ok (pool', out)) : SameFrame pool pool' := by
  unfold requestWithdrawStake at h
  split at h
  · rw [bind_ok] at h
    obtain ⟨_, _, h⟩ := h
    cases h
    exact ⟨rfl, rfl, rfl, rfl⟩
  · rw [bind_ok] at h
    obtain ⟨⟨pool1, withdrawn⟩, hactive, h⟩ := h
    have hframe := sameFrame_withdrawActiveStake hactive
    dsimp only at h
    split at h
    · rw [bind_ok] at h
      obtain ⟨pool2, hpending, h⟩ := h
      cases h
      exact hframe.trans (sameFrame_processPendingStakeWithdraw hpending)
    · cases h
      exact hframe

theorem sameFrame_convertToFungibleStakedSui
    {f : FungibleStakedSui} (h : pool.convertToFungibleStakedSui s epoch = .ok (pool', f)) : SameFrame pool pool' := by
  simp only [convertToFungibleStakedSui, bind_ok, pure_ok, Prod.mk.injEq] at h
  obtain ⟨_, _, _, _, _, _, _, _, _, _, _, _, _, _, rfl, rfl⟩ := h
  exact ⟨rfl, rfl, rfl, rfl⟩

theorem sameFrame_redeemFungibleStakedSui
    {f : FungibleStakedSui} (h : pool.redeemFungibleStakedSui f epoch = .ok (pool', out)) : SameFrame pool pool' := by
  simp only [redeemFungibleStakedSui, bind_ok, pure_ok, Prod.mk.injEq] at h
  obtain ⟨_, _, _, _, _, _, _, _, _, _, _, _, _, _, _, _, _, _, _, _, rfl, rfl⟩ := h
  exact ⟨rfl, rfl, rfl, rfl⟩

theorem sameFrame_depositRewards {rewards : Nat} (h : pool.depositRewards rewards = .ok pool') : SameFrame pool pool' := by
  simp only [depositRewards, bind_ok, pure_ok] at h
  obtain ⟨_, _, _, _, rfl⟩ := h
  exact ⟨rfl, rfl, rfl, rfl⟩

/-! ## The end of an epoch -/

/-- The balances after the pending amounts of a pool were processed. -/
structure Processed (pool : StakingPool) (epoch : Nat) (pool' : StakingPool) : Prop where
  id : pool'.id = pool.id
  activation : pool'.activationEpoch = pool.activationEpoch
  deactivation : pool'.deactivationEpoch = pool.deactivationEpoch
  rewards : pool'.rewardsPool = pool.rewardsPool
  data : pool'.fungibleStakedSuiData = pool.fungibleStakedSuiData
  underflow : pool'.underflowSuiBalance = none
  pending : pool'.pendingStake = 0 ∧ pool'.pendingTotalSuiWithdraw = 0 ∧ pool'.pendingPoolTokenWithdraw = 0
  balance : pool'.suiBalance = pool.suiBalance + pool.pendingStake - pool.pendingTotalSuiWithdraw
  tokens : pool'.poolTokenBalance = PoolTokenExchangeRate.tokensFor
    ⟨pool.suiBalance - pool.pendingTotalSuiWithdraw, pool.poolTokenBalance - pool.pendingPoolTokenWithdraw⟩ pool'.suiBalance
  fits : pool'.suiBalance < 2 ^ 64 ∧ pool'.poolTokenBalance < 2 ^ 64
  rates : pool'.exchangeRates = pool.exchangeRates.insert (epoch + 1) ⟨pool'.suiBalance, pool'.poolTokenBalance⟩

/-- The pending withdrawals, then the pending stakes. -/
def processPending (pool : StakingPool) : Except Abort StakingPool := do (← pool.processPendingStakeWithdraw).processPendingStake

theorem addExchangeRate_eq (h : pool.exchangeRates[epoch]? = none) :
    pool.addExchangeRate epoch rate = .ok { pool with exchangeRates := pool.exchangeRates.insert epoch rate } := by
  rw [addExchangeRate, h]
  rfl

theorem processPendingStakesAndWithdraws_eq (pool : StakingPool) (epoch : Nat) :
    pool.processPendingStakesAndWithdraws epoch = (do
      let newEpoch ← U64.add epoch 1
      let pool ← pool.processPending
      let pool ← pool.addExchangeRate newEpoch ⟨pool.suiBalance, pool.poolTokenBalance⟩
      pool.checkBalanceInvariants newEpoch
      return pool) := by
  unfold processPendingStakesAndWithdraws processPending
  simp only [bind_assoc]

variable (hd : pool.deactivationEpoch = none) (hu : pool.underflowSuiBalance = none)
  (hle : pool.pendingTotalSuiWithdraw ≤ pool.suiBalance + pool.pendingStake)

include hd hu hle

theorem meets_processPending : Meets IsOverflow (fun pool' => pool' = { pool with
      suiBalance := pool.suiBalance + pool.pendingStake - pool.pendingTotalSuiWithdraw
      underflowSuiBalance := none
      poolTokenBalance := tokensFor
        ⟨pool.suiBalance - pool.pendingTotalSuiWithdraw, pool.poolTokenBalance - pool.pendingPoolTokenWithdraw⟩
        (pool.suiBalance + pool.pendingStake - pool.pendingTotalSuiWithdraw)
      pendingStake := 0
      pendingTotalSuiWithdraw := 0
      pendingPoolTokenWithdraw := 0 } ∧
    pool'.suiBalance < 2 ^ 64 ∧ pool'.poolTokenBalance < 2 ^ 64) pool.processPending := by
  have hsum : (if pool.suiBalance ≥ pool.pendingTotalSuiWithdraw then none
        else some (pool.pendingTotalSuiWithdraw - pool.suiBalance) : Option Nat).getD 0 +
      (pool.suiBalance + pool.pendingStake - pool.pendingTotalSuiWithdraw) =
      pool.suiBalance - pool.pendingTotalSuiWithdraw + pool.pendingStake := by
    split
    · rw [Option.getD_none]
      omega
    · rw [Option.getD_some]
      omega
  unfold processPending
  rw [processPendingStakeWithdraw_eq hd hu, ok_bind]
  refine ⟨processPendingStake_errors ?_, fun pool' h => ?_⟩
  · simp only
    omega
  · obtain ⟨hlt, htok, hpool'⟩ := processPendingStake_ok h
    simp only [← hsum, Nat.add_sub_cancel_left] at hlt hpool'
    refine ⟨hpool', ?_, htok⟩
    rw [hpool']
    simp only
    omega

theorem processed_of_ok (h : pool.processPendingStakesAndWithdraws epoch = .ok pool') : Processed pool epoch pool' := by
  rw [processPendingStakesAndWithdraws_eq] at h
  unfold addExchangeRate at h
  simp only [bind_ok, add_ok, assert_ok, pure_ok] at h
  obtain ⟨-, ⟨-, rfl⟩, pool1, h1, -, ⟨-, -, rfl⟩, -, -, rfl⟩ := h
  obtain ⟨rfl, hS, hP⟩ := (meets_processPending hd hu hle).2 pool1 h1
  exact ⟨rfl, rfl, rfl, rfl, rfl, rfl, ⟨rfl, rfl, rfl⟩, rfl, rfl, ⟨hS, hP⟩, rfl⟩

section

variable (ha : pool.activationEpoch = some a) (hae : a ≤ epoch) (hfree : pool.exchangeRates[epoch + 1]? = none)

include ha hae hfree

/-- Once the pending amounts are processed nothing aborts: the epoch has no rate yet, and the check passes. -/
theorem processPendingStakesAndWithdraws_of_processPending (he : epoch + 1 < 2 ^ 64) {pool1 : StakingPool}
    (h1 : pool.processPending = .ok pool1) : ∃ pool', pool.processPendingStakesAndWithdraws epoch = .ok pool' := by
  obtain ⟨hpool1, hS, hP⟩ := (meets_processPending hd hu hle).2 pool1 h1
  have hrates : pool1.exchangeRates = pool.exchangeRates := by rw [hpool1]
  have hzero : pool1.suiBalance = 0 ∨ pool1.poolTokenBalance = 0 → pool1.suiBalance = pool1.poolTokenBalance := by
    rw [hpool1]
    exact eq_tokensFor_of_zero (Nat.sub_le_sub_right (Nat.le_add_right _ _) _)
  let rate : PoolTokenExchangeRate := ⟨pool1.suiBalance, pool1.poolTokenBalance⟩
  have hcheck : { pool1 with exchangeRates := pool1.exchangeRates.insert (epoch + 1) rate }.checkBalanceInvariants (epoch + 1) =
      .ok () := by
    rw [checkBalanceInvariants, rateAt_of_le (a := a) (by rw [hpool1]; exact ha) (by rw [hpool1]; exact hd) (by omega),
      exchangeRateLoop_of_entry (by omega) (by rw [get_insert, if_pos rfl]), ok_bind,
      getTokenAmount_self hS hP hzero, ok_bind, decide_eq_true rfl]
    rfl
  refine ⟨{ pool1 with exchangeRates := pool1.exchangeRates.insert (epoch + 1) rate }, ?_⟩
  rw [processPendingStakesAndWithdraws_eq, U64.add, Word.add_eq he, ok_bind, h1, ok_bind,
    addExchangeRate_eq (hrates ▸ hfree), ok_bind, hcheck]
  rfl

/-- The processing at the end of an epoch aborts only when an amount does not fit. -/
theorem processPendingStakesAndWithdraws_errors : ErrorsIn IsOverflow (pool.processPendingStakesAndWithdraws epoch) := by
  rw [processPendingStakesAndWithdraws_eq]
  refine .bind (add_errors _ _) fun newEpoch hadd => .bind (meets_processPending hd hu hle).1 fun pool1 h1 => ?_
  obtain ⟨he, rfl⟩ := add_ok.mp hadd
  obtain ⟨pool', hok⟩ := processPendingStakesAndWithdraws_of_processPending hd hu hle ha hae hfree he h1
  rw [processPendingStakesAndWithdraws_eq, hadd, ok_bind, h1, ok_bind] at hok
  rw [hok]
  exact .ok _

end

end StakingPool

end Sui

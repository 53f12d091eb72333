import Sui.System.Lemmas.ValidatorSet

/-!
# The rewards of an epoch are conserved

Shares are rounded down twice, once by power and once when the penalties are shared out, and no sum of amounts is more than the
balance it is split from.
-/

namespace Sui.ValidatorSet

open Library List

variable {validators : List ActiveValidator} {slashed : List Nat} {rate computationReward storageFundReward : Nat}

namespace RewardInputs

variable (h : RewardInputs validators slashed rate computationReward storageFundReward)

include h

/-- If amounts and bonuses are rounded down, the amounts after slashing are at most the reward, and less by less than one unit
of each. -/
theorem sum_adjusted_bounds {amount bonus : ActiveValidator → Nat} {reward : Nat}
    (hshare : SharesOf validators amount reward) (hbonus : unslashed validators slashed ≠ [] →
      SharesOf (unslashed validators slashed) bonus (penalties validators slashed rate amount)) :
    (validators.map (adjusted slashed rate amount bonus)).sum ≤ reward ∧ (unslashed validators slashed ≠ [] →
      reward < (validators.map (adjusted slashed rate amount bonus)).sum + 2 * validators.length) := by
  obtain ⟨hle, hlt⟩ := hshare
  have hsum := h.sum_adjusted amount bonus
  have hlen : (unslashed validators slashed).length ≤ validators.length := length_filter_le _ _
  by_cases hne : unslashed validators slashed = []
  · rw [hne, map_nil, sum_nil] at hsum
    exact ⟨by omega, fun hne' => absurd hne hne'⟩
  · obtain ⟨hbonusLe, hbonusLt⟩ := hbonus hne
    exact ⟨by omega, fun _ => by omega⟩

end RewardInputs

/-- A validator that is not slashed gets what it got before slashing, and more. -/
theorem le_adjusted {amount bonus : ActiveValidator → Nat} {i : Nat} {v : ActiveValidator} (hi : validators[i]? = some v)
    (hv : v.suiAddress ∉ slashed) : ∃ a, (validators.map (adjusted slashed rate amount bonus))[i]? = some a ∧
      ∃ u, (validators.map amount)[i]? = some u ∧ u ≤ a := by
  rw [List.getElem?_map, List.getElem?_map, hi]
  refine ⟨_, rfl, _, rfl, ?_⟩
  rw [adjusted, if_neg (by simpa [isSlashed] using hv)]
  exact Nat.le_add_right _ _

/-- For powers that sum to the total and any validators slashed, where the others, if any, have power: both sums of amounts are
at most the rewards, so that no split fails and the rest stays in the balances; who is not slashed gets at least the amount
before slashing; and unless all are slashed, less than two units for each validator are left. -/
theorem rewards_conserved (h : RewardInputs validators slashed rate computationReward storageFundReward)
    (hpositive : (∃ v ∈ validators, v.suiAddress ∉ slashed) → ∃ v ∈ validators, v.suiAddress ∉ slashed ∧ 0 < v.votingPower)
    (hcommission : ∀ v ∈ validators, v.commissionRate ≤ basisPointDenominator) (epoch : Nat) :
    ∃ unadjustedStaking unadjustedStorageFund staking storageFund,
      computeUnadjustedRewardDistribution validators VotingPower.totalVotingPower computationReward storageFundReward =
        .ok (unadjustedStaking, unadjustedStorageFund) ∧
      computeRewards validators slashed rate computationReward storageFundReward = .ok (staking, storageFund) ∧
      staking.length = validators.length ∧ storageFund.length = validators.length ∧
      staking.sum ≤ computationReward ∧ storageFund.sum ≤ storageFundReward ∧
      (∀ e, distributeReward epoch validators staking storageFund computationReward storageFundReward = .error e → e ≠ .notEnough) ∧
      (∀ d, distributeReward epoch validators staking storageFund computationReward storageFundReward = .ok d →
        d.stakingRewards + staking.sum = computationReward ∧ d.storageFundReward + storageFund.sum = storageFundReward) ∧
      (∀ (i : Nat) v, validators[i]? = some v → v.suiAddress ∉ slashed →
        (∃ a, staking[i]? = some a ∧ ∃ u, unadjustedStaking[i]? = some u ∧ u ≤ a) ∧
          ∃ a, storageFund[i]? = some a ∧ ∃ u, unadjustedStorageFund[i]? = some u ∧ u ≤ a) ∧
      ((∃ v ∈ validators, v.suiAddress ∉ slashed) →
        computationReward - staking.sum < 2 * validators.length ∧ storageFundReward - storageFund.sum < 2 * validators.length) := by
  have hpower : unslashed validators slashed ≠ [] → 0 < unslashedPower validators slashed := by
    intro hne
    obtain ⟨w, hw⟩ := exists_mem_of_ne_nil _ hne
    obtain ⟨v, hv, hnot, hpos⟩ := hpositive ⟨w, mem_of_mem_filter hw, by simpa [isSlashed] using (mem_filter.mp hw).2⟩
    exact hpos.trans_le (votingPower_le_unslashed (mem_filter.mpr ⟨hv, by simpa [isSlashed] using hnot⟩))
  obtain ⟨hstaking, hstakingLt⟩ := h.sum_adjusted_bounds h.sum_powerShare fun hne =>
    sum_stakingBonus rate computationReward (hpower hne)
  obtain ⟨hstorage, hstorageLt⟩ := h.sum_adjusted_bounds h.sum_storageFundShare fun hne =>
    sum_storageFundBonus rate storageFundReward hne
  obtain ⟨herrors, hleft⟩ := distributeReward_spec epoch _ _ hstaking hstorage hcommission
  refine ⟨_, _, _, _, h.computeUnadjusted_eq, h.computeRewards_eq hpower, length_map _, length_map _, hstaking, hstorage,
    herrors, hleft, fun i v hi hv => ⟨le_adjusted hi hv, le_adjusted hi hv⟩, ?_⟩
  rintro ⟨v, hv, hnot⟩
  have hne : unslashed validators slashed ≠ [] :=
    ne_nil_of_mem (mem_filter.mpr ⟨hv, by simpa [isSlashed] using hnot⟩)
  have h1 := hstakingLt hne
  have h2 := hstorageLt hne
  exact ⟨by omega, by omega⟩

def validatorOf (suiAddress votingPower : Nat) : ActiveValidator := ⟨suiAddress, votingPower, 200, 0, .new suiAddress⟩

/-- Three validators, of which one is slashed by half and one has no power. -/
theorem rewards_conserved_three :
    ∃ staking storageFund, computeRewards [validatorOf 1 6000, validatorOf 2 4000, validatorOf 3 0] [2] 5000 1001 100 =
        .ok (staking, storageFund) ∧ 1001 - staking.sum < 6 ∧ 100 - storageFund.sum < 6 := by
  have hinputs : RewardInputs [validatorOf 1 6000, validatorOf 2 4000, validatorOf 3 0] [2] 5000 1001 100 :=
    ⟨by decide, by decide, by decide, by decide, by decide, by decide, by decide⟩
  obtain ⟨_, _, staking, storageFund, -, hcompute, -, -, -, -, -, -, -, hrest⟩ :=
    rewards_conserved hinputs (by decide) (by decide) 0
  exact ⟨staking, storageFund, hcompute, hrest ⟨validatorOf 1 6000, mem_cons_self, by decide⟩⟩

/-- A validator without power that alone is not slashed: the power to share by is zero, and the computation aborts. -/
theorem computeRewards_without_power :
    computeRewards [validatorOf 1 10000, validatorOf 2 0] [1] 5000 1000 100 = .error .divisionByZero := by decide +kernel

end Sui.ValidatorSet

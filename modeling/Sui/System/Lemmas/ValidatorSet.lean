import Sui.Library.Shares
import Sui.System.ValidatorSet

/-!
# What the validators get

The amounts that are computed for the validators of a set some of which are slashed, without rounding done one step after the
other: first what a validator gets by its power, then what it loses or gets from the others.
-/

namespace Sui.ValidatorSet

open Library Checked List VotingPower ActiveValidator U64 Word

/-- The slashed validators, by their addresses in a set of validators, and what there is to distribute. -/
structure RewardInputs (validators : List ActiveValidator) (slashed : List Nat) (rate computationReward storageFundReward : Nat) : Prop where
  total : (validators.map ActiveValidator.votingPower).sum = VotingPower.totalVotingPower
  addresses : (validators.map ActiveValidator.suiAddress).Nodup
  distinct : slashed.Nodup
  active : ∀ a ∈ slashed, ∃ v ∈ validators, v.suiAddress = a
  rate_le : rate ≤ basisPointDenominator
  computationReward_lt : computationReward < 2 ^ 64
  storageFundReward_lt : storageFundReward < 2 ^ 64

section Amounts

variable (validators : List ActiveValidator) (slashed : List Nat) (rate computationReward storageFundReward : Nat)

def isSlashed (v : ActiveValidator) : Bool := v.suiAddress ∈ slashed

/-- The staking reward of a validator by its power. -/
def powerShare (v : ActiveValidator) : Nat := v.votingPower * computationReward / VotingPower.totalVotingPower

/-- What a slashed validator loses of an amount. -/
def penalty (amount : Nat) : Nat := amount * rate / basisPointDenominator

def penalties (amount : ActiveValidator → Nat) : Nat :=
  ((validators.filter (isSlashed slashed)).map fun v => penalty rate (amount v)).sum

def unslashed : List ActiveValidator := validators.filter fun v => !isSlashed slashed v

def unslashedPower : Nat := ((unslashed validators slashed).map ActiveValidator.votingPower).sum

/-- What a validator that is not slashed gets of the staking rewards of the others. -/
def stakingBonus (v : ActiveValidator) : Nat :=
  penalties validators slashed rate (powerShare computationReward) * v.votingPower / unslashedPower validators slashed

/-- What a validator that is not slashed gets of the storage fund rewards of the others. -/
def storageFundBonus : Nat :=
  penalties validators slashed rate (fun _ => storageFundReward / validators.length) / (unslashed validators slashed).length

def adjusted (amount bonus : ActiveValidator → Nat) (v : ActiveValidator) : Nat :=
  if isSlashed slashed v then amount v - penalty rate (amount v) else amount v + bonus v

end Amounts

variable {validators : List ActiveValidator} {slashed : List Nat} {rate computationReward storageFundReward : Nat}

theorem penalty_le (h : rate ≤ basisPointDenominator) (amount : Nat) : penalty rate amount ≤ amount := by
  rw [penalty, Nat.mul_comm]
  exact share_le h

variable {i : Nat}

namespace RewardInputs

variable (h : RewardInputs validators slashed rate computationReward storageFundReward)

include h

theorem ne_nil : validators ≠ [] := by
  rintro rfl
  exact absurd h.total (by decide)

theorem length_pos : 0 < validators.length := length_pos_iff.mpr h.ne_nil

variable {v : ActiveValidator}

theorem votingPower_le (hv : v ∈ validators) : v.votingPower ≤ totalVotingPower := by
  rw [← h.total]
  exact single_le_sum (fun _ _ => Nat.zero_le _) _ (mem_map_of_mem hv)

theorem powerShare_le (hv : v ∈ validators) : powerShare computationReward v ≤ computationReward :=
  share_le (h.votingPower_le hv)

theorem sum_powerShare : SharesOf validators (powerShare computationReward) computationReward := by
  have hshares := sharesOf_weights votingPower computationReward (show 0 < (validators.map votingPower).sum by rw [h.total]; decide)
  rw [h.total] at hshares
  exact hshares

theorem sum_storageFundShare : SharesOf validators (fun _ => storageFundReward / validators.length) storageFundReward :=
  sharesOf_equal _ h.ne_nil

/-- The two kinds of amounts before slashing. -/
theorem computeUnadjusted_eq :
    computeUnadjustedRewardDistribution validators totalVotingPower computationReward storageFundReward =
      .ok (validators.map (powerShare computationReward), validators.map fun _ => storageFundReward / validators.length) := by
  have hpower : ∀ v ∈ validators, mulDiv v.votingPower computationReward totalVotingPower =
      .ok (powerShare computationReward v) := by
    intro v hv
    have hle := h.votingPower_le hv
    have hshare := h.powerShare_le hv
    have hreward := h.computationReward_lt
    rw [powerShare] at hshare ⊢
    exact mulDiv_eq (Nat.lt_of_le_of_lt hle (by decide)) hreward (by decide) (by omega)
  rw [computeUnadjustedRewardDistribution, div_eq h.length_pos.ne', ok_bind, mapM_eq hpower]
  rfl

/-! ### The slashed validators in the list -/

theorem findValidator_eq (hi : validators[i]? = some v) : findValidator validators v.suiAddress = some i := by
  obtain ⟨hlt, rfl⟩ := List.getElem?_eq_some_iff.mp hi
  refine List.findIdx?_eq_some_iff_getElem.mpr ⟨hlt, beq_self_eq_true _, fun j hj heq => ?_⟩
  have hnodup := nodup_iff_injective_getElem.mp h.addresses
  have hfin : (⟨j, by rw [length_map]; omega⟩ : Fin (validators.map suiAddress).length) =
      ⟨i, by rw [length_map]; exact hlt⟩ := by
    refine hnodup ?_
    simp only [getElem_map]
    exact beq_iff_eq.mp heq
  have := congrArg Fin.val hfin
  simp only at this
  omega

/-- The slashed validators with their indices, in the order of the addresses. -/
theorem exists_slashed : ∃ ps : List (ActiveValidator × Nat), ps.map (fun p => p.1.suiAddress) = slashed ∧
    ∀ p ∈ ps, validators[p.2]? = some p.1 := by
  have hactive := h.active
  clear h
  induction slashed with
  | nil => exact ⟨[], rfl, nofun⟩
  | cons a _ ih =>
    obtain ⟨ps, hps, hget⟩ := ih fun b hb => hactive b (mem_cons_of_mem _ hb)
    obtain ⟨v, hv, rfl⟩ := hactive a mem_cons_self
    obtain ⟨i, hi⟩ := mem_iff_getElem?.mp hv
    refine ⟨(v, i) :: ps, by rw [map_cons, hps], fun p hp => ?_⟩
    rcases mem_cons.mp hp with rfl | hp
    · exact hi
    · exact hget p hp

section Slashed

variable {ps : List (ActiveValidator × Nat)} (hps : ps.map (fun p => p.1.suiAddress) = slashed)
  (hget : ∀ p ∈ ps, validators[p.2]? = some p.1)

include hps hget

theorem slashed_nodup : (ps.map Prod.snd).Nodup := by
  have hdistinct := h.distinct
  rw [← hps] at hdistinct
  refine List.Nodup.map_on (fun p hp q hq heq => ?_) (List.Nodup.of_map _ hdistinct)
  have hp' := hget p hp
  have hq' := hget q hq
  rw [heq, hq'] at hp'
  exact Prod.ext (Option.some.inj hp').symm heq

/-- They are the slashed validators of the list, in some order. -/
theorem slashed_perm : (ps.map Prod.fst).Perm (validators.filter (isSlashed slashed)) := by
  have hdistinct := h.distinct
  rw [← hps, show (fun p : ActiveValidator × Nat => p.1.suiAddress) = suiAddress ∘ Prod.fst from rfl, ← map_map] at hdistinct
  refine (perm_ext_iff_of_nodup (List.Nodup.of_map _ hdistinct) ((List.Nodup.of_map _ h.addresses).filter _)).mpr fun v => ?_
  rw [mem_filter, isSlashed, decide_eq_true_eq, ← hps]
  constructor
  · intro hv
    obtain ⟨p, hp, rfl⟩ := mem_map.mp hv
    exact ⟨mem_of_getElem? (hget p hp), mem_map_of_mem hp⟩
  · rintro ⟨hv, ha⟩
    obtain ⟨p, hp, hpa⟩ := mem_map.mp ha
    rw [inj_on_of_nodup_map h.addresses hv (mem_of_getElem? (hget p hp)) hpa.symm]
    exact mem_map_of_mem hp

theorem mem_slashed_iff (hi : validators[i]? = some v) : i ∈ ps.map Prod.snd ↔ isSlashed slashed v = true := by
  rw [isSlashed, decide_eq_true_eq, ← hps]
  constructor
  · intro hmem
    obtain ⟨p, hp, rfl⟩ := mem_map.mp hmem
    rw [hget p hp] at hi
    rw [← Option.some.inj hi]
    exact mem_map_of_mem hp
  · intro hmem
    obtain ⟨p, hp, hpa⟩ := mem_map.mp hmem
    have hfind := h.findValidator_eq (hget p hp)
    rw [hpa, h.findValidator_eq hi] at hfind
    rw [Option.some.inj hfind]
    exact mem_map_of_mem hp

theorem getValidatorIndices_eq : getValidatorIndices validators slashed = .ok (ps.map Prod.snd) := by
  rw [← hps, getValidatorIndices, mapM_ok, forall₂_map_left_iff, forall₂_map_right_iff, forall₂_same]
  intro p hp
  rw [h.findValidator_eq (hget p hp), expect_some]

theorem sumVotingPowerByAddresses_eq : sumVotingPowerByAddresses validators slashed =
    .ok ((validators.filter (isSlashed slashed)).map votingPower).sum := by
  have hperm := ((h.slashed_perm hps hget).map votingPower).sum_eq
  have hle : ((validators.filter (isSlashed slashed)).map votingPower).sum ≤ totalVotingPower := by
    rw [← h.total]
    exact (List.filter_sublist.map _).sum_le_sum fun _ _ => Nat.zero_le _
  have hlookup : ∀ p ∈ ps, getValidatorRef validators p.1.suiAddress = .ok p.1 := by
    intro p hp
    rw [getValidatorRef, h.findValidator_eq (hget p hp), expect_some, ok_bind, hget p hp, expect_some]
  rw [map_map] at hperm
  have hsum := foldlM_add (e := Abort.overflow) (w := 64) (c := 0) votingPower hlookup
    (by
      rw [Nat.zero_add]
      exact Nat.lt_of_le_of_lt (hperm.trans_le hle) (by decide))
  rw [Nat.zero_add] at hsum
  rw [← hperm, sumVotingPowerByAddresses]
  nth_rewrite 1 [← hps]
  rw [foldlM_map]
  exact hsum

end Slashed

end RewardInputs

/-! ## The adjustments -/

variable {is : List Nat}

theorem lookup_map (f : Nat → Nat) (i : Nat) : (is.map fun j => (j, f j)).lookup i = if i ∈ is then some (f i) else none := by
  split_ifs with hi
  · exact lookup_graph f hi
  · rw [lookup_eq_none_iff]
    intro p hp
    obtain ⟨j, hj, rfl⟩ := mem_map.mp hp
    rw [bne_iff_ne]
    rintro rfl
    exact hi hj

variable {f : Nat → Nat}

/-- One adjustment after others. -/
theorem adjustReward_eq (hrate : rate ≤ basisPointDenominator) {amounts : List Nat} {pre : List Nat}
    (hf : amounts[i]? = some (f i)) (hi : i ∉ pre) (hlt : f i < 2 ^ 64)
    (hsum : ((pre ++ [i]).map fun j => penalty rate (f j)).sum < 2 ^ 64) :
    adjustReward rate amounts ⟨(pre.map fun j => penalty rate (f j)).sum, pre.map fun j => (j, penalty rate (f j))⟩ i =
      .ok ⟨((pre ++ [i]).map fun j => penalty rate (f j)).sum, (pre ++ [i]).map fun j => (j, penalty rate (f j))⟩ := by
  have hmul : mulDiv (f i) rate basisPointDenominator = .ok (penalty rate (f i)) :=
    mulDiv_eq hlt (Nat.lt_of_le_of_lt hrate (by decide)) (by decide) (Nat.lt_of_le_of_lt (penalty_le hrate _) hlt)
  rw [map_append, sum_append, map_singleton, sum_singleton] at hsum ⊢
  rw [adjustReward, hf, expect_some, ok_bind, hmul, ok_bind, VecMap.insert, lookup_map, if_neg hi,
    Option.isNone_none, assert_true, ok_bind, pure_eq_ok, ok_bind, U64.add, add_eq hsum,
    ok_bind, map_append, map_singleton, pure_eq_ok]

/-- All adjustments. -/
theorem computeRewardAdjustments_eq (hrate : rate ≤ basisPointDenominator) {staking storageFund : List Nat} {g : Nat → Nat}
    (hnodup : is.Nodup) (hf : ∀ i ∈ is, staking[i]? = some (f i)) (hg : ∀ i ∈ is, storageFund[i]? = some (g i))
    (hfsum : (is.map f).sum < 2 ^ 64) (hgsum : (is.map g).sum < 2 ^ 64) :
    computeRewardAdjustments is rate staking storageFund =
      .ok (⟨(is.map fun j => penalty rate (f j)).sum, is.map fun j => (j, penalty rate (f j))⟩,
        ⟨(is.map fun j => penalty rate (g j)).sum, is.map fun j => (j, penalty rate (g j))⟩) := by
  -- what the first ones lose fits because what they had does
  have hpart : ∀ {k : Nat → Nat} {pre post : List Nat} {i : Nat}, (is.map k).sum < 2 ^ 64 → is = pre ++ i :: post →
      k i < 2 ^ 64 ∧ ((pre ++ [i]).map fun j => penalty rate (k j)).sum < 2 ^ 64 := by
    rintro k pre post i hsum rfl
    have hle : ((pre ++ [i]).map fun j => penalty rate (k j)).sum ≤ ((pre ++ [i]).map k).sum :=
      sum_le_sum fun j _ => penalty_le hrate _
    rw [show pre ++ i :: post = pre ++ [i] ++ post by simp, map_append, sum_append] at hsum
    refine ⟨?_, by omega⟩
    rw [map_append, sum_append, map_singleton, sum_singleton] at hsum
    omega
  have hloop := foldlM_total (l := is) (b := ((⟨0, []⟩, ⟨0, []⟩) : RewardAdjustments × RewardAdjustments))
    (f := fun acc validatorIndex => do
      let staking ← adjustReward rate staking acc.1 validatorIndex
      let storageFund ← adjustReward rate storageFund acc.2 validatorIndex
      return (staking, storageFund))
    (fun pre acc => acc = (⟨(pre.map fun j => penalty rate (f j)).sum, pre.map fun j => (j, penalty rate (f j))⟩,
      ⟨(pre.map fun j => penalty rate (g j)).sum, pre.map fun j => (j, penalty rate (g j))⟩)) rfl
    (by
      rintro pre i post _ his rfl
      have hi : i ∈ is := by simp [his]
      have hnew : i ∉ pre := by
        rw [his, nodup_append] at hnodup
        exact fun hmem => hnodup.2.2 i hmem i mem_cons_self rfl
      obtain ⟨hflt, hfpart⟩ := hpart hfsum his
      obtain ⟨hglt, hgpart⟩ := hpart hgsum his
      refine ⟨_, ?_, rfl⟩
      simp only [adjustReward_eq hrate (hf i hi) hnew hflt hfpart, adjustReward_eq hrate (hg i hi) hnew hglt hgpart, ok_bind,
        pure_eq_ok])
  obtain ⟨_, hfold, rfl⟩ := hloop
  exact hfold

/-! ## The adjusted amounts -/

theorem adjustedAmount_eq {amounts : List Nat} {amount : Nat} (bonus : Nat) {share : Except Abort Nat}
    (hamount : amounts[i]? = some amount) (hpenalty : i ∈ is → f i ≤ amount)
    (hshare : i ∉ is → share = .ok bonus ∧ amount + bonus < 2 ^ 64) :
    adjustedAmount (is.map fun j => (j, f j)) i amounts share = .ok (if i ∈ is then amount - f i else amount + bonus) := by
  rw [adjustedAmount, hamount, expect_some, ok_bind, lookup_map]
  split
  · rename_i adjustment hlookup
    split at hlookup
    · rename_i hi
      rw [← Option.some.inj hlookup, if_pos hi]
      exact sub_eq (hpenalty hi)
    · cases hlookup
  · rename_i hlookup
    split at hlookup
    · cases hlookup
    · rename_i hi
      obtain ⟨rfl, hlt⟩ := hshare hi
      rw [if_neg hi]
      exact add_eq hlt

variable {v : ActiveValidator}

theorem votingPower_le_unslashed (hv : v ∈ unslashed validators slashed) : v.votingPower ≤ unslashedPower validators slashed :=
  single_le_sum (fun _ _ => Nat.zero_le _) _ (mem_map_of_mem hv)

/-- The others get all that the slashed validators lose but for less than one unit of each. -/
theorem sum_stakingBonus (rate computationReward : Nat) (hpower : 0 < unslashedPower validators slashed) :
    SharesOf (unslashed validators slashed) (stakingBonus validators slashed rate computationReward)
      (penalties validators slashed rate (powerShare computationReward)) := by
  have hbonus : stakingBonus validators slashed rate computationReward = fun v : ActiveValidator => v.votingPower *
      penalties validators slashed rate (powerShare computationReward) / unslashedPower validators slashed :=
    funext fun v => by rw [stakingBonus, Nat.mul_comm]
  rw [hbonus]
  exact sharesOf_weights votingPower _ hpower

theorem sum_storageFundBonus (rate storageFundReward : Nat) (hne : unslashed validators slashed ≠ []) :
    SharesOf (unslashed validators slashed) (fun _ => storageFundBonus validators slashed rate storageFundReward)
      (penalties validators slashed rate fun _ => storageFundReward / validators.length) := sharesOf_equal _ hne

namespace RewardInputs

variable (h : RewardInputs validators slashed rate computationReward storageFundReward)

include h

theorem penalties_le (amount : ActiveValidator → Nat) : penalties validators slashed rate amount ≤ (validators.map amount).sum :=
  calc penalties validators slashed rate amount ≤ ((validators.filter (isSlashed slashed)).map amount).sum :=
        sum_le_sum fun _ _ => penalty_le h.rate_le _
    _ ≤ (validators.map amount).sum := (List.filter_sublist.map _).sum_le_sum fun _ _ => Nat.zero_le _

/-- The power of the list is that of the slashed validators and that of the others. -/
theorem power_split : ((validators.filter (isSlashed slashed)).map votingPower).sum + unslashedPower validators slashed =
    totalVotingPower := by
  rw [← h.total, unslashedPower, unslashed, ← sum_append, ← map_append]
  exact ((filter_append_perm _ _).map _).sum_eq

/-- The adjusted amounts and what the slashed validators lose are the amounts and what the others get. -/
theorem sum_adjusted (amount bonus : ActiveValidator → Nat) :
    (validators.map (adjusted slashed rate amount bonus)).sum + penalties validators slashed rate amount =
      (validators.map amount).sum + ((unslashed validators slashed).map bonus).sum :=
  sum_redistribute (isSlashed slashed) amount (fun v => penalty rate (amount v)) bonus fun _ _ _ => penalty_le h.rate_le _

/-- No amount is more than the balance, and so it fits. -/
theorem adjusted_le (amount bonus : ActiveValidator → Nat)
    (hbonus : ((unslashed validators slashed).map bonus).sum ≤ penalties validators slashed rate amount) {v : ActiveValidator}
    (hv : v ∈ validators) : adjusted slashed rate amount bonus v ≤ (validators.map amount).sum := by
  have hsum := h.sum_adjusted amount bonus
  have hle : adjusted slashed rate amount bonus v ≤ (validators.map (adjusted slashed rate amount bonus)).sum :=
    single_le_sum (fun _ _ => Nat.zero_le _) _ (mem_map_of_mem hv)
  omega

variable {ps : List (ActiveValidator × Nat)}

section

variable (hps : ps.map (fun p => p.1.suiAddress) = slashed) (hget : ∀ p ∈ ps, validators[p.2]? = some p.1)

include hps hget

theorem length_unslashed :
    (ps.map Prod.snd).length ≤ validators.length ∧ validators.length - (ps.map Prod.snd).length = (unslashed validators slashed).length := by
  have hperm := (h.slashed_perm hps hget).length_eq
  have hsplit := length_eq_length_filter_add (l := validators) (isSlashed slashed)
  rw [length_map] at hperm ⊢
  rw [unslashed]
  omega

/-- One kind of rewards of one validator. -/
theorem adjustedAmount_eq_adjusted (amount bonus : ActiveValidator → Nat) (hsum : (validators.map amount).sum < 2 ^ 64)
    (hbonus : unslashed validators slashed ≠ [] →
      ((unslashed validators slashed).map bonus).sum ≤ penalties validators slashed rate amount)
    (hf : ∀ (i : Nat) v, validators[i]? = some v → f i = penalty rate (amount v))
    (hi : validators[i]? = some v) {share : Except Abort Nat} (hshare : v ∈ unslashed validators slashed → share = .ok (bonus v)) :
    adjustedAmount ((ps.map Prod.snd).map fun j => (j, f j)) i (validators.map amount) share =
      .ok (adjusted slashed rate amount bonus v) := by
  have hv : v ∈ validators := mem_of_getElem? hi
  have hiff := h.mem_slashed_iff hps hget hi
  have hamount : (validators.map amount)[i]? = some (amount v) := by
    rw [List.getElem?_map, hi, Option.map_some]
  rw [adjustedAmount_eq (bonus v) hamount, adjusted]
  · by_cases hs : isSlashed slashed v = true
    · rw [if_pos hs, if_pos (hiff.mpr hs), hf i v hi]
    · rw [if_neg hs, if_neg fun hmem => hs (hiff.mp hmem)]
  · intro _
    rw [hf i v hi]
    exact penalty_le h.rate_le _
  · intro hmem
    have hs : ¬ isSlashed slashed v = true := fun hs => hmem (hiff.mpr hs)
    have hun : v ∈ unslashed validators slashed := mem_filter.mpr ⟨hv, by simpa using hs⟩
    have hle := h.adjusted_le amount bonus (hbonus (ne_nil_of_mem hun)) hv
    rw [adjusted, if_neg hs] at hle
    exact ⟨hshare hun, by omega⟩

end


/-- The amounts that are computed. -/
theorem computeRewards_eq (hpower : unslashed validators slashed ≠ [] → 0 < unslashedPower validators slashed) :
    computeRewards validators slashed rate computationReward storageFundReward =
      .ok (validators.map (adjusted slashed rate (powerShare computationReward)
          (stakingBonus validators slashed rate computationReward)),
        validators.map (adjusted slashed rate (fun _ => storageFundReward / validators.length)
          fun _ => storageFundBonus validators slashed rate storageFundReward)) := by
  obtain ⟨ps, hps, hget⟩ := h.exists_slashed
  have hperm := h.slashed_perm hps hget
  obtain ⟨hstaking, -⟩ := h.sum_powerShare
  obtain ⟨hstorage, -⟩ := h.sum_storageFundShare
  have hreward := h.computationReward_lt
  have hfund := h.storageFundReward_lt
  -- the amounts by index
  let at' (amount : ActiveValidator → Nat) (i : Nat) : Nat := (validators[i]?.map amount).getD 0
  have hat : ∀ amount (i : Nat) v, validators[i]? = some v → at' amount i = amount v := by
    intro amount i v hi
    simp only [at', hi, Option.map_some, Option.getD_some]
  have hgetAmount : ∀ amount, ∀ i ∈ ps.map Prod.snd, (validators.map amount)[i]? = some (at' amount i) := by
    intro amount i hmem
    obtain ⟨p, hp, rfl⟩ := mem_map.mp hmem
    rw [List.getElem?_map, hget p hp, hat amount _ _ (hget p hp), Option.map_some]
  have hsumAt : ∀ (amount : ActiveValidator → Nat) (k : Nat → Nat), ((ps.map Prod.snd).map fun i => k (at' amount i)).sum =
      ((validators.filter (isSlashed slashed)).map fun v => k (amount v)).sum := by
    intro amount k
    rw [← (hperm.map _).sum_eq, map_map, map_map]
    refine congrArg List.sum (map_congr_left fun p hp => ?_)
    simp only [Function.comp_apply, hat amount _ _ (hget p hp)]
  have hfits : ∀ amount, (validators.map amount).sum < 2 ^ 64 → ((ps.map Prod.snd).map (at' amount)).sum < 2 ^ 64 := by
    intro amount hlt
    have hsum := hsumAt amount id
    simp only [id_eq] at hsum
    rw [hsum]
    exact Nat.lt_of_le_of_lt ((List.filter_sublist.map _).sum_le_sum fun _ _ => Nat.zero_le _) hlt
  have hadjust := computeRewardAdjustments_eq h.rate_le (h.slashed_nodup hps hget) (hgetAmount (powerShare computationReward))
    (hgetAmount fun _ => storageFundReward / validators.length) (hfits _ (by omega)) (hfits _ (by omega))
  obtain ⟨hlen, hnum⟩ := h.length_unslashed hps hget
  have hsplit := h.power_split
  have hunslashed : totalVotingPower - ((validators.filter (isSlashed slashed)).map votingPower).sum =
      unslashedPower validators slashed := by omega
  rw [computeRewards, h.computeUnadjusted_eq, ok_bind]
  dsimp only
  rw [h.sumVotingPowerByAddresses_eq hps hget, ok_bind, h.getValidatorIndices_eq hps hget, ok_bind, hadjust, ok_bind]
  dsimp only
  rw [hsumAt, hsumAt, ← penalties, ← penalties, computeAdjustedRewardDistribution, U64.sub, sub_eq (by omega), ok_bind,
    hunslashed, U64.sub, length_map, sub_eq hlen, ok_bind, hnum]
  rw [mapM_eq (l := validators.zipIdx) (g := fun p =>
    (adjusted slashed rate (powerShare computationReward) (stakingBonus validators slashed rate computationReward) p.1,
      adjusted slashed rate (fun _ => storageFundReward / validators.length)
        (fun _ => storageFundBonus validators slashed rate storageFundReward) p.1)), ok_bind, pure_eq_ok, unzip_eq_map, map_map, map_map]
  · exact congrArg Except.ok (congrArg₂ Prod.mk
      (zipIdx_map_comp_fst (adjusted slashed rate (powerShare computationReward) (stakingBonus validators slashed rate computationReward)))
      (zipIdx_map_comp_fst (adjusted slashed rate (fun _ => storageFundReward / validators.length)
        fun _ => storageFundBonus validators slashed rate storageFundReward)))
  intro p hp
  dsimp only
  have hi := mem_zipIdx_iff_getElem?.mp hp
  rw [h.adjustedAmount_eq_adjusted hps hget (powerShare computationReward) (stakingBonus validators slashed rate computationReward)
      (by omega) (fun hne => (sum_stakingBonus rate computationReward (hpower hne)).1) (fun i v hiv => by rw [hat _ i v hiv]) hi,
    ok_bind,
    h.adjustedAmount_eq_adjusted hps hget (fun _ => storageFundReward / validators.length)
      (fun _ => storageFundBonus validators slashed rate storageFundReward)
      (by omega) (fun hne => (sum_storageFundBonus rate storageFundReward hne).1) (fun i v hiv => by rw [hat _ i v hiv]) hi]
  · rfl
  · intro hun
    exact div_eq (length_pos_iff.mpr (ne_nil_of_mem hun)).ne'
  · intro hun
    have hpos := hpower (ne_nil_of_mem hun)
    have hle := h.penalties_le (powerShare computationReward)
    have hv := h.votingPower_le (mem_of_mem_filter hun)
    have hshare : penalties validators slashed rate (powerShare computationReward) * p.1.votingPower /
        unslashedPower validators slashed ≤ penalties validators slashed rate (powerShare computationReward) := by
      rw [Nat.mul_comm]
      exact share_le (votingPower_le_unslashed hun)
    exact mulDiv_eq (by omega) (Nat.lt_of_le_of_lt hv (by decide)) hpos (by omega)

end RewardInputs

/-! ## The distribution -/

/-- An abort that is not of a balance that is split. -/
def NotSplit (e : Abort) : Prop := e ≠ .notEnough

theorem U64.errorsIn_add (a b : Nat) : ErrorsIn NotSplit (U64.add a b) := .ite fun _ => nofun

theorem errorsIn_processPendingStake (pool : StakingPool) : ErrorsIn NotSplit pool.processPendingStake := by
  refine .bind (U64.errorsIn_add _ _) fun _ _ => .bind (.ite fun _ => nofun) fun _ _ => .bind ?_ fun _ _ => .ok _
  unfold PoolTokenExchangeRate.getTokenAmount
  split
  · exact .ok _
  · exact errorsIn_mulDiv nofun (fun _ => nofun) nofun _ _

/-- A stake that is added splits no balance. -/
theorem errorsIn_stakeReward (v : ActiveValidator) (reward epoch : Nat) : ErrorsIn NotSplit (stakeReward v reward epoch) := by
  have hpool : ErrorsIn NotSplit (v.stakingPool.validatorRequestAddStake reward epoch) := by
    refine .bind (.assert fun _ => nofun) fun _ _ => .bind (U64.errorsIn_add _ _) fun _ _ => .bind ?_ fun r _ => ?_
    · exact .bind (.assert fun _ => nofun) fun _ _ => .bind (.assert fun _ => nofun) fun _ _ =>
        .bind (U64.errorsIn_add _ _) fun _ _ => .ok _
    · obtain ⟨pool, stakedSui⟩ := r
      dsimp only
      split
      · exact .bind (errorsIn_processPendingStake _) fun _ _ => .ok _
      · exact .ok _
  unfold stakeReward
  split
  · refine .bind (.bind hpool fun _ _ => .bind (U64.errorsIn_add _ _) fun _ _ => .ok _) fun _ _ => .ok _
  · exact .ok _

theorem errorsIn_depositStakeRewards (v : ActiveValidator) (reward : Nat) : ErrorsIn NotSplit (v.depositStakeRewards reward) :=
  .bind (U64.errorsIn_add _ _) fun _ _ =>
    .bind (.bind (U64.errorsIn_add _ _) fun _ _ => .bind (U64.errorsIn_add _ _) fun _ _ => .ok _) fun _ _ => .ok _

theorem split_eq {balance value : Nat} (h : value ≤ balance) : Balance.split balance value = .ok (balance - value) := by
  rw [Balance.split, decide_eq_true h, assert_true]
  rfl

/-- A validator is given its amounts: the balances have them, and they are taken off. -/
theorem distributeOne_spec (epoch : Nat) {staking storageFund : List Nat} (d : Distribution) {amount fund : Nat}
    (hamount : staking[i]? = some amount) (hfund : storageFund[i]? = some fund) (hle : amount ≤ d.stakingRewards)
    (hfundle : fund ≤ d.storageFundReward) (hcommission : v.commissionRate ≤ basisPointDenominator) :
    ErrorsIn NotSplit (distributeOne epoch staking storageFund d (v, i)) ∧
      ∀ d', distributeOne epoch staking storageFund d (v, i) = .ok d' →
        d'.stakingRewards = d.stakingRewards - amount ∧ d'.storageFundReward = d.storageFundReward - fund := by
  rw [distributeOne, hamount, expect_some, ok_bind, split_eq hle, ok_bind]
  have hcut : ∀ c, mulDiv amount v.commissionRate basisPointDenominator = .ok c → c ≤ amount := by
    intro c hc
    rw [(mulDiv_ok hc).2.1, Nat.mul_comm]
    exact share_le hcommission
  refine ⟨.bind (errorsIn_mulDiv nofun (fun _ => nofun) nofun _ _) fun c hc => ?_, fun d' hd' => ?_⟩
  · rw [split_eq (hcut c hc), ok_bind, hfund, expect_some, ok_bind, split_eq hfundle, ok_bind]
    exact .bind (U64.errorsIn_add _ _) fun _ _ => .bind (errorsIn_stakeReward _ _ _) fun _ _ =>
      .bind (errorsIn_depositStakeRewards _ _) fun _ _ => .ok _
  · rw [bind_ok] at hd'
    obtain ⟨c, hc, hd'⟩ := hd'
    rw [split_eq (hcut c hc), ok_bind, hfund, expect_some, ok_bind, split_eq hfundle, ok_bind] at hd'
    simp only [bind_ok] at hd'
    obtain ⟨_, -, _, -, _, -, hd'⟩ := hd'
    rw [← Except.ok.inj hd']
    exact ⟨rfl, rfl⟩

/-- Amounts that the balances have are distributed without a split that fails, and what is left is the rest. -/
theorem distributeReward_spec (epoch : Nat) (amount fund : ActiveValidator → Nat) {stakingRewards : Nat}
    (hstaking : (validators.map amount).sum ≤ stakingRewards) (hstorage : (validators.map fund).sum ≤ storageFundReward)
    (hcommission : ∀ v ∈ validators, v.commissionRate ≤ basisPointDenominator) :
    ErrorsIn NotSplit
        (distributeReward epoch validators (validators.map amount) (validators.map fund) stakingRewards storageFundReward) ∧
      ∀ d, distributeReward epoch validators (validators.map amount) (validators.map fund) stakingRewards storageFundReward = .ok d →
        d.stakingRewards + (validators.map amount).sum = stakingRewards ∧
          d.storageFundReward + (validators.map fund).sum = storageFundReward := by
  -- what is left after the first validators
  let Left (pre : List (ActiveValidator × Nat)) (d : Distribution) : Prop :=
    d.stakingRewards + (pre.map fun p => amount p.1).sum = stakingRewards ∧
      d.storageFundReward + (pre.map fun p => fund p.1).sum = storageFundReward
  have hfst : ∀ k : ActiveValidator → Nat, (validators.zipIdx.map fun p => k p.1).sum = (validators.map k).sum :=
    fun k => congrArg sum (zipIdx_map_comp_fst k)
  have hone : ∀ pre (p : ActiveValidator × Nat) post d, validators.zipIdx = pre ++ p :: post → Left pre d →
      ErrorsIn NotSplit (distributeOne epoch (validators.map amount) (validators.map fund) d p) ∧
        ∀ d', distributeOne epoch (validators.map amount) (validators.map fund) d p = .ok d' → Left (pre ++ [p]) d' := by
    rintro pre ⟨v, i⟩ post d hzip ⟨hleft, hleftFund⟩
    have hi : validators[i]? = some v := mem_zipIdx_iff_getElem?.mp (show (v, i) ∈ validators.zipIdx by simp [hzip])
    have hsum := hfst amount
    have hsumFund := hfst fund
    rw [hzip, map_append, sum_append, map_cons, sum_cons] at hsum hsumFund
    obtain ⟨herrors, hok⟩ := distributeOne_spec epoch d
      (show (validators.map amount)[i]? = some (amount v) by rw [List.getElem?_map, hi, Option.map_some])
      (show (validators.map fund)[i]? = some (fund v) by rw [List.getElem?_map, hi, Option.map_some])
      (by dsimp only at hsum; omega) (by dsimp only at hsumFund; omega) (hcommission v (mem_of_getElem? hi))
    refine ⟨herrors, fun d' hd' => ?_⟩
    obtain ⟨hrest, hrestFund⟩ := hok d' hd'
    simp only [Left, hrest, hrestFund, map_append, sum_append, map_singleton, sum_singleton]
    dsimp only at hsum hsumFund
    omega
  refine ⟨.bind (.assert fun _ => nofun) fun _ _ => ?_, fun d hd => ?_⟩
  · exact .foldlM Left ⟨rfl, rfl⟩ (fun pre p post c c' hzip hc hc' => (hone pre p post c hzip hc).2 c' hc')
      fun pre p post c hzip hc => (hone pre p post c hzip hc).1
  · rw [distributeReward, bind_ok] at hd
    obtain ⟨_, -, hd⟩ := hd
    rw [← hfst amount, ← hfst fund]
    exact foldlM_invariant Left hd ⟨rfl, rfl⟩ fun pre p post c c' hzip hc hc' => (hone pre p post c hzip hc).2 c' hc'

end Sui.ValidatorSet

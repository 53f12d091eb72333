import Sui.System.Lemmas.EpochChange
import Sui.System.Theorems.VotingPower

/-!
# The validator set is consistent at every epoch change

In every state that the calls lead to, each validator is in one place and the mappings are those of the validators that are not
inactive. The end of an epoch keeps this, and the stake that the voting powers are set by is that of the validators that stay.
-/

namespace Sui

open Library Checked BTreeMap List VotingPower SystemState ValidatorEntry

namespace ValidatorSet

open ValidatorEntry

/-! ## The rest of the end of an epoch -/

/-- The validators that got their rewards are the validators, in their order. -/
def RewardFrame (v v' : ActiveValidator) : Prop := v'.suiAddress = v.suiAddress ∧ v.stakingPool.SameFrame v'.stakingPool

theorem stakeReward_frame {v v' : ActiveValidator} {reward epoch : Nat} {stake : List StakedSui}
    (h : stakeReward v reward epoch = .ok (v', stake)) : RewardFrame v v' := by
  unfold stakeReward at h
  split at h
  · unfold ActiveValidator.requestAddStake at h
    simp only [bind_ok] at h
    obtain ⟨⟨v1, s1⟩, ⟨⟨pool, s2⟩, hpool, _, _, hv1⟩, h⟩ := h
    cases hv1
    cases h
    exact ⟨rfl, StakingPool.sameFrame_validatorRequestAddStake hpool⟩
  · cases h
    exact ⟨rfl, rfl, rfl, rfl, rfl⟩

theorem depositStakeRewards_frame {v v' : ActiveValidator} {reward : Nat} (h : v.depositStakeRewards reward = .ok v') :
    RewardFrame v v' := by
  simp only [ActiveValidator.depositStakeRewards, bind_ok, pure_ok] at h
  obtain ⟨_, _, pool, hpool, rfl⟩ := h
  exact ⟨rfl, StakingPool.sameFrame_depositRewards hpool⟩

theorem distributeReward_frame {epoch stakingRewards storageFundReward : Nat} {validators : List ActiveValidator} {staking storageFund : List Nat}
    {d : Distribution} (h : distributeReward epoch validators staking storageFund stakingRewards storageFundReward = .ok d) :
    List.Forall₂ RewardFrame validators d.validators := by
  unfold distributeReward at h
  rw [bind_ok] at h
  obtain ⟨_, _, h⟩ := h
  have hall := foldlM_invariant (fun pre (d : Distribution) => List.Forall₂ RewardFrame (pre.map Prod.fst) d.validators) h
    .nil fun pre p post d d' _ hd hstep => ?_
  · rwa [zipIdx_map_fst] at hall
  · unfold distributeOne at hstep
    simp only [bind_ok] at hstep
    obtain ⟨_, _, _, _, _, _, _, _, _, _, _, _, _, _, ⟨v1, stake⟩, hstake, v2, hdeposit, hstep⟩ := hstep
    cases hstep
    obtain ⟨haddress, hframe⟩ := stakeReward_frame hstake
    obtain ⟨haddress', hframe'⟩ := depositStakeRewards_frame hdeposit
    rw [map_append]
    exact rel_append hd (.cons ⟨haddress'.trans haddress, hframe.trans hframe'⟩ .nil)

theorem forall₂_zipWith {α β γ δ : Type} {R : α → β → Prop} {S : α → δ → Prop} {f : α → β → γ} {g : γ → δ} {l : List α} {l' : List β}
    (h : List.Forall₂ R l l') (hS : ∀ a b, R a b → S a (g (f a b))) : List.Forall₂ S l ((l.zipWith f l').map g) := by
  induction h with
  | nil => exact .nil
  | cons hab _ ih => exact .cons (hS _ _ hab) ih

/-- A validator with the same pool and address that is not deactivated either. -/
def SamePlace (v v' : ValidatorEntry) : Prop :=
  ident v' = ident v ∧ v'.stakingPool.deactivationEpoch = v.stakingPool.deactivationEpoch

theorem SamePlace.trans {u v w : ValidatorEntry} (h : SamePlace u v) (h' : SamePlace v w) : SamePlace u w :=
  ⟨h'.1.trans h.1, h'.2.trans h.2⟩

theorem samePlace_all {l l' l'' : List ValidatorEntry} (h : List.Forall₂ SamePlace l l') (h' : List.Forall₂ SamePlace l' l'') :
    List.Forall₂ SamePlace l l'' := by
  induction h generalizing l'' with
  | nil => exact h'
  | cons hv _ ih =>
    cases h' with
    | cons hv' h' => exact .cons (hv.trans hv') (ih h')

variable {s s' : ValidatorSet}

/-- The active validators are replaced, one by one. -/
theorem Consistent.with_active (h : s.Consistent) (hactive : List.Forall₂ SamePlace s.activeValidators s'.activeValidators)
    (hpending : s'.pendingActiveValidators = s.pendingActiveValidators) (hremovals : s'.pendingRemovals = s.pendingRemovals)
    (hmappings : s'.stakingPoolMappings = s.stakingPoolMappings) (hinactive : s'.inactiveValidators = s.inactiveValidators)
    (hcandidates : s'.validatorCandidates = s.validatorCandidates) : s'.Consistent ∧ s'.poolIds [] = s.poolIds [] := by
  have hlive : (s'.liveValidators ++ []).map ident = (s.liveValidators ++ []).map ident := by
    have hmap : s'.activeValidators.map ident = s.activeValidators.map ident := map_eq_of_forall₂ (hactive.imp fun _ _ hv => hv.1)
    simp only [liveValidators, map_append, hmap, hpending, hcandidates]
  have hids : s'.inactiveIds = s.inactiveIds := by rw [inactiveIds, inactiveIds, hinactive]
  refine ⟨⟨?_, ?_, ?_, ?_, fun v hv => ?_, ?_⟩, by rw [poolIds, poolIds, hlive, hids]⟩
  · rw [hlive, hids, hmappings]
    exact h.directory
  · rw [hcandidates]
    exact h.candidateKey
  · rw [hinactive]
    exact h.inactiveKey
  · rw [hremovals, ← hactive.length_eq]
    exact h.removals
  · obtain ⟨w, hw, -, hdeactivation⟩ := exists_of_forall₂ hactive hv
    exact hdeactivation.trans (h.active w hw)
  · rw [hpending, hcandidates]
    exact h.waiting

theorem processRewardsAndStakes_ok {rewards : EpochRewards} {records : ReportRecords} {epoch : Nat}
    (h : s.Consistent) (hs : s.processRewardsAndStakes rewards records epoch = .ok s') :
    s'.Consistent ∧ s'.poolIds [] = s.poolIds [] := by
  simp only [processRewardsAndStakes, bind_ok, pure_ok] at hs
  obtain ⟨_, _, slashed, _, ⟨staking, storageFund⟩, _, d, hd, active, hactive, rfl⟩ := hs
  have hframe := distributeReward_frame hd
  rw [forall₂_map_left_iff] at hframe
  have hprocess := (mapM_ok.mp hactive).imp fun v v' hv => (processPendingStakesAndWithdraws_ok hv : SamePlace v v')
  refine h.with_active (samePlace_all (forall₂_zipWith hframe fun v a hv => ?_) hprocess) rfl rfl rfl rfl rfl
  exact ⟨Prod.ext hv.2.id hv.1, hv.2.deactivationEpoch⟩

theorem setVotingPower_length {validators out : List Validator} {totalStake : Nat}
    (h : setVotingPower validators totalStake = .ok out) : out.length = validators.length := by
  simp only [setVotingPower, updateVotingPower, bind_ok, pure_ok] at h
  obtain ⟨_, _, ⟨infos, remaining⟩, _, infos', _, out', hupdate, _, _, rfl⟩ := h
  refine foldlM_invariant (fun _ out => out.length = validators.length) hupdate rfl fun pre info post l l' _ hl hstep => ?_
  simp only [updateOne, bind_ok, pure_ok] at hstep
  obtain ⟨_, _, rfl⟩ := hstep
  rw [length_modify, hl]

theorem setVotingPowers_ok {validators out : List ValidatorEntry} {totalStake : Nat} (h : setVotingPowers validators totalStake = .ok out) :
    List.Forall₂ SamePlace validators out := by
  simp only [setVotingPowers, bind_ok, pure_ok] at h
  obtain ⟨powers, hpowers, rfl⟩ := h
  have hlength := setVotingPower_length hpowers
  rw [length_map] at hlength
  have hall : List.Forall₂ (fun (_ : ValidatorEntry) (_ : Validator) => True) validators powers :=
    forall₂_iff_get.mpr ⟨hlength.symm, fun _ _ _ => trivial⟩
  have hzip := forall₂_zipWith (S := SamePlace) (f := fun v p => { v with votingPower := p.votingPower }) (g := id) hall
    fun v p _ => ⟨rfl, rfl⟩
  rwa [map_id] at hzip

variable {validators : List ValidatorEntry}

/-- The last part of `advance_epoch` returns if validators with positive raw powers are left. -/
theorem setVotingPowers_total {total : Nat} (hne : validators ≠ []) (htotal : total = stakes validators)
    (hfits : total < 2 ^ 64) (hraw : ∀ v ∈ validators, 1 ≤ rawPower v.totalStake total) :
    ∃ out, setVotingPowers validators total = .ok out := by
  obtain ⟨powers, hpowers, -⟩ := setVotingPower_assigned (validators.map fun v => ⟨v.totalStake, v.votingPower⟩) total
    (by simpa using hne) (by rw [map_map, htotal]; rfl) hfits (by simpa [rawPower] using hraw)
  exact ⟨_, by rw [setVotingPowers, hpowers]; rfl⟩

theorem Consistent.advanceEpoch {rewards : EpochRewards} {grace epoch : Nat} {records records' : ReportRecords}
    (h : s.Consistent) (hs : s.advanceEpoch rewards grace records epoch = .ok (s', records')) :
    s'.Consistent ∧ s'.pendingActiveValidators = [] ∧ (s'.poolIds []).Perm (s.poolIds []) := by
  simp only [ValidatorSet.advanceEpoch, bind_ok, pure_ok, Prod.mk.injEq] at hs
  obtain ⟨s1, hstakes, ⟨s2, records2, total⟩, hchange, active, hpowers, rfl, rfl⟩ := hs
  obtain ⟨h1, hids1⟩ := processRewardsAndStakes_ok h hstakes
  obtain ⟨h2, -⟩ := (meets_changeValidators h1 _ _ _).2 _ hchange
  have hmetadata : List.Forall₂ SamePlace active (active.map effectuateStagedMetadata) := by
    rw [forall₂_map_right_iff, forall₂_same]
    exact fun v _ => ⟨rfl, rfl⟩
  let s3 : ValidatorSet := { s2 with totalStake := total, activeValidators := active.map effectuateStagedMetadata }
  have h3 : s3.Consistent ∧ s3.poolIds [] = s2.poolIds [] := Consistent.with_active h2.toConsistentWith
    (samePlace_all (setVotingPowers_ok hpowers) hmetadata) rfl rfl rfl rfl rfl
  exact ⟨h3.1, h2.pending_eq, h3.2 ▸ hids1 ▸ h2.ids⟩

theorem poolIds_eq (s : ValidatorSet) : s.poolIds [] = s.allValidators.map stakingPoolId := by
  rw [poolIds, allValidators, append_nil, map_append, map_map]
  rfl

/-! ## Every state -/

/-- The mappings of the validators of genesis. -/
theorem directory_of_new {m : BTreeMap Nat Nat} (haddress : (validators.map fun v => v.suiAddress).Nodup)
    (h : validators.foldlM (fun m v => Table.add m v.stakingPoolId v.suiAddress) ∅ = .ok m) : Directory (validators.map ident) [] m := by
  refine foldlM_invariant (fun pre m => Directory (pre.map ident) [] m) h ⟨by simp, by simp, by simp⟩ ?_
  intro pre v post m m' hl hm hstep
  obtain ⟨hnone, rfl⟩ := Table.add_ok.mp hstep
  rw [map_append]
  refine (hm.register (k := v.stakingPoolId) (a := v.suiAddress) ?_ not_mem_nil ?_).perm (perm_append_singleton _ _) (.refl _)
  · intro hin
    obtain ⟨⟨k, a⟩, hmem, hk⟩ := mem_map.mp hin
    have hsome := (hm.index_iff k a).mpr hmem
    rw [show k = v.stakingPoolId from hk, hnone] at hsome
    cases hsome
  · intro hin
    rw [hl, map_append, map_cons, nodup_append] at haddress
    rw [map_map] at hin
    exact haddress.2.2 _ hin _ mem_cons_self rfl

theorem consistent_of_new {s : ValidatorSet} (haddress : (validators.map fun v => v.suiAddress).Nodup)
    (hpool : ∀ v ∈ validators, v.stakingPool.isInactive = false) (h : ValidatorSet.new validators = .ok s) : s.Consistent := by
  simp only [ValidatorSet.new, bind_ok, pure_ok] at h
  obtain ⟨total, _, m, hm, active, hactive, rfl⟩ := h
  have hplace := setVotingPowers_ok hactive
  have hmap : active.map ident = validators.map ident := map_eq_of_forall₂ (hplace.imp fun _ _ hv => hv.1)
  refine ⟨?_, by simp, by simp, ⟨nodup_nil, nofun⟩, fun v hv => ?_, by simp⟩
  · simp only [liveValidators, inactiveIds, values_empty, append_nil, map_nil, hmap]
    exact directory_of_new haddress hm
  · obtain ⟨w, hw, -, hdeactivation⟩ := exists_of_forall₂ hplace hv
    exact hdeactivation.trans (by simpa [StakingPool.isInactive] using hpool w hw)

end ValidatorSet

open ValidatorSet in
/-- What one call preserves. -/
theorem SystemState.consistent_call {params : SystemParameters} {s s' : SystemState} {c : EntryPoint} (h : s.validators.Consistent)
    (hadm : s.Admissible c) (hc : s.call params c = .ok s') : s'.validators.Consistent := by
  cases c with
      simp only [SystemState.call, ValidatorSet.requestAddStake, reportValidator, undoReportValidator, bind_ok, pure_ok] at hc
  | requestAddValidatorCandidate =>
    obtain ⟨validators, hv, rfl⟩ := hc
    exact h.requestAddValidatorCandidate hadm hv
  | requestRemoveValidatorCandidate =>
    obtain ⟨validators, hv, rfl⟩ := hc
    exact h.requestRemoveValidatorCandidate hv
  | requestAddValidator =>
    obtain ⟨_, _, _, _, validators, hv, rfl⟩ := hc
    exact h.requestAddValidator hv
  | requestRemoveValidator =>
    obtain ⟨_, _, _, _, validators, hv, rfl⟩ := hc
    exact h.requestRemoveValidator hv
  | setValidator =>
    obtain ⟨validators, hv, rfl⟩ := hc
    refine h.modifyAny ?_ hv
    exact fun v => ⟨rfl, rfl, rfl, rfl, rfl⟩
  | requestAddStake =>
    obtain ⟨⟨validators, staked⟩, ⟨_, _, hv⟩, rfl⟩ := hc
    exact h.modifyCandidateOrActive (fun _ _ _ => requestAddStake_same) hv
  | requestWithdrawStake =>
    obtain ⟨⟨validators, out⟩, hv, rfl⟩ := hc
    exact h.modifyByPoolId (fun _ _ _ => requestWithdrawStake_same) hv
  | convertToFungibleStakedSui =>
    obtain ⟨⟨validators, out⟩, hv, rfl⟩ := hc
    exact h.modifyByPoolId (fun _ _ _ => convertToFungibleStakedSui_same) hv
  | redeemFungibleStakedSui =>
    obtain ⟨⟨validators, out⟩, hv, rfl⟩ := hc
    exact h.modifyByPoolId (fun _ _ _ => redeemFungibleStakedSui_same) hv
  | reportValidator =>
    obtain ⟨_, _, _, _, _, _, hc⟩ := hc
    split at hc
    · cases hc
      exact h
    · split at hc
      · cases hc
        exact h
      · cases hc
        exact h
  | undoReportValidator =>
    obtain ⟨_, _, _, _, _, _, rfl⟩ := hc
    exact h
  | advanceEpoch =>
    obtain ⟨_, _, _, _, ⟨validators, records⟩, hv, rfl⟩ := hc
    exact (h.advanceEpoch hv).1
  | advanceEpochSafeMode =>
    obtain ⟨_, _, rfl⟩ := hc
    exact h

theorem SystemRun.consistent {params : SystemParameters} {s : SystemState} (h : SystemRun params s) : s.validators.Consistent := by
  induction h with
  | genesis haddress hpool h =>
    simp only [SystemState.genesis, bind_ok, pure_ok] at h
    obtain ⟨validators, hv, rfl⟩ := h
    exact ValidatorSet.consistent_of_new haddress hpool hv
  | call c _ hadm hc ih => exact consistent_call ih hadm hc

/-- At the end of an epoch, in every reachable state: the change of the validators aborts in integer operations only. If a
validator remains, the stake that the powers are set by is that of the active validators, the end of the epoch returns, every
validator is then active, a candidate or inactive, in one place only, and the mappings are the pools of those that are not
inactive. -/
theorem advanceEpoch_consistent {params : SystemParameters} {s : SystemState} (h : SystemRun params s)
    (rewards : ValidatorSet.EpochRewards) {stakesProcessed : ValidatorSet}
    (hstakes : s.validators.processRewardsAndStakes rewards s.validatorReportRecords s.epoch = .ok stakesProcessed) :
    ErrorsIn ValidatorSet.IsArithmetic
      (stakesProcessed.changeValidators params.validatorLowStakeGracePeriod s.validatorReportRecords s.epoch) ∧
    ∀ changed records newTotalStake,
      stakesProcessed.changeValidators params.validatorLowStakeGracePeriod s.validatorReportRecords s.epoch =
        .ok (changed, records, newTotalStake) →
      changed.activeValidators ≠ [] →
      newTotalStake = (changed.activeValidators.map totalStake).sum ∧
      (∀ v ∈ changed.activeValidators, 1 ≤ v.totalStake * VotingPower.totalVotingPower / newTotalStake) ∧
      ∃ next, s.validators.advanceEpoch rewards params.validatorLowStakeGracePeriod s.validatorReportRecords s.epoch =
          .ok (next, records) ∧
        ((next.activeValidators ++ values next.validatorCandidates ++ values next.inactiveValidators).map
          stakingPoolId).Perm (s.validators.allValidators.map stakingPoolId) ∧
        ((next.activeValidators ++ values next.validatorCandidates ++ values next.inactiveValidators).map stakingPoolId).Nodup ∧
        ∀ p a : Nat, next.stakingPoolMappings[p]? = some a ↔
          ∃ v ∈ next.activeValidators ++ next.pendingActiveValidators ++ values next.validatorCandidates,
            v.stakingPoolId = p ∧ v.suiAddress = a := by
  have hconsistent := h.consistent
  obtain ⟨h1, hids1⟩ := ValidatorSet.processRewardsAndStakes_ok hconsistent hstakes
  refine ⟨(ValidatorSet.meets_changeValidators h1 _ _ _).1, fun changed records total hchange hne => ?_⟩
  obtain ⟨h2, htotal, hfits, hraw⟩ := (ValidatorSet.meets_changeValidators h1 _ _ _).2 _ hchange
  obtain ⟨powers, hpowers⟩ := ValidatorSet.setVotingPowers_total hne htotal hfits hraw
  have hadvance : s.validators.advanceEpoch rewards params.validatorLowStakeGracePeriod s.validatorReportRecords s.epoch =
      .ok ({ changed with totalStake := total, activeValidators := powers.map effectuateStagedMetadata }, records) := by
    simp only [ValidatorSet.advanceEpoch, hstakes, hchange, hpowers, ok_bind, pure_eq_ok]
  obtain ⟨h3, hpending, hids⟩ := hconsistent.advanceEpoch hadvance
  rw [ValidatorSet.poolIds_eq, ValidatorSet.poolIds_eq] at hids
  have hplaces : ∀ next : ValidatorSet, next.pendingActiveValidators = [] → next.activeValidators ++
      values next.validatorCandidates ++ values next.inactiveValidators = next.allValidators := by
    intro next hnext
    rw [ValidatorSet.allValidators, ValidatorSet.liveValidators, hnext, append_nil]
  refine ⟨htotal, hraw, _, hadvance, ?_, ?_, fun p a => ?_⟩
  · rw [hplaces _ hpending]
    exact hids
  · rw [hplaces _ hpending, ← ValidatorSet.poolIds_eq]
    exact h3.directory.ids
  · rw [h3.directory.index_iff, append_nil, mem_map]
    exact exists_congr fun v => and_congr_right fun _ => Prod.mk.injEq _ _ _ _ ▸ Iff.rfl

/-- Metadata that differ by a name and a byte of the keys. -/
def metadataOf (name : String) (key : UInt8) : ValidatorMetadata :=
  ⟨name, name, name, name, name, [key, 0], [key, 1], [key, 2], none, none, none, none, none, none, none⟩

/-- A validator that is active at genesis. -/
def genesisValidator (suiAddress poolId stake : Nat) (metadata : ValidatorMetadata) : ValidatorEntry :=
  { new suiAddress poolId 200 metadata with
    nextEpochStake := stake
    stakingPool := { StakingPool.new poolId with
      activationEpoch := some 0
      suiBalance := stake
      poolTokenBalance := stake
      exchangeRates := (∅ : BTreeMap Nat PoolTokenExchangeRate).insert 0 .initial } }

/-- Two validators at genesis. -/
def twoValidators : List ValidatorEntry :=
  [genesisValidator 1 11 5000000000 (metadataOf "one" 1), genesisValidator 2 12 4000000000 (metadataOf "two" 2)]

/-- A third validator requests to join, and the second one to leave. -/
def joinAndLeave : List EntryPoint :=
  [.requestAddValidatorCandidate 3 13 100 (metadataOf "three" 3), .requestAddStake 3 1000000000, .requestAddValidator 3,
    .requestRemoveValidator 2]

/-- A validator leaves and another one joins. -/
theorem advanceEpoch_consistent_joinAndLeave : ∃ s stakesProcessed changed records newTotalStake next, SystemRun ⟨1, 10, 7⟩ s ∧
      s.validators.processRewardsAndStakes ⟨1000, 100, 5000⟩ s.validatorReportRecords s.epoch = .ok stakesProcessed ∧
      stakesProcessed.changeValidators 7 s.validatorReportRecords s.epoch = .ok (changed, records, newTotalStake) ∧
      changed.activeValidators.map stakingPoolId = [11, 13] ∧
      newTotalStake = (changed.activeValidators.map totalStake).sum ∧
      s.validators.advanceEpoch ⟨1000, 100, 5000⟩ 7 s.validatorReportRecords s.epoch = .ok (next, records) := by
  obtain ⟨g, hg, hcalls⟩ := exists_ok (x := genesis twoValidators)
    (fun g => (g.calls ⟨1, 10, 7⟩ joinAndLeave).any fun s =>
      match s.validators.processRewardsAndStakes ⟨1000, 100, 5000⟩ s.validatorReportRecords s.epoch with
      | .ok p =>
        match p.changeValidators 7 s.validatorReportRecords s.epoch with
        | .ok r => r.1.activeValidators.map stakingPoolId = [11, 13]
        | .error _ => false
      | .error _ => false) (by decide +kernel)
  obtain ⟨s, hs, hchange⟩ := (Option.any_eq_true _ _).mp hcalls
  have hrun : SystemRun ⟨1, 10, 7⟩ s := calls_run (.genesis (by decide) (by decide) hg) joinAndLeave hs
  split at hchange
  · rename_i p hp
    split at hchange
    · rename_i r hr
      obtain ⟨changed, records, total⟩ := r
      have hids : changed.activeValidators.map stakingPoolId = [11, 13] := by simpa using hchange
      have hne : changed.activeValidators ≠ [] := fun hnil => by simp [hnil] at hids
      obtain ⟨htotal, -, next, hnext, -⟩ := (advanceEpoch_consistent hrun ⟨1000, 100, 5000⟩ hp).2 changed records total hr hne
      exact ⟨s, p, changed, records, total, next, hrun, hp, hr, hids, htotal, hnext⟩
    · cases hchange
  · cases hchange

end Sui

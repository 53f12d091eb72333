import Sui.System.Lemmas.VotingPower

/-!
# The assignment of voting power

`set_voting_power` returns for every list of validators whose raw powers are positive, and the powers it assigns are exact, capped
and follow the stakes.
-/

namespace Sui.VotingPower

open Library Checked List VotingPowerInfo

def thresholdFor (n : Nat) : Nat := min totalVotingPower (max maxVotingPower ((totalVotingPower + n - 1) / n))

/-- The threshold is high enough for the validators to reach the total together. -/
theorem total_le_mul_thresholdFor {n : Nat} (hn : 0 < n) : totalVotingPower ≤ n * thresholdFor n := by
  have hceil : totalVotingPower ≤ n * planned totalVotingPower n := le_mul_planned totalVotingPower hn
  rw [planned] at hceil
  rw [thresholdFor]
  generalize (totalVotingPower + n - 1) / n = average at hceil
  rcases Nat.le_total totalVotingPower (max maxVotingPower average) with h | h
  · rw [Nat.min_eq_left h]
    exact Nat.le_mul_of_pos_left _ hn
  · rw [Nat.min_eq_right h]
    exact le_trans hceil (Nat.mul_le_mul_left n (Nat.le_max_right _ _))

/-- The power that is left after capping fits below the threshold. -/
theorem remaining_le_room {validators : List Validator} {threshold totalStake : Nat}
    (hmul : totalVotingPower ≤ validators.length * threshold) :
    totalVotingPower - (validators.map (cappedPower threshold totalStake)).sum ≤
      room threshold (validators.zipIdx.map (infoOf threshold totalStake)) := by
  have hroom : room threshold (validators.zipIdx.map (infoOf threshold totalStake)) =
      (validators.map fun v => threshold - cappedPower threshold totalStake v).sum := by
    rw [room, map_map]
    exact congrArg sum (zipIdx_map_comp_fst fun v => threshold - cappedPower threshold totalStake v)
  have hfull : (validators.map fun v => threshold - cappedPower threshold totalStake v + cappedPower threshold totalStake v) =
      replicate validators.length threshold :=
    (map_congr_left fun v _ => Nat.sub_add_cancel (Nat.min_le_right _ _)).trans (map_const' ..)
  have hall := congrArg sum hfull
  rw [sum_map_add, sum_replicate, smul_eq_mul] at hall
  omega

/-- In a list in which both the stakes and the powers descend, more stake is not less power. -/
theorem power_le_of_stake_lt {l : List VotingPowerInfo} (hstake : l.Pairwise StakeGe)
    (hpower : l.Pairwise fun a b => b.votingPower ≤ a.votingPower) {a b : VotingPowerInfo} (ha : a ∈ l) (hb : b ∈ l)
    (hlt : b.stake < a.stake) : b.votingPower ≤ a.votingPower := by
  have hforward : l.Pairwise fun x y => y.stake < x.stake → y.votingPower ≤ x.votingPower := by
    refine hpower.imp fun {x y} hxy _ => ?_
    exact hxy
  have hbackward : l.Pairwise (flip fun x y : VotingPowerInfo => y.stake < x.stake → y.votingPower ≤ x.votingPower) := by
    refine hstake.imp fun {x y} hxy hlt => ?_
    exact absurd hlt (Nat.not_lt.mpr hxy)
  exact hforward.forall_of_forall_of_flip (fun _ _ h => absurd h (lt_irrefl _)) hbackward ha hb hlt

/-- What an assignment of powers to validators guarantees. -/
structure Assigned (validators out : List Validator) : Prop where
  stakes : out.map Validator.totalStake = validators.map Validator.totalStake
  sum : (out.map Validator.votingPower).sum = totalVotingPower
  bounds : ∀ v ∈ out, 1 ≤ v.votingPower ∧
    v.votingPower ≤ max maxVotingPower ((totalVotingPower + validators.length - 1) / validators.length)
  order : ∀ a ∈ out, ∀ b ∈ out, b.totalStake < a.totalStake → b.votingPower ≤ a.votingPower

section

variable (validators : List Validator) (totalStake : Nat) (hne : validators ≠ [])
  (hsum : (validators.map Validator.totalStake).sum = totalStake) (hfits : totalStake < 2 ^ 64)
  (hraw : ∀ v ∈ validators, 1 ≤ v.totalStake * totalVotingPower / totalStake)

include hne hsum hfits hraw

/-- Positive raw powers are enough for `set_voting_power` to return. -/
theorem setVotingPower_assigned : ∃ out, setVotingPower validators totalStake = .ok out ∧ Assigned validators out := by
  have hn : 0 < validators.length := length_pos_iff.mpr hne
  have hpos : 0 < totalStake := by
    obtain ⟨v, hv⟩ := exists_mem_of_ne_nil _ hne
    rcases Nat.eq_zero_or_pos totalStake with h0 | h
    · have := hraw v hv
      rw [h0, Nat.div_zero] at this
      omega
    · exact h
  have haverage : U64.divCeil totalVotingPower validators.length =
      .ok ((totalVotingPower + validators.length - 1) / validators.length) := U64.divCeil_eq hn (by decide)
  generalize hT : thresholdFor validators.length = T
  have hT1 : 1 ≤ T := by
    have := total_le_mul_thresholdFor hn
    rw [hT] at this
    rcases Nat.eq_zero_or_pos T with h0 | h
    · rw [h0, Nat.mul_zero] at this
      exact absurd this (by decide)
    · exact h
  have hTle : T ≤ totalVotingPower := hT ▸ Nat.min_le_left _ _
  -- the infos, sorted by stake, with the capped powers
  obtain ⟨infos, hinit, hperm, hsorted⟩ := initVotingPowerInfo_spec T hpos hfits hsum
  have hinfo : ∀ info ∈ infos, ∃ v, validators[info.validatorIndex]? = some v ∧ info.stake = v.totalStake ∧
      info.votingPower = cappedPower T totalStake v := by
    intro info hi
    obtain ⟨⟨v, i⟩, hv, rfl⟩ := mem_map.mp (hperm.mem_iff.mp hi)
    exact ⟨v, mem_zipIdx_iff_getElem?.mp hv, rfl, rfl⟩
  have hcap : ∀ info ∈ infos, info.votingPower ≤ T := by
    intro info hi
    obtain ⟨v, -, -, hp⟩ := hinfo info hi
    rw [hp]
    exact Nat.min_le_right _ _
  have hpower : infos.Pairwise fun a b => b.votingPower ≤ a.votingPower := by
    refine hsorted.imp_of_mem fun {a b} ha hb hab => ?_
    obtain ⟨va, -, hsa, hpa⟩ := hinfo a ha
    obtain ⟨vb, -, hsb, hpb⟩ := hinfo b hb
    have hle : vb.totalStake ≤ va.totalStake := hsa ▸ hsb ▸ hab
    rw [hpa, hpb, cappedPower, cappedPower]
    have := Nat.div_le_div_right (c := totalStake) (Nat.mul_le_mul_right totalVotingPower hle)
    omega
  have hroom : totalVotingPower - (validators.map (cappedPower T totalStake)).sum ≤ room T infos := by
    have hr : room T infos = room T (validators.zipIdx.map (infoOf T totalStake)) := (hperm.map _).sum_eq
    rw [hr]
    exact remaining_le_room (hT ▸ total_le_mul_thresholdFor hn)
  obtain ⟨infos', hadjust, hadj⟩ := adjustLoop_spec hTle (Nat.sub_le _ _) hcap hpower hroom
  -- the adjustment keeps the indices and the stakes
  have hindex : infos'.map validatorIndex = infos.map validatorIndex :=
    map_eq_of_forall₂ (hadj.raised.imp fun _ _ h => h.index)
  have hstakes : infos'.map stake = infos.map stake :=
    map_eq_of_forall₂ (hadj.raised.imp fun _ _ h => h.stake)
  have hsorted' : infos'.Pairwise StakeGe := by
    have hmap : (infos'.map stake).Pairwise (· ≥ ·) := by
      rw [hstakes, pairwise_map]
      exact hsorted
    rw [pairwise_map] at hmap
    exact hmap
  have hcover : (infos'.map validatorIndex).Perm (List.range validators.length) := by
    rw [hindex]
    refine (hperm.map _).trans ?_
    rw [map_map]
    exact ((zipIdx_map_snd 0 validators).trans range_eq_range'.symm) ▸ .refl _
  have hinfo' : ∀ info' ∈ infos', ∃ v, validators[info'.validatorIndex]? = some v ∧ v.totalStake = info'.stake ∧
      cappedPower T totalStake v ≤ info'.votingPower ∧ info'.votingPower ≤ T := by
    intro info' hi
    obtain ⟨info, hinfos, hr⟩ := exists_of_forall₂ hadj.raised hi
    obtain ⟨v, hv, hs, hp⟩ := hinfo info hinfos
    exact ⟨v, hr.index ▸ hv, (hr.stake.trans hs).symm, hp ▸ hr.le, hr.cap⟩
  obtain ⟨out, hupdate, hout, hdesc⟩ := infosOf_update hcover fun info' hi v hv => by
    obtain ⟨v', hv', hs, -⟩ := hinfo' info' hi
    rw [hv] at hv'
    rw [Option.some.inj hv', hs]
  -- every validator of the result is described by an info
  have hmem : ∀ v ∈ out, ∃ info' ∈ infos', info'.votingPower = v.votingPower ∧ info'.stake = v.totalStake := by
    intro v hv
    obtain ⟨i, hi, rfl⟩ := getElem_of_mem hv
    refine ⟨⟨i, out[i].votingPower, out[i].totalStake⟩, ?_, rfl, rfl⟩
    exact hdesc.mem_iff.mp (mem_infosOf.mpr ⟨out[i], List.getElem?_eq_getElem hi, rfl, rfl⟩)
  have htotal : (out.map Validator.votingPower).sum = totalVotingPower := by
    have hpowers : (infosOf out).map votingPower = out.map Validator.votingPower :=
      map_map.trans (zipIdx_map_comp_fst Validator.votingPower)
    rw [← hpowers, (hdesc.map _).sum_eq, hadj.sum, (hperm.map _).sum_eq, map_map]
    have hle := sum_cappedPower_le T hpos hsum.le
    have hcapped : validators.zipIdx.map (votingPower ∘ infoOf T totalStake) =
        validators.map (cappedPower T totalStake) := zipIdx_map_comp_fst (cappedPower T totalStake)
    rw [hcapped]
    omega
  have hbounds : ∀ v ∈ out, 1 ≤ v.votingPower ∧ v.votingPower ≤ T := by
    intro v hv
    obtain ⟨info', hi, hp, -⟩ := hmem v hv
    obtain ⟨v0, hv0, -, hle, hcap'⟩ := hinfo' info' hi
    have hraw0 := hraw v0 (mem_of_getElem? hv0)
    rw [cappedPower] at hle
    omega
  have horder : ∀ a ∈ out, ∀ b ∈ out, b.totalStake < a.totalStake → b.votingPower ≤ a.votingPower := by
    intro a ha b hb hlt
    obtain ⟨ia, hia, hpa, hsa⟩ := hmem a ha
    obtain ⟨ib, hib, hpb, hsb⟩ := hmem b hb
    rw [← hpa, ← hpb]
    exact power_le_of_stake_lt hsorted' hadj.sorted hia hib (hsa ▸ hsb ▸ hlt)
  refine ⟨out, ?_, hout, htotal, fun v hv => ⟨(hbounds v hv).1, ?_⟩, horder⟩
  · simp only [setVotingPower, haverage, ok_bind]
    rw [show min totalVotingPower (max maxVotingPower ((totalVotingPower + validators.length - 1) / validators.length)) = T from hT,
      hinit, ok_bind]
    simp only [adjustVotingPower, hadjust, decide_true, assert_true, hupdate,
      checkInvariants_ok (fun v hv => (hbounds v hv).1) htotal horder, ok_bind, pure_eq_ok]
  · exact le_trans (hbounds v hv).2 (hT ▸ Nat.min_le_right _ _)

/-- For every non-empty list of validators whose stakes add up to the given total and whose raw powers are at least one,
`set_voting_power` returns: the powers add up to the total, each is at least one and at most the larger of the maximum and the
average rounded up, and more stake does not give less power. -/
theorem setVotingPower_total : ∃ out, setVotingPower validators totalStake = .ok out ∧
      out.map Validator.totalStake = validators.map Validator.totalStake ∧
      (out.map Validator.votingPower).sum = totalVotingPower ∧
      (∀ v ∈ out, 1 ≤ v.votingPower ∧
        v.votingPower ≤ max maxVotingPower ((totalVotingPower + validators.length - 1) / validators.length)) ∧
      ∀ a ∈ out, ∀ b ∈ out, b.totalStake < a.totalStake → b.votingPower ≤ a.votingPower := by
  obtain ⟨out, hrun, hassigned⟩ := setVotingPower_assigned validators totalStake hne hsum hfits hraw
  exact ⟨out, hrun, hassigned.stakes, hassigned.sum, hassigned.bounds, hassigned.order⟩

end

/-- With two validators the threshold is a half of the total, so that both get a half whatever their stakes are. -/
theorem setVotingPower_total_two : ∃ out, setVotingPower [⟨7, 0⟩, ⟨22, 0⟩] 29 = .ok out ∧ out = [⟨7, 5000⟩, ⟨22, 5000⟩] ∧
      (out.map Validator.votingPower).sum = totalVotingPower := by
  obtain ⟨out, hrun, -, hsum, -⟩ := setVotingPower_total [⟨7, 0⟩, ⟨22, 0⟩] 29 (by decide) rfl (by decide) (by decide)
  refine ⟨out, hrun, ?_, hsum⟩
  have heval : setVotingPower [⟨7, 0⟩, ⟨22, 0⟩] 29 = .ok [⟨7, 5000⟩, ⟨22, 5000⟩] := by decide +kernel
  exact ok_unique hrun heval

end Sui.VotingPower

import Mathlib.Data.List.Sort
import Sui.Library.Shares
import Sui.System.VotingPower

/-!
# The steps of `set_voting_power`

The infos are sorted by stake, the power that is left fits below the threshold, and the greedy loop hands out all of it without
changing the order of the powers.
-/

namespace Sui.VotingPower

open Library Checked List VotingPowerInfo

/-! ## Sorting by stake -/

/-- The order of the list of infos: the stakes descend. -/
def StakeGe (a b : VotingPowerInfo) : Prop := b.stake ≤ a.stake

instance : DecidableRel StakeGe := fun _ _ => inferInstanceAs (Decidable (_ ≤ _))

instance : Std.Total StakeGe := ⟨fun a b => Nat.le_total b.stake a.stake⟩

instance : IsTrans VotingPowerInfo StakeGe := ⟨fun _ _ _ hab hbc => Nat.le_trans hbc hab⟩

theorem insert_eq_orderedInsert (l : List VotingPowerInfo) (x : VotingPowerInfo) : insert l x = l.orderedInsert StakeGe x := by
  induction l with
  | nil => rfl
  | cons a l ih =>
    rw [insert] at ih ⊢
    rw [orderedInsert_cons, List.findIdx?_cons]
    by_cases h : x.stake ≥ a.stake
    · rw [if_pos (decide_eq_true h), if_pos (show StakeGe x a from h)]
      rfl
    · rw [if_neg (by simpa using h), if_neg (show ¬ StakeGe x a from h), ← ih]
      cases List.findIdx? (fun info => decide (x.stake ≥ info.stake)) l <;> rfl

/-! ## The powers before the adjustment -/

def cappedPower (threshold totalStake : Nat) (v : Validator) : Nat := min (v.totalStake * totalVotingPower / totalStake) threshold

/-- The info of a validator at an index. -/
def infoOf (threshold totalStake : Nat) (v : Validator × Nat) : VotingPowerInfo :=
  ⟨v.2, cappedPower threshold totalStake v.1, v.1.totalStake⟩

/-- The capped powers add up to at most the total. -/
theorem sum_cappedPower_le {l : List Validator} {totalStake : Nat} (threshold : Nat) (hpos : 0 < totalStake)
    (hsum : (l.map Validator.totalStake).sum ≤ totalStake) :
    (l.map (cappedPower threshold totalStake)).sum ≤ totalVotingPower := by
  calc (l.map (cappedPower threshold totalStake)).sum
      ≤ (l.map fun v => v.totalStake * totalVotingPower / totalStake).sum :=
        sum_le_sum fun v _ => Nat.min_le_left _ _
    _ ≤ (l.map Validator.totalStake).sum * totalVotingPower / totalStake := sum_mul_div_le _ l _ _
    _ ≤ totalStake * totalVotingPower / totalStake := Nat.div_le_div_right (Nat.mul_le_mul_right _ hsum)
    _ = totalVotingPower := Nat.mul_div_cancel_left _ hpos

variable {validators : List Validator}

/-- The specification of `init_voting_power_info`. -/
theorem initVotingPowerInfo_spec {totalStake : Nat} (threshold : Nat) (hpos : 0 < totalStake)
    (hfits : totalStake < 2 ^ 64) (hsum : (validators.map Validator.totalStake).sum = totalStake) :
    ∃ infoList, initVotingPowerInfo validators threshold totalStake =
        .ok (infoList, totalVotingPower - (validators.map (cappedPower threshold totalStake)).sum) ∧
      infoList.Perm (validators.zipIdx.map (infoOf threshold totalStake)) ∧ infoList.Pairwise StakeGe := by
  have hmap : validators.zipIdx.map Prod.fst = validators := zipIdx_map_fst 0 validators
  have hfold : ∃ s : List VotingPowerInfo × Nat, validators.zipIdx.foldlM (initOne threshold totalStake) ([], 0) = .ok s ∧
      s.1.Perm (validators.zipIdx.map (infoOf threshold totalStake)) ∧ s.1.Pairwise StakeGe ∧
      s.2 = ((validators.zipIdx.map Prod.fst).map (cappedPower threshold totalStake)).sum := by
    refine foldlM_total (fun pre (s : List VotingPowerInfo × Nat) => s.1.Perm (pre.map (infoOf threshold totalStake)) ∧ s.1.Pairwise StakeGe ∧
      s.2 = ((pre.map Prod.fst).map (cappedPower threshold totalStake)).sum) ⟨.refl _, .nil, rfl⟩ ?_
    rintro pre ⟨v, i⟩ post ⟨infos, total⟩ hl ⟨hperm, hsorted, htotal⟩
    have hvals : validators = pre.map Prod.fst ++ v :: post.map Prod.fst := by
      rw [← hmap, hl, map_append, map_cons]
    have hstakes : (pre.map Prod.fst).map Validator.totalStake ++ v.totalStake :: (post.map Prod.fst).map Validator.totalStake =
        validators.map Validator.totalStake := by rw [hvals, map_append, map_cons]
    have hstake : ((pre.map Prod.fst).map Validator.totalStake).sum + v.totalStake ≤ totalStake := by
      rw [← hsum, ← hstakes, sum_append, sum_cons]
      omega
    have hraw : v.totalStake * totalVotingPower / totalStake ≤ totalVotingPower :=
      Nat.div_le_of_le_mul (Nat.mul_le_mul_right _ (by omega))
    have hderive : deriveRawVotingPower v.totalStake totalStake = .ok (v.totalStake * totalVotingPower / totalStake) :=
      U64.mulDiv_eq (by omega) (by decide) hpos (lt_of_le_of_lt hraw (by decide))
    have hle : ((pre.map Prod.fst ++ [v]).map (cappedPower threshold totalStake)).sum ≤ totalVotingPower := by
      refine sum_cappedPower_le threshold hpos ?_
      rw [map_append, sum_append, map_singleton, sum_singleton]
      exact hstake
    rw [map_append, sum_append, map_singleton, sum_singleton, ← htotal] at hle
    have hadd : U64.add total (cappedPower threshold totalStake v) = .ok (total + cappedPower threshold totalStake v) :=
      Word.add_eq (lt_of_le_of_lt hle (by decide))
    refine ⟨(insert infos (infoOf threshold totalStake (v, i)), total + cappedPower threshold totalStake v), ?_, ?_, ?_, ?_⟩
    · rw [initOne]
      simp only [hderive, ok_bind]
      rw [show min (v.totalStake * totalVotingPower / totalStake) threshold = cappedPower threshold totalStake v from rfl, hadd]
      rfl
    · rw [insert_eq_orderedInsert, map_append, map_singleton]
      refine (perm_orderedInsert _ _ _).trans ?_
      refine (hperm.cons _).trans ?_
      exact (perm_append_singleton _ _).symm
    · rw [insert_eq_orderedInsert]
      exact hsorted.orderedInsert _ _
    · rw [map_append, map_append, sum_append, ← htotal]
      rfl
  obtain ⟨⟨infos, total⟩, hrun, hperm, hsorted, htotal⟩ := hfold
  rw [hmap] at htotal
  refine ⟨infos, ?_, hperm, hsorted⟩
  have hle := sum_cappedPower_le threshold hpos hsum.le
  rw [initVotingPowerInfo, hrun, ok_bind]
  obtain rfl : total = (validators.map (cappedPower threshold totalStake)).sum := htotal
  simp only [U64.sub, Word.sub_eq hle, ok_bind, pure_eq_ok]

/-! ## Handing out the power that is left -/

/-- The power a pass plans to give: an equal share of what is left, rounded up. -/
def planned (remainingPower left : Nat) : Nat := (remainingPower + left - 1) / left

variable {left : Nat}

theorem planned_le (remainingPower : Nat) (hleft : 0 < left) : planned remainingPower left ≤ remainingPower := by
  rw [planned, Nat.div_le_iff_le_mul_add_pred hleft]
  have hmul := Nat.le_mul_of_pos_left remainingPower hleft
  omega

theorem le_mul_planned (remainingPower : Nat) (hleft : 0 < left) : remainingPower ≤ left * planned remainingPower left := by
  have := Nat.lt_mul_div_succ (remainingPower + left - 1) hleft
  rw [Nat.mul_add, Nat.mul_one] at this
  rw [planned]
  omega

theorem planned_le_of_le_mul {remainingPower k : Nat} (h : remainingPower ≤ left * k) : planned remainingPower left ≤ k := by
  rcases Nat.eq_zero_or_pos left with h0 | hleft
  · subst h0
    simp [planned]
  · rw [planned, Nat.div_le_iff_le_mul_add_pred hleft]
    omega

/-- The power a pass gives: the planned power, up to the threshold. -/
def granted (threshold remainingPower left : Nat) (v : VotingPowerInfo) : Nat :=
  min (threshold - v.votingPower) (planned remainingPower left)

variable {threshold : Nat}

/-- The specification of a pass. -/
theorem adjustOne_eq {remainingPower : Nat} {v : VotingPowerInfo} (hleft : 0 < left)
    (hrem : remainingPower ≤ totalVotingPower) (ht : threshold ≤ totalVotingPower) (hv : v.votingPower ≤ threshold) :
    adjustOne threshold remainingPower left v =
      .ok ({ v with votingPower := v.votingPower + granted threshold remainingPower left v },
        remainingPower - granted threshold remainingPower left v) := by
  have hp := planned_le remainingPower hleft
  unfold totalVotingPower at hrem ht
  have hdiv : U64.divCeil remainingPower left = .ok (planned remainingPower left) := U64.divCeil_eq hleft (by omega)
  have hactual : min remainingPower (min threshold (v.votingPower + planned remainingPower left) - v.votingPower) =
      granted threshold remainingPower left v := by
    unfold granted
    omega
  have hgranted : granted threshold remainingPower left v ≤ threshold - v.votingPower := Nat.min_le_left _ _
  have hgranted' : granted threshold remainingPower left v ≤ planned remainingPower left := Nat.min_le_right _ _
  generalize granted threshold remainingPower left v = g at hactual hgranted hgranted'
  simp only [adjustOne, hdiv, ok_bind, U64.add, U64.sub]
  rw [Word.add_eq (by omega), ok_bind, Word.sub_eq (by omega), ok_bind, hactual, Word.add_eq (by omega), ok_bind,
    decide_eq_true (by omega), assert_true, ok_bind, Word.sub_eq (by omega)]
  rfl

/-- The room below the threshold. -/
def room (threshold : Nat) (l : List VotingPowerInfo) : Nat := (l.map fun v => threshold - v.votingPower).sum

variable {l : List VotingPowerInfo}

theorem room_ge {k : Nat} (h : ∀ v ∈ l, k ≤ threshold - v.votingPower) : l.length * k ≤ room threshold l := by
  induction l with
  | nil => simp
  | cons v l ih =>
    have hv := h v mem_cons_self
    have hl := ih fun x hx => h x (mem_cons_of_mem _ hx)
    rw [room, map_cons, sum_cons, length_cons, Nat.add_mul, Nat.one_mul]
    rw [room] at hl
    omega

/-- An info after the adjustment: more power, up to the threshold. -/
structure Raised (threshold : Nat) (v v' : VotingPowerInfo) : Prop where
  index : v'.validatorIndex = v.validatorIndex
  stake : v'.stake = v.stake
  le : v.votingPower ≤ v'.votingPower
  cap : v'.votingPower ≤ threshold

theorem forall₂_raised_refl (h : ∀ v ∈ l, v.votingPower ≤ threshold) : List.Forall₂ (Raised threshold) l l := by
  rw [forall₂_same]
  exact fun v hv => ⟨rfl, rfl, le_refl _, h v hv⟩

/-- When the power that is left fits into the room, nothing is left, every info is raised, the powers still descend, and where
no info meets the threshold none gets more than its planned share. -/
structure Adjusted (threshold remainingPower : Nat) (l l' : List VotingPowerInfo) : Prop where
  raised : List.Forall₂ (Raised threshold) l l'
  sorted : l'.Pairwise fun a b => b.votingPower ≤ a.votingPower
  sum : (l'.map votingPower).sum = (l.map votingPower).sum + remainingPower
  share : (∀ v ∈ l, planned remainingPower l.length ≤ threshold - v.votingPower) →
    List.Forall₂ (fun v v' => v'.votingPower ≤ v.votingPower + planned remainingPower l.length) l l'

/-- The loop of `adjust_voting_power`, by induction on the list: the first info has the least room, so the rest has room for
what it leaves. -/
theorem adjustLoop_spec {remainingPower : Nat} (ht : threshold ≤ totalVotingPower)
    (hrem : remainingPower ≤ totalVotingPower) (hcap : ∀ v ∈ l, v.votingPower ≤ threshold)
    (hsorted : l.Pairwise fun a b => b.votingPower ≤ a.votingPower) (hroom : remainingPower ≤ room threshold l) :
    ∃ l', adjustLoop threshold remainingPower l = .ok (l', 0) ∧ Adjusted threshold remainingPower l l' := by
  induction l generalizing remainingPower with
  | nil =>
    obtain rfl : remainingPower = 0 := by simpa [room] using hroom
    exact ⟨[], rfl, .nil, .nil, rfl, fun _ => .nil⟩
  | cons v rest ih =>
    by_cases hpos : remainingPower > 0
    swap
    · obtain rfl : remainingPower = 0 := by omega
      refine ⟨v :: rest, rfl, forall₂_raised_refl hcap, hsorted, rfl, fun _ => ?_⟩
      rw [forall₂_same]
      exact fun x _ => by omega
    obtain ⟨hfirst, hrest⟩ := pairwise_cons.mp hsorted
    have hv := hcap v mem_cons_self
    have hcap' : ∀ x ∈ rest, x.votingPower ≤ threshold := fun x hx => hcap x (mem_cons_of_mem _ hx)
    have hstep := adjustOne_eq (Nat.succ_pos rest.length) hrem ht hv
    have hmul := le_mul_planned remainingPower (Nat.succ_pos rest.length)
    have hle := planned_le remainingPower (Nat.succ_pos rest.length)
    generalize hk : planned remainingPower (rest.length + 1) = k at hmul hle
    have hgrant : granted threshold remainingPower (rest.length + 1) v = min (threshold - v.votingPower) k := by
      rw [granted, hk]
    generalize hg : granted threshold remainingPower (rest.length + 1) v = g at hstep hgrant
    rw [room, map_cons, sum_cons] at hroom
    rw [Nat.succ_mul] at hmul
    -- when the first info stays below the threshold, the rest has room for a planned share each
    have hshare : k ≤ threshold - v.votingPower → remainingPower - g ≤ rest.length * k ∧ ∀ x ∈ rest, k ≤ threshold - x.votingPower := by
      intro hle
      refine ⟨by omega, fun x hx => ?_⟩
      have := hfirst x hx
      omega
    have hroom' : remainingPower - g ≤ room threshold rest := by
      by_cases hle : k ≤ threshold - v.votingPower
      · exact le_trans (hshare hle).1 (room_ge (hshare hle).2)
      · rw [room]
        omega
    obtain ⟨rest', hrun, hadj⟩ := ih (by omega) hcap' hrest hroom'
    refine ⟨{ v with votingPower := v.votingPower + g } :: rest', ?_, ?_⟩
    · rw [adjustLoop, if_pos hpos, hstep, ok_bind]
      simp only [hrun, ok_bind, pure_eq_ok]
    -- no info of the rest is above the first one
    have hbelow : ∀ x' ∈ rest', x'.votingPower ≤ v.votingPower + g := by
      intro x' hx'
      by_cases hle : k ≤ threshold - v.votingPower
      · obtain ⟨hleft, hall⟩ := hshare hle
        have hk' : planned (remainingPower - g) rest.length ≤ k := planned_le_of_le_mul hleft
        obtain ⟨x, hx, hxx'⟩ := exists_of_forall₂ (hadj.share fun y hy => le_trans hk' (hall y hy)) hx'
        have := hfirst x hx
        omega
      · obtain ⟨x, -, hraised⟩ := exists_of_forall₂ hadj.raised hx'
        have := hraised.cap
        omega
    refine ⟨.cons ⟨rfl, rfl, Nat.le_add_right _ _, by simp only; omega⟩ hadj.raised, pairwise_cons.mpr ⟨hbelow, hadj.sorted⟩, ?_, ?_⟩
    · rw [map_cons, map_cons, sum_cons, sum_cons, hadj.sum]
      show v.votingPower + g + _ = _
      omega
    · intro hall
      rw [length_cons, hk] at hall ⊢
      have hle := hall v mem_cons_self
      obtain ⟨hleft, hall'⟩ := hshare hle
      have hk' : planned (remainingPower - g) rest.length ≤ k := planned_le_of_le_mul hleft
      refine .cons (by simp only; omega) ((hadj.share fun y hy => le_trans hk' (hall' y hy)).imp fun x x' hx => ?_)
      omega

/-! ## Writing the powers back -/

/-- The infos that describe the validators as they are. -/
def infosOf (validators : List Validator) : List VotingPowerInfo :=
  validators.zipIdx.map fun v => ⟨v.2, v.1.votingPower, v.1.totalStake⟩

theorem mem_infosOf {info : VotingPowerInfo} : info ∈ infosOf validators ↔
      ∃ v, validators[info.validatorIndex]? = some v ∧ v.votingPower = info.votingPower ∧ v.totalStake = info.stake := by
  rw [infosOf, mem_map]
  constructor
  · rintro ⟨⟨v, i⟩, hv, rfl⟩
    exact ⟨v, mem_zipIdx_iff_getElem?.mp hv, rfl, rfl⟩
  · rintro ⟨v, hv, hp, hs⟩
    refine ⟨(v, info.validatorIndex), mem_zipIdx_iff_getElem?.mpr hv, ?_⟩
    rw [hp, hs]

theorem infosOf_map_index (validators : List Validator) :
    (infosOf validators).map validatorIndex = List.range validators.length := by
  rw [infosOf, map_map]
  exact zipIdx_map_snd 0 validators |>.trans (range_eq_range').symm

/-- The powers are written to the validators the infos name, and the other validators stay. -/
theorem updateVotingPower_spec
    (hnodup : (l.map validatorIndex).Nodup) (hlt : ∀ info ∈ l, info.validatorIndex < validators.length) :
    ∃ out, updateVotingPower validators l = .ok out ∧ out.length = validators.length ∧ (∀ info ∈ l, out[info.validatorIndex]? =
        validators[info.validatorIndex]?.map fun v => v.setVotingPower info.votingPower) ∧
      ∀ i : Nat, i ∉ l.map validatorIndex → out[i]? = validators[i]? := by
  induction l generalizing validators with
  | nil => exact ⟨validators, rfl, rfl, nofun, fun _ _ => rfl⟩
  | cons info l ih =>
    rw [map_cons, nodup_cons] at hnodup
    let first := validators.modify info.validatorIndex fun v => v.setVotingPower info.votingPower
    have hlen : first.length = validators.length := length_modify _ _ _
    have hone : updateOne validators info = .ok first := by
      rw [updateOne, decide_eq_true (hlt info mem_cons_self)]
      rfl
    have hlt' : ∀ x ∈ l, x.validatorIndex < first.length := fun x hx => hlen ▸ hlt x (mem_cons_of_mem _ hx)
    obtain ⟨out, hrun, houtlen, hin, hout⟩ := ih hnodup.2 hlt'
    have hself : first[info.validatorIndex]? = validators[info.validatorIndex]?.map fun v => v.setVotingPower info.votingPower :=
      List.getElem?_modify_eq _ _ _
    have hother : ∀ i : Nat, info.validatorIndex ≠ i → first[i]? = validators[i]? :=
      fun i hi => List.getElem?_modify_ne _ _ hi
    refine ⟨out, ?_, houtlen.trans hlen, ?_, ?_⟩
    · rw [updateVotingPower, foldlM_cons, hone, ok_bind]
      exact hrun
    · intro x hx
      rcases mem_cons.mp hx with rfl | hx
      · rw [hout _ hnodup.1, hself]
      · rw [hin x hx, hother]
        intro he
        exact hnodup.1 (he ▸ mem_map.mpr ⟨x, hx, rfl⟩)
    · intro i hi
      rw [map_cons, mem_cons, not_or] at hi
      rw [hout i hi.2, hother i (Ne.symm hi.1)]

/-- When the infos cover all validators with their stakes, they describe the validators after the update. -/
theorem infosOf_update (hindex : (l.map validatorIndex).Perm (List.range validators.length))
    (hstake : ∀ info ∈ l, ∀ v, validators[info.validatorIndex]? = some v → v.totalStake = info.stake) :
    ∃ out, updateVotingPower validators l = .ok out ∧ out.map Validator.totalStake = validators.map Validator.totalStake ∧
      (infosOf out).Perm l := by
  have hnodup : (l.map validatorIndex).Nodup := hindex.nodup_iff.mpr nodup_range
  have hlt : ∀ info ∈ l, info.validatorIndex < validators.length := fun info hi =>
    mem_range.mp (hindex.mem_iff.mp (mem_map.mpr ⟨info, hi, rfl⟩))
  obtain ⟨out, hrun, hlen, hin, -⟩ := updateVotingPower_spec hnodup hlt
  have hcover : ∀ i : Nat, i < validators.length → ∃ info ∈ l, info.validatorIndex = i := fun i hi =>
    mem_map.mp (hindex.mem_iff.mpr (mem_range.mpr hi))
  refine ⟨out, hrun, ?_, ?_⟩
  · refine ext_getElem? fun i => ?_
    rw [List.getElem?_map, List.getElem?_map]
    by_cases hi : i < validators.length
    · obtain ⟨info, hinfo, rfl⟩ := hcover i hi
      rw [hin info hinfo, Option.map_map]
      rfl
    · rw [List.getElem?_eq_none (by omega), List.getElem?_eq_none (by omega)]
  · have hnodup' : (infosOf out).Nodup := List.Nodup.of_map validatorIndex (by
      rw [infosOf_map_index]
      exact nodup_range)
    refine (perm_ext_iff_of_nodup hnodup' (List.Nodup.of_map _ hnodup)).mpr fun info => ?_
    rw [mem_infosOf]
    constructor
    · rintro ⟨v, hv, hp, hs⟩
      obtain ⟨info', hinfo', hidx⟩ := hcover info.validatorIndex (hlen ▸ (List.getElem?_eq_some_iff.mp hv).1)
      have hv' := hin info' hinfo'
      rw [hidx, hv] at hv'
      obtain ⟨v0, hv0, hset⟩ := Option.map_eq_some_iff.mp hv'.symm
      have hs' := hstake info' hinfo' v0 (hidx ▸ hv0)
      have heq : info = info' := by
        cases info
        cases info'
        simp only [mk.injEq]
        subst hset
        exact ⟨hidx.symm, hp.symm, hs.symm.trans hs'⟩
      rw [heq]
      exact hinfo'
    · intro hinfo
      have hi := hlt info hinfo
      have hget := List.getElem?_eq_getElem hi
      have hs := hstake info hinfo _ hget
      refine ⟨validators[info.validatorIndex].setVotingPower info.votingPower, ?_, rfl, hs⟩
      rw [hin info hinfo, hget]
      rfl

/-! ## The final check -/

theorem checkPairs_ok {l : List Validator}
    (h : ∀ a ∈ l, ∀ b ∈ l, b.totalStake < a.totalStake → b.votingPower ≤ a.votingPower) : checkPairs l = .ok () := by
  induction l with
  | nil => rfl
  | cons a rest ih =>
    have hpair : ∀ b ∈ rest, checkPair a b = .ok () := by
      intro b hb
      have h1 := h a mem_cons_self b (mem_cons_of_mem _ hb)
      have h2 := h b (mem_cons_of_mem _ hb) a mem_cons_self
      have hchecked : ∀ {s t p q : Nat}, (t < s → q ≤ p) → (!decide (t < s) || decide (q ≤ p)) = true := by
        intro s t p q himp
        rw [← decide_not, ← Bool.decide_or, decide_eq_true_eq]
        exact not_or_of_imp himp
      rw [checkPair, hchecked h1, hchecked h2]
      rfl
    have hall : rest.forM (checkPair a) = .ok () := forM_ok.mpr hpair
    rw [checkPairs, hall, ok_bind]
    exact ih fun x hx y hy => h x (mem_cons_of_mem _ hx) y (mem_cons_of_mem _ hy)

/-- The check passes when the powers are positive, add up to the total and follow the stakes. -/
theorem checkInvariants_ok {l : List Validator} (hpos : ∀ v ∈ l, 0 < v.votingPower)
    (hsum : (l.map Validator.votingPower).sum = totalVotingPower)
    (h : ∀ a ∈ l, ∀ b ∈ l, b.totalStake < a.totalStake → b.votingPower ≤ a.votingPower) : checkInvariants l = .ok () := by
  have hfold : ∃ total, l.foldlM checkTotal 0 = .ok total ∧ total = (l.map Validator.votingPower).sum := by
    refine foldlM_total (fun pre total => total = (pre.map Validator.votingPower).sum) rfl ?_
    rintro pre v post total rfl rfl
    have hle : (pre.map Validator.votingPower).sum + v.votingPower ≤ totalVotingPower := by
      rw [← hsum, map_append, sum_append, map_cons, sum_cons]
      omega
    refine ⟨(pre.map Validator.votingPower).sum + v.votingPower, ?_, by simp⟩
    rw [checkTotal, decide_eq_true (hpos v (by simp)), U64.add, Word.add_eq (lt_of_le_of_lt hle (by decide))]
    rfl
  obtain ⟨total, hrun, htotal⟩ := hfold
  rw [checkInvariants, hrun, ok_bind, decide_eq_true (htotal.trans hsum), assert_true, ok_bind]
  exact checkPairs_ok h

end Sui.VotingPower

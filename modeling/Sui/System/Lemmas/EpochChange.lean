import Sui.System.Lemmas.ValidatorLifecycle

/-!
# The change of the validators at the end of an epoch

Departures move validators from the active ones to the inactive ones, and pending validators become active or candidates. The
stake of the active validators, of those that are still held and of those that were removed is the initial stake throughout.
-/

namespace Sui.ValidatorSet

open Library Checked BTreeMap ValidatorEntry List

/-- The stakes of validators together. -/
def stakes (l : List ValidatorEntry) : Nat := (l.map ValidatorEntry.totalStake).sum

@[simp] theorem stakes_nil : stakes [] = 0 := rfl

@[simp] theorem stakes_cons (v : ValidatorEntry) (l : List ValidatorEntry) : stakes (v :: l) = v.totalStake + stakes l := rfl

@[simp] theorem stakes_append (l l' : List ValidatorEntry) : stakes (l ++ l') = stakes l + stakes l' := by simp [stakes]

theorem stakes_perm {l l' : List ValidatorEntry} (h : l.Perm l') : stakes l = stakes l' := (h.map _).sum_eq

variable {l : List ValidatorEntry} {v : ValidatorEntry}

theorem totalStake_le_stakes (h : v ∈ l) : v.totalStake ≤ stakes l :=
  le_sum_of_mem (mem_map_of_mem h)

/-- The set in the middle of the change, with the validators that are held and pending. -/
structure Changing (ids : List Nat) (held pending : List ValidatorEntry) (s : ValidatorSet) : Prop extends s.ConsistentWith held where
  ids : (s.poolIds held).Perm ids
  pending_eq : s.pendingActiveValidators = pending
  noRemovals : s.pendingRemovals = []

/-! ## The only aborts -/

/-- The aborts of integer operations. -/
def IsArithmetic (e : Abort) : Prop := e.IsOverflow ∨ e = .divisionByZero

theorem meets_of_overflow {α : Type} {x : Except Abort α} {Q : α → Prop} (h : ErrorsIn Abort.IsOverflow x)
    (hok : ∀ a, x = .ok a → Q a) : Meets IsArithmetic Q x := ⟨fun e he => .inl (h e he), hok⟩

theorem meets_add (a b : Nat) : Meets IsArithmetic (fun c => a + b < 2 ^ 64 ∧ a + b = c) (U64.add a b) :=
  meets_of_overflow (U64.add_errors a b) fun _ => U64.add_ok.mp

def rawPower (stake total : Nat) : Nat := stake * VotingPower.totalVotingPower / total

theorem meets_deriveRawVotingPower (stake total : Nat) :
    Meets IsArithmetic (fun power => power = rawPower stake total) (VotingPower.deriveRawVotingPower stake total) :=
  ⟨U64.errorsIn_mulDiv (.inl (.inl rfl)) (fun _ => .inr rfl) (.inl (.inr rfl)) _ _, fun _ h => (U64.mulDiv_ok h).2.1⟩

theorem meets_calculateTotalStakes (l : List ValidatorEntry) :
    Meets IsArithmetic (fun total => total = stakes l) (calculateTotalStakes l) := by
  refine .foldlM (fun pre sum => sum = stakes pre) rfl fun pre v post sum _ hsum => (meets_add _ _).imp fun sum' hv => ?_
  simp [← hv.2, hsum]

theorem meets_bumpAtRisk (m : VecMap Nat Nat) (a : Nat) : Meets IsArithmetic (fun _ => True) (bumpAtRisk m a) := by
  unfold bumpAtRisk
  split
  · exact (meets_add _ _).bind fun _ _ => .ok trivial
  · exact .ok trivial

/-! ## Departures -/

variable {records records' : ReportRecords} {s : ValidatorSet} {index : Nat}

theorem departAt_ok {s' : ValidatorSet} {epoch stake : Nat} (h : s.departAt index records epoch = .ok (s', records', stake)) :
    ∃ v v', s.activeValidators[index]? = some v ∧ v.deactivate (epoch + 1) = .ok v' ∧ s.inactiveValidators[v.stakingPoolId]? = none ∧
      stake = v.totalStake ∧ s' = { s with
        activeValidators := s.activeValidators.eraseIdx index
        stakingPoolMappings := s.stakingPoolMappings.erase v.stakingPoolId
        inactiveValidators := s.inactiveValidators.insert v.stakingPoolId v'
        atRiskValidators := s.atRiskValidators.filter fun r => r.1 != v.suiAddress } := by
  unfold departAt processValidatorDeparture at h
  simp only [bind_ok, expect_ok, Prod.exists, Table.add_ok, Table.remove_ok, U64.add_ok] at h
  obtain ⟨v, hget, _, ⟨_, rfl⟩, _, _, ⟨_, rfl⟩, v', hdeactivate, _, ⟨hnew, rfl⟩, h⟩ := h
  cases h
  exact ⟨v, v', hget, hdeactivate, hnew, rfl, rfl⟩

theorem perm_eraseIdx {i : Nat} (h : l[i]? = some v) : (v :: l.eraseIdx i).Perm l := by
  obtain ⟨hlt, rfl⟩ := List.getElem?_eq_some_iff.mp h
  exact getElem_cons_eraseIdx_perm hlt

namespace Changing

variable {ids : List Nat} {held pending : List ValidatorEntry} {s s' : ValidatorSet}

theorem depart (h : Changing ids held pending s) {epoch stake : Nat}
    (hdepart : s.departAt index records epoch = .ok (s', records', stake)) : Changing ids held pending s' := by
  obtain ⟨v, v', hget, hdeactivate, hnew, -, rfl⟩ := departAt_ok hdepart
  obtain ⟨-, hident, -⟩ := deactivate_ok hdeactivate
  have hactive := perm_eraseIdx hget
  have hlive : (v :: (liveValidators { s with activeValidators := s.activeValidators.eraseIdx index } ++ held)).Perm
      (s.liveValidators ++ held) := by
    simp only [liveValidators]
    rw [← cons_append, ← cons_append, ← cons_append]
    exact ((hactive.append_right _).append_right _).append_right _
  have hinactive : ((values (s.inactiveValidators.insert v.stakingPoolId v')).map stakingPoolId).Perm
      (v.stakingPoolId :: s.inactiveIds) := by
    refine ((values_insert_perm hnew v').map stakingPoolId).trans ?_
    rw [map_cons, stakingPoolId_of_ident hident]
    exact .refl _
  refine ⟨⟨?_, h.candidateKey, forall_insert h.inactiveKey (stakingPoolId_of_ident hident), ?_, fun w hw => h.active w (mem_of_mem_eraseIdx hw), h.waiting⟩, ?_, h.pending_eq,
    h.noRemovals⟩
  · exact (h.directory.perm (hlive.map ident) (.refl _)).retire.perm (.refl _) hinactive
  · dsimp only
    rw [h.noRemovals]
    exact ⟨nodup_nil, by simp⟩
  · refine ((List.Perm.append_left _ hinactive).trans perm_middle).trans (.trans ?_ h.ids)
    exact ((hlive.map ident).map Prod.fst).append_right s.inactiveIds

/-- The index of an active validator is enough for its departure. -/
theorem departAt_errors (h : Changing ids held pending s) (hindex : index < s.activeValidators.length)
    (records : ReportRecords) (epoch : Nat) : ErrorsIn Abort.IsOverflow (s.departAt index records epoch) := by
  have hget : s.activeValidators[index]? = some s.activeValidators[index] := List.getElem?_eq_getElem hindex
  set v := s.activeValidators[index]
  have hmem : v ∈ s.activeValidators := mem_of_getElem? hget
  obtain ⟨hmapped, hretired⟩ := h.directory.of_mem (k := v.stakingPoolId) (a := v.suiAddress)
    (mem_map.mpr ⟨v, by simp [liveValidators, hmem], rfl⟩)
  have hinactive : s.inactiveValidators[v.stakingPoolId]? = none := by
    cases hi : s.inactiveValidators[v.stakingPoolId]? with
    | none => rfl
    | some w => exact absurd (mem_map.mpr ⟨w, mem_values.mpr ⟨_, hi⟩, h.inactiveKey _ w hi⟩) hretired
  unfold departAt processValidatorDeparture
  rw [hget, expect_some, ok_bind]
  refine .bind (U64.add_errors _ _) fun newEpoch _ => ?_
  obtain ⟨v', hv'⟩ := deactivate_eq (h.active v hmem) newEpoch
  have hremove : Table.remove s.stakingPoolMappings v.stakingPoolId = .ok (v.suiAddress, s.stakingPoolMappings.erase v.stakingPoolId) :=
    Table.remove_ok.mpr ⟨hmapped, rfl⟩
  have hadd : Table.add s.inactiveValidators v.stakingPoolId v' = .ok (s.inactiveValidators.insert v.stakingPoolId v') :=
    Table.add_ok.mpr ⟨hinactive, rfl⟩
  simp only [hremove, hv', hadd, ok_bind]
  exact .ok _

/-- A departure takes one validator and its stake from the active ones. -/
theorem meets_departAt (h : Changing ids held pending s) (hindex : index < s.activeValidators.length)
    (records : ReportRecords) (epoch : Nat) :
    Meets IsArithmetic (fun r => Changing ids held pending r.1 ∧ r.1.activeValidators = s.activeValidators.eraseIdx index ∧
      r.2.2 + stakes r.1.activeValidators = stakes s.activeValidators) (s.departAt index records epoch) := by
  refine meets_of_overflow (h.departAt_errors hindex records epoch) ?_
  rintro ⟨s', records', stake⟩ hdepart
  have hchanging := h.depart hdepart
  obtain ⟨v, v', hget, -, -, rfl, rfl⟩ := departAt_ok hdepart
  exact ⟨hchanging, rfl, stakes_perm (perm_eraseIdx hget)⟩

end Changing

/-! ## Removals on request -/

/-- The sorted indices of the removals, from the largest on. -/
def removalOrder (s : ValidatorSet) : List Nat := (s.pendingRemovals.insertionSort (· ≤ ·)).reverse

theorem removalOrder_pairwise (h : s.Consistent) : s.removalOrder.Pairwise (· > ·) := by
  unfold removalOrder
  rw [pairwise_reverse]
  have hsorted := pairwise_insertionSort (· ≤ ·) s.pendingRemovals
  have hnodup : (s.pendingRemovals.insertionSort (· ≤ ·)).Nodup := (perm_insertionSort _ _).nodup_iff.mpr h.removals.1
  exact (hsorted.and hnodup).imp fun {a b} hab => lt_of_le_of_ne hab.1 hab.2

/-- Every departure on request finds its validator. -/
theorem meets_processPendingRemovals (h : s.Consistent) (records : ReportRecords) (epoch : Nat) :
    Meets IsArithmetic (fun r => Changing (s.poolIds []) [] s.pendingActiveValidators r.1)
      (s.processPendingRemovals records epoch) := by
  -- the indices that are left are below the number of active validators that are left
  refine (Meets.foldlM (l := s.removalOrder) (fun pre acc => Changing (s.poolIds []) [] s.pendingActiveValidators acc.1 ∧
    ∀ post, s.removalOrder = pre ++ post → ∀ i ∈ post, i < acc.1.activeValidators.length) ?_ ?_).imp fun _ hr => hr.1
  · refine ⟨⟨⟨h.directory, h.candidateKey, h.inactiveKey, ⟨nodup_nil, nofun⟩, h.active, h.waiting⟩, .refl _, rfl, rfl⟩, ?_⟩
    rintro post rfl i hi
    rw [removalOrder, mem_reverse] at hi
    exact h.removals.2 i ((perm_insertionSort _ _).mem_iff.mp hi)
  · intro pre index post acc hl hacc
    have hbelow := hacc.2 (index :: post) hl
    have hindex := hbelow index mem_cons_self
    refine (hacc.1.meets_departAt hindex _ _).bind fun r hr => .ok ⟨hr.1, fun rest hrest i hi => ?_⟩
    obtain rfl : post = rest := by
      rw [hl, append_assoc, singleton_append] at hrest
      exact (List.cons.inj (append_cancel_left hrest)).2
    have hlt : i < index := by
      have hpair := removalOrder_pairwise h
      rw [hl, pairwise_append] at hpair
      exact (pairwise_cons.mp hpair.2.1).1 i hi
    rw [hr.2.1, length_eraseIdx_of_lt hindex]
    omega

/-! ## Positions -/

/-- The set in the loops over the positions: no stake is lost. -/
structure PositionsInv (ids : List Nat) (initialTotalStake : Nat) (held : List ValidatorEntry) (p : Positions) : Prop where
  changing : Changing ids held [] p.set
  stake : stakes p.set.activeValidators + stakes held + p.totalRemovedStake = initialTotalStake

variable {ids : List Nat} {initialTotalStake : Nat} {held : List ValidatorEntry} {p : Positions}

namespace PositionsInv

section

variable (h : PositionsInv ids initialTotalStake held p)

include h

theorem with_atRisk (atRiskValidators : VecMap Nat Nat) :
    PositionsInv ids initialTotalStake held { p with set := { p.set with atRiskValidators } } :=
  have c := h.changing
  ⟨⟨⟨c.directory, c.candidateKey, c.inactiveKey, c.removals, c.active, c.waiting⟩, c.ids, c.pending_eq, c.noRemovals⟩, h.stake⟩

theorem meets_depart {i : Nat} (hi : i < p.set.activeValidators.length) (epoch : Nat) :
    Meets IsArithmetic (fun p' => PositionsInv ids initialTotalStake held p' ∧
      p'.set.activeValidators = p.set.activeValidators.eraseIdx i) (p.depart i epoch) := by
  refine (h.changing.meets_departAt hi _ _).bind ?_
  rintro ⟨set, records, removed⟩ ⟨hchanging, hactive, hstakes⟩
  refine (meets_add _ _).bind fun total htotal => .ok ⟨⟨hchanging, ?_⟩, hactive⟩
  have := h.stake
  dsimp only at hstakes htotal ⊢
  omega

/-- One active validator stays, with enough power, or leaves. -/
theorem meets_updateOne {i : Nat} (hi : i < p.set.activeValidators.length)
    (grace epoch : Nat) {low veryLow : Nat} (hle : veryLow ≤ low) :
    Meets IsArithmetic (fun p' => PositionsInv ids initialTotalStake held p' ∧
      ((p'.set.activeValidators = p.set.activeValidators ∧
        veryLow ≤ rawPower p.set.activeValidators[i].totalStake initialTotalStake) ∨
      p'.set.activeValidators = p.set.activeValidators.eraseIdx i)) (p.updateOne grace epoch initialTotalStake low veryLow i) := by
  unfold Positions.updateOne
  rw [List.getElem?_eq_getElem hi, expect_some, ok_bind]
  refine (meets_deriveRawVotingPower _ _).bind fun power hpower => ?_
  subst hpower
  split
  · rename_i hlow
    exact .ok ⟨h.with_atRisk _, .inl ⟨rfl, hle.trans hlow⟩⟩
  · split
    · rename_i hveryLow
      refine (meets_bumpAtRisk _ _).bind fun r _ => ?_
      dsimp only
      split
      · exact ((h.with_atRisk r.1).meets_depart hi epoch).imp fun p' hp' => ⟨hp'.1, .inr hp'.2⟩
      · exact .ok ⟨h.with_atRisk _, .inl ⟨rfl, hveryLow⟩⟩
    · exact (h.meets_depart hi epoch).imp fun p' hp' => ⟨hp'.1, .inr hp'.2⟩

end


end PositionsInv

/-- The loop goes down from an index, above which the validators that stay have enough power. -/
theorem meets_updateActive {grace epoch low veryLow : Nat} (hle : veryLow ≤ low) (n : Nat)
    (hinv : PositionsInv ids initialTotalStake held p) (hn : n ≤ p.set.activeValidators.length)
    (hkept : ∀ i v, n ≤ i → p.set.activeValidators[i]? = some v → veryLow ≤ rawPower v.totalStake initialTotalStake) :
    Meets IsArithmetic (fun p' => PositionsInv ids initialTotalStake held p' ∧
      ∀ v ∈ p'.set.activeValidators, veryLow ≤ rawPower v.totalStake initialTotalStake)
      (p.updateActive grace epoch initialTotalStake low veryLow n) := by
  induction n generalizing p with
  | zero =>
    refine .ok ⟨hinv, fun v hv => ?_⟩
    obtain ⟨i, hi⟩ := mem_iff_getElem?.mp hv
    exact hkept i v (Nat.zero_le i) hi
  | succ n ih =>
    have hlt := Nat.lt_of_succ_le hn
    refine (hinv.meets_updateOne hlt grace epoch hle).bind fun p1 hp1 => ?_
    obtain ⟨hinv1, ⟨hactive, hpower⟩ | hactive⟩ := hp1
    · refine ih hinv1 (hactive ▸ hlt.le) fun i w hi hw => ?_
      rw [hactive] at hw
      rcases Nat.eq_or_lt_of_le hi with rfl | hlt'
      · rw [List.getElem?_eq_getElem hlt] at hw
        exact Option.some.inj hw ▸ hpower
      · exact hkept i w hlt' hw
    · refine ih hinv1 ?_ fun i w hi hw => ?_
      · rw [hactive, length_eraseIdx_of_lt hlt]
        omega
      · rw [hactive, List.getElem?_eraseIdx_of_ge hi] at hw
        exact hkept (i + 1) w (Nat.succ_le_succ hi) hw

/-- A pending validator joins with enough power, or is a candidate again. -/
theorem PositionsInv.meets_join (hinv : PositionsInv ids initialTotalStake (v :: held) p) (epoch minJoining : Nat) :
    Meets IsArithmetic (fun p' => PositionsInv ids initialTotalStake held p' ∧
      ∀ w ∈ p'.set.activeValidators, w ∈ p.set.activeValidators ∨ minJoining ≤ rawPower w.totalStake initialTotalStake)
      (p.join epoch initialTotalStake minJoining v) := by
  have hc := hinv.changing
  have hstake := hinv.stake
  rw [stakes_cons] at hstake
  unfold Positions.join
  refine (meets_deriveRawVotingPower _ _).bind fun power hpower => ?_
  subst hpower
  split_ifs with hjoins
  · obtain ⟨v', hactivate⟩ := (hc.waiting v (by simp)).activate_eq epoch
    obtain ⟨hdeactivation, hident, htotal⟩ := activate_ok hactivate
    rw [hactivate]
    have hlive : ((liveValidators { p.set with activeValidators := p.set.activeValidators ++ [v'] } ++ held).map ident).Perm
        ((p.set.liveValidators ++ v :: held).map ident) := by
      simp only [liveValidators, map_append, map_cons, hident, append_assoc, singleton_append]
      refine List.Perm.append_left _ ?_
      rw [← append_assoc, ← append_assoc]
      exact perm_middle.symm
    refine .ok ⟨⟨⟨⟨hc.directory.perm hlive (.refl _), hc.candidateKey, hc.inactiveKey, ?_, fun w hw => ?_, fun w hw => ?_⟩,
      ((hlive.map Prod.fst).append_right _).trans hc.ids, hc.pending_eq, hc.noRemovals⟩, ?_⟩, fun w hw => ?_⟩
    · dsimp only
      rw [hc.noRemovals]
      exact ⟨nodup_nil, by simp⟩
    · rcases mem_concat.mp hw with hw | rfl
      · exact hc.active w hw
      · exact hdeactivation
    · refine hc.waiting w ?_
      rw [mem_append] at hw ⊢
      exact hw.imp_right (mem_cons_of_mem _)
    · simp only [stakes_append, stakes_cons, stakes_nil, htotal]
      omega
    · rcases mem_append.mp hw with hw | hw
      · exact .inl hw
      · rw [mem_singleton.mp hw, htotal]
        exact .inr hjoins
  · -- its address is free among the candidates
    have hfree : p.set.validatorCandidates[v.suiAddress]? = none := by
      cases hget : p.set.validatorCandidates[v.suiAddress]? with
      | none => rfl
      | some w =>
        have howners := hc.directory.owners
        rw [map_map, map_append, map_cons, nodup_append] at howners
        have hw : w ∈ p.set.liveValidators := mem_append_right _ (mem_values.mpr ⟨_, hget⟩)
        exact absurd rfl (howners.2.2 v.suiAddress (mem_map.mpr ⟨w, hw, hc.candidateKey _ w hget⟩) v.suiAddress mem_cons_self)
    rw [Table.add_ok.mpr ⟨hfree, rfl⟩, ok_bind]
    have hvalues := values_insert_perm hfree v
    have hlive : (liveValidators { p.set with validatorCandidates := p.set.validatorCandidates.insert v.suiAddress v } ++ held).Perm
        (p.set.liveValidators ++ v :: held) := by
      simp only [liveValidators, append_assoc]
      refine List.Perm.append_left _ (List.Perm.append_left _ ?_)
      exact (hvalues.append_right held).trans perm_middle.symm
    refine (meets_add _ _).bind fun removed hremoved => .ok ⟨⟨⟨⟨hc.directory.perm (hlive.map ident) (.refl _),
      forall_insert hc.candidateKey rfl, hc.inactiveKey, hc.removals, hc.active, fun w hw => ?_⟩,
      (((hlive.map ident).map Prod.fst).append_right _).trans hc.ids, hc.pending_eq, hc.noRemovals⟩, ?_⟩, fun w hw => .inl hw⟩
    · refine hc.waiting w ?_
      simp only [mem_append, hvalues.mem_iff, mem_cons] at hw ⊢
      tauto
    · have := hremoved.2
      dsimp only
      omega

variable {pending : List ValidatorEntry}

/-- The loop over the pending validators, of which those that are left are held. -/
theorem meets_joinLoop (hinv : PositionsInv ids initialTotalStake pending p) (epoch minJoining : Nat) :
    Meets IsArithmetic (fun p' => PositionsInv ids initialTotalStake [] p' ∧
      ∀ v ∈ p'.set.activeValidators, v ∈ p.set.activeValidators ∨ minJoining ≤ rawPower v.totalStake initialTotalStake)
      (pending.foldlM (Positions.join epoch initialTotalStake minJoining) p) := by
  induction pending generalizing p with
  | nil => exact .ok ⟨hinv, fun v hv => .inl hv⟩
  | cons _ _ ih =>
    rw [foldlM_cons]
    refine (hinv.meets_join epoch minJoining).bind fun p1 hp1 => (ih hp1.1).imp fun p' hp' => ?_
    exact ⟨hp'.1, fun w hw => (hp'.2 w hw).elim (hp1.2 w) .inr⟩

/-- The thresholds are at least one, and that for leaving at once is the lowest. -/
theorem meets_getVotingPowerThresholds (s : ValidatorSet) (epoch : Nat) :
    Meets IsArithmetic (fun t => 1 ≤ t.2.2 ∧ t.2.2 ≤ t.2.1 ∧ t.2.2 ≤ t.1) (s.getVotingPowerThresholds epoch) := by
  unfold getVotingPowerThresholds admissionStartEpoch
  have hstart : Meets IsArithmetic (fun _ => True) (admissionStartEpoch s epoch) := by
    unfold admissionStartEpoch
    split
    · exact .ok trivial
    · exact (meets_add _ _).imp fun _ _ => trivial
  refine hstart.bind fun startEpoch _ => (meets_add _ _).bind fun phase2 _ => ?_
  split
  · exact .ok (by decide)
  · refine (meets_add _ _).bind fun phase3 _ => .ok ?_
    split <;> decide

theorem changing_of_held (h : Changing ids [] pending s) :
    Changing ids pending.reverse [] { s with pendingActiveValidators := [] } := by
  have hlive : (liveValidators { s with pendingActiveValidators := [] } ++ pending.reverse).Perm (s.liveValidators ++ []) := by
    simp only [liveValidators, h.pending_eq, append_nil, append_assoc]
    exact List.Perm.append_left _ (((reverse_perm _).append_left _).trans perm_append_comm)
  refine ⟨⟨h.directory.perm (hlive.map ident) (.refl _), h.candidateKey, h.inactiveKey, h.removals, h.active, fun v hv => ?_⟩,
    (((hlive.map ident).map Prod.fst).append_right _).trans h.ids, rfl, h.noRemovals⟩
  refine h.waiting v ?_
  simp only [h.pending_eq, append_nil, nil_append, mem_append, mem_reverse] at hv ⊢
  exact hv.symm

/-- A list of validators whose raw powers are at least one for a total is so for their own stake. -/
theorem one_le_rawPower {total : Nat} (hle : stakes l ≤ total) (h : ∀ v ∈ l, 1 ≤ rawPower v.totalStake total) :
    ∀ v ∈ l, 1 ≤ rawPower v.totalStake (stakes l) := by
  intro v hv
  have hpower := h v hv
  have hpos : 0 < stakes l := by
    rcases Nat.eq_zero_or_pos v.totalStake with h0 | hpos
    · rw [rawPower, h0, Nat.zero_mul, Nat.zero_div] at hpower
      omega
    · exact Nat.lt_of_lt_of_le hpos (totalStake_le_stakes hv)
  exact hpower.trans (Nat.div_le_div_left hle hpos)

/-- What `update_validator_positions_and_calculate_total_stake` returns. -/
theorem meets_updateValidatorPositions (h : Changing ids [] pending s) (grace : Nat) (records : ReportRecords) (epoch : Nat) :
    Meets IsArithmetic (fun r => Changing ids [] [] r.1 ∧ r.2.2 = stakes r.1.activeValidators ∧ r.2.2 < 2 ^ 64 ∧
      ∀ v ∈ r.1.activeValidators, 1 ≤ rawPower v.totalStake r.2.2)
      (s.updateValidatorPositionsAndCalculateTotalStake grace records epoch) := by
  unfold updateValidatorPositionsAndCalculateTotalStake
  refine (meets_calculateTotalStakes _).bind fun pendingTotal hpending => (meets_calculateTotalStakes _).bind fun activeTotal hactive => ?_
  subst hpending hactive
  refine (meets_add _ _).bind fun initial hinitial => ?_
  obtain ⟨hfits, rfl⟩ := hinitial
  rw [h.pending_eq] at hfits ⊢
  refine (meets_getVotingPowerThresholds _ _).bind fun thresholds hthresholds => ?_
  obtain ⟨minJoining, low, veryLow⟩ := thresholds
  obtain ⟨hone, hlow, hmin⟩ := hthresholds
  have hinv0 : PositionsInv ids (stakes s.activeValidators + stakes pending.reverse) pending.reverse
      ⟨{ s with pendingActiveValidators := [] }, records, 0⟩ := ⟨changing_of_held h, rfl⟩
  refine (meets_updateActive hlow _ hinv0 le_rfl fun i v hi hv =>
    absurd (List.getElem?_eq_some_iff.mp hv).1 (Nat.not_lt.mpr hi)).bind fun p1 hp1 => ?_
  refine (meets_joinLoop hp1.1 _ _).bind fun p2 hp2 => ?_
  have hstake := hp2.1.stake
  rw [stakes_nil] at hstake
  have hpower : ∀ v ∈ p2.set.activeValidators, 1 ≤ rawPower v.totalStake (stakes s.activeValidators + stakes pending.reverse) :=
    fun v hv => (hp2.2 v hv).elim (fun hv => hone.trans (hp1.2 v hv)) fun hv => (hone.trans hmin).trans hv
  have htotal : stakes s.activeValidators + stakes pending.reverse - p2.totalRemovedStake = stakes p2.set.activeValidators := by
    omega
  have hle : stakes p2.set.activeValidators ≤ stakes s.activeValidators + stakes pending.reverse := by omega
  rw [U64.sub, Word.sub_eq (by omega), ok_bind, htotal]
  exact .ok ⟨hp2.1.changing, rfl, Nat.lt_of_le_of_lt hle hfits, one_le_rawPower hle hpower⟩

/-- What the change of the validators returns. No departure and no join fails: it aborts in integer operations only. -/
theorem meets_changeValidators {s : ValidatorSet} (h : s.Consistent) (grace : Nat) (records : ReportRecords) (epoch : Nat) :
    Meets IsArithmetic (fun r => Changing (s.poolIds []) [] [] r.1 ∧ r.2.2 = stakes r.1.activeValidators ∧ r.2.2 < 2 ^ 64 ∧
      ∀ v ∈ r.1.activeValidators, 1 ≤ rawPower v.totalStake r.2.2) (s.changeValidators grace records epoch) :=
  (meets_processPendingRemovals h records epoch).bind fun _ hr => meets_updateValidatorPositions hr _ _ _

end Sui.ValidatorSet

import Sui.System.Lemmas.StakingPool
import Sui.System.ValidatorLifecycle

/-!
# What the calls do to the places of the validators

Every call moves validators between the active ones, the pending ones, the candidates and the inactive ones, or changes one of
them in its place. The mappings are the index of a directory whose live entries are the validators that are not inactive.
-/

namespace Sui

open Library Checked BTreeMap StakingPool List

/-! ## Pools keep their ids and epochs -/

variable {epoch out : Nat} {f : FungibleStakedSui}

namespace StakingPool

variable {pool pool' : StakingPool}

/-- The processing at the end of an epoch adds an exchange rate. -/
theorem processPendingStakesAndWithdraws_frame (h : pool.processPendingStakesAndWithdraws epoch = .ok pool') :
    pool'.id = pool.id ∧ pool'.deactivationEpoch = pool.deactivationEpoch := by
  unfold processPendingStakesAndWithdraws addExchangeRate at h
  simp only [bind_ok] at h
  obtain ⟨_, _, pool1, hwithdraw, pool2, hstake, pool3, ⟨_, _, hrate⟩, _, _, h⟩ := h
  cases hrate
  cases h
  have hframe := (sameFrame_processPendingStakeWithdraw hwithdraw).trans (sameFrame_processPendingStake hstake)
  exact ⟨hframe.id, hframe.deactivationEpoch⟩

end StakingPool

namespace ValidatorEntry

def ident (v : ValidatorEntry) : Nat × Nat := (v.stakingPoolId, v.suiAddress)

theorem stakingPoolId_of_ident {v v' : ValidatorEntry} (h : v'.ident = v.ident) : v'.stakingPoolId = v.stakingPoolId :=
  congrArg Prod.fst h

/-- What no request changes of a validator. -/
structure SameIdentity (v v' : ValidatorEntry) : Prop where
  suiAddress : v'.suiAddress = v.suiAddress
  pool : v.stakingPool.SameFrame v'.stakingPool

theorem SameIdentity.ident {v v' : ValidatorEntry} (h : SameIdentity v v') : v'.ident = v.ident :=
  Prod.ext h.pool.id h.suiAddress

/-- A validator that has not been active yet. -/
structure Waiting (v : ValidatorEntry) : Prop where
  activationEpoch : v.stakingPool.activationEpoch = none
  deactivationEpoch : v.stakingPool.deactivationEpoch = none
  exchangeRates : v.stakingPool.exchangeRates = ∅

theorem Waiting.of_same {v v' : ValidatorEntry} (hv : v.Waiting) (h : SameIdentity v v') : v'.Waiting :=
  ⟨h.pool.activationEpoch.trans hv.activationEpoch, h.pool.deactivationEpoch.trans hv.deactivationEpoch,
    h.pool.exchangeRates.trans hv.exchangeRates⟩

variable {v v' : ValidatorEntry}

theorem requestAddStake_same {stake epoch : Nat} {s : StakedSui} (h : v.requestAddStake stake epoch = .ok (v', s)) :
    SameIdentity v v' := by
  unfold requestAddStake ActiveValidator.requestAddStake at h
  simp only [bind_ok] at h
  obtain ⟨⟨active, s1⟩, ⟨⟨pool, s2⟩, hpool, _, _, hactive⟩, h⟩ := h
  cases hactive
  cases h
  exact ⟨rfl, sameFrame_validatorRequestAddStake hpool⟩

theorem requestWithdrawStake_same {s : StakedSui} (h : v.requestWithdrawStake s epoch = .ok (v', out)) : SameIdentity v v' := by
  simp only [requestWithdrawStake, bind_ok, pure_ok, Prod.mk.injEq] at h
  obtain ⟨⟨pool, w⟩, hpool, _, _, _, _, rfl, rfl⟩ := h
  exact ⟨rfl, sameFrame_requestWithdrawStake hpool⟩

variable {epoch : Nat}

theorem convertToFungibleStakedSui_same {s : StakedSui}
    (h : v.convertToFungibleStakedSui s epoch = .ok (v', f)) : SameIdentity v v' := by
  simp only [convertToFungibleStakedSui, bind_ok, pure_ok, Prod.mk.injEq] at h
  obtain ⟨⟨pool, w⟩, hpool, rfl, rfl⟩ := h
  exact ⟨rfl, sameFrame_convertToFungibleStakedSui hpool⟩

theorem redeemFungibleStakedSui_same (h : v.redeemFungibleStakedSui f epoch = .ok (v', out)) : SameIdentity v v' := by
  simp only [redeemFungibleStakedSui, bind_ok, pure_ok, Prod.mk.injEq] at h
  obtain ⟨⟨pool, w⟩, hpool, _, _, rfl, rfl⟩ := h
  exact ⟨rfl, sameFrame_redeemFungibleStakedSui hpool⟩

theorem deactivate_ok (h : v.deactivate epoch = .ok v') :
    v.stakingPool.deactivationEpoch = none ∧ v'.ident = v.ident ∧ v'.totalStake = v.totalStake := by
  simp only [deactivate, bind_ok, assert_ok, pure_ok] at h
  obtain ⟨_, hinactive, rfl⟩ := h
  exact ⟨by simpa [isInactive] using hinactive, rfl, rfl⟩

theorem deactivate_eq (h : v.stakingPool.deactivationEpoch = none) (epoch : Nat) : ∃ v', v.deactivate epoch = .ok v' := by
  simp [deactivate, isInactive, h]

theorem activate_ok (h : v.activate epoch = .ok v') :
    v'.stakingPool.deactivationEpoch = none ∧ v'.ident = v.ident ∧ v'.totalStake = v.totalStake := by
  unfold activate activateStakingPool addExchangeRate at h
  simp only [bind_ok, assert_ok] at h
  obtain ⟨pool, ⟨pool1, ⟨_, _, hrate⟩, _, _, _, hinactive, hpool⟩, h⟩ := h
  cases hrate
  cases hpool
  cases h
  exact ⟨by simpa [isInactive] using hinactive, rfl, rfl⟩

theorem Waiting.activate_eq (hv : v.Waiting) (epoch : Nat) : ∃ v', v.activate epoch = .ok v' := by
  obtain ⟨ha, hd, hr⟩ := hv
  simp [activate, activateStakingPool, StakingPool.addExchangeRate, StakingPool.isPreactive, isInactive, ha, hd, hr]

theorem processPendingStakesAndWithdraws_ok (h : v.processPendingStakesAndWithdraws epoch = .ok v') :
    v'.ident = v.ident ∧ v'.stakingPool.deactivationEpoch = v.stakingPool.deactivationEpoch := by
  simp only [processPendingStakesAndWithdraws, bind_ok, pure_ok] at h
  obtain ⟨pool, hpool, rfl⟩ := h
  obtain ⟨hid, hdeactivation⟩ := processPendingStakesAndWithdraws_frame hpool
  exact ⟨Prod.ext hid rfl, hdeactivation⟩

end ValidatorEntry

theorem Table.add_ok {V : Type} {m m' : BTreeMap Nat V} {k : Nat} {v : V} : Table.add m k v = .ok m' ↔ m[k]? = none ∧ m' = m.insert k v := by
  simp only [Table.add, bind_ok, assert_ok, Option.isNone_iff_eq_none]
  constructor
  · rintro ⟨_, hnone, h⟩
    cases h
    exact ⟨hnone, rfl⟩
  · rintro ⟨hnone, rfl⟩
    exact ⟨(), hnone, rfl⟩

theorem Table.remove_ok {V : Type} {m m' : BTreeMap Nat V} {k : Nat} {v : V} :
    Table.remove m k = .ok (v, m') ↔ m[k]? = some v ∧ m' = m.erase k := by
  simp only [Table.remove, bind_ok, expect_ok]
  constructor
  · rintro ⟨_, hsome, h⟩
    cases h
    exact ⟨hsome, rfl⟩
  · rintro ⟨hsome, rfl⟩
    exact ⟨v, hsome, rfl⟩

/-! ## The invariant -/

namespace ValidatorSet

open ValidatorEntry

def inactiveIds (s : ValidatorSet) : List Nat := (values s.inactiveValidators).map stakingPoolId

/-- The places of the validators, where some that wait to be active are held outside of the set. -/
structure ConsistentWith (held : List ValidatorEntry) (s : ValidatorSet) : Prop where
  directory : Directory ((s.liveValidators ++ held).map ident) s.inactiveIds s.stakingPoolMappings
  candidateKey : ∀ (a : Nat) (v : ValidatorEntry), s.validatorCandidates[a]? = some v → v.suiAddress = a
  inactiveKey : ∀ (p : Nat) (v : ValidatorEntry), s.inactiveValidators[p]? = some v → v.stakingPoolId = p
  removals : s.pendingRemovals.Nodup ∧ ∀ i ∈ s.pendingRemovals, i < s.activeValidators.length
  active : ∀ v ∈ s.activeValidators, v.stakingPool.deactivationEpoch = none
  waiting : ∀ v ∈ s.pendingActiveValidators ++ values s.validatorCandidates ++ held, v.Waiting

/-- The places of the validators between calls. -/
abbrev Consistent (s : ValidatorSet) : Prop := s.ConsistentWith []

def poolIds (held : List ValidatorEntry) (s : ValidatorSet) : List Nat := ((s.liveValidators ++ held).map ident).map Prod.fst ++ s.inactiveIds

variable {l : List ValidatorEntry} {a : Nat}

theorem findEntry_ok {i : Nat} (h : findEntry l a = some i) : ∃ v, l[i]? = some v ∧ v.suiAddress = a := by
  obtain ⟨hlt, hv, -⟩ := List.findIdx?_eq_some_iff_getElem.mp h
  exact ⟨l[i], List.getElem?_eq_getElem hlt, by simpa using hv⟩

theorem findEntry_none (h : findEntry l a = none) : ∀ v ∈ l, v.suiAddress ≠ a := by
  intro v hv
  simpa using List.findIdx?_eq_none_iff.mp h v hv

variable {v v' : ValidatorEntry}

/-- A validator of a list is changed in its place. -/
theorem map_ident_set {i : Nat} (hget : l[i]? = some v) (h : v'.ident = v.ident) : (l.set i v').map ident = l.map ident := by
  rw [map_set, h]
  obtain ⟨hlt, rfl⟩ := List.getElem?_eq_some_iff.mp hget
  rw [← getElem_map ident (h := by simpa using hlt)]
  exact set_getElem_self _

namespace ConsistentWith

variable {held : List ValidatorEntry} {s : ValidatorSet}

section

variable (h : s.ConsistentWith held)

include h

/-- An active validator is changed in its place. -/
theorem set_active {i : Nat} (hget : s.activeValidators[i]? = some v)
    (hident : v'.ident = v.ident) (hdeactivation : v'.stakingPool.deactivationEpoch = none) :
    ConsistentWith held { s with activeValidators := s.activeValidators.set i v' } where
  directory := by
    have hlive : (liveValidators { s with activeValidators := s.activeValidators.set i v' } ++ held).map ident =
        (s.liveValidators ++ held).map ident := by
      simp only [liveValidators, map_append, map_ident_set hget hident]
    rw [hlive]
    exact h.directory
  candidateKey := h.candidateKey
  inactiveKey := h.inactiveKey
  removals := ⟨h.removals.1, fun j hj => by simpa using h.removals.2 j hj⟩
  active w hw := by
    rcases mem_or_eq_of_mem_set hw with hw | rfl
    · exact h.active w hw
    · exact hdeactivation
  waiting := h.waiting

/-- A candidate is changed in its place. -/
theorem set_candidate (hget : s.validatorCandidates[a]? = some v) (hident : v'.ident = v.ident) (hwaiting : v'.Waiting) :
    ConsistentWith held { s with validatorCandidates := s.validatorCandidates.insert a v' } where
  directory := by
    obtain ⟨rest, hbefore, hafter⟩ := values_update_perm hget v'
    refine h.directory.perm ?_ (.refl _)
    simp only [liveValidators, map_append]
    refine (List.Perm.append_left _ ?_).append_right _
    have hcons : (v' :: rest).map ident = (v :: rest).map ident := by rw [map_cons, map_cons, hident]
    exact (hafter.map ident).trans (hcons ▸ (hbefore.map ident).symm)
  candidateKey := forall_insert h.candidateKey ((congrArg Prod.snd hident).trans (h.candidateKey a v hget))
  inactiveKey := h.inactiveKey
  removals := h.removals
  active := h.active
  waiting w hw := by
    simp only [mem_append, mem_values] at hw
    rcases hw with (hw | ⟨b, hb⟩) | hw
    · exact h.waiting w (by simp [hw])
    · rw [get_insert] at hb
      split at hb
      · obtain rfl := Option.some.inj hb
        exact hwaiting
      · exact h.waiting w (mem_append_left _ (mem_append_right _ (mem_values.mpr ⟨b, hb⟩)))
    · exact h.waiting w (mem_append_right _ hw)

theorem candidate_waiting (hget : s.validatorCandidates[a]? = some v) : v.Waiting :=
  h.waiting v (mem_append_left _ (mem_append_right _ (mem_values.mpr ⟨a, hget⟩)))

/-- An inactive validator is changed in its place. -/
theorem set_inactive {p : Nat} (hget : s.inactiveValidators[p]? = some v)
    (hident : v'.ident = v.ident) : ConsistentWith held { s with inactiveValidators := s.inactiveValidators.insert p v' } where
  directory := by
    obtain ⟨rest, hbefore, hafter⟩ := values_update_perm hget v'
    refine h.directory.perm (.refl _) ?_
    have hcons : (v' :: rest).map stakingPoolId = (v :: rest).map stakingPoolId := by
      rw [map_cons, map_cons, stakingPoolId_of_ident hident]
    exact (hafter.map stakingPoolId).trans (hcons ▸ (hbefore.map stakingPoolId).symm)
  candidateKey := h.candidateKey
  inactiveKey := forall_insert h.inactiveKey ((stakingPoolId_of_ident hident).trans (h.inactiveKey p v hget))
  removals := h.removals
  active := h.active
  waiting := h.waiting

end

end ConsistentWith

/-! ## The calls during an epoch -/

namespace Consistent

variable {s s' : ValidatorSet}

section

variable (h : s.Consistent)

include h

theorem modifyCandidateOrActive {α : Type} {address : Nat} {f : ValidatorEntry → Except Abort (ValidatorEntry × α)}
    {a : α} (hf : ∀ v v' a, f v = .ok (v', a) → SameIdentity v v') (hs : s.modifyCandidateOrActive address f = .ok (s', a)) :
    s'.Consistent := by
  unfold ValidatorSet.modifyCandidateOrActive at hs
  split at hs
  · rename_i v hget
    rw [bind_ok] at hs
    obtain ⟨⟨v', a'⟩, hv, hs⟩ := hs
    cases hs
    have hsame := hf v v' _ hv
    exact h.set_candidate hget hsame.ident ((h.candidate_waiting hget).of_same hsame)
  · simp only [bind_ok, expect_ok] at hs
    obtain ⟨i, _, v, hget, ⟨v', a'⟩, hv, hs⟩ := hs
    cases hs
    have hsame := hf v v' _ hv
    exact h.set_active hget hsame.ident (hsame.pool.deactivationEpoch.trans (h.active v (mem_of_getElem? hget)))

theorem modifyByPoolId {α : Type} {poolId : Nat} {f : ValidatorEntry → Except Abort (ValidatorEntry × α)} {a : α}
    (hf : ∀ v v' a, f v = .ok (v', a) → SameIdentity v v') (hs : s.modifyByPoolId poolId f = .ok (s', a)) : s'.Consistent := by
  unfold ValidatorSet.modifyByPoolId at hs
  split at hs
  · exact h.modifyCandidateOrActive hf hs
  · simp only [bind_ok, expect_ok] at hs
    obtain ⟨v, hget, ⟨v', a'⟩, hv, hs⟩ := hs
    cases hs
    exact h.set_inactive hget (hf v v' _ hv).ident

theorem modifyAny {address : Nat} {f : ValidatorEntry → ValidatorEntry} (hf : ∀ v, SameIdentity v (f v))
    (hs : s.modifyAny address f = .ok s') : s'.Consistent := by
  unfold ValidatorSet.modifyAny at hs
  split at hs
  · rename_i i hi
    obtain ⟨v, hget, -⟩ := findEntry_ok hi
    cases hs
    rw [modify_eq_set_getElem?, hget]
    exact h.set_active hget (hf v).ident ((hf v).pool.deactivationEpoch.trans (h.active v (mem_of_getElem? hget)))
  · split at hs
    · rename_i i hi
      obtain ⟨v, hget, -⟩ := findEntry_ok hi
      cases hs
      rw [modify_eq_set_getElem?, hget]
      refine ⟨?_, h.candidateKey, h.inactiveKey, h.removals, h.active, fun w hw => ?_⟩
      · have hlive : (liveValidators { s with pendingActiveValidators := s.pendingActiveValidators.set i (f v) } ++ []).map ident =
            (s.liveValidators ++ []).map ident := by
          simp only [liveValidators, map_append, map_ident_set hget (hf v).ident]
        exact hlive ▸ h.directory
      · simp only [append_nil, mem_append] at hw
        rcases hw with hw | hw
        · rcases mem_or_eq_of_mem_set hw with hw | rfl
          · exact h.waiting w (by simp [hw])
          · exact (h.waiting v (by simp [mem_of_getElem? hget])).of_same (hf v)
        · exact h.waiting w (mem_append_left _ (mem_append_right _ hw))
    · rw [bind_ok] at hs
      obtain ⟨v, hget, hs⟩ := hs
      rw [expect_ok] at hget
      cases hs
      exact h.set_candidate hget (hf v).ident ((h.candidate_waiting hget).of_same (hf v))

variable {sender : Nat}

/-- A new candidate, whose address no live validator has and whose pool is new. -/
theorem requestAddValidatorCandidate {poolId commissionRate : Nat} {metadata : ValidatorMetadata}
    (hfresh : ∀ v ∈ s.allValidators, v.stakingPoolId ≠ poolId)
    (hs : s.requestAddValidatorCandidate (.new sender poolId commissionRate metadata) = .ok s') : s'.Consistent := by
  simp only [ValidatorSet.requestAddValidatorCandidate, bind_ok, assert_ok, Option.isNone_iff_eq_none, Table.add_ok, pure_ok] at hs
  obtain ⟨_, hcandidate, _, hactive, _, hpending, _, _, _, _, mappings, ⟨_, rfl⟩, candidates, ⟨_, rfl⟩, rfl⟩ := hs
  have hvalues := values_insert_perm hcandidate (ValidatorEntry.new sender poolId commissionRate metadata)
  have hlive : ∀ v ∈ s.liveValidators, v.stakingPoolId ≠ poolId := fun v hv => hfresh v (mem_append_left _ hv)
  refine ⟨?_, forall_insert h.candidateKey rfl, h.inactiveKey, h.removals, h.active, fun v hv => ?_⟩
  · refine (h.directory.register (k := poolId) (a := sender) ?_ ?_ ?_).perm ?_ (.refl _)
    · rw [append_nil, map_map]
      intro hin
      obtain ⟨v, hv, hid⟩ := mem_map.mp hin
      exact hlive v hv hid
    · intro hin
      obtain ⟨v, hv, hid⟩ := mem_map.mp hin
      exact hfresh v (mem_append_right _ hv) hid
    · rw [append_nil, map_map]
      intro hin
      obtain ⟨v, hv, haddress⟩ := mem_map.mp hin
      simp only [liveValidators, mem_append, mem_values] at hv
      rcases hv with (hv | hv) | ⟨a, hv⟩
      · exact findEntry_none hactive v hv haddress
      · exact findEntry_none hpending v hv haddress
      · obtain rfl : a = sender := (h.candidateKey a v hv).symm.trans haddress
        exact absurd (Eq.trans hcandidate.symm hv) (by simp)
    · simp only [append_nil]
      exact ((List.Perm.append_left _ hvalues).trans perm_middle).map ident
  · simp only [append_nil, mem_append, hvalues.mem_iff, mem_cons] at hv
    rcases hv with hv | rfl | hv
    · exact h.waiting v (by simp [hv])
    · exact ⟨rfl, rfl, rfl⟩
    · exact h.waiting v (mem_append_left _ (mem_append_right _ hv))

/-- A candidate becomes inactive. -/
theorem requestRemoveValidatorCandidate (hs : s.requestRemoveValidatorCandidate sender epoch = .ok s') : s'.Consistent := by
  simp only [ValidatorSet.requestRemoveValidatorCandidate, bind_ok, assert_ok, Prod.exists, Table.add_ok, Table.remove_ok, pure_ok] at hs
  obtain ⟨_, _, v, _, ⟨hget, rfl⟩, _, _, a, _, ⟨hmapped, rfl⟩, v', hdeactivate, _, ⟨hnew, rfl⟩, rfl⟩ := hs
  obtain ⟨-, hident, -⟩ := deactivate_ok hdeactivate
  have hvalues := values_erase_perm hget
  refine ⟨?_, forall_erase h.candidateKey sender, forall_insert h.inactiveKey (stakingPoolId_of_ident hident), h.removals, h.active,
    fun w hw => ?_⟩
  · have hlive : ((v :: (s.activeValidators ++ s.pendingActiveValidators ++ values (s.validatorCandidates.erase sender))).map
        ident).Perm ((s.liveValidators ++ []).map ident) := by
      rw [append_nil]
      exact ((perm_middle.symm.trans (List.Perm.append_left _ hvalues.symm)).map ident)
    refine (h.directory.perm hlive (.refl _)).retire.perm ?_ ?_
    · rw [append_nil]
      exact .refl _
    · refine ((values_insert_perm hnew v').map stakingPoolId).trans ?_
      rw [map_cons, stakingPoolId_of_ident hident]
      exact .refl _
  · simp only [append_nil, mem_append] at hw
    rcases hw with hw | hw
    · exact h.waiting w (by simp [hw])
    · exact h.waiting w (by simp only [append_nil, mem_append, hvalues.mem_iff, mem_cons]; exact .inr (.inr hw))

/-- A candidate becomes pending. -/
theorem requestAddValidator (hs : s.requestAddValidator sender epoch = .ok s') : s'.Consistent := by
  simp only [ValidatorSet.requestAddValidator, bind_ok, assert_ok, Prod.exists, Table.remove_ok, pure_ok] at hs
  obtain ⟨_, _, v, _, ⟨hget, rfl⟩, _, _, _, _, _, _, _, _, rfl⟩ := hs
  have hvalues := values_erase_perm hget
  refine ⟨?_, forall_erase h.candidateKey sender, h.inactiveKey, h.removals, h.active, fun w hw => ?_⟩
  · refine h.directory.perm (List.Perm.map ident ?_) (.refl _)
    simp only [liveValidators, append_nil, append_assoc, singleton_append]
    exact List.Perm.append_left _ (List.Perm.append_left _ hvalues.symm)
  · simp only [append_nil, mem_append, mem_singleton] at hw
    rcases hw with (hw | rfl) | hw
    · exact h.waiting w (by simp [hw])
    · exact h.candidate_waiting hget
    · exact h.waiting w (by simp only [append_nil, mem_append, hvalues.mem_iff, mem_cons]; exact .inr (.inr hw))

theorem requestRemoveValidator (hs : s.requestRemoveValidator sender = .ok s') : s'.Consistent := by
  simp only [ValidatorSet.requestRemoveValidator, bind_ok, assert_ok, expect_ok, pure_ok] at hs
  obtain ⟨i, hi, _, hnew, rfl⟩ := hs
  obtain ⟨v, hget, -⟩ := findEntry_ok hi
  refine ⟨h.directory, h.candidateKey, h.inactiveKey, ⟨?_, fun j hj => ?_⟩, h.active, h.waiting⟩
  · refine nodup_append.mpr ⟨h.removals.1, nodup_singleton _, fun a ha b hb => ?_⟩
    rintro rfl
    rw [mem_singleton] at hb
    subst hb
    simp [ha] at hnew
  · rcases mem_concat.mp hj with hj | rfl
    · exact h.removals.2 j hj
    · exact (List.getElem?_eq_some_iff.mp hget).1

end

end Consistent

end ValidatorSet

end Sui

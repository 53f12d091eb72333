import Sui.Execution.ObjectFundsChecker

/-!
# The invariant of the funds checker

What is recorded of a version that is not committed is what was accepted at it, which the funds cover, and both indexes list the
same accounts and versions.
-/

namespace Sui

open Library Checked BTreeMap List RunningWithdraws Std.ExtTreeMap ObjectFundsChecker

/-! ## Running withdrawals -/

variable (a : AccumulatorObjId)

/-- What an event withdraws from an account, negative for a deposit. -/
def AccumulatorEvent.withdrawn (e : AccumulatorEvent) : Int :=
  if e.accumulatorObj = a then
    match e.write.value, e.write.operation with
    | .integer amount, .split => (amount : Int)
    | .integer amount, .merge => -(amount : Int)
    | _, _ => 0
  else 0

/-- What events withdraw from an account, net of what they deposit. -/
def netWithdrawn (events : List AccumulatorEvent) : Int := (events.map (AccumulatorEvent.withdrawn a)).sum

theorem netWithdrawn_append (l l' : List AccumulatorEvent) :
    netWithdrawn a (l ++ l') = netWithdrawn a l + netWithdrawn a l' := by
  rw [netWithdrawn, map_append, sum_append]
  rfl

namespace RunningWithdraws

theorem net_addEvent (r : RunningWithdraws) (e : AccumulatorEvent) (a : AccumulatorObjId) :
    (r.addEvent e).net[a]?.getD 0 = r.net[a]?.getD 0 + e.withdrawn a := by
  unfold addEvent AccumulatorEvent.withdrawn
  split
  · rename_i amount hvalue
    split
    · rename_i hop
      simp only [get_insert, hvalue, hop]
      by_cases ha : e.accumulatorObj = a
      · simp [ha]
      · simp [ha]
    · rename_i hop
      simp only [get_insert, hvalue, hop]
      by_cases ha : e.accumulatorObj = a
      · simp [ha, Int.sub_eq_add_neg]
      · simp [ha]
  all_goals
    rename_i hvalue
    simp [hvalue]

/-- The most that was withdrawn does not become less, and covers what is withdrawn now if it covered what was withdrawn before. -/
theorem max_addEvent (r : RunningWithdraws) (e : AccumulatorEvent) (a : AccumulatorObjId) :
    r.max[a]?.getD 0 ≤ (r.addEvent e).max[a]?.getD 0 ∧
      (r.net[a]?.getD 0 ≤ (r.max[a]?.getD 0 : Nat) → (r.addEvent e).net[a]?.getD 0 ≤ ((r.addEvent e).max[a]?.getD 0 : Nat)) := by
  unfold addEvent
  split
  · split
    · simp only [get_insert]
      by_cases ha : e.accumulatorObj = a
      · subst ha
        split
        · rw [if_pos rfl, get_insert, if_pos rfl, Option.getD_some, Option.getD_some]
          exact ⟨Nat.le_max_left _ _, fun _ => le_trans (Int.self_le_toNat _) (by exact_mod_cast Nat.le_max_right _ _)⟩
        · rename_i hneg
          rw [if_pos rfl, Option.getD_some]
          exact ⟨le_refl _, fun _ => by omega⟩
      · split
        · rw [get_insert, if_neg ha]
          exact ⟨le_refl _, id⟩
        · exact ⟨le_refl _, id⟩
    · simp only [get_insert]
      by_cases ha : e.accumulatorObj = a
      · subst ha
        simp only [if_true, Option.getD_some]
        exact ⟨le_refl _, fun _ => by omega⟩
      · simp only [if_neg ha]
        exact ⟨le_refl _, id⟩
  all_goals exact ⟨le_refl _, id⟩

theorem net_foldl (events : List AccumulatorEvent) (a : AccumulatorObjId) :
    (events.foldl addEvent ⟨∅, ∅⟩).net[a]?.getD 0 = netWithdrawn a events := by
  induction events using List.reverseRecOn with
  | nil => simp [netWithdrawn]
  | append_singleton l e ih =>
    rw [foldl_append, foldl_cons, foldl_nil, net_addEvent, ih, netWithdrawn_append]
    simp [netWithdrawn]

end RunningWithdraws

/-- At no time is more withdrawn from an account than the running maximum. -/
theorem netWithdrawn_le {a : AccumulatorObjId} {events pre : List AccumulatorEvent} (h : pre <+: events) :
    netWithdrawn a pre ≤ ((calculateAccumulatorRunningMaxWithdraws events)[a]?.getD 0 : Nat) := by
  unfold calculateAccumulatorRunningMaxWithdraws
  induction events using List.reverseRecOn generalizing pre with
  | nil =>
    rw [List.prefix_nil.mp h]
    simp [netWithdrawn]
  | append_singleton l e ih =>
    rw [foldl_append, foldl_cons, foldl_nil]
    obtain ⟨hle, hcover⟩ := (l.foldl addEvent ⟨∅, ∅⟩).max_addEvent e a
    rcases List.prefix_concat_iff.mp h with rfl | h
    · rw [net_foldl, net_addEvent, net_foldl] at hcover
      rw [netWithdrawn_append]
      refine le_trans (le_of_eq ?_) (hcover (ih (prefix_refl l)))
      simp [netWithdrawn]
    · exact le_trans (ih h) (by exact_mod_cast hle)

theorem FundsTransaction.get_objectWithdraws (t : FundsTransaction) (a : AccumulatorObjId) :
    t.objectWithdraws[a]? = if a ∈ t.addressFundsReservations then none else (calculateAccumulatorRunningMaxWithdraws t.accumulatorEvents)[a]? := by
  rw [objectWithdraws, getElem?_filter']
  split_ifs with h
  · simp [h]
  · cases (calculateAccumulatorRunningMaxWithdraws t.accumulatorEvents)[a]? with
    | none => rfl
    | some => simp [h]

/-! ## The two indexes -/

namespace ObjectFundsChecker

/-- What a map has for an account and a version. -/
def entryAt (m : BTreeMap AccumulatorObjId (BTreeMap SequenceNumber Nat)) (a : AccumulatorObjId) (v : SequenceNumber) : Option Nat :=
  m[a]?.bind fun withdraws => withdraws[v]?

/-- An account is listed at a version. -/
def Listed (s : ObjectFundsChecker) (a : AccumulatorObjId) (v : SequenceNumber) : Prop := a ∈ s.unsettledAccounts[v]?.getD ∅

/-- The indexes list the same accounts and versions, and have no entry that lists nothing. -/
structure Indexed (s : ObjectFundsChecker) : Prop where
  pairs : ∀ a v, (entryAt s.unsettledWithdraws a v).isSome ↔ s.Listed a v
  withdraws : ∀ (a : AccumulatorObjId) m, s.unsettledWithdraws[a]? = some m → m ≠ ∅
  accounts : ∀ (v : SequenceNumber) m, s.unsettledAccounts[v]? = some m → m ≠ ∅

variable {s s' : ObjectFundsChecker} {version : SequenceNumber}

theorem unsettledWithdraw_eq (s : ObjectFundsChecker) (a : AccumulatorObjId) (v : SequenceNumber) :
    s.unsettledWithdraw a v = (entryAt s.unsettledWithdraws a v).getD 0 := rfl

theorem Indexed.new (version : SequenceNumber) : (ObjectFundsChecker.new version).Indexed :=
  ⟨fun a v => by simp [ObjectFundsChecker.new, entryAt, Listed], fun a m h => by simp [ObjectFundsChecker.new] at h,
    fun v m h => by simp [ObjectFundsChecker.new] at h⟩

/-- When no account is listed, the indexes are empty. -/
theorem Indexed.eq_empty (h : s.Indexed) (hnone : ∀ a v, ¬ s.Listed a v) : s.unsettledWithdraws = ∅ ∧ s.unsettledAccounts = ∅ := by
  rw [eq_empty_iff, eq_empty_iff]
  constructor
  · intro a
    by_contra hne
    obtain ⟨m, hm⟩ := Option.ne_none_iff_exists'.mp hne
    refine h.withdraws a m hm (eq_empty_iff.mpr fun v => ?_)
    by_contra hv
    refine hnone a v ((h.pairs a v).mp ?_)
    rw [entryAt, hm]
    exact Option.isSome_iff_ne_none.mpr hv
  · intro v
    by_contra hne
    obtain ⟨m, hm⟩ := Option.ne_none_iff_exists'.mp hne
    obtain ⟨a, ha⟩ := Finset.nonempty_iff_ne_empty.mpr (h.accounts v m hm)
    refine hnone a v ?_
    rw [Listed, hm]
    exact ha

/-! ## Recording -/

/-- A withdrawal is added to the entry of its account and version. -/
theorem record_spec (version : SequenceNumber) {a : AccumulatorObjId} {amount : Nat} (h : s.Indexed)
    (hlt : s.unsettledWithdraw a version + amount < 2 ^ 128) :
    ∃ s', s.record version (a, amount) = .ok s' ∧ s'.Indexed ∧ s'.lastSettledVersion = s.lastSettledVersion ∧
      (∀ a' v, s'.unsettledWithdraw a' v = s.unsettledWithdraw a' v + if a' = a ∧ v = version then amount else 0) ∧
      ∀ a' v, s'.Listed a' v ↔ s.Listed a' v ∨ (a' = a ∧ v = version) := by
  have hinner : ∀ v, (s.unsettledWithdraws[a]?.getD ∅)[v]? = entryAt s.unsettledWithdraws a v := by
    intro v
    rw [entryAt]
    cases s.unsettledWithdraws[a]? with
    | none => simp
    | some => rfl
  let s' : ObjectFundsChecker := { s with
    unsettledWithdraws := s.unsettledWithdraws.insert a
      ((s.unsettledWithdraws[a]?.getD ∅).insert version (s.unsettledWithdraw a version + amount))
    unsettledAccounts := s.unsettledAccounts.insert version (insert a (s.unsettledAccounts[version]?.getD ∅)) }
  have hlisted : ∀ a' v, s'.Listed a' v ↔ s.Listed a' v ∨ (a' = a ∧ v = version) := by
    intro a' v
    simp only [Listed, s', get_insert]
    by_cases hv : version = v
    · subst hv
      simp [or_comm]
    · simp [hv, Ne.symm hv]
  have hget : ∀ a' v, entryAt s'.unsettledWithdraws a' v =
      if a' = a ∧ v = version then some (s.unsettledWithdraw a version + amount) else entryAt s.unsettledWithdraws a' v := by
    intro a' v
    rw [entryAt, get_insert]
    by_cases ha : a = a'
    · subst ha
      rw [if_pos rfl, Option.bind_some, get_insert, hinner]
      by_cases hv : version = v
      · simp [hv]
      · simp [hv, Ne.symm hv]
    · rw [if_neg ha, if_neg fun hand => ha hand.1.symm]
      rfl
  refine ⟨s', ?_, ⟨fun a' v => ?_, forall_insert h.withdraws ?_, forall_insert h.accounts (Finset.insert_ne_empty _ _)⟩, rfl,
    fun a' v => ?_, hlisted⟩
  · simp only [record, hinner, ← unsettledWithdraw_eq, decide_eq_true hlt, assert_true, ok_bind]
    rfl
  · rw [hget, hlisted, ← h.pairs]
    by_cases hand : a' = a ∧ v = version
    · simp [hand]
    · simp [hand]
  · intro hempty
    have := congrArg (fun m : BTreeMap SequenceNumber Nat => m[version]?) hempty
    simp at this
  · rw [unsettledWithdraw_eq, hget, unsettledWithdraw_eq]
    by_cases hand : a' = a ∧ v = version
    · rw [if_pos hand, if_pos hand, hand.1, hand.2]
      rfl
    · rw [if_neg hand, if_neg hand]
      rfl

/-- All withdrawals of a transaction are added, each to its account. -/
theorem recordAll_spec {withdraws : BTreeMap AccumulatorObjId Nat} (h : s.Indexed)
    (hlt : ∀ p ∈ withdraws.toList, s.unsettledWithdraw p.1 version + p.2 < 2 ^ 128) :
    ∃ s', s.recordAll version withdraws.toList = .ok s' ∧ s'.Indexed ∧ s'.lastSettledVersion = s.lastSettledVersion ∧
      (∀ a v, s'.unsettledWithdraw a v = s.unsettledWithdraw a v + if v = version then withdraws[a]?.getD 0 else 0) ∧
      ∀ a v, s'.Listed a v ↔ s.Listed a v ∨ (withdraws[a]?.isSome ∧ v = version) := by
  have hnodup := nodup_toList withdraws
  have hloop := foldlM_total (l := withdraws.toList) (f := record version) (b := s)
    (fun pre c => c.Indexed ∧ c.lastSettledVersion = s.lastSettledVersion ∧
      (∀ a v, c.unsettledWithdraw a v = s.unsettledWithdraw a v +
        if v = version ∧ a ∈ pre.map Prod.fst then withdraws[a]?.getD 0 else 0) ∧
      ∀ a v, c.Listed a v ↔ s.Listed a v ∨ (a ∈ pre.map Prod.fst ∧ v = version))
    ⟨h, rfl, by simp, by simp⟩ (by
      rintro pre ⟨a, amount⟩ post c hlist ⟨hc, hsettled, hsums, hlisted⟩
      have hget : withdraws[a]? = some amount := mem_toList.mp (by simp [hlist])
      have hnew : a ∉ pre.map Prod.fst := by
        rw [hlist, map_append, nodup_append] at hnodup
        exact fun hmem => hnodup.2.2 a hmem a mem_cons_self rfl
      have hsame : c.unsettledWithdraw a version = s.unsettledWithdraw a version := by
        rw [hsums, if_neg fun hand => hnew hand.2, Nat.add_zero]
      obtain ⟨c', hrecord, hc', hsettled', hsums', hlisted'⟩ := record_spec version hc
        (by rw [hsame]; exact hlt (a, amount) (by simp [hlist]))
      refine ⟨c', hrecord, hc', hsettled'.trans hsettled, fun a' v => ?_, fun a' v => ?_⟩
      · rw [hsums', hsums, Nat.add_assoc]
        congr 1
        by_cases ha : a' = a
        · subst ha
          by_cases hv : v = version
          · simp [hv, hnew, hget]
          · simp [hv]
        · have hmem : a' ∈ (pre ++ [(a, amount)]).map Prod.fst ↔ a' ∈ pre.map Prod.fst := by simp [ha]
          simp only [hmem, ha, false_and, if_false, Nat.add_zero]
      · rw [hlisted', hlisted, map_append, mem_append, map_singleton, mem_singleton]
        tauto)
  obtain ⟨s', hs', hindexed, hsettled, hsums, hlisted⟩ := hloop
  have hmem : ∀ a : AccumulatorObjId, a ∈ withdraws.toList.map Prod.fst ↔ withdraws[a]?.isSome := by
    intro a
    rw [map_fst_toList_eq_keys, Std.ExtTreeMap.mem_keys, mem_iff_isSome_getElem?]
  refine ⟨s', hs', hindexed, hsettled, fun a v => ?_, fun a v => ?_⟩
  · rw [hsums]
    simp only [hmem]
    cases hget : withdraws[a]? with
    | none => simp
    | some => simp
  · rw [hlisted, hmem]

/-! ## Committing -/

theorem entryAt_commitAccount (m : BTreeMap AccumulatorObjId (BTreeMap SequenceNumber Nat)) (account a : AccumulatorObjId)
    (v : SequenceNumber) : entryAt (commitAccount version m account) a v =
      if a = account ∧ v = version then none else entryAt m a v := by
  unfold commitAccount
  split
  · rename_i hnone
    by_cases ha : a = account
    · subst ha
      simp [entryAt, hnone]
    · rw [if_neg fun hand => ha hand.1]
  · rename_i versions hsome
    have herased : ∀ v : SequenceNumber, (versions.erase version)[v]? = if v = version then none else entryAt m account v := by
      intro v
      rw [get_erase, entryAt, hsome]
      by_cases hv : version = v
      · simp [hv]
      · simp [hv, Ne.symm hv]
    dsimp only
    split
    · rename_i hempty
      have hnone := eq_empty_iff.mp (isEmpty_iff.mp hempty)
      rw [entryAt, get_erase]
      by_cases ha : account = a
      · subst ha
        have hv := hnone v
        rw [herased] at hv
        rw [if_pos rfl, Option.bind_none]
        by_cases hver : v = version
        · simp [hver]
        · rw [if_neg hver] at hv
          simp [hver, hv]
      · rw [if_neg ha, if_neg fun hand => ha hand.1.symm]
        rfl
    · rw [entryAt, get_insert]
      by_cases ha : account = a
      · subst ha
        rw [if_pos rfl, Option.bind_some, herased]
        by_cases hver : v = version
        · simp [hver]
        · simp [hver]
      · rw [if_neg ha, if_neg fun hand => ha hand.1.symm]
        rfl

theorem entryAt_commitAccounts (accounts : List AccumulatorObjId) (m : BTreeMap AccumulatorObjId (BTreeMap SequenceNumber Nat))
    (a : AccumulatorObjId) (v : SequenceNumber) : entryAt (accounts.foldl (commitAccount version) m) a v =
      if a ∈ accounts ∧ v = version then none else entryAt m a v := by
  induction accounts generalizing m with
  | nil => simp
  | cons account _ ih =>
    rw [foldl_cons, ih, entryAt_commitAccount]
    by_cases hv : v = version
    · by_cases ha : a = account
      · simp [hv, ha]
      · simp [hv, ha]
    · simp [hv]

theorem commitAccount_ne_empty {m : BTreeMap AccumulatorObjId (BTreeMap SequenceNumber Nat)}
    (h : ∀ (a : AccumulatorObjId) x, m[a]? = some x → x ≠ ∅) (account a : AccumulatorObjId) (x : BTreeMap SequenceNumber Nat)
    (hx : (commitAccount version m account)[a]? = some x) : x ≠ ∅ := by
  unfold commitAccount at hx
  split at hx
  · exact h a x hx
  · dsimp only at hx
    split_ifs at hx with hne
    · exact forall_erase h account a x hx
    · exact forall_insert h (fun hempty => hne (isEmpty_iff.mpr hempty)) a x hx

/-- The entries of a version are removed from both indexes. -/
theorem commitVersion_spec (h : s.Indexed) (version : SequenceNumber) : (s.commitVersion version).Indexed ∧
    (∀ a v, (s.commitVersion version).unsettledWithdraw a v = if v = version then 0 else s.unsettledWithdraw a v) ∧
    ∀ a v, (s.commitVersion version).Listed a v ↔ s.Listed a v ∧ v ≠ version := by
  have hget : ∀ a v, entryAt (s.commitVersion version).unsettledWithdraws a v = if v = version then none else entryAt s.unsettledWithdraws a v := by
    intro a v
    rw [commitVersion, entryAt_commitAccounts]
    simp only [BTreeSet.mem_iter]
    by_cases hv : v = version
    · subst hv
      by_cases ha : a ∈ s.unsettledAccounts[v]?.getD ∅
      · simp [ha]
      · have hnone : entryAt s.unsettledWithdraws a v = none := by
          rw [← Option.not_isSome_iff_eq_none, h.pairs]
          exact ha
        simp [ha, hnone]
    · simp [hv]
  have hlisted : ∀ a v, (s.commitVersion version).Listed a v ↔ s.Listed a v ∧ v ≠ version := by
    intro a v
    rw [Listed, commitVersion, get_erase]
    by_cases hv : version = v
    · simp [hv]
    · simp [hv, Ne.symm hv, Listed]
  refine ⟨⟨fun a v => ?_, ?_, fun v m hm => ?_⟩, fun a v => ?_, hlisted⟩
  · rw [hget, hlisted, ← h.pairs]
    by_cases hv : v = version
    · simp [hv]
    · simp [hv]
  · have hfold : ∀ (accounts : List AccumulatorObjId) (m : BTreeMap AccumulatorObjId (BTreeMap SequenceNumber Nat)),
        (∀ (a : AccumulatorObjId) x, m[a]? = some x → x ≠ ∅) →
        ∀ (a : AccumulatorObjId) x, (accounts.foldl (commitAccount version) m)[a]? = some x → x ≠ ∅ := by
      intro accounts
      induction accounts with
      | nil => exact fun m hm => hm
      | cons account _ ih => exact fun m hm => ih _ (commitAccount_ne_empty hm account)
    exact hfold _ _ h.withdraws
  · exact forall_erase h.accounts version v m hm
  · rw [unsettledWithdraw_eq, hget, unsettledWithdraw_eq]
    by_cases hv : v = version
    · simp [hv]
    · simp [hv]

theorem commitAccumulatorVersions_spec (h : s.Indexed) (versions : List SequenceNumber) :
    (s.commitAccumulatorVersions versions).Indexed ∧
    (∀ a v, (s.commitAccumulatorVersions versions).unsettledWithdraw a v = if v ∈ versions then 0 else s.unsettledWithdraw a v) ∧
    ∀ a v, (s.commitAccumulatorVersions versions).Listed a v ↔ s.Listed a v ∧ v ∉ versions := by
  induction versions generalizing s with
  | nil => exact ⟨h, by simp [commitAccumulatorVersions], by simp [commitAccumulatorVersions]⟩
  | cons version _ ih =>
    obtain ⟨hindexed, hsums, hlisted⟩ := commitVersion_spec h version
    obtain ⟨hindexed', hsums', hlisted'⟩ := ih hindexed
    refine ⟨hindexed', fun a v => (hsums' a v).trans ?_, fun a v => (hlisted' a v).trans ?_⟩
    · rw [hsums]
      by_cases hv : v = version
      · simp [hv]
      · simp [hv]
    · rw [hlisted, mem_cons]
      tauto

end ObjectFundsChecker

/-! ## Runs -/

/-- What transactions withdraw from an account at a version. -/
def withdrawnAt (transactions : List FundsTransaction) (a : AccumulatorObjId) (v : SequenceNumber) : Nat :=
  ((transactions.filter fun t => t.accumulatorVersion = v).map fun t => t.objectWithdraws[a]?.getD 0).sum

theorem withdrawnAt_append (transactions : List FundsTransaction) (t : FundsTransaction) (a : AccumulatorObjId) (v : SequenceNumber) :
    withdrawnAt (transactions ++ [t]) a v =
      withdrawnAt transactions a v + if v = t.accumulatorVersion then t.objectWithdraws[a]?.getD 0 else 0 := by
  rw [withdrawnAt, filter_append, map_append, sum_append]
  congr 1
  by_cases h : t.accumulatorVersion = v
  · simp [h]
  · simp [h, Ne.symm h]

/-- The funds cover what the transactions withdraw. -/
def Covered (fundsRead : AccountFundsRead) (s : ObjectFundsChecker) (version : SequenceNumber) (p : AccumulatorObjId × Nat) : Prop :=
  s.unsettledWithdraw p.1 version + p.2 ≤ fundsRead.getAccountAmountAtVersion p.1 version

instance (fundsRead : AccountFundsRead) (s : ObjectFundsChecker) (version : SequenceNumber) (p : AccumulatorObjId × Nat) :
    Decidable (Covered fundsRead s version p) := inferInstanceAs (Decidable (_ ≤ _))

/-- Transactions that have no account in common. -/
def FundsTransaction.Disjoint (t t' : FundsTransaction) : Prop :=
  ∀ a : AccumulatorObjId, t.objectWithdraws[a]?.isSome → t'.objectWithdraws[a]?.isSome → False

/-- The withdrawals of a call that it has examined, all but the rest, are covered. -/
def FundsCall.Examined (fundsRead : AccountFundsRead) (s : ObjectFundsChecker) (c : FundsCall) : Prop :=
  ∃ done, c.transaction.objectWithdraws.toList = done ++ c.rest ∧
    ∀ p ∈ done, Covered fundsRead s c.transaction.accumulatorVersion p

/-- The invariant of runs. -/
structure FundsNode.Sound (fundsRead : AccountFundsRead) (n : FundsNode) : Prop where
  indexed : n.checker.Indexed
  sums : ∀ a v, v ∉ n.committed → n.checker.unsettledWithdraw a v = withdrawnAt n.accepted a v
  funds : ∀ a v, withdrawnAt n.accepted a v ≤ fundsRead.getAccountAmountAtVersion a v
  used : ∀ a v, n.checker.Listed a v → v ∉ n.committed ∧ ∃ t ∈ n.accepted, t.accumulatorVersion = v
  callsOpen : ∀ c ∈ n.calls, c.transaction.accumulatorVersion ∉ n.committed
  examined : ∀ c ∈ n.calls, c.Examined fundsRead n.checker
  disjoint : n.calls.Pairwise fun c c' => c.transaction.Disjoint c'.transaction

namespace FundsNode.Sound

variable {fundsRead : AccountFundsRead} {n : FundsNode}

theorem start (version : SequenceNumber) : Sound fundsRead ⟨.new version, [], [], []⟩ :=
  ⟨.new version, fun _ _ _ => rfl, fun _ _ => Nat.zero_le _, fun a v h => by simp [ObjectFundsChecker.new, ObjectFundsChecker.Listed] at h,
    nofun, nofun, List.Pairwise.nil⟩

section

variable (h : Sound fundsRead n)

include h

/-- What is not settled is covered by the funds, also at committed versions, where nothing is left. -/
theorem unsettled_le (v : SequenceNumber) : n.checker.unsettledWithdraw a v ≤ fundsRead.getAccountAmountAtVersion a v := by
  by_cases hv : v ∈ n.committed
  · have hnone : entryAt n.checker.unsettledWithdraws a v = none := by
      rw [← Option.not_isSome_iff_eq_none, h.indexed.pairs]
      exact fun hlisted => (h.used a v hlisted).1 hv
    rw [unsettledWithdraw_eq, hnone]
    exact Nat.zero_le _
  · rw [h.sums a v hv]
    exact h.funds a v

/-- The assertion of the first loop holds. -/
theorem examine_eq (version : SequenceNumber) (p : AccumulatorObjId × Nat) :
    n.checker.examine fundsRead version p = .ok (decide (Covered fundsRead n.checker version p)) := by
  have hle := h.unsettled_le p.1 version
  rw [examine, decide_eq_true hle, assert_true, ok_bind, pure_ok]
  refine decide_eq_decide.mpr ?_
  rw [Covered]
  omega

theorem examineAll_eq (version : SequenceNumber) (withdraws : List (AccumulatorObjId × Nat)) :
    n.checker.examineAll fundsRead version withdraws = .ok (decide (∀ p ∈ withdraws, Covered fundsRead n.checker version p)) := by
  induction withdraws with
  | nil => simp [examineAll]
  | cons p _ ih =>
    rw [examineAll, h.examine_eq, ok_bind]
    by_cases hp : Covered fundsRead n.checker version p
    · rw [decide_eq_true hp, if_pos rfl, ih]
      simp [hp]
    · rw [decide_eq_false hp]
      simp [hp]

/-- Withdrawals that the funds cover are recorded. -/
theorem recordAll {version : SequenceNumber} {withdraws : BTreeMap AccumulatorObjId Nat}
    (hcovered : ∀ p ∈ withdraws.toList, Covered fundsRead n.checker version p) :
    ∃ s', n.checker.recordAll version withdraws.toList = .ok s' ∧ s'.Indexed ∧ s'.lastSettledVersion = n.checker.lastSettledVersion ∧
      (∀ a v, s'.unsettledWithdraw a v = n.checker.unsettledWithdraw a v + if v = version then withdraws[a]?.getD 0 else 0) ∧
      ∀ a v, s'.Listed a v ↔ n.checker.Listed a v ∨ (withdraws[a]?.isSome ∧ v = version) :=
  recordAll_spec h.indexed fun p hp => Nat.lt_of_le_of_lt (hcovered p hp) (fundsRead.lt _ _)

/-- A transaction is recorded: all its withdrawals are covered. -/
theorem accept {t : FundsTransaction} {calls : List FundsCall} {s : ObjectFundsChecker}
    (hopen : t.accumulatorVersion ∉ n.committed) (hcalls : ∀ c ∈ calls, c ∈ n.calls ∧ c.transaction.Disjoint t)
    (hpairwise : calls.Pairwise fun c c' => c.transaction.Disjoint c'.transaction)
    (hcovered : ∀ p ∈ t.objectWithdraws.toList, Covered fundsRead n.checker t.accumulatorVersion p)
    (hs : n.checker.recordAll t.accumulatorVersion t.objectWithdraws.toList = .ok s) :
    Sound fundsRead { n with checker := s, calls, accepted := n.accepted ++ [t] } := by
  obtain ⟨s', hs', hindexed, -, hsums, hlisted⟩ := h.recordAll hcovered
  obtain rfl := ok_unique hs' hs
  refine ⟨hindexed, fun a v hv => ?_, fun a v => ?_, fun a v hl => ?_, fun c hc => h.callsOpen c (hcalls c hc).1, fun c hc => ?_,
    hpairwise⟩
  · rw [hsums, h.sums a v hv, withdrawnAt_append]
  · rw [withdrawnAt_append]
    split_ifs with hv
    · subst hv
      cases hget : t.objectWithdraws[a]? with
      | none => exact h.funds a _
      | some amount =>
        have hcover : Covered fundsRead n.checker t.accumulatorVersion (a, amount) := hcovered _ (mem_toList.mpr hget)
        rw [Covered, h.sums a _ hopen] at hcover
        exact hcover
    · exact h.funds a v
  · rcases (hlisted a v).mp hl with hl | ⟨-, rfl⟩
    · obtain ⟨hv, t', ht', hver⟩ := h.used a v hl
      exact ⟨hv, t', mem_append_left _ ht', hver⟩
    · exact ⟨hopen, t, mem_append_right _ mem_cons_self, rfl⟩
  · obtain ⟨hmem, hdisjoint⟩ := hcalls c hc
    obtain ⟨done, hdone, hexamined⟩ := h.examined c hmem
    refine ⟨done, hdone, fun p hp => ?_⟩
    -- the account of another call is not one of the transaction
    have hother : t.objectWithdraws[p.1]? = none := by
      rw [← Option.not_isSome_iff_eq_none]
      have hmine : c.transaction.objectWithdraws[p.1]? = some p.2 := mem_toList.mp (by rw [hdone]; exact mem_append_left _ hp)
      exact fun hsome => hdisjoint p.1 (by rw [hmine]; rfl) hsome
    have hcover := hexamined p hp
    rw [Covered] at hcover ⊢
    rw [hsums, hother]
    simpa using hcover

theorem settle (version : SequenceNumber) : Sound fundsRead { n with checker := n.checker.settleAccumulatorVersion version } :=
  ⟨⟨h.indexed.pairs, h.indexed.withdraws, h.indexed.accounts⟩, h.sums, h.funds, h.used, h.callsOpen, h.examined, h.disjoint⟩

theorem acceptWithoutWithdraws {t : FundsTransaction} (ht : t.objectWithdraws.isEmpty = true) :
    Sound fundsRead { n with accepted := n.accepted ++ [t] } := by
  have hnone := eq_empty_iff.mp (isEmpty_iff.mp ht)
  have hsame : ∀ a v, withdrawnAt (n.accepted ++ [t]) a v = withdrawnAt n.accepted a v := by
    intro a v
    rw [withdrawnAt_append, hnone a]
    simp
  refine ⟨h.indexed, fun a v hv => ?_, fun a v => ?_, fun a v hl => ?_, h.callsOpen, h.examined, h.disjoint⟩
  · rw [hsame]
    exact h.sums a v hv
  · rw [hsame]
    exact h.funds a v
  · obtain ⟨hv, t', ht', hver⟩ := h.used a v hl
    exact ⟨hv, t', mem_append_left _ ht', hver⟩

/-- Calls that are changed or left out, with what they examined. -/
theorem withCalls {calls : List FundsCall}
    (hcalls : ∀ c ∈ calls, c.transaction.accumulatorVersion ∉ n.committed ∧ c.Examined fundsRead n.checker)
    (hpairwise : calls.Pairwise fun c c' => c.transaction.Disjoint c'.transaction) : Sound fundsRead { n with calls } :=
  ⟨h.indexed, h.sums, h.funds, h.used, fun c hc => (hcalls c hc).1, fun c hc => (hcalls c hc).2, hpairwise⟩

theorem commit {versions : List SequenceNumber} (hcalls : ∀ c ∈ n.calls, c.transaction.accumulatorVersion ∉ versions) :
    Sound fundsRead { n with checker := n.checker.commitAccumulatorVersions versions, committed := n.committed ++ versions } := by
  obtain ⟨hindexed, hsums, hlisted⟩ := commitAccumulatorVersions_spec h.indexed versions
  refine ⟨hindexed, fun a v hv => ?_, h.funds, fun a v hl => ?_, fun c hc hmem => ?_, fun c hc => ?_, h.disjoint⟩
  · rw [mem_append, not_or] at hv
    rw [hsums, if_neg hv.2]
    exact h.sums a v hv.1
  · obtain ⟨hl, hnot⟩ := (hlisted a v).mp hl
    obtain ⟨hv, hused⟩ := h.used a v hl
    refine ⟨fun hmem => ?_, hused⟩
    rcases mem_append.mp hmem with hmem | hmem
    · exact hv hmem
    · exact hnot hmem
  · rcases mem_append.mp hmem with hmem | hmem
    · exact h.callsOpen c hc hmem
    · exact hcalls c hc hmem
  · obtain ⟨done, hdone, hexamined⟩ := h.examined c hc
    refine ⟨done, hdone, fun p hp => ?_⟩
    have hcover := hexamined p hp
    rw [Covered] at hcover ⊢
    rw [hsums, if_neg (hcalls c hc)]
    exact hcover

theorem call {t : FundsTransaction} (hopen : t.accumulatorVersion ∉ n.committed)
    (hdisjoint : ∀ c ∈ n.calls, t.Disjoint c.transaction) :
    Sound fundsRead { n with calls := n.calls ++ [⟨t, t.objectWithdraws.toList⟩] } := by
  refine h.withCalls (fun c hc => ?_) (pairwise_append.mpr ⟨h.disjoint, pairwise_singleton _ _, fun c hc c' hc' a ha ha' => ?_⟩)
  · rcases mem_concat.mp hc with hc | rfl
    · exact ⟨h.callsOpen c hc, h.examined c hc⟩
    · exact ⟨hopen, [], rfl, nofun⟩
  · rw [mem_singleton.mp hc'] at ha'
    exact hdisjoint c hc a ha' ha

end

section Calls

variable {pre post : List FundsCall} {t : FundsTransaction} {rest : List (AccumulatorObjId × Nat)}

theorem sublist_calls (hcalls : n.calls = pre ++ ⟨t, rest⟩ :: post) : List.Sublist (pre ++ post) n.calls := by
  rw [hcalls]
  exact (List.Sublist.refl pre).append (sublist_cons_self _ post)

theorem examine (h : Sound fundsRead n) {withdraw : AccumulatorObjId × Nat}
    (hcalls : n.calls = pre ++ ⟨t, withdraw :: rest⟩ :: post)
    (hexamine : n.checker.examine fundsRead t.accumulatorVersion withdraw = .ok true) :
    Sound fundsRead { n with calls := pre ++ ⟨t, rest⟩ :: post } := by
  have hcall : ⟨t, withdraw :: rest⟩ ∈ n.calls := by simp [hcalls]
  have hcovered : Covered fundsRead n.checker t.accumulatorVersion withdraw := by
    rw [h.examine_eq, Except.ok.injEq, decide_eq_true_eq] at hexamine
    exact hexamine
  have hnew : FundsCall.Examined fundsRead n.checker ⟨t, rest⟩ := by
    obtain ⟨done, hdone, hexamined⟩ := h.examined _ hcall
    refine ⟨done ++ [withdraw], by simpa using hdone, fun p hp => ?_⟩
    rcases mem_concat.mp hp with hp | rfl
    · exact hexamined p hp
    · exact hcovered
  refine h.withCalls (fun c hc => ?_) ?_
  · rw [mem_append, mem_cons, or_left_comm, ← mem_append] at hc
    rcases hc with rfl | hc
    · exact ⟨h.callsOpen ⟨t, withdraw :: rest⟩ hcall, hnew⟩
    · have hold := (sublist_calls hcalls).subset hc
      exact ⟨h.callsOpen c hold, h.examined c hold⟩
  · have hdisjoint := h.disjoint
    rw [hcalls, pairwise_append, pairwise_cons] at hdisjoint
    rw [pairwise_append, pairwise_cons]
    obtain ⟨hpre, ⟨hhead, hpost⟩, hcross⟩ := hdisjoint
    refine ⟨hpre, ⟨hhead, hpost⟩, fun a ha b hb => ?_⟩
    rcases mem_cons.mp hb with rfl | hb
    · exact hcross a ha ⟨t, withdraw :: rest⟩ mem_cons_self
    · exact hcross a ha b (mem_cons_of_mem _ hb)

theorem reject (h : Sound fundsRead n) (hcalls : n.calls = pre ++ ⟨t, rest⟩ :: post) :
    Sound fundsRead { n with calls := pre ++ post } := by
  have hsub := sublist_calls hcalls
  exact h.withCalls (fun c hc => ⟨h.callsOpen c (hsub.subset hc), h.examined c (hsub.subset hc)⟩) (h.disjoint.sublist hsub)

/-- All withdrawals of a call that has examined every account are covered. -/
theorem covered_of_examined (h : Sound fundsRead n) (hcall : ⟨t, []⟩ ∈ n.calls) :
    ∀ p ∈ t.objectWithdraws.toList, Covered fundsRead n.checker t.accumulatorVersion p := by
  obtain ⟨done, hdone, hexamined⟩ := h.examined _ hcall
  rw [append_nil] at hdone
  intro p hp
  exact hexamined p (by rw [← hdone]; exact hp)

theorem record (h : Sound fundsRead n) {s : ObjectFundsChecker} (hcalls : n.calls = pre ++ ⟨t, []⟩ :: post)
    (hrecord : n.checker.recordAll t.accumulatorVersion t.objectWithdraws.toList = .ok s) :
    Sound fundsRead { n with checker := s, calls := pre ++ post, accepted := n.accepted ++ [t] } := by
  have hcall : ⟨t, []⟩ ∈ n.calls := by simp [hcalls]
  have hsub := sublist_calls hcalls
  have hdisjoint := h.disjoint
  rw [hcalls, pairwise_append, pairwise_cons] at hdisjoint
  obtain ⟨-, ⟨hhead, -⟩, hcross⟩ := hdisjoint
  have hothers : ∀ c ∈ pre ++ post, c.transaction.Disjoint t := by
    intro c hc
    rcases mem_append.mp hc with hc | hc
    · exact hcross c hc ⟨t, []⟩ mem_cons_self
    · exact fun a ha ha' => hhead c hc a ha' ha
  exact h.accept (h.callsOpen ⟨t, []⟩ hcall) (fun c hc => ⟨hsub.subset hc, hothers c hc⟩) (h.disjoint.sublist hsub)
    (h.covered_of_examined hcall) hrecord

end Calls

theorem step (h : Sound fundsRead n) {n' : FundsNode} (hstep : FundsStep fundsRead n n') : Sound fundsRead n' := by
  cases hstep with
  | settle version => exact h.settle version
  | acceptWithoutWithdraws t ht => exact h.acceptWithoutWithdraws ht
  | call t _ hopen hdisjoint => exact h.call hopen hdisjoint
  | examine hcalls hexamine => exact h.examine hcalls hexamine
  | reject hcalls => exact h.reject hcalls
  | record hcalls hrecord => exact h.record hcalls hrecord
  | commit _ hcalls => exact h.commit hcalls

theorem of_reachable (h : FundsReachable fundsRead n) : Sound fundsRead n := by
  induction h with
  | start version => exact start version
  | step _ hstep ih => exact ih.step hstep

end FundsNode.Sound

end Sui

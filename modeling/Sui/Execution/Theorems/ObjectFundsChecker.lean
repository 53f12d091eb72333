import Sui.Execution.Lemmas.ObjectFundsChecker

/-!
# Object funds are not overdrawn

What is accepted at a version is covered by the balance at it, in every order of the calls, and the withdrawals and deposits of
the accepted transactions can be made one after the other.
-/

namespace Sui

open Library List

variable {fundsRead : AccountFundsRead} {n : FundsNode}

/-- The events of a transaction on an account of an object: it has no reservation for the account. -/
def FundsTransaction.objectEvents (a : AccumulatorObjId) (t : FundsTransaction) : List AccumulatorEvent :=
  if a ∈ t.addressFundsReservations then [] else t.accumulatorEvents

/-- At no time do the events of a transaction withdraw more than what was checked. -/
theorem FundsTransaction.netWithdrawn_le {a : AccumulatorObjId} {t : FundsTransaction} {pre : List AccumulatorEvent}
    (h : pre <+: t.objectEvents a) : netWithdrawn a pre ≤ (t.objectWithdraws[a]?.getD 0 : Nat) := by
  rw [objectEvents] at h
  rw [t.get_objectWithdraws a]
  split_ifs at h with hmem
  · rw [prefix_nil.mp h, if_pos hmem]
    simp [netWithdrawn]
  · rw [if_neg hmem]
    exact Sui.netWithdrawn_le h

/-- At no time do the events of transactions that are made one after the other withdraw more than what was checked. -/
theorem netWithdrawn_flatMap_le {a : AccumulatorObjId} {transactions : List FundsTransaction} {pre : List AccumulatorEvent}
    (h : pre <+: transactions.flatMap (FundsTransaction.objectEvents a)) :
    netWithdrawn a pre ≤ ((transactions.map fun t => t.objectWithdraws[a]?.getD 0).sum : Nat) := by
  induction transactions generalizing pre with
  | nil =>
    rw [flatMap_nil] at h
    rw [prefix_nil.mp h]
    simp [netWithdrawn]
  | cons t _ ih =>
    rw [flatMap_cons] at h
    rw [map_cons, sum_cons, Nat.cast_add]
    rcases prefix_append_cases h with hfirst | ⟨pre', rfl, hrest⟩
    · have hle := t.netWithdrawn_le hfirst
      omega
    · have hfirst := t.netWithdrawn_le (prefix_refl (t.objectEvents a))
      have hle := ih hrest
      rw [netWithdrawn_append]
      omega

/-- In every state of a run the withdrawals accepted at a version are at most the balance at it; the assertion of a call holds
at each account; a call records all withdrawals of its transaction or none; replaying the accepted events never makes the
balance negative; the indexes list the same accounts and versions; and once all versions are committed, both are empty. -/
theorem FundsReachable.not_overdrawn (h : FundsReachable fundsRead n) :
    (∀ a v, withdrawnAt n.accepted a v ≤ fundsRead.getAccountAmountAtVersion a v) ∧
    (∀ v p, ∃ b, n.checker.examine fundsRead v p = .ok b) ∧
    (∀ withdraws v, ∃ b s, n.checker.tryWithdraw fundsRead withdraws v = .ok (b, s) ∧
      (b = true → ∀ a v', s.unsettledWithdraw a v' = n.checker.unsettledWithdraw a v' + if v' = v then withdraws[a]?.getD 0 else 0) ∧
      (b = false → s = n.checker)) ∧
    (∀ t : FundsTransaction, ⟨t, []⟩ ∈ n.calls → ∃ s, n.checker.recordAll t.accumulatorVersion t.objectWithdraws.toList = .ok s ∧
      ∀ a v, s.unsettledWithdraw a v =
        n.checker.unsettledWithdraw a v + if v = t.accumulatorVersion then t.objectWithdraws[a]?.getD 0 else 0) ∧
    (∀ a v pre, pre <+: (n.accepted.filter fun t => t.accumulatorVersion = v).flatMap (FundsTransaction.objectEvents a) →
      0 ≤ (fundsRead.getAccountAmountAtVersion a v : Int) - netWithdrawn a pre) ∧
    (∀ (a : AccumulatorObjId) (v : SequenceNumber), (n.checker.unsettledWithdraws[a]?.bind fun withdraws => withdraws[v]?).isSome ↔
      a ∈ n.checker.unsettledAccounts[v]?.getD ∅) ∧
    ((∀ t ∈ n.accepted, t.accumulatorVersion ∈ n.committed) →
      n.checker.unsettledWithdraws = ∅ ∧ n.checker.unsettledAccounts = ∅) := by
  have hsound := FundsNode.Sound.of_reachable h
  refine ⟨hsound.funds, fun v p => ⟨_, hsound.examine_eq v p⟩, fun withdraws v => ?_, fun t ht => ?_, fun a v pre hpre => ?_,
    hsound.indexed.pairs, fun hcommitted => ?_⟩
  · rw [ObjectFundsChecker.tryWithdraw, hsound.examineAll_eq, Checked.ok_bind]
    by_cases hcovered : ∀ p ∈ withdraws.toList, Covered fundsRead n.checker v p
    · obtain ⟨s, hs, -, -, hsums, -⟩ := hsound.recordAll hcovered
      rw [decide_eq_true hcovered, if_pos rfl, hs]
      exact ⟨true, s, rfl, fun _ => hsums, nofun⟩
    · rw [decide_eq_false hcovered]
      exact ⟨false, n.checker, rfl, nofun, fun _ => rfl⟩
  · obtain ⟨s, hs, -, -, hsums, -⟩ := hsound.recordAll (hsound.covered_of_examined ht)
    exact ⟨s, hs, hsums⟩
  · have hnet := netWithdrawn_flatMap_le hpre
    have hfunds := hsound.funds a v
    rw [withdrawnAt] at hfunds
    omega
  · refine hsound.indexed.eq_empty fun a v hlisted => ?_
    obtain ⟨hopen, t, ht, rfl⟩ := hsound.used a v hlisted
    exact hopen (hcommitted t ht)

/-- The first loop of a call that nothing interrupts. -/
theorem FundsReachable.examineAll {t : FundsTransaction} {rest : List (AccumulatorObjId × Nat)} {b : Bool}
    (h : FundsReachable fundsRead { n with calls := n.calls ++ [⟨t, rest⟩] })
    (hrun : n.checker.examineAll fundsRead t.accumulatorVersion rest = .ok b) :
    FundsReachable fundsRead { n with calls := n.calls ++ if b then [⟨t, []⟩] else [] } := by
  induction rest with
  | nil =>
    obtain rfl := Except.ok.inj hrun
    exact h
  | cons withdraw rest ih =>
    obtain ⟨b', hb', hrun⟩ := Checked.bind_ok.mp hrun
    cases b' with
    | true => exact ih (h.step (.examine rfl hb')) hrun
    | false =>
      obtain rfl := Except.ok.inj hrun
      exact h.step (.reject rfl hb')

/-- A check that nothing interrupts is a run: the transaction is accepted if the funds suffice, and otherwise nothing changes. -/
theorem FundsReachable.checkObjectFunds (h : FundsReachable fundsRead n) {t : FundsTransaction}
    (hopen : t.accumulatorVersion ∉ n.committed) (hdisjoint : ∀ c ∈ n.calls, t.Disjoint c.transaction)
    {status : ObjectFundsWithdrawStatus} {s : ObjectFundsChecker}
    (hrun : n.checker.checkObjectFunds t.objectWithdraws t.accumulatorVersion fundsRead = .ok (status, s)) :
    FundsReachable fundsRead
      { n with checker := s, accepted := n.accepted ++ if status = .sufficientFunds then [t] else [] } := by
  unfold ObjectFundsChecker.checkObjectFunds at hrun
  split_ifs at hrun with hsettled
  · obtain ⟨⟨b, s'⟩, htry, hpair⟩ := Checked.bind_ok.mp hrun
    obtain ⟨rfl, rfl⟩ := Prod.mk.inj (Except.ok.inj hpair)
    obtain ⟨b', hexamine, hrecord⟩ := Checked.bind_ok.mp htry
    have hcalled := h.step (.call t hsettled hopen hdisjoint)
    have hexamined := hcalled.examineAll hexamine
    cases b' with
    | true =>
      obtain ⟨s'', hs, hpair⟩ := Checked.bind_ok.mp hrecord
      obtain ⟨rfl, rfl⟩ := Prod.mk.inj (Except.ok.inj hpair)
      simpa using hexamined.step (.record rfl hs)
    | false =>
      obtain ⟨rfl, rfl⟩ := Prod.mk.inj (Except.ok.inj hrecord)
      simpa using hexamined
  · obtain ⟨rfl, rfl⟩ := Prod.mk.inj (Except.ok.inj hrun)
    simpa using h

/-- Funds of ten at every version. -/
def tenFunds : AccountFundsRead := ⟨fun _ _ => 10, fun _ _ => by decide⟩

/-- A transaction that withdraws from an account after it deposited one. -/
def withdrawing (amount : Nat) : FundsTransaction :=
  ⟨3, [⟨1, ⟨1, .balance .sui⟩, .merge, .integer 1⟩, ⟨1, ⟨1, .balance .sui⟩, .split, .integer amount⟩], ∅⟩

/-- Of three checks at one version the second one fails, since the first one has used seven of the ten. -/
theorem FundsReachable.not_overdrawn_ten :
    ∃ n, FundsReachable tenFunds n ∧ n.accepted = [withdrawing 8, withdrawing 4] ∧ withdrawnAt n.accepted 1 3 = 10 ∧
      withdrawnAt n.accepted 1 3 ≤ tenFunds.getAccountAmountAtVersion 1 3 := by
  have hrun : (do
      let (status1, s) ← (ObjectFundsChecker.new 3).checkObjectFunds (withdrawing 8).objectWithdraws 3 tenFunds
      let (status2, s) ← s.checkObjectFunds (withdrawing 5).objectWithdraws 3 tenFunds
      let (status3, _) ← s.checkObjectFunds (withdrawing 4).objectWithdraws 3 tenFunds
      return [status1, status2, status3]) = .ok [.sufficientFunds, .insufficient, .sufficientFunds] := by decide +kernel
  obtain ⟨⟨status1, s1⟩, h1, hrun⟩ := Checked.bind_ok.mp hrun
  obtain ⟨⟨status2, s2⟩, h2, hrun⟩ := Checked.bind_ok.mp hrun
  obtain ⟨⟨status3, s3⟩, h3, hrun⟩ := Checked.bind_ok.mp hrun
  obtain ⟨rfl, rfl, rfl⟩ : status1 = .sufficientFunds ∧ status2 = .insufficient ∧ status3 = .sufficientFunds := by
    simpa using Except.ok.inj hrun
  have hreach1 := (FundsReachable.start 3 : FundsReachable tenFunds _).checkObjectFunds (t := withdrawing 8) not_mem_nil nofun h1
  have hreach2 := hreach1.checkObjectFunds (t := withdrawing 5) not_mem_nil nofun h2
  have hreach3 := hreach2.checkObjectFunds (t := withdrawing 4) not_mem_nil nofun h3
  have hsum : withdrawnAt [withdrawing 8, withdrawing 4] 1 3 = 10 := by decide +kernel
  exact ⟨_, hreach3, rfl, hsum, hreach3.not_overdrawn.1 1 3⟩

end Sui

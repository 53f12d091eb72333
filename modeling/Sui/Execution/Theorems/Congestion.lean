import Sui.Execution.Lemmas.Congestion

/-!
# The long-run load of an object

The transactions that a run of commits schedules on an object cost at most the budget of each commit, the burst and one
transaction, if the debt of an object decays by no more than that budget in each round that skips it. The decay is a parameter
of its own, and where it is larger a skipped round forgives more than a commit has paid for.

A run is that of one tracker, for transactions with or without randomness. Those that are cancelled after their last deferral
are left out.
-/

namespace Sui.Congestion

open Library Checked SharedObjectCongestionTracker List

def maxCost (txs : List Transaction) : Nat := (txs.map Transaction.estimateUs).max?.getD 0

theorem le_maxCost {txs : List Transaction} {tx : Transaction} (h : tx ∈ txs) : tx.estimateUs ≤ maxCost txs := by
  unfold maxCost
  cases hmax : (txs.map Transaction.estimateUs).max? with
  | none =>
    rw [map_eq_nil_iff.mp (List.max?_eq_none_iff.mp hmax)] at h
    cases h
  | some => exact (List.max?_eq_some_iff.mp hmax).2 _ (mem_map_of_mem h)

/-- A run of commits of consecutive rounds with one budget, whose costs are in the range in which additions do not saturate. -/
structure ConsecutiveCommits (params : Params) (budget firstRound : Nat) (commits : List Commit) : Prop where
  rounds : commits.map (fun commit => commit.info.round) = List.range' firstRound commits.length
  budgets : ∀ commit ∈ commits, params.commitBudget commit.info = budget
  costs : ∀ commit ∈ commits, ∀ tx ∈ commit.transactions, budget + params.maxBurst + tx.estimateUs < 2 ^ 64

theorem ConsecutiveCommits.round_eq {params : Params} {budget firstRound : Nat} {commits pre post : List Commit} {commit : Commit}
    (h : ConsecutiveCommits params budget firstRound commits) (hl : commits = pre ++ commit :: post) :
    commit.info.round = firstRound + pre.length := by
  have hget : (commits.map fun commit => commit.info.round)[pre.length]? = some commit.info.round := by
    rw [hl]
    simp
  rw [h.rounds, List.getElem?_range' (by rw [hl]; simp)] at hget
  simpa using (Option.some.inj hget).symm

/-- What is scheduled so far is within the budgets and the debt of the object, and the debt is within the burst and one transaction. -/
structure RunSpec (params : Params) (perCommitBudget budget round n : Nat) (acc : List Transaction × ObjectDebts) : Prop where
  roundsBefore : RoundsBefore acc.2 round
  paid : perCommitBudget ≤ budget → ∀ o maxCost, (∀ tx ∈ acc.1, tx.estimateUs ≤ maxCost) →
    exclusiveCost o acc.1 ≤ n * budget + min (pendingDebt acc.2 perCommitBudget round o) (params.maxBurst + maxCost)

theorem processCommits_ok (perCommitBudget : Nat) {params : Params} {budget firstRound : Nat} {debts : ObjectDebts} {commits : List Commit}
    (hrounds : RoundsBefore debts firstRound) (hcommits : ConsecutiveCommits params budget firstRound commits) :
    ∃ result, processCommits params perCommitBudget debts commits = .ok result ∧
      RunSpec params perCommitBudget budget (firstRound + commits.length) commits.length result := by
  unfold processCommits
  refine foldlM_total
    (fun pre acc => RunSpec params perCommitBudget budget (firstRound + pre.length) pre.length acc)
    ⟨hrounds, fun _ o maxCost _ => Nat.zero_le _⟩ ?_
  intro pre commit post acc hl hacc
  have hmem : commit ∈ commits := by simp [hl]
  have hround := hcommits.round_eq hl
  have hbudget := hcommits.budgets commit hmem
  obtain ⟨⟨scheduled, debts'⟩, hok, hstep⟩ := processCommit_ok params perCommitBudget commit
    (hround ▸ hacc.roundsBefore) (by rw [hbudget]; exact hcommits.costs commit hmem)
  refine ⟨(acc.1 ++ scheduled, debts'), by simp only [hok]; rfl, ?_, ?_⟩
  · rw [length_append, length_singleton, ← Nat.add_assoc, ← hround]
    exact hstep.roundsBefore
  · intro hdecay o maxCost hmax
    have hbefore := hacc.paid hdecay o maxCost fun tx htx => hmax tx (mem_append_left _ htx)
    have hafter := hstep.paid (by rwa [hbudget]) o maxCost fun tx htx => hmax tx (mem_append_right _ htx)
    rw [hround, hbudget] at hafter
    dsimp only at hbefore hafter ⊢
    rw [exclusiveCost_append, length_append, length_singleton, Nat.succ_mul, ← Nat.add_assoc]
    omega

/-! ## A decay above the budget -/

/-- A transaction that writes one object. -/
def writer (cost : Nat) : Transaction := ⟨0, [⟨0, 0, .mutable⟩], cost, false⟩

theorem processCommit_empty (params : Params) (perCommitBudget : Nat) (debts : ObjectDebts) (info : ConsensusCommitInfo)
    (previouslyDeferredTxDigests : BTreeMap TransactionDigest DeferralKey) :
    processCommit params perCommitBudget debts ⟨info, [], previouslyDeferredTxDigests⟩ = .ok ([], debts) := by
  have hids : BTreeSet.iter (∅ : BTreeSet ObjectID) = [] := BTreeSet.iter_eq_nil.mpr rfl
  simp [processCommit, loadInitialObjectDebts, insertCongestionControlDebts, accumulatedDebts, hids]

/-- A writer whose object has a debt within the burst limit is scheduled; what is over the budget is owed. -/
theorem processCommit_writer (params : Params) (perCommitBudget cost : Nat) {debts : ObjectDebts} (info : ConsensusCommitInfo)
    (hrounds : RoundsBefore debts info.round) (hbound : params.commitBudget info + params.maxBurst + cost < 2 ^ 64)
    (hpending : pendingDebt debts perCommitBudget info.round 0 ≤ params.commitBudget info + params.maxBurst) :
    ∃ debts', processCommit params perCommitBudget debts ⟨info, [writer cost], ∅⟩ = .ok ([writer cost], debts') ∧
      debts'[(0 : ObjectID)]? = if params.commitBudget info < pendingDebt debts perCommitBudget info.round 0 + cost then
        some (info.round, pendingDebt debts perCommitBudget info.round 0 + cost - params.commitBudget info)
      else debts[(0 : ObjectID)]? := by
  obtain ⟨initialObjectDebts, hload, hinitial⟩ := loadInitialObjectDebts_ok perCommitBudget [writer cost] hrounds
  set m := initialObjectDebts.foldl (fun m e => m.insert e.1 e.2) (∅ : BTreeMap ObjectID Nat) with hm
  have hcost : m[(0 : ObjectID)]?.getD 0 = pendingDebt debts perCommitBudget info.round 0 := by
    rw [(hinitial 0).1 ⟨writer cost, by simp, ⟨0, 0, .mutable⟩, by simp [writer], rfl⟩, pendingDebt]
  have hlimit : m[(0 : ObjectID)]?.getD 0 ≤ saturatingAdd (params.commitBudget info) params.maxBurst := by
    rw [hcost, saturatingAdd, Nat.min_eq_left (by omega)]
    exact hpending
  have hend : saturatingAdd (m[(0 : ObjectID)]?.getD 0) cost = pendingDebt debts perCommitBudget info.round 0 + cost := by
    rw [hcost, saturatingAdd, Nat.min_eq_left (by omega)]
  have hold : (m[(0 : ObjectID)]?.all fun old => decide (old ≤ saturatingAdd (m[(0 : ObjectID)]?.getD 0) cost)) = true := by
    rw [hend]
    cases hget : m[(0 : ObjectID)]? with
    | none => rfl
    | some =>
      rw [hget] at hcost
      simp only [Option.getD_some] at hcost
      simp [hcost]
  have htx : processTransaction ∅ info (⟨m, params⟩, []) (writer cost) =
      .ok (⟨m.insert 0 (saturatingAdd (m[(0 : ObjectID)]?.getD 0) cost), params⟩, [writer cost]) := by
    simp [processTransaction, writer, shouldDeferDueToObjectCongestion, bumpObjectExecutionCost, computeTxStartAtCost,
      SharedObjectCongestionTracker.cost, bumpObject, SharedObjectMutability.isExclusive,
      expect, hlimit, hold]
  refine ⟨insertCongestionControlDebts debts info.round (accumulatedDebts
    ⟨m.insert 0 (saturatingAdd (m[(0 : ObjectID)]?.getD 0) cost), params⟩ info), ?_, ?_⟩
  · rw [processCommit, hload]
    simp only [ok_bind, foldlM_cons, foldlM_nil, ← hm, htx, pure_eq_ok]
  · rw [get_insertCongestionControlDebts]
    simp [SharedObjectCongestionTracker.cost, hend]

/-- A large transaction, a commit that skips the object, and the same transaction again. -/
def skippingCommits (commitPeriodMicros cost : Nat) : List Commit :=
  [⟨⟨1, commitPeriodMicros⟩, [writer cost], ∅⟩, ⟨⟨2, commitPeriodMicros⟩, [], ∅⟩, ⟨⟨3, commitPeriodMicros⟩, [writer cost], ∅⟩]

theorem skippingCommits_consecutive (params : Params) (info : ConsensusCommitInfo) (cost : Nat)
    (h : params.commitBudget info + params.maxBurst + cost < 2 ^ 64) :
    ConsecutiveCommits params (params.commitBudget info) 1 (skippingCommits info.commitPeriodMicros cost) := by
  refine ⟨rfl, ?_, ?_⟩ <;> simp [skippingCommits, writer, Params.commitBudget] at h ⊢
  omega

/-- Where the decay is above the budget, both are scheduled. -/
theorem processCommits_skippingCommits {params : Params} {info : ConsensusCommitInfo} {perCommitBudget : Nat}
    (hD : perCommitBudget < 2 ^ 64) (h : 4 * params.commitBudget info + 2 * params.maxBurst + 1 < 2 ^ 64)
    (hdecay : params.commitBudget info < perCommitBudget) :
    ∃ debts, processCommits params perCommitBudget ∅
      (skippingCommits info.commitPeriodMicros (3 * params.commitBudget info + params.maxBurst + 1)) =
        .ok ([writer (3 * params.commitBudget info + params.maxBurst + 1),
          writer (3 * params.commitBudget info + params.maxBurst + 1)], debts) := by
  have hbudget : ∀ round, params.commitBudget ⟨round, info.commitPeriodMicros⟩ = params.commitBudget info := fun _ => rfl
  set cost := 3 * params.commitBudget info + params.maxBurst + 1 with hcost
  have hempty : RoundsBefore ∅ 1 := fun o debt hdebt => absurd hdebt (by simp)
  have hnone : pendingDebt ∅ perCommitBudget 1 0 = 0 := by simp [pendingDebt]
  -- the first writer leaves more than the burst and twice the budget
  obtain ⟨debts1, hok1, hdebt1⟩ := processCommit_writer params perCommitBudget cost ⟨1, info.commitPeriodMicros⟩ hempty
    (by rw [hbudget]; omega) (by rw [hnone]; exact Nat.zero_le _)
  simp only [hnone, hbudget] at hdebt1
  rw [if_pos (by omega)] at hdebt1
  have hrounds1 : RoundsBefore debts1 3 := by
    obtain ⟨result, hok, hstep⟩ := processCommit_ok params perCommitBudget
      ⟨⟨1, info.commitPeriodMicros⟩, [writer cost], ∅⟩ hempty (by simp [writer, hbudget]; omega)
    obtain rfl := ok_unique hok1 hok
    exact fun o debt hdebt => (hstep.roundsBefore o debt hdebt).trans (Nat.lt_succ_self 2)
  -- the skipped round takes the decay off it
  have hpending : pendingDebt debts1 perCommitBudget 3 0 ≤ params.commitBudget info + params.maxBurst := by
    have hmod : perCommitBudget * (3 - 1 - 1) % 2 ^ 64 = perCommitBudget := by rw [Nat.mul_one, Nat.mod_eq_of_lt hD]
    rw [pendingDebt, hdebt1, Option.map_some, Option.getD_some, decayed, hmod]
    omega
  obtain ⟨debts3, hok3, -⟩ := processCommit_writer params perCommitBudget cost ⟨3, info.commitPeriodMicros⟩ hrounds1
    (by rw [hbudget]; omega) hpending
  exact ⟨debts3, by simp [processCommits, skippingCommits, hok1, hok3, processCommit_empty]⟩

/-! ## The bound -/

/-- A run of consecutive commits schedules on an object no more than the budget of each commit, the burst and the largest
transaction, whichever commits skip it, if and only if the decay of a debt in a skipped round is within the budget. -/
theorem exclusiveCost_le_iff (params : Params) (info : ConsensusCommitInfo) (perCommitBudget : Nat) (hD : perCommitBudget < 2 ^ 64)
    (h : 4 * params.commitBudget info + 2 * params.maxBurst + 1 < 2 ^ 64) :
    (∀ (debts : ObjectDebts) (firstRound : Nat) (commits : List Commit), RoundsBefore debts firstRound →
      ConsecutiveCommits params (params.commitBudget info) firstRound commits →
      ∃ scheduled debts', processCommits params perCommitBudget debts commits = .ok (scheduled, debts') ∧
        ∀ o, exclusiveCost o scheduled ≤ commits.length * params.commitBudget info + params.maxBurst + maxCost scheduled) ↔
      perCommitBudget ≤ params.commitBudget info := by
  constructor
  · intro hall
    by_contra hdecay
    obtain ⟨debts, hok⟩ := processCommits_skippingCommits hD h (Nat.lt_of_not_le hdecay)
    obtain ⟨scheduled, debts', hok', hle⟩ := hall ∅ 1 _ (fun o debt hdebt => absurd hdebt (by simp))
      (skippingCommits_consecutive params info (3 * params.commitBudget info + params.maxBurst + 1) (by omega))
    obtain ⟨rfl, -⟩ := Prod.mk.inj (ok_unique hok hok')
    have := hle 0
    simp [exclusiveCost, writes, writer, maxCost, skippingCommits, SharedObjectMutability.isExclusive] at this
  · intro hdecay debts firstRound commits hrounds hcommits
    obtain ⟨⟨scheduled, debts'⟩, hok, hrun⟩ := processCommits_ok perCommitBudget hrounds hcommits
    refine ⟨scheduled, debts', hok, fun o => ?_⟩
    have := hrun.paid hdecay o (maxCost scheduled) fun tx htx => le_maxCost htx
    dsimp only at this
    omega

/-- The parameters of the protocol, with a tenth of a second between commits. -/
def protocolParams : Params := ⟨⟨50, 500_000, 20⟩, false⟩

/-- With the parameters of the protocol the bound does not hold of every run. With a decay of the budget it does. -/
theorem exclusiveCost_le_iff_protocolParams :
    (¬∀ (debts : ObjectDebts) (firstRound : Nat) (commits : List Commit), RoundsBefore debts firstRound →
      ConsecutiveCommits protocolParams 50_000 firstRound commits →
      ∃ scheduled debts', processCommits protocolParams 37_000_000 debts commits = .ok (scheduled, debts') ∧
        ∀ o, exclusiveCost o scheduled ≤ commits.length * 50_000 + 500_000 + maxCost scheduled) ∧
    ∃ scheduled debts', processCommits protocolParams 50_000 ∅ (skippingCommits 100_000 400_000) = .ok (scheduled, debts') ∧
      exclusiveCost 0 scheduled = 800_000 ∧ exclusiveCost 0 scheduled ≤ 3 * 50_000 + 500_000 + maxCost scheduled := by
  refine ⟨fun hall => ?_, ?_⟩
  · exact absurd ((exclusiveCost_le_iff protocolParams ⟨0, 100_000⟩ 37_000_000 (by decide) (by decide)).mp hall) (by decide)
  · obtain ⟨scheduled, debts', hok, hle⟩ := (exclusiveCost_le_iff protocolParams ⟨0, 100_000⟩ 50_000 (by decide) (by decide)).mpr
      (by decide) ∅ 1 (skippingCommits 100_000 400_000) (fun o debt hdebt => absurd hdebt (by simp))
      (skippingCommits_consecutive protocolParams ⟨0, 100_000⟩ 400_000 (by decide))
    have hcost : ((processCommits protocolParams 50_000 ∅ (skippingCommits 100_000 400_000)).map fun r => exclusiveCost 0 r.1) =
        .ok 800_000 := by decide +kernel
    rw [hok] at hcost
    exact ⟨scheduled, debts', hok, Except.ok.inj hcost, hle 0⟩

/-- Two transactions of the largest estimate on one object, two rounds apart, are both scheduled. -/
theorem exclusiveCost_gt_protocolParams :
    ∃ result, processCommits protocolParams 37_000_000 ∅ (skippingCommits 100_000 1_500_000) = .ok result ∧
      3 * protocolParams.commitBudget ⟨0, 100_000⟩ + protocolParams.maxBurst + maxCost result.1 < exclusiveCost 0 result.1 := by
  obtain ⟨result, hok, hgt⟩ := exists_ok
    (x := processCommits protocolParams 37_000_000 ∅ (skippingCommits 100_000 1_500_000))
    (fun r => 3 * protocolParams.commitBudget ⟨0, 100_000⟩ + protocolParams.maxBurst + maxCost r.1 < exclusiveCost 0 r.1)
    (by decide +kernel)
  exact ⟨result, hok, by simpa using hgt⟩

end Sui.Congestion

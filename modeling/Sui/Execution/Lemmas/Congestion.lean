import Sui.Execution.Congestion

/-!
# What a commit does to the debt of an object

The cost of an object in a commit is at least its debt and the estimates of the transactions that write it, and at most the burst
limit and one estimate. What is over the budget is its debt in the next round.
-/

namespace Sui.Congestion

open Library Checked BTreeMap SharedObjectCongestionTracker List

def writes (o : ObjectID) (tx : Transaction) : Bool := tx.sharedInputObjects.any fun obj => obj.id = o && obj.mutability.isExclusive

/-- The estimates of the transactions that write the object exclusively. -/
def exclusiveCost (o : ObjectID) (txs : List Transaction) : Nat := ((txs.filter (writes o)).map Transaction.estimateUs).sum

/-- One of the transactions uses the object. -/
def Uses (o : ObjectID) (txs : List Transaction) : Prop := ∃ tx ∈ txs, ∃ obj ∈ tx.sharedInputObjects, obj.id = o

theorem exclusiveCost_append (o : ObjectID) (txs txs' : List Transaction) :
    exclusiveCost o (txs ++ txs') = exclusiveCost o txs + exclusiveCost o txs' := by
  simp [exclusiveCost]

theorem uses_of_writes {o : ObjectID} {tx : Transaction} (h : writes o tx = true) : Uses o [tx] := by
  unfold writes at h
  simp only [any_eq_true, Bool.and_eq_true, decide_eq_true_eq] at h
  obtain ⟨obj, hobj, ho, -⟩ := h
  exact ⟨tx, mem_singleton.mpr rfl, obj, hobj, ho⟩

namespace SharedObjectCongestionTracker

theorem computeTxStartAtCost_ok (self : SharedObjectCongestionTracker) {objs : List SharedInputObject} (h : objs ≠ []) :
    ∃ s, self.computeTxStartAtCost objs = .ok s ∧ (∀ obj ∈ objs, self.cost obj.id ≤ s) ∧ ∃ obj ∈ objs, self.cost obj.id = s := by
  have hne : (objs.map fun obj => self.cost obj.id) ≠ [] := by simpa using h
  obtain ⟨s, hs⟩ := Option.ne_none_iff_exists'.mp (mt List.max?_eq_none_iff.mp hne)
  obtain ⟨hmem, hle⟩ := List.max?_eq_some_iff.mp hs
  obtain ⟨obj, hobj, hcost⟩ := mem_map.mp hmem
  exact ⟨s, by rw [computeTxStartAtCost, hs]; rfl, fun obj hobj => hle _ (mem_map_of_mem hobj), obj, hobj, hcost⟩

/-- The objects that are written get the cost at which the transaction ends. -/
theorem foldlM_bumpObject {objs : List SharedInputObject} {m : BTreeMap ObjectID Nat} (endCost : Nat)
    (h : ∀ obj ∈ objs, m[obj.id]?.getD 0 ≤ endCost) :
    ∃ m', objs.foldlM (bumpObject endCost) m = .ok m' ∧ ∀ o : ObjectID, m'[o]? =
      if objs.any (fun obj => obj.id = o && obj.mutability.isExclusive) then some endCost else m[o]? := by
  refine foldlM_total (fun (pre : List SharedInputObject) (m' : BTreeMap ObjectID Nat) => ∀ o : ObjectID, m'[o]? =
    if pre.any (fun obj => obj.id = o && obj.mutability.isExclusive) then some endCost else m[o]?) (by simp) ?_
  intro pre obj post m' hl hm'
  unfold bumpObject
  by_cases hexcl : obj.mutability.isExclusive = true
  · have hold : (m'[obj.id]?.all fun oldEndCost => decide (oldEndCost ≤ endCost)) = true := by
      rw [hm']
      split
      · simp
      · have := h obj (by simp [hl])
        cases hmo : m[obj.id]? with
        | none => rfl
        | some => simpa [hmo] using this
    refine ⟨m'.insert obj.id endCost, by rw [if_pos hexcl, hold]; rfl, fun o => ?_⟩
    rw [get_insert, hm', any_append]
    by_cases ho : obj.id = o <;> simp [ho, hexcl]
  · refine ⟨m', by rw [if_neg hexcl]; rfl, fun o => ?_⟩
    rw [hm', any_append]
    simp [hexcl]

end SharedObjectCongestionTracker

/-- What happens to a transaction. -/
inductive Processed (commitInfo : ConsensusCommitInfo) (acc : SharedObjectCongestionTracker × List Transaction) (tx : Transaction) :
    SharedObjectCongestionTracker × List Transaction → Prop
  | deferred : Processed commitInfo acc tx acc
  | scheduled (tracker : SharedObjectCongestionTracker) (startCost : Nat) : tracker.params = acc.1.params →
      (∀ obj ∈ tx.sharedInputObjects, acc.1.cost obj.id ≤ startCost) →
      startCost ≤ saturatingAdd (acc.1.params.commitBudget commitInfo) acc.1.params.maxBurst →
      (∀ o : ObjectID, tracker.objectExecutionCost[o]? =
        if writes o tx then some (saturatingAdd startCost tx.estimateUs) else acc.1.objectExecutionCost[o]?) →
      Processed commitInfo acc tx (tracker, acc.2 ++ [tx])

theorem processTransaction_ok (previouslyDeferredTxDigests : BTreeMap TransactionDigest DeferralKey)
    (commitInfo : ConsensusCommitInfo) (acc : SharedObjectCongestionTracker × List Transaction) (tx : Transaction) :
    ∃ acc', processTransaction previouslyDeferredTxDigests commitInfo acc tx = .ok acc' ∧ Processed commitInfo acc tx acc' := by
  unfold processTransaction
  by_cases hother : tx.deferredOtherwise = true
  · exact ⟨acc, by rw [if_pos hother]; rfl, .deferred⟩
  · rw [if_neg hother]
    unfold shouldDeferDueToObjectCongestion bumpObjectExecutionCost
    by_cases hempty : tx.sharedInputObjects = []
    · refine ⟨(acc.1, acc.2 ++ [tx]), by simp [hempty], .scheduled acc.1 0 rfl (by simp [hempty]) (Nat.zero_le _) fun o => ?_⟩
      simp [writes, hempty]
    · have hisEmpty : tx.sharedInputObjects.isEmpty = false := by simpa using hempty
      obtain ⟨s, hs, hle, obj, hobj, hcost⟩ := computeTxStartAtCost_ok acc.1 hempty
      simp only [hisEmpty, Bool.false_eq_true, if_false, hs, ok_bind]
      by_cases hlimit : s ≤ saturatingAdd (acc.1.params.commitBudget commitInfo) acc.1.params.maxBurst
      · have hsat : s ≤ saturatingAdd s tx.estimateUs := by
          unfold saturatingAdd at hlimit ⊢
          omega
        obtain ⟨m, hm, hspec⟩ := foldlM_bumpObject (saturatingAdd s tx.estimateUs)
          fun obj hobj => (hle obj hobj).trans hsat
        simp only [hlimit, if_true, pure_eq_ok, ok_bind, hm]
        exact ⟨_, rfl, .scheduled ⟨m, acc.1.params⟩ s rfl hle hlimit hspec⟩
      · have hcongested : ((tx.sharedInputObjects.filter fun obj => s = acc.1.cost obj.id).map SharedInputObject.id).isEmpty = false := by
          rw [isEmpty_eq_false_iff]
          exact ne_nil_of_mem (mem_map_of_mem (mem_filter.mpr ⟨hobj, by simp [hcost]⟩))
        simp only [hlimit, if_false, hcongested, Bool.not_false, assert_true, ok_bind, pure_eq_ok]
        exact ⟨acc, rfl, .deferred⟩

/-! ## A commit -/

/-- The debt that a stored entry is at a round. -/
def decayed (perCommitBudget currentRound : Nat) (debt : Nat × Nat) : Nat :=
  debt.2 - perCommitBudget * (currentRound - debt.1 - 1) % 2 ^ 64

/-- The debt with which an object would enter the commit of a round. -/
def pendingDebt (debts : ObjectDebts) (perCommitBudget currentRound : Nat) (o : ObjectID) : Nat :=
  (debts[o]?.map (decayed perCommitBudget currentRound)).getD 0

/-- Every stored debt is of a round before. -/
def RoundsBefore (debts : ObjectDebts) (round : Nat) : Prop := ∀ (o : ObjectID) (debt : Nat × Nat), debts[o]? = some debt → debt.1 < round

variable {debts : ObjectDebts}

theorem loadInitialObjectDebts_ok (perCommitBudget : Nat) (txs : List Transaction) {round : Nat}
    (h : RoundsBefore debts round) :
    ∃ l, loadInitialObjectDebts debts perCommitBudget round txs = .ok l ∧
      ∀ o : ObjectID, (Uses o txs → (l.foldl (fun m e => m.insert e.1 e.2) (∅ : BTreeMap ObjectID Nat))[o]? =
          debts[o]?.map (decayed perCommitBudget round)) ∧
        (¬Uses o txs → (l.foldl (fun m e => m.insert e.1 e.2) (∅ : BTreeMap ObjectID Nat))[o]? = none) := by
  unfold loadInitialObjectDebts
  simp only []
  set ids := BTreeSet.iter (txs.flatMap fun tx => tx.sharedInputObjects.map SharedInputObject.id).toFinset with hids
  have hmem : ∀ o, o ∈ ids ↔ Uses o txs := by
    intro o
    simp [hids, Uses]
  refine ⟨(ids.filterMap fun id => debts[id]?.map fun debt => (id, debt)).map fun e => (e.1, decayed perCommitBudget round e.2),
    mapM_eq fun e he => ?_, fun o => ⟨fun hu => ?_, fun hu => ?_⟩⟩
  · obtain ⟨id, -, hid⟩ := mem_filterMap.mp he
    obtain ⟨debt, hdebt, rfl⟩ := Option.map_eq_some_iff.mp hid
    simp [initialDebt, h _ _ hdebt, decayed]
  · rw [foldl_map]
    cases hdebt : debts[o]? with
    | none =>
      rw [get_foldl_insert_not_mem]
      · simp
      · intro hin
        obtain ⟨e, he, rfl⟩ := mem_map.mp hin
        obtain ⟨id, -, hid⟩ := mem_filterMap.mp he
        obtain ⟨debt, hdebt', rfl⟩ := Option.map_eq_some_iff.mp hid
        exact absurd (hdebt.symm.trans hdebt') nofun
    | some debt =>
      rw [get_foldl_insert_mem (fun o => (debts[o]?.map (decayed perCommitBudget round)).getD 0)]
      · simp [hdebt]
      · intro e he
        obtain ⟨id, -, hid⟩ := mem_filterMap.mp he
        obtain ⟨debt, hdebt', rfl⟩ := Option.map_eq_some_iff.mp hid
        simp [hdebt']
      · exact mem_map.mpr ⟨(o, debt), mem_filterMap.mpr ⟨o, (hmem o).mpr hu, by simp [hdebt]⟩, rfl⟩
  · rw [foldl_map, get_foldl_insert_not_mem]
    · simp
    · intro hin
      obtain ⟨e, he, rfl⟩ := mem_map.mp hin
      obtain ⟨id, hid', hid⟩ := mem_filterMap.mp he
      obtain ⟨debt, -, rfl⟩ := Option.map_eq_some_iff.mp hid
      exact hu ((hmem id).mp hid')

/-- What the transactions of a commit that were processed so far leave of an object. -/
structure CommitSpec (params : Params) (commitInfo : ConsensusCommitInfo) (initial : SharedObjectCongestionTracker) (o : ObjectID)
    (processed : List Transaction) (acc : SharedObjectCongestionTracker × List Transaction) : Prop where
  params_eq : acc.1.params = params
  subset : acc.2 ⊆ processed
  unused : ¬Uses o processed → acc.1.objectExecutionCost[o]? = initial.objectExecutionCost[o]?
  le_cost : initial.cost o + exclusiveCost o acc.2 ≤ acc.1.cost o
  cost_le : (acc.1.cost o = initial.cost o ∧ exclusiveCost o acc.2 = 0) ∨
    ∀ maxCost, (∀ tx ∈ acc.2, tx.estimateUs ≤ maxCost) → acc.1.cost o ≤ params.commitBudget commitInfo + params.maxBurst + maxCost

theorem CommitSpec.step {params : Params} {commitInfo : ConsensusCommitInfo} {initial : SharedObjectCongestionTracker} {o : ObjectID}
    {processed : List Transaction} {tx : Transaction} {acc acc' : SharedObjectCongestionTracker × List Transaction}
    (hbound : params.commitBudget commitInfo + params.maxBurst + tx.estimateUs < 2 ^ 64)
    (hspec : CommitSpec params commitInfo initial o processed acc) (h : Processed commitInfo acc tx acc') :
    CommitSpec params commitInfo initial o (processed ++ [tx]) acc' := by
  have hunused : ¬Uses o (processed ++ [tx]) → ¬Uses o processed ∧ writes o tx = false := by
    intro hu
    refine ⟨fun ⟨tx', htx', hobj⟩ => hu ⟨tx', mem_append_left _ htx', hobj⟩, ?_⟩
    rw [← Bool.not_eq_true]
    intro hw
    obtain ⟨tx', htx', hobj⟩ := uses_of_writes hw
    exact hu ⟨tx', mem_append_right _ htx', hobj⟩
  cases h with
  | deferred =>
    exact ⟨hspec.params_eq, fun x hx => mem_append_left _ (hspec.subset hx), fun hu => hspec.unused (hunused hu).1,
      hspec.le_cost, hspec.cost_le⟩
  | scheduled tracker startCost hparams hstart hlimit hget =>
    rw [hspec.params_eq] at hparams hlimit
    have hstart_le : startCost ≤ params.commitBudget commitInfo + params.maxBurst := hlimit.trans (Nat.min_le_left _ _)
    have hend : saturatingAdd startCost tx.estimateUs = startCost + tx.estimateUs := Nat.min_eq_left (by omega)
    have hsub : acc.2 ++ [tx] ⊆ processed ++ [tx] := by
      intro x hx
      rcases mem_append.mp hx with hx | hx
      · exact mem_append_left _ (hspec.subset hx)
      · exact mem_append_right _ hx
    cases hw : writes o tx with
    | false =>
      have hcost : tracker.cost o = acc.1.cost o := by simp [cost, hget, hw]
      have hexcl : exclusiveCost o (acc.2 ++ [tx]) = exclusiveCost o acc.2 := by
        rw [exclusiveCost_append]
        simp [exclusiveCost, hw]
      refine ⟨hparams, hsub, fun hu => ?_, ?_, ?_⟩
      · simp only [hget, hw, Bool.false_eq_true, if_false]
        exact hspec.unused (hunused hu).1
      · simp only [hcost, hexcl]
        exact hspec.le_cost
      · simp only [hcost, hexcl]
        rcases hspec.cost_le with hle | hle
        · exact .inl hle
        · exact .inr fun maxCost hmax => hle maxCost fun tx' htx' => hmax tx' (mem_append_left _ htx')
    | true =>
      have hcost : tracker.cost o = startCost + tx.estimateUs := by simp [cost, hget, hw, hend]
      have hexcl : exclusiveCost o (acc.2 ++ [tx]) = exclusiveCost o acc.2 + tx.estimateUs := by
        rw [exclusiveCost_append]
        simp [exclusiveCost, hw]
      refine ⟨hparams, hsub, fun hu => absurd hw (by simp [(hunused hu).2]), ?_, .inr fun maxCost hmax => ?_⟩
      · obtain ⟨tx', htx', obj, hobj, ho⟩ := uses_of_writes hw
        obtain rfl := mem_singleton.mp htx'
        have hle := hstart obj hobj
        rw [ho] at hle
        have := hspec.le_cost
        simp only [hcost, hexcl]
        omega
      · have := hmax tx (by simp)
        simp only [hcost]
        omega

/-- What is over the budget is the debt of the round, and the other stored debts stay. -/
theorem get_insertCongestionControlDebts (debts : ObjectDebts) (tracker : SharedObjectCongestionTracker)
    (commitInfo : ConsensusCommitInfo) (o : ObjectID) :
    (insertCongestionControlDebts debts commitInfo.round (tracker.accumulatedDebts commitInfo))[o]? =
      if tracker.params.commitBudget commitInfo < tracker.cost o then
        some (commitInfo.round, tracker.cost o - tracker.params.commitBudget commitInfo)
      else debts[o]? := by
  unfold insertCongestionControlDebts
  have hmem : ∀ e, e ∈ tracker.accumulatedDebts commitInfo ↔ tracker.params.commitBudget commitInfo < tracker.cost e.1 ∧
      e.2 = tracker.cost e.1 - tracker.params.commitBudget commitInfo := by
    intro e
    unfold accumulatedDebts
    simp only [mem_filterMap, Prod.exists, mem_toList, Option.ite_none_right_eq_some, Option.some.injEq]
    constructor
    · rintro ⟨o, c, hget, hpos, rfl⟩
      simp only [cost, hget, Option.getD_some, and_true]
      omega
    · rintro ⟨hlt, hval⟩
      cases hget : tracker.objectExecutionCost[e.1]? with
      | none => simp [cost, hget] at hlt
      | some c =>
        simp only [cost, hget, Option.getD_some] at hlt hval
        exact ⟨e.1, c, hget, by omega, by rw [← hval]⟩
  split_ifs with hlt
  · exact get_foldl_insert_mem (fun o => (commitInfo.round, tracker.cost o - tracker.params.commitBudget commitInfo))
      (fun e he => by rw [((hmem e).mp he).2]) _
      (mem_map.mpr ⟨(o, tracker.cost o - tracker.params.commitBudget commitInfo), (hmem _).mpr ⟨hlt, rfl⟩, rfl⟩)
  · refine get_foldl_insert_not_mem _ fun hin => hlt ?_
    obtain ⟨e, he, rfl⟩ := mem_map.mp hin
    exact ((hmem e).mp he).1

/-- A round that skips an object takes at most the budget of the configuration off its debt. -/
theorem decayed_succ {perCommitBudget round : Nat} {debt : Nat × Nat} (h : debt.1 < round) :
    decayed perCommitBudget round debt ≤ decayed perCommitBudget (round + 1) debt + perCommitBudget := by
  unfold decayed
  have hrounds : round + 1 - debt.1 - 1 = round - debt.1 - 1 + 1 := by omega
  have hmod : (perCommitBudget * (round - debt.1 - 1) + perCommitBudget) % 2 ^ 64 ≤
      perCommitBudget * (round - debt.1 - 1) % 2 ^ 64 + perCommitBudget := by
    rw [Nat.add_mod]
    exact (Nat.mod_le _ _).trans (Nat.add_le_add_left (Nat.mod_le _ _) _)
  rw [hrounds, Nat.mul_add, Nat.mul_one]
  omega

theorem pendingDebt_succ (perCommitBudget : Nat) {round : Nat} (h : RoundsBefore debts round) (o : ObjectID) :
    pendingDebt debts perCommitBudget round o ≤ pendingDebt debts perCommitBudget (round + 1) o + perCommitBudget := by
  unfold pendingDebt
  cases hget : debts[o]? with
  | none => exact Nat.zero_le _
  | some debt => exact decayed_succ (h o debt hget)

/-- What a commit does with the object, where the decay is within the budget: the debt pays in advance for what is over it. -/
structure CommitStep (params : Params) (perCommitBudget : Nat) (debts : ObjectDebts) (commit : Commit)
    (result : List Transaction × ObjectDebts) : Prop where
  subset : result.1 ⊆ commit.transactions
  roundsBefore : RoundsBefore result.2 (commit.info.round + 1)
  paid : perCommitBudget ≤ params.commitBudget commit.info → ∀ o maxCost, (∀ tx ∈ result.1, tx.estimateUs ≤ maxCost) →
    min (pendingDebt debts perCommitBudget commit.info.round o) (params.maxBurst + maxCost) + exclusiveCost o result.1 ≤
      params.commitBudget commit.info +
        min (pendingDebt result.2 perCommitBudget (commit.info.round + 1) o) (params.maxBurst + maxCost)

theorem processCommit_ok (params : Params) (perCommitBudget : Nat) (commit : Commit)
    (hrounds : RoundsBefore debts commit.info.round)
    (hbound : ∀ tx ∈ commit.transactions, params.commitBudget commit.info + params.maxBurst + tx.estimateUs < 2 ^ 64) :
    ∃ result, processCommit params perCommitBudget debts commit = .ok result ∧
      CommitStep params perCommitBudget debts commit result := by
  obtain ⟨initialObjectDebts, hload, hinitial⟩ := loadInitialObjectDebts_ok perCommitBudget commit.transactions hrounds
  let initial : SharedObjectCongestionTracker := ⟨initialObjectDebts.foldl (fun m e => m.insert e.1 e.2) ∅, params⟩
  obtain ⟨⟨tracker, scheduled⟩, hfold, hspec⟩ := foldlM_total (l := commit.transactions)
    (f := processTransaction commit.previouslyDeferredTxDigests commit.info) (b := (initial, []))
    (fun pre acc => ∀ o, CommitSpec params commit.info initial o pre acc)
    (fun o => ⟨rfl, by simp, fun _ => rfl, by simp [exclusiveCost], .inl ⟨rfl, rfl⟩⟩)
    (fun pre tx post acc hl hacc => by
      obtain ⟨acc', hacc', hprocessed⟩ := processTransaction_ok commit.previouslyDeferredTxDigests commit.info acc tx
      exact ⟨acc', hacc', fun o => (hacc o).step (hbound tx (by simp [hl])) hprocessed⟩)
  have hparams : tracker.params = params := (hspec 0).params_eq
  refine ⟨(scheduled, insertCongestionControlDebts debts commit.info.round (tracker.accumulatedDebts commit.info)), ?_,
    (hspec 0).subset, ?_, ?_⟩
  · rw [processCommit, hload]
    simp only [ok_bind]
    rw [hfold]
    rfl
  · intro o debt hdebt
    dsimp only at hdebt
    rw [get_insertCongestionControlDebts] at hdebt
    split at hdebt
    · cases hdebt
      exact Nat.lt_succ_self _
    · exact Nat.lt_succ_of_lt (hrounds o debt hdebt)
  · intro hdecay o maxCost hmax
    dsimp only at hmax ⊢
    have hget := get_insertCongestionControlDebts debts tracker commit.info o
    rw [hparams] at hget
    obtain ⟨-, -, hunused, hle, hcost⟩ := hspec o
    dsimp only at hunused hle hcost
    by_cases hu : Uses o commit.transactions
    · have hinit : initial.cost o = pendingDebt debts perCommitBudget commit.info.round o := by
        simp [initial, cost, pendingDebt, (hinitial o).1 hu]
      rw [hinit] at hle hcost
      by_cases hover : params.commitBudget commit.info < tracker.cost o
      · have hpending : pendingDebt (insertCongestionControlDebts debts commit.info.round
            (tracker.accumulatedDebts commit.info)) perCommitBudget (commit.info.round + 1) o =
            tracker.cost o - params.commitBudget commit.info := by
          rw [pendingDebt, hget, if_pos hover]
          simp [decayed]
        rw [hpending]
        rcases hcost with hcost | hcost
        · omega
        · have := hcost maxCost hmax
          omega
      · omega
    · have hnone : initial.objectExecutionCost[o]? = none := (hinitial o).2 hu
      have hzero : tracker.cost o = 0 := by rw [cost, hunused hu, hnone, Option.getD_none]
      have hsame : pendingDebt (insertCongestionControlDebts debts commit.info.round
          (tracker.accumulatedDebts commit.info)) perCommitBudget (commit.info.round + 1) o =
          pendingDebt debts perCommitBudget (commit.info.round + 1) o := by
        rw [pendingDebt, hget, if_neg (by omega)]
        rfl
      have := pendingDebt_succ perCommitBudget hrounds o
      rw [hsame]
      omega

end Sui.Congestion

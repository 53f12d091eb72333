import Sui.Execution.Lemmas.SharedObjectVersionRuns

/-!
# The versions of shared objects are a linear history

Shared objects are registers that the exclusive accesses of the transactions that are not cancelled write, and every access gets
what the register holds.
-/

namespace Sui.SharedObjVerManager

open Library Checked

variable {epochStore : EpochStore} {cacheReader : ObjectCacheRead} {cancelledTxns : CancelledTxns} {init next : NextVersions}
  {seq : List Schedulable} {assigned : List (TransactionKey × AssignedVersions)}

variable (cancelledTxns seq assigned) in
/-- The access of the schedulable at an index to an object got a version, and the schedulable is not cancelled. -/
def AccessAt (i : Nat) (k : ConsensusObjectSequenceKey) (v : SequenceNumber) : Prop :=
  ∃ s a, seq[i]? = some s ∧ assigned[i]? = some a ∧ s.cancellationInfo cancelledTxns = none ∧ (k, v) ∈ a.2.sharedObjectVersions

/-- The linear history of a sequence, with what follows for the order of the versions. -/
structure LinearHistory (epochStore : EpochStore) (cacheReader : ObjectCacheRead) (cancelledTxns : CancelledTxns) (init : NextVersions)
    (seq : List Schedulable) (assigned : List (TransactionKey × AssignedVersions)) (next : NextVersions) : Prop
    extends History epochStore cancelledTxns init seq assigned next where
  initial : ∀ s ∈ seq, ∀ o ∈ s.inputs epochStore,
    init[o.idAndVersion]? = some (initialVersion epochStore cacheReader o.idAndVersion)
  access : ∀ i k v, AccessAt cancelledTxns seq assigned i k v → NextVersionAt epochStore cancelledTxns init seq assigned i k v
  increasing : ∀ i j k v w, i < j → Wrote epochStore cancelledTxns seq i k → AccessAt cancelledTxns seq assigned i k v →
    AccessAt cancelledTxns seq assigned j k w → v < w
  shared : ∀ i j k v w, i ≤ j → (∀ x, i ≤ x → x < j → ¬ Wrote epochStore cancelledTxns seq x k) →
    AccessAt cancelledTxns seq assigned i k v → AccessAt cancelledTxns seq assigned j k w → v = w
  left : ∀ i k v, Wrote epochStore cancelledTxns seq i k → NextVersionAt epochStore cancelledTxns init seq assigned (i + 1) k v →
    v = leavesAt seq assigned i
  above : ∀ (i : Nat) s a, seq[i]? = some s → assigned[i]? = some a →
    (∀ v ∈ s.ownVersions, v < leavesAt seq assigned i) ∧ ∀ p ∈ a.2.sharedObjectVersions, p.2 < leavesAt seq assigned i
  unchanged : ∀ (i : Nat) s, seq[i]? = some s → s.cancellationInfo cancelledTxns ≠ none → ∀ k v,
    NextVersionAt epochStore cancelledTxns init seq assigned i k v →
      NextVersionAt epochStore cancelledTxns init seq assigned (i + 1) k v
  settlement : ∀ i epoch height, seq[i]? = some (.accumulatorSettlement epoch height) →
    ∃ v, epochStore.accumulatorRootObjInitialSharedVersion = some v ∧
      Wrote epochStore cancelledTxns seq i ⟨suiAccumulatorRootObjectId, v⟩

namespace History

variable {k : ConsensusObjectSequenceKey}

section

variable (h : History epochStore cancelledTxns init seq assigned next)

include h

theorem access {i : Nat} {v : SequenceNumber} (ha : AccessAt cancelledTxns seq assigned i k v) :
    NextVersionAt epochStore cancelledTxns init seq assigned i k v := by
  obtain ⟨s, a, hs, ha, hnone, hp⟩ := ha
  exact h.current i s a hs ha hnone _ hp

end

end History

theorem linearHistory_of_ok {a : ConsensusSharedObjVerAssignment} {epochStore' : EpochStore}
    (h : assignVersionsFromConsensus epochStore cacheReader cancelledTxns seq = .ok (a, epochStore')) :
    ∃ init, LinearHistory epochStore cacheReader cancelledTxns init seq a.assignedVersions a.sharedInputNextVersions := by
  obtain ⟨accumulator, -, hall, -, hfold, -⟩ := assignVersionsFromConsensus_ok.mp h
  have hist := history_of_foldlM hfold
  refine ⟨_, hist, ?_, fun i k v => hist.access,
    fun i j k v w hij hw hv hv' => LastWrite.lt_of_wrote (fun _ _ hw hv => hist.lt_leavesAt hw hv) (hist.access hv) hw (hist.access hv') hij,
    fun i j k v w hij hn hv hv' => ((hist.access hv).of_not_wrote hij hn).unique (hist.access hv'),
    fun i k v hw hv => hv.unique (LastWrite.step_of_wrote hw), ?_, fun i s hs hc k v hv => hv.step_of_not_wrote ?_, ?_⟩
  · intro s hs o ho
    exact get_withInitial_mem _ _ (mem_keysOf.mpr (.inl ⟨s, hs, o, ho, rfl⟩))
  · intro i s a' hs ha
    rw [leavesAt, hs, ha]
    exact ⟨fun v => Schedulable.lt_leaves_of_own, fun p => Schedulable.lt_leaves_of_assigned⟩
  · rintro ⟨s', hs', hnone, -⟩
    exact hc (Option.some.inj (hs.symm.trans hs') ▸ hnone)
  · intro i epoch height hs
    obtain ⟨l, hl⟩ := hall _ (List.mem_of_getElem? hs)
    have hinputs := Schedulable.inputs_eq hl
    simp only [Schedulable.sharedInputObjects, bind_ok, expect_ok, pure_ok] at hl
    obtain ⟨v, hv, rfl⟩ := hl
    exact ⟨v, hv, _, hs, rfl, _, hinputs ▸ List.mem_singleton_self _, rfl, rfl⟩

/-- The versions that `assign_versions_from_consensus` assigns are a linear history of the accesses to the shared objects; a
call never panics because an object is missing; and a call for two sequences is two calls. -/
theorem assignVersionsFromConsensus_linear (epochStore : EpochStore) (cacheReader : ObjectCacheRead) (cancelledTxns : CancelledTxns) :
    (∀ seq, ErrorsIn (¬ ObjectMissing ·) (assignVersionsFromConsensus epochStore cacheReader cancelledTxns seq)) ∧
      (∀ seq a epochStore', assignVersionsFromConsensus epochStore cacheReader cancelledTxns seq = .ok (a, epochStore') →
        ∃ init, LinearHistory epochStore cacheReader cancelledTxns init seq a.assignedVersions a.sharedInputNextVersions) ∧
      ∀ seq1 seq2 o, (∃ r, assignVersionsFromConsensus epochStore cacheReader cancelledTxns (seq1 ++ seq2) = .ok r ∧ outcome r = o) ↔
        ∃ r1 r2, assignVersionsFromConsensus epochStore cacheReader cancelledTxns seq1 = .ok r1 ∧
          assignVersionsFromConsensus (outcome r1).2 cacheReader cancelledTxns seq2 = .ok r2 ∧
          ((outcome r1).1 ++ (outcome r2).1, (outcome r2).2) = o :=
  ⟨assignVersionsFromConsensus_errors epochStore cacheReader cancelledTxns, fun _ _ _ => linearHistory_of_ok, fun _ _ => assign_append⟩

/-- An epoch with accumulators, and no next versions yet. -/
def freshEpochStore : EpochStore := ⟨true, some 2, some 3, true, ∅⟩

/-- A write with an owned object at version 9, a cancelled write, a read and a settlement. -/
def mixedSequence : List Schedulable :=
  [.transaction ⟨.digest 1, [⟨50, 4, .mutable⟩], [⟨70, 9⟩], []⟩, .transaction ⟨.digest 2, [⟨50, 4, .mutable⟩], [], []⟩,
    .transaction ⟨.digest 3, [⟨50, 4, .immutable⟩], [], []⟩, .accumulatorSettlement 0 1]

def secondCancelled : CancelledTxns := (∅ : CancelledTxns).insert 2 .dkgFailed

/-- The read after the write gets the version that the write left, past the cancelled one; the settlement moves the root. -/
theorem assignVersionsFromConsensus_linear_mixed :
    ∃ a epochStore', assignVersionsFromConsensus freshEpochStore (fun _ => none) secondCancelled mixedSequence =
        .ok (a, epochStore') ∧
      (∃ init, LinearHistory freshEpochStore (fun _ => none) secondCancelled init mixedSequence a.assignedVersions
        a.sharedInputNextVersions) ∧
      a.assignedVersions.map (fun p => p.2.sharedObjectVersions.map Prod.snd) =
        [[4], [SequenceNumber.cancelledRead], [10], [3]] := by
  have hversions : (assignVersionsFromConsensus freshEpochStore (fun _ => none) secondCancelled mixedSequence).toOption.map
      (fun r => r.1.assignedVersions.map fun p => p.2.sharedObjectVersions.map Prod.snd) =
      some [[4], [SequenceNumber.cancelledRead], [10], [3]] := by decide +kernel
  cases hcall : assignVersionsFromConsensus freshEpochStore (fun _ => none) secondCancelled mixedSequence with
  | error =>
    rw [hcall] at hversions
    cases hversions
  | ok r =>
    rw [hcall] at hversions
    exact ⟨r.1, r.2, rfl, (assignVersionsFromConsensus_linear _ _ _).2.1 _ _ _ hcall, Option.some.inj hversions⟩

end Sui.SharedObjVerManager

import Sui.Execution.Lemmas.SharedObjectVersions

/-!
# Calls of the version manager one after the other

The next call finds the next versions in the per-epoch store: two calls for two sequences are one call for both. And a call
panics because of the configuration or a version that is too large, not because an object is missing.
-/

namespace Sui.SharedObjVerManager

open Library Checked BTreeMap List Option

variable {epochStore : EpochStore} {cancelledTxns : CancelledTxns} {cacheReader : ObjectCacheRead}
  {seq seq1 seq2 : List Schedulable} {accumulator : List ConsensusObjectSequenceKey}

/-! ## The table between two calls -/

section Table

variable (table : NextVersions)

theorem inputs_table (s : Schedulable) :
    s.inputs { epochStore with nextSharedObjectVersions := table } = s.inputs epochStore := by
  cases s <;> rfl

theorem sharedInputObjects_table (s : Schedulable) :
    s.sharedInputObjects { epochStore with nextSharedObjectVersions := table } = s.sharedInputObjects epochStore := by
  cases s <;> rfl

theorem keysOf_table : keysOf { epochStore with nextSharedObjectVersions := table } accumulator seq =
    keysOf epochStore accumulator seq := by
  unfold keysOf
  rw [show Schedulable.inputs { epochStore with nextSharedObjectVersions := table } = Schedulable.inputs epochStore from
    funext (inputs_table table)]

theorem assignOne_table : assignOne { epochStore with nextSharedObjectVersions := table } cancelledTxns =
    assignOne epochStore cancelledTxns := by
  funext a s
  unfold assignOne assignVersionsForCertificate
  rw [sharedInputObjects_table]
  rfl

end Table

/-- The table after a call: what was there, the initial next versions of the objects of the call, and what the call left. -/
def tableAfter (epochStore : EpochStore) (cacheReader : ObjectCacheRead) (keys : List ConsensusObjectSequenceKey)
    (next : NextVersions) : NextVersions :=
  next.toList.foldl (fun m p => m.insert p.1 p.2) (withInitial epochStore cacheReader keys epochStore.nextSharedObjectVersions)

variable {epochStore' : EpochStore} {keys : List ConsensusObjectSequenceKey} {next : NextVersions}

/-- The objects of a call have next versions after it. -/
theorem isSome_next {a : ConsensusSharedObjVerAssignment}
    (hfold : seq.foldlM (assignOne epochStore cancelledTxns) ⟨withInitial epochStore' cacheReader keys ∅, []⟩ = .ok a)
    (k : ConsensusObjectSequenceKey) : a.sharedInputNextVersions[k]?.isSome ↔ k ∈ keys := by
  rw [(history_of_foldlM hfold).domain k]
  by_cases hk : k ∈ keys
  · rw [get_withInitial_mem _ _ hk]
    exact iff_of_true rfl hk
  · rw [get_withInitial_not_mem _ _ hk, get_empty]
    exact iff_of_false nofun hk

variable {k : ConsensusObjectSequenceKey}

theorem get_tableAfter_mem (hnext : ∀ k : ConsensusObjectSequenceKey, next[k]?.isSome ↔ k ∈ keys)
    (hk : k ∈ keys) : (tableAfter epochStore cacheReader keys next)[k]? = next[k]? := by
  obtain ⟨v, hv⟩ := isSome_iff_exists.mp ((hnext k).mpr hk)
  rw [tableAfter, get_foldl_insert_toList, hv, some_or]

theorem get_tableAfter_not_mem (hnext : ∀ k : ConsensusObjectSequenceKey, next[k]?.isSome ↔ k ∈ keys) (hk : k ∉ keys) :
    (tableAfter epochStore cacheReader keys next)[k]? = epochStore.nextSharedObjectVersions[k]? := by
  have hnone : next[k]? = none := not_isSome_iff_eq_none.mp (mt (hnext k).mp hk)
  rw [tableAfter, get_foldl_insert_toList, hnone, none_or, get_withInitial_not_mem _ _ hk]

/-! ## Two calls -/

/-- The loop of a call with the configuration of one store and the table of another. -/
def assignAll (epochStore tableStore : EpochStore) (cacheReader : ObjectCacheRead) (cancelledTxns : CancelledTxns)
    (accumulator : List ConsensusObjectSequenceKey) (seq : List Schedulable) : Except VersionPanic ConsensusSharedObjVerAssignment :=
  seq.foldlM (assignOne epochStore cancelledTxns) ⟨withInitial tableStore cacheReader (keysOf epochStore accumulator seq) ∅, []⟩

theorem get_withInitial_append (seq2 : List Schedulable) (hk : k ∈ keysOf epochStore accumulator seq1) :
    (withInitial epochStore cacheReader (keysOf epochStore accumulator seq1) ∅)[k]? =
      (withInitial epochStore cacheReader (keysOf epochStore accumulator (seq1 ++ seq2)) ∅)[k]? := by
  rw [get_withInitial_mem _ _ hk, get_withInitial_mem _ _ ((keysOf_append _ _).mpr (.inl hk))]

/-- The first of two sequences is assigned alone as it is together with the second. -/
theorem assignAll_first (hacc : accumulatorKeys epochStore = .ok accumulator) {r : ConsensusSharedObjVerAssignment}
    (h : assignAll epochStore epochStore cacheReader cancelledTxns accumulator (seq1 ++ seq2) = .ok r) :
    ∃ a1, assignAll epochStore epochStore cacheReader cancelledTxns accumulator seq1 = .ok a1 := by
  rw [assignAll, foldlM_append, bind_ok] at h
  obtain ⟨c, hc, -⟩ := h
  obtain ⟨cs, next, -, hfold, -⟩ := foldlM_assignOne_congr [] hacc (fun k hk => (get_withInitial_append seq2 hk).symm) hc
  exact ⟨_, hfold⟩

section Append

variable {a1 a2 r : ConsensusSharedObjVerAssignment} {table : NextVersions}
  (hacc : accumulatorKeys epochStore = .ok accumulator)
  (h1 : assignAll epochStore epochStore cacheReader cancelledTxns accumulator seq1 = .ok a1)
  (htable : table = tableAfter epochStore cacheReader (keysOf epochStore accumulator seq1) a1.sharedInputNextVersions)

include h1 htable

/-- The table after the first call, for an object of it and for another one. -/
theorem get_table (k : ConsensusObjectSequenceKey) :
    (k ∈ keysOf epochStore accumulator seq1 → ∃ v, a1.sharedInputNextVersions[k]? = some v ∧ table[k]? = some v) ∧
      (k ∉ keysOf epochStore accumulator seq1 → table[k]? = epochStore.nextSharedObjectVersions[k]?) := by
  have hnext := isSome_next h1
  constructor
  · intro hk
    obtain ⟨v, hv⟩ := isSome_iff_exists.mp ((hnext k).mpr hk)
    exact ⟨v, hv, by rw [htable, get_tableAfter_mem hnext hk, hv]⟩
  · intro hk
    rw [htable, get_tableAfter_not_mem hnext hk]

theorem initializable_append : Initializable epochStore cacheReader (keysOf epochStore accumulator (seq1 ++ seq2)) ↔
      Initializable epochStore cacheReader (keysOf epochStore accumulator seq1) ∧
      Initializable { epochStore with nextSharedObjectVersions := table } cacheReader (keysOf epochStore accumulator seq2) := by
  have hget := get_table h1 htable
  constructor
  · intro h
    refine ⟨fun k hk => h k ((keysOf_append _ _).mpr (.inl hk)), fun k hk hnone => ?_⟩
    have hk1 : k ∉ keysOf epochStore accumulator seq1 := by
      intro hk1
      obtain ⟨v, -, hv⟩ := (hget k).1 hk1
      exact absurd (hv.symm.trans hnone) nofun
    exact h k ((keysOf_append _ _).mpr (.inr hk)) (((hget k).2 hk1).symm.trans hnone)
  · intro h k hk hnone
    by_cases hk1 : k ∈ keysOf epochStore accumulator seq1
    · exact h.1 k hk1 hnone
    · exact h.2 k (((keysOf_append _ _).mp hk).resolve_left hk1) (((hget k).2 hk1).trans hnone)

include hacc

/-- After the first sequence, the loop goes on from the next versions of the second call, for the objects of the second
sequence. -/
theorem foldlM_append_from (seq2 : List Schedulable) :
    ∃ next : NextVersions, assignAll epochStore epochStore cacheReader cancelledTxns accumulator (seq1 ++ seq2) =
        seq2.foldlM (assignOne epochStore cancelledTxns) ⟨next, a1.assignedVersions⟩ ∧
      (∀ k ∈ keysOf epochStore accumulator seq1, next[k]? = a1.sharedInputNextVersions[k]?) ∧
      ∀ k ∈ keysOf epochStore accumulator seq2, next[k]? =
        (withInitial { epochStore with nextSharedObjectVersions := table } cacheReader (keysOf epochStore accumulator seq2) ∅)[k]? := by
  obtain ⟨cs, next, hcs, hfold, hsame, -⟩ := foldlM_assignOne_congr [] hacc (fun k hk => get_withInitial_append seq2 hk) h1
  rw [nil_append] at hcs hfold
  have hfirst : ∀ k ∈ keysOf epochStore accumulator seq1, next[k]? = a1.sharedInputNextVersions[k]? :=
    fun k hk => (hsame k (get_withInitial_append seq2 hk)).symm
  refine ⟨next, ?_, hfirst, fun k hk => ?_⟩
  · rw [assignAll, foldlM_append, hfold, ok_bind, hcs]
  · rw [get_withInitial_mem _ _ hk]
    by_cases hk1 : k ∈ keysOf epochStore accumulator seq1
    · obtain ⟨v, hv, ht⟩ := (get_table h1 htable k).1 hk1
      rw [hfirst k hk1, hv, initialVersion, ht, getD_some]
    · rw [foldlM_assignOne_other hacc hfold hk1, get_withInitial_mem _ _ ((keysOf_append _ _).mpr (.inr hk)), initialVersion,
        initialVersion, (get_table h1 htable k).2 hk1]
      rfl

/-- The loop over both sequences returns if that of the second call does. -/
theorem assignAll_second : (∃ r, assignAll epochStore epochStore cacheReader cancelledTxns accumulator (seq1 ++ seq2) = .ok r) ↔
    ∃ a2, assignAll epochStore { epochStore with nextSharedObjectVersions := table } cacheReader cancelledTxns accumulator seq2 =
      .ok a2 := by
  obtain ⟨next, hfold, -, hagree⟩ := foldlM_append_from hacc h1 htable seq2
  rw [hfold]
  constructor
  · rintro ⟨r, h⟩
    obtain ⟨cs, next2, -, h2, -⟩ := foldlM_assignOne_congr [] hacc hagree h
    exact ⟨_, h2⟩
  · rintro ⟨a2, h2⟩
    obtain ⟨cs, next2, -, h, -⟩ := foldlM_assignOne_congr a1.assignedVersions hacc (fun k hk => (hagree k hk).symm) h2
    exact ⟨_, h⟩

/-- The assigned versions and the table after both sequences. -/
theorem append_eq (h2 : assignAll epochStore { epochStore with nextSharedObjectVersions := table } cacheReader cancelledTxns
      accumulator seq2 = .ok a2)
    (h : assignAll epochStore epochStore cacheReader cancelledTxns accumulator (seq1 ++ seq2) = .ok r) :
    r.assignedVersions = a1.assignedVersions ++ a2.assignedVersions ∧
      tableAfter epochStore cacheReader (keysOf epochStore accumulator (seq1 ++ seq2)) r.sharedInputNextVersions =
        tableAfter { epochStore with nextSharedObjectVersions := table } cacheReader (keysOf epochStore accumulator seq2)
          a2.sharedInputNextVersions := by
  have hnext := isSome_next h
  have hnext2 := isSome_next h2
  obtain ⟨next, hfold, hfirst, hagree⟩ := foldlM_append_from hacc h1 htable seq2
  have hr := hfold.symm.trans h
  obtain ⟨cs, next2, hcs, hfold2, hsame, -⟩ := foldlM_assignOne_congr [] hacc hagree hr
  obtain rfl := ok_unique hfold2 h2
  refine ⟨hcs, Std.ExtTreeMap.ext_getElem? fun k => ?_⟩
  by_cases hk2 : k ∈ keysOf epochStore accumulator seq2
  · rw [get_tableAfter_mem hnext ((keysOf_append _ _).mpr (.inr hk2)), get_tableAfter_mem hnext2 hk2]
    exact hsame k (hagree k hk2)
  · rw [get_tableAfter_not_mem hnext2 hk2]
    by_cases hk1 : k ∈ keysOf epochStore accumulator seq1
    · obtain ⟨v, hv, ht⟩ := (get_table h1 htable k).1 hk1
      rw [get_tableAfter_mem hnext ((keysOf_append _ _).mpr (.inl hk1)), foldlM_assignOne_other hacc hr hk2, hfirst k hk1, hv]
      exact ht.symm
    · rw [get_tableAfter_not_mem hnext fun hk => ((keysOf_append _ _).mp hk).elim hk1 hk2]
      exact ((get_table h1 htable k).2 hk1).symm

end Append

/-- The assigned versions of a call, and the per-epoch store that the next call finds. -/
def outcome (r : ConsensusSharedObjVerAssignment × EpochStore) : List (TransactionKey × AssignedVersions) × EpochStore :=
  (r.1.assignedVersions, r.2.setNextSharedObjectVersions r.1.sharedInputNextVersions)

/-- Assigning two sequences together is assigning them one after the other. -/
theorem assign_append (o : List (TransactionKey × AssignedVersions) × EpochStore) :
    (∃ r, assignVersionsFromConsensus epochStore cacheReader cancelledTxns (seq1 ++ seq2) = .ok r ∧ outcome r = o) ↔
      ∃ r1 r2, assignVersionsFromConsensus epochStore cacheReader cancelledTxns seq1 = .ok r1 ∧
        assignVersionsFromConsensus (outcome r1).2 cacheReader cancelledTxns seq2 = .ok r2 ∧
        ((outcome r1).1 ++ (outcome r2).1, (outcome r2).2) = o := by
  constructor
  · rintro ⟨⟨a, store⟩, h, rfl⟩
    obtain ⟨accumulator, hacc, hall, hinit, hfold, rfl⟩ := assignVersionsFromConsensus_ok.mp h
    obtain ⟨a1, h1⟩ := assignAll_first hacc hfold
    obtain ⟨a2, h2⟩ := (assignAll_second hacc h1 rfl).mp ⟨a, hfold⟩
    obtain ⟨hinit1, hinit2⟩ := (initializable_append h1 rfl).mp hinit
    obtain ⟨hassigned, htables⟩ := append_eq hacc h1 rfl h2 hfold
    refine ⟨⟨a1, _⟩, ⟨a2, _⟩, assignVersionsFromConsensus_ok.mpr ⟨accumulator, hacc, fun s hs => hall s (mem_append_left _ hs),
      hinit1, h1, rfl⟩, assignVersionsFromConsensus_ok.mpr ⟨accumulator, hacc, fun s hs => ?_, ?_, ?_, rfl⟩, ?_⟩
    · exact (sharedInputObjects_table _ s).symm ▸ hall s (mem_append_right _ hs)
    · rw [keysOf_table]
      exact hinit2
    · rw [keysOf_table, assignOne_table]
      exact h2
    · refine Prod.ext hassigned.symm ?_
      rw [keysOf_table]
      exact congrArg (fun table => { epochStore with nextSharedObjectVersions := table }) htables.symm
  · rintro ⟨⟨a1, store1⟩, ⟨a2, store2⟩, hcall1, hcall2, rfl⟩
    obtain ⟨accumulator, hacc, hall1, hinit1, h1, rfl⟩ := assignVersionsFromConsensus_ok.mp hcall1
    change assignVersionsFromConsensus { epochStore with
      nextSharedObjectVersions := tableAfter epochStore cacheReader (keysOf epochStore accumulator seq1)
        a1.sharedInputNextVersions } cacheReader cancelledTxns seq2 = _ at hcall2
    obtain ⟨accumulator', hacc', hall2, hinit2, h2, rfl⟩ := assignVersionsFromConsensus_ok.mp hcall2
    obtain rfl : accumulator = accumulator' := ok_unique hacc hacc'
    rw [keysOf_table] at hinit2 h2 ⊢
    rw [assignOne_table] at h2
    obtain ⟨r, hr⟩ := (assignAll_second hacc h1 rfl).mpr ⟨_, h2⟩
    obtain ⟨hassigned, htables⟩ := append_eq hacc h1 rfl h2 hr
    refine ⟨⟨r, _⟩, assignVersionsFromConsensus_ok.mpr ⟨accumulator, hacc, fun s hs => ?_,
      (initializable_append h1 rfl).mpr ⟨hinit1, hinit2⟩, hr, rfl⟩, Prod.ext hassigned ?_⟩
    · rcases mem_append.mp hs with hs | hs
      · exact hall1 s hs
      · exact sharedInputObjects_table _ s ▸ hall2 s hs
    · exact congrArg (fun table => { epochStore with nextSharedObjectVersions := table }) htables

/-! ## Panics -/

/-- A panic because an object is not among the next versions. -/
def ObjectMissing (e : VersionPanic) : Prop := e = .nextVersionMissing ∨ e = .objectMustExist ∨ e = .accumulatorNotInNextVersions

theorem sharedInputObjects_errors (s : Schedulable) : ErrorsIn (¬ ObjectMissing ·) (s.sharedInputObjects epochStore) := by
  cases s with
  | transaction => exact .ok _
  | randomnessStateUpdate => exact .bind (.expect fun _ => by simp [ObjectMissing]) fun _ _ => .ok _
  | accumulatorSettlement => exact .bind (.expect fun _ => by simp [ObjectMissing]) fun _ _ => .ok _
  | consensusCommitPrologue => exact .ok _

theorem assignVersionsForCertificate_errors {s : Schedulable} (hacc : accumulatorKeys epochStore = .ok accumulator)
    (hpresent : ∀ k ∈ keysOf epochStore accumulator [s], next[k]?.isSome) :
    ErrorsIn (¬ ObjectMissing ·) (assignVersionsForCertificate epochStore cancelledTxns s next) := by
  unfold assignVersionsForCertificate
  refine .bind (sharedInputObjects_errors s) fun shared hshared => .bind ?_ fun acc _ => ?_
  · -- the accumulator root is among the next versions
    unfold accumulatorVersion
    unfold accumulatorKeys at hacc
    split_ifs with henabled
    · rw [if_pos henabled] at hacc
      simp only [bind_ok, expect_ok, pure_ok] at hacc
      obtain ⟨v, hv, rfl⟩ := hacc
      obtain ⟨w, hw⟩ := isSome_iff_exists.mp (hpresent _ (mem_keysOf.mpr (.inr mem_cons_self)))
      rw [hv, expect_some, ok_bind, hw, expect_some, ok_bind]
      exact .ok _
    · exact .ok _
  · have hinputs := Schedulable.inputs_eq hshared
    have hin : ∀ o ∈ shared, next[o.idAndVersion]?.isSome := fun o ho =>
      hpresent _ (mem_keysOf.mpr (.inl ⟨s, mem_singleton_self s, o, hinputs ▸ ho, rfl⟩))
    split
    · exact .ok _
    · refine .bind ?_ fun assigned hassigned => .bind ?_ fun nextVersion _ => .bind ?_ fun _ hvalid => .bind ?_ fun _ _ => .ok _
      · -- so are the inputs
        cases s.cancellationInfo cancelledTxns with
        | some => exact .ok _
        | none =>
          refine .mapM fun o ho => ?_
          obtain ⟨v, hv⟩ := isSome_iff_exists.mp (hin o ho)
          rw [hv]
          exact .ok _
      · exact .bind (.assert fun _ => by simp [ObjectMissing]) fun _ _ => .ok _
      · exact .assert fun _ => by simp [ObjectMissing]
      · cases hinfo : s.cancellationInfo cancelledTxns with
        | some => exact .ok _
        | none =>
          rw [hinfo] at hassigned
          have hsome : ∀ input ∈ assigned, next[input.key]?.isSome := fun input hinput => by
            rw [(mem_assignInputs hassigned hinput).1]
            rfl
          simp only [updateNextVersions, isSome_none, Bool.false_eq_true, if_false,
            foldlM_updateNextVersion_eq (assert_ok.mp hvalid) hsome]
          exact .ok _

theorem getOrInitVersions_errors (shared : List SharedInputObject) :
    ErrorsIn (¬ ObjectMissing ·) (getOrInitVersions epochStore cacheReader shared) := by
  refine .bind ?_ fun accumulator _ => .bind (.mapM fun k _ => ?_) fun _ _ => .ok _
  · unfold accumulatorKeys
    split
    · exact .bind (.expect fun _ => by simp [ObjectMissing]) fun _ _ => .ok _
    · exact .ok _
  · unfold initVersion
    split
    · split
      · exact .ok _
      · exact .bind (.assert fun _ => by simp [ObjectMissing]) fun _ _ => .ok _
    · exact .ok _

/-- A call does not panic because an object is missing. -/
theorem assignVersionsFromConsensus_errors (epochStore : EpochStore) (cacheReader : ObjectCacheRead) (cancelledTxns : CancelledTxns)
    (seq : List Schedulable) :
    ErrorsIn (¬ ObjectMissing ·) (assignVersionsFromConsensus epochStore cacheReader cancelledTxns seq) := by
  unfold assignVersionsFromConsensus
  refine .bind (.mapM fun s _ => sharedInputObjects_errors s) fun shared hshared =>
    .bind (getOrInitVersions_errors _) fun r hr => .bind ?_ fun _ _ => .ok _
  simp only [getOrInitVersions, bind_ok, getOrInitNextObjectVersions_ok] at hr
  obtain ⟨accumulator, hacc, -, rfl⟩ := hr
  rw [mapM_sharedInputObjects hshared]
  -- no object leaves the next versions during the loop
  refine .foldlM (fun _ c => ∀ k ∈ keysOf epochStore accumulator seq, c.sharedInputNextVersions[k]?.isSome) ?_ ?_ ?_
  · exact fun k hk => isSome_iff_exists.mpr ⟨_, get_withInitial_mem _ _ (BTreeSet.mem_iter.mpr (mem_toFinset.mpr hk))⟩
  · intro pre s post c c' _ hc hstep k hk
    simp only [assignOne, bind_ok, pure_ok] at hstep
    obtain ⟨-, -, ⟨versions, next⟩, hcert, rfl⟩ := hstep
    exact ((assigned_of_ok hcert).isSome k).trans (hc k hk)
  · intro pre s post c hseq hc
    refine .bind (.assert fun _ => by simp [ObjectMissing]) fun _ _ => .bind (assignVersionsForCertificate_errors hacc
      fun k hk => hc k (mem_keysOf.mpr ((mem_keysOf.mp hk).imp_left fun hin => ?_))) fun _ _ => .ok _
    obtain ⟨s', hs', hin⟩ := hin
    exact ⟨s', mem_singleton.mp hs' ▸ hseq ▸ mem_append_right _ mem_cons_self, hin⟩

end Sui.SharedObjVerManager

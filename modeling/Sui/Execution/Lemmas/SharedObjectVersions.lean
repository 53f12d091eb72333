import Sui.Execution.SharedObjectVersions
import Sui.Library.Register

/-!
# The history of the next versions

What one schedulable does to the next versions, and from it what a whole sequence does: the next versions are registers that the
exclusive accesses write.
-/

namespace Sui

open Library Checked BTreeMap List SequenceNumber Schedulable

variable {v : SequenceNumber}

namespace SequenceNumber

theorem le_foldl_max (l : List SequenceNumber) (b : SequenceNumber) : b ≤ l.foldl Nat.max b ∧ ∀ v ∈ l, v ≤ l.foldl Nat.max b := by
  induction l generalizing b with
  | nil => exact ⟨le_refl _, by simp⟩
  | cons x l ih =>
    obtain ⟨hb, hl⟩ := ih (Nat.max b x)
    rw [foldl_cons]
    refine ⟨le_trans (Nat.le_max_left b x) hb, fun v hv => ?_⟩
    rcases mem_cons.mp hv with rfl | hv
    · exact le_trans (Nat.le_max_right b v) hb
    · exact hl v hv

theorem lamportIncrement_ok {inputs : List SequenceNumber} (h : lamportIncrement inputs = .ok v) :
    v = inputs.foldl Nat.max 0 + 1 := by
  simp only [lamportIncrement, bind_ok, pure_ok] at h
  obtain ⟨-, -, rfl⟩ := h
  rfl

end SequenceNumber

namespace Schedulable

def inputs (epochStore : EpochStore) (s : Schedulable) : List SharedInputObject :=
  match s.sharedInputObjects epochStore with
  | .ok l => l
  | .error _ => []

def ownVersions (s : Schedulable) : List SequenceNumber := (s.nonSharedInputObjectKeys ++ s.receivingObjectKeys).map ObjectKey.version

/-- The schedulable is not cancelled and accesses the object exclusively. -/
def Exclusive (epochStore : EpochStore) (cancelledTxns : CancelledTxns) (s : Schedulable) (k : ConsensusObjectSequenceKey) : Prop :=
  s.cancellationInfo cancelledTxns = none ∧ ∃ o ∈ s.inputs epochStore, o.idAndVersion = k ∧ o.mutability.isExclusive = true

/-- The version that a schedulable leaves for the objects that it accesses exclusively. -/
def leaves (s : Schedulable) (a : AssignedVersions) : SequenceNumber :=
  (s.ownVersions ++ a.sharedObjectVersions.map Prod.snd).foldl Nat.max 0 + 1

theorem lt_leaves_of_own {s : Schedulable} {a : AssignedVersions} (hv : v ∈ s.ownVersions) : v < s.leaves a :=
  Nat.lt_succ_of_le ((le_foldl_max _ 0).2 v (mem_append_left _ hv))

theorem lt_leaves_of_assigned {s : Schedulable} {a : AssignedVersions} {p : ConsensusObjectSequenceKey × SequenceNumber}
    (hp : p ∈ a.sharedObjectVersions) : p.2 < s.leaves a :=
  Nat.lt_succ_of_le ((le_foldl_max _ 0).2 p.2 (mem_append_right _ (mem_map_of_mem hp)))

theorem inputs_eq {epochStore : EpochStore} {s : Schedulable} {l : List SharedInputObject}
    (h : s.sharedInputObjects epochStore = .ok l) : s.inputs epochStore = l := by
  rw [inputs, h]

end Schedulable

theorem CancelConsensusCertificateReason.isCancelled_version (reason : CancelConsensusCertificateReason) (id : ObjectID) :
    isCancelled (reason.version id) = true := by
  cases reason with
  | congestionOnObjects =>
    simp only [version]
    split
    · decide
    · decide
  | dkgFailed =>
    simp only [version]
    split
    · decide
    · decide

namespace SharedObjVerManager

variable {epochStore : EpochStore} {cancelledTxns : CancelledTxns}

/-! ## One schedulable -/

/-- The next versions after the exclusive accesses of some inputs. -/
def updated (nextVersion : SequenceNumber) (next : NextVersions) (assigned : List AssignedInput) : NextVersions :=
  assigned.foldl (fun next input => if input.isExclusivelyAccessed then next.insert input.key nextVersion else next) next

theorem get_updated (nextVersion : SequenceNumber) (assigned : List AssignedInput) (next : NextVersions)
    (k : ConsensusObjectSequenceKey) :
    (updated nextVersion next assigned)[k]? =
      if ∃ input ∈ assigned, input.key = k ∧ input.isExclusivelyAccessed = true then some nextVersion else next[k]? := by
  induction assigned generalizing next with
  | nil => simp [updated]
  | cons input assigned ih =>
    rw [updated, foldl_cons, ← updated, ih]
    simp only [mem_cons, exists_eq_or_imp]
    by_cases hrest : ∃ x ∈ assigned, x.key = k ∧ x.isExclusivelyAccessed = true
    · simp only [hrest, if_true, or_true]
    · by_cases hx : input.isExclusivelyAccessed = true
      · simp only [hrest, hx, if_false, if_true, or_false, and_true, get_insert]
        split <;> rfl
      · rw [Bool.not_eq_true] at hx
        simp only [hrest, hx, Bool.false_eq_true, if_false, or_false, and_false]

variable {assigned : List AssignedInput} {next : NextVersions}

theorem foldlM_updateNextVersion {nextVersion : SequenceNumber} {next' : NextVersions}
    (h : assigned.foldlM (updateNextVersion nextVersion) next = .ok next') : next' = updated nextVersion next assigned := by
  induction assigned generalizing next with
  | nil =>
    simp only [foldlM_nil, pure_ok] at h
    exact h.symm
  | cons _ _ ih =>
    rw [foldlM_cons, bind_ok] at h
    obtain ⟨next1, h1, h⟩ := h
    rw [ih h, updated, updated, foldl_cons]
    congr 1
    unfold updateNextVersion at h1
    split at h1
    · rw [if_pos ‹_›]
      simp only [bind_ok, pure_ok] at h1
      obtain ⟨-, -, -, -, rfl⟩ := h1
      rfl
    · rw [if_neg ‹_›]
      exact (Except.ok.inj h1).symm

/-- The update never fails when the objects are among the next versions. -/
theorem foldlM_updateNextVersion_eq {nextVersion : SequenceNumber} (hvalid : isValid nextVersion = true)
    (hsome : ∀ input ∈ assigned, next[input.key]?.isSome) :
    assigned.foldlM (updateNextVersion nextVersion) next = .ok (updated nextVersion next assigned) := by
  induction assigned generalizing next with
  | nil => rfl
  | cons input _ ih =>
    have hone : updateNextVersion nextVersion next input =
        .ok (if input.isExclusivelyAccessed then next.insert input.key nextVersion else next) := by
      unfold updateNextVersion
      split
      · rw [hvalid, hsome input mem_cons_self]
        rfl
      · rfl
    rw [foldlM_cons, hone, ok_bind, ih]
    · rfl
    · intro x hx
      have := hsome x (mem_cons_of_mem _ hx)
      split
      · rw [get_insert]
        split
        · rfl
        · exact this
      · exact this

/-- The versions that `assign_versions_for_certificate` gives, and the next versions after it. -/
structure Assigned (epochStore : EpochStore) (cancelledTxns : CancelledTxns) (s : Schedulable) (next : NextVersions)
    (a : AssignedVersions) (next' : NextVersions) : Prop where
  keys : a.sharedObjectVersions.map Prod.fst = (s.inputs epochStore).map SharedInputObject.idAndVersion
  cancelled : s.cancellationInfo cancelledTxns ≠ none → ∀ p ∈ a.sharedObjectVersions, SequenceNumber.isCancelled p.2 = true
  current : s.cancellationInfo cancelledTxns = none → ∀ p ∈ a.sharedObjectVersions, next[p.1]? = some p.2
  exclusive : ∀ k, s.Exclusive epochStore cancelledTxns k → next'[k]? = some (s.leaves a)
  other : ∀ k, ¬ s.Exclusive epochStore cancelledTxns k → next'[k]? = next[k]?

variable {shared : List SharedInputObject}

/-- The inputs of a transaction that is not cancelled get the next versions. -/
theorem mem_assignInputs (h : assignInputs next none shared = .ok assigned) {a : AssignedInput} (ha : a ∈ assigned) :
    next[a.key]? = some a.version ∧ ∃ o ∈ shared, o.idAndVersion = a.key ∧ o.mutability.isExclusive = a.isExclusivelyAccessed := by
  obtain ⟨o, ho, heq⟩ := (mem_mapM h).mp ha
  simp only [bind_ok, expect_ok, pure_ok] at heq
  obtain ⟨v, hv, rfl⟩ := heq
  exact ⟨hv, o, ho, rfl, rfl⟩

theorem exists_assignInputs (h : assignInputs next none shared = .ok assigned) {o : SharedInputObject} (ho : o ∈ shared) :
    ∃ a ∈ assigned, a.key = o.idAndVersion ∧ a.isExclusivelyAccessed = o.mutability.isExclusive := by
  obtain ⟨a, ha, heq⟩ := exists_of_mapM h ho
  simp only [bind_ok, pure_ok] at heq
  obtain ⟨v, -, rfl⟩ := heq
  exact ⟨_, ha, rfl, rfl⟩

theorem map_key_assignInputs {info : Option CancelConsensusCertificateReason}
    (h : assignInputs next info shared = .ok assigned) :
    assigned.map AssignedInput.key = shared.map SharedInputObject.idAndVersion := by
  cases info with
  | some =>
    obtain rfl := Except.ok.inj h
    rw [map_map]
    rfl
  | none =>
    rw [← forall₂_eq_eq_eq, forall₂_map_left_iff, forall₂_map_right_iff]
    refine ((mapM_ok.mp h).imp fun o a ho => ?_).flip
    simp only [bind_ok, pure_ok] at ho
    obtain ⟨v, -, rfl⟩ := ho
    rfl

variable {a : AssignedVersions} {s : Schedulable}

theorem assigned_of_ok {next' : NextVersions}
    (h : assignVersionsForCertificate epochStore cancelledTxns s next = .ok (a, next')) :
    Assigned epochStore cancelledTxns s next a next' := by
  unfold assignVersionsForCertificate at h
  simp only [bind_ok] at h
  obtain ⟨shared, hshared, acc, -, h⟩ := h
  have hinputs := inputs_eq hshared
  split at h
  · rename_i hempty
    simp only [pure_ok, Prod.mk.injEq] at h
    obtain ⟨rfl, rfl⟩ := h
    rw [List.isEmpty_iff] at hempty
    subst hempty
    refine ⟨by rw [hinputs]; rfl, fun _ p hp => absurd hp not_mem_nil, fun _ p hp => absurd hp not_mem_nil,
      fun k hk => ?_, fun _ _ => rfl⟩
    obtain ⟨-, o, ho, -⟩ := hk
    rw [hinputs] at ho
    exact absurd ho not_mem_nil
  · simp only [bind_ok, pure_ok, Prod.mk.injEq] at h
    obtain ⟨assigned, hassigned, nextVersion, hnext, -, -, next1, hnext1, rfl, rfl⟩ := h
    have hkeys : (assigned.map fun a => (a.key, a.version)).map Prod.fst = (s.inputs epochStore).map SharedInputObject.idAndVersion := by
      rw [hinputs, ← map_key_assignInputs hassigned, map_map]
      rfl
    have hnextVersion := lamportIncrement_ok hnext
    cases hinfo : s.cancellationInfo cancelledTxns with
    | some reason =>
      rw [hinfo] at hassigned hnext1
      obtain rfl := Except.ok.inj hassigned
      obtain rfl := Except.ok.inj hnext1
      refine ⟨hkeys, fun _ p hp => ?_, fun hnone => absurd (hinfo.symm.trans hnone) nofun,
        fun k hk => absurd (hinfo.symm.trans hk.1) nofun, fun _ _ => rfl⟩
      simp only [map_map, mem_map, Function.comp_apply] at hp
      obtain ⟨o, -, rfl⟩ := hp
      exact reason.isCancelled_version o.id
    | none =>
      rw [hinfo] at hassigned hnext1 hnextVersion
      obtain rfl := foldlM_updateNextVersion hnext1
      have hexclusive : ∀ k, (∃ input ∈ assigned, input.key = k ∧ input.isExclusivelyAccessed = true) ↔
          s.Exclusive epochStore cancelledTxns k := by
        intro k
        rw [Schedulable.Exclusive, hinputs, and_iff_right hinfo]
        constructor
        · rintro ⟨input, hinput, rfl, hx⟩
          obtain ⟨-, o, ho, hkey, hex⟩ := mem_assignInputs hassigned hinput
          exact ⟨o, ho, hkey, hex.trans hx⟩
        · rintro ⟨o, ho, rfl, hx⟩
          obtain ⟨input, hinput, hkey, hex⟩ := exists_assignInputs hassigned ho
          exact ⟨input, hinput, hkey, hex.trans hx⟩
      have hleaves : nextVersion = s.leaves ⟨assigned.map fun a => (a.key, a.version), acc⟩ := by
        rw [hnextVersion, leaves, ownVersions, map_map]
        rfl
      refine ⟨hkeys, fun hne => absurd hinfo hne, fun _ p hp => ?_, fun k hk => ?_, fun k hk => ?_⟩
      · obtain ⟨input, hinput, rfl⟩ := mem_map.mp hp
        exact (mem_assignInputs hassigned hinput).1
      · rw [get_updated, if_pos ((hexclusive k).mpr hk), hleaves]
      · rw [get_updated, if_neg (mt (hexclusive k).mp hk)]

/-- No next version appears or disappears. -/
theorem Assigned.isSome {next' : NextVersions}
    (h : Assigned epochStore cancelledTxns s next a next') (k : ConsensusObjectSequenceKey) :
    next'[k]?.isSome = next[k]?.isSome := by
  by_cases hk : s.Exclusive epochStore cancelledTxns k
  · have hmem : k ∈ a.sharedObjectVersions.map Prod.fst := by
      obtain ⟨-, o, ho, rfl, -⟩ := hk
      rw [h.keys]
      exact mem_map_of_mem ho
    obtain ⟨p, hp, rfl⟩ := mem_map.mp hmem
    rw [h.exclusive _ hk, h.current hk.1 p hp]
    rfl
  · rw [h.other k hk]

/-! ## A sequence of schedulables -/

/-- The schedulable at an index accesses an object exclusively. -/
def Wrote (epochStore : EpochStore) (cancelledTxns : CancelledTxns) (seq : List Schedulable) (j : Nat)
    (k : ConsensusObjectSequenceKey) : Prop :=
  ∃ s, seq[j]? = some s ∧ s.Exclusive epochStore cancelledTxns k

/-- The version that the schedulable at an index leaves. -/
def leavesAt (seq : List Schedulable) (assigned : List (TransactionKey × AssignedVersions)) (j : Nat) : SequenceNumber :=
  match seq[j]?, assigned[j]? with
  | some s, some a => s.leaves a.2
  | _, _ => 0

/-- The next version of an object before the schedulable at an index: what the last exclusive access before it left, or the initial
next version. -/
def NextVersionAt (epochStore : EpochStore) (cancelledTxns : CancelledTxns) (init : NextVersions) (seq : List Schedulable)
    (assigned : List (TransactionKey × AssignedVersions)) : Nat → ConsensusObjectSequenceKey → SequenceNumber → Prop :=
  LastWrite (Wrote epochStore cancelledTxns seq) (leavesAt seq assigned) fun k => init[k]?.getD 0

/-- The versions that a sequence of schedulables gets, and the next versions after it. -/
structure History (epochStore : EpochStore) (cancelledTxns : CancelledTxns) (init : NextVersions) (seq : List Schedulable)
    (assigned : List (TransactionKey × AssignedVersions)) (next : NextVersions) : Prop where
  transactions : assigned.map Prod.fst = seq.map key
  domain : ∀ k : ConsensusObjectSequenceKey, next[k]?.isSome = init[k]?.isSome
  keys : ∀ (i : Nat) s a, seq[i]? = some s → assigned[i]? = some a →
    a.2.sharedObjectVersions.map Prod.fst = (s.inputs epochStore).map SharedInputObject.idAndVersion
  cancelled : ∀ (i : Nat) s a, seq[i]? = some s → assigned[i]? = some a → s.cancellationInfo cancelledTxns ≠ none →
    ∀ p ∈ a.2.sharedObjectVersions, SequenceNumber.isCancelled p.2 = true
  current : ∀ (i : Nat) s a, seq[i]? = some s → assigned[i]? = some a → s.cancellationInfo cancelledTxns = none →
    ∀ p ∈ a.2.sharedObjectVersions, NextVersionAt epochStore cancelledTxns init seq assigned i p.1 p.2
  final : ∀ (k : ConsensusObjectSequenceKey) v, next[k]? = some v → NextVersionAt epochStore cancelledTxns init seq assigned seq.length k v

variable {init next next' : NextVersions} {seq : List Schedulable} {assigned : List (TransactionKey × AssignedVersions)}

theorem History.nil (init : NextVersions) : History epochStore cancelledTxns init [] [] init where
  transactions := rfl
  domain := fun _ => rfl
  keys := fun i s a hs => by cases hs
  cancelled := fun i s a hs => by cases hs
  current := fun i s a hs => by cases hs
  final := fun k v hv => by
    have hinit : init[k]?.getD 0 = v := by rw [hv, Option.getD_some]
    exact hinit ▸ LastWrite.zero

variable {k : ConsensusObjectSequenceKey}

/-- The history up to an index does not depend on what comes after it. -/
theorem NextVersionAt.append {i : Nat} (hi : i ≤ seq.length)
    (hlen : assigned.length = seq.length) (h : NextVersionAt epochStore cancelledTxns init seq assigned i k v)
    (seq' : List Schedulable) (assigned' : List (TransactionKey × AssignedVersions)) :
    NextVersionAt epochStore cancelledTxns init (seq ++ seq') (assigned ++ assigned') i k v := by
  have hseq : ∀ j < i, (seq ++ seq')[j]? = seq[j]? := fun j hj => List.getElem?_append_left (by omega)
  have hassigned : ∀ j < i, (assigned ++ assigned')[j]? = assigned[j]? := fun j hj => List.getElem?_append_left (by omega)
  refine LastWrite.congr (fun j hj => ?_) (fun j hj => ?_) h
  · rw [Wrote, hseq j hj]
    rfl
  · rw [leavesAt, hseq j hj, hassigned j hj]
    rfl

theorem History.length_eq (h : History epochStore cancelledTxns init seq assigned next) : assigned.length = seq.length := by
  rw [← length_map, h.transactions, length_map]

/-- One more schedulable. -/
theorem History.snoc (h : History epochStore cancelledTxns init seq assigned next)
    (ha : Assigned epochStore cancelledTxns s next a next') :
    History epochStore cancelledTxns init (seq ++ [s]) (assigned ++ [(s.key, a)]) next' := by
  have hlen := h.length_eq
  have hlast : (seq ++ [s])[seq.length]? = some s := List.getElem?_concat_length
  have hlastA : (assigned ++ [(s.key, a)])[seq.length]? = some (s.key, a) := hlen ▸ List.getElem?_concat_length
  -- a property of the items: the old ones have it, and so has the new one
  have items : ∀ P : Nat → Schedulable → AssignedVersions → Prop,
      (∀ (i : Nat) s' a', i < seq.length → seq[i]? = some s' → assigned[i]? = some a' → P i s' a'.2) → P seq.length s a →
      ∀ (i : Nat) s' a', (seq ++ [s])[i]? = some s' → (assigned ++ [(s.key, a)])[i]? = some a' → P i s' a'.2 := by
    intro P hold hnew i s' a' hs' ha'
    rcases Nat.lt_trichotomy i seq.length with hi | rfl | hi
    · rw [List.getElem?_append_left hi] at hs'
      rw [List.getElem?_append_left (by omega)] at ha'
      exact hold i s' a' hi hs' ha'
    · rw [hlast] at hs'
      rw [hlastA] at ha'
      obtain rfl := Option.some.inj hs'
      obtain rfl := Option.some.inj ha'
      exact hnew
    · rw [List.getElem?_eq_none (by rw [length_append, length_singleton]; omega)] at hs'
      cases hs'
  refine ⟨?_, fun k => (ha.isSome k).trans (h.domain k), ?_, ?_, ?_, ?_⟩
  · rw [map_append, map_append, h.transactions]
    rfl
  · exact items (fun _ s' a' => a'.sharedObjectVersions.map Prod.fst = (s'.inputs epochStore).map SharedInputObject.idAndVersion)
      (fun i s' a' _ => h.keys i s' a') ha.keys
  · exact items (fun _ s' a' => s'.cancellationInfo cancelledTxns ≠ none → ∀ p ∈ a'.sharedObjectVersions,
      isCancelled p.2 = true) (fun i s' a' _ => h.cancelled i s' a') ha.cancelled
  · refine items (fun i s' a' => s'.cancellationInfo cancelledTxns = none → ∀ p ∈ a'.sharedObjectVersions,
      NextVersionAt epochStore cancelledTxns init (seq ++ [s]) (assigned ++ [(s.key, a)]) i p.1 p.2)
      (fun i s' a' hi hs' ha' hnone p hp => ?_) (fun hnone p hp => ?_)
    · exact (h.current i s' a' hs' ha' hnone p hp).append hi.le hlen _ _
    · exact (h.final p.1 p.2 (ha.current hnone p hp)).append (le_refl _) hlen _ _
  · intro k v hv
    rw [length_append, length_singleton]
    by_cases hk : s.Exclusive epochStore cancelledTxns k
    · have hleaves : leavesAt (seq ++ [s]) (assigned ++ [(s.key, a)]) seq.length = s.leaves a := by
        rw [leavesAt, hlast, hlastA]
      rw [ha.exclusive k hk] at hv
      obtain rfl := Option.some.inj hv
      rw [← hleaves]
      exact LastWrite.step_of_wrote ⟨s, hlast, hk⟩
    · rw [ha.other k hk] at hv
      have hbefore := (h.final k v hv).append (le_refl _) hlen [s] [(s.key, a)]
      refine LastWrite.step_of_not_wrote hbefore ?_
      rintro ⟨s', hs', hk'⟩
      rw [hlast] at hs'
      exact hk (Option.some.inj hs' ▸ hk')

/-- What a loop of `assign_versions_from_consensus` returns is a history. -/
theorem history_of_foldlM {a : ConsensusSharedObjVerAssignment}
    (h : seq.foldlM (assignOne epochStore cancelledTxns) ⟨init, []⟩ = .ok a) :
    History epochStore cancelledTxns init seq a.assignedVersions a.sharedInputNextVersions := by
  refine foldlM_invariant (fun pre (a : ConsensusSharedObjVerAssignment) =>
    History epochStore cancelledTxns init pre a.assignedVersions a.sharedInputNextVersions) h (History.nil init) ?_
  intro pre s post c c' _ hc hstep
  simp only [assignOne, bind_ok, pure_ok] at hstep
  obtain ⟨-, -, ⟨versions, next⟩, hcert, rfl⟩ := hstep
  exact hc.snoc (assigned_of_ok hcert)

namespace History

/-- A version that an access gets is below the version that its transaction leaves. -/
theorem lt_leavesAt (h : History epochStore cancelledTxns init seq assigned next) {i : Nat}
    (hw : Wrote epochStore cancelledTxns seq i k)
    (hv : NextVersionAt epochStore cancelledTxns init seq assigned i k v) : v < leavesAt seq assigned i := by
  obtain ⟨s, hs, hnone, o, ho, rfl, -⟩ := hw
  have hlen := h.length_eq
  have hi : i < assigned.length := hlen ▸ (List.getElem?_eq_some_iff.mp hs).1
  have ha : assigned[i]? = some assigned[i] := List.getElem?_eq_getElem hi
  have hmem : o.idAndVersion ∈ assigned[i].2.sharedObjectVersions.map Prod.fst := by
    rw [h.keys i s _ hs ha]
    exact mem_map_of_mem ho
  obtain ⟨p, hp, hpk⟩ := mem_map.mp hmem
  have hcur := h.current i s _ hs ha hnone p hp
  rw [hpk] at hcur
  rw [hv.unique hcur, leavesAt, hs, ha]
  exact lt_leaves_of_assigned hp

end History

/-! ## The initial next versions -/

/-- The next version of an object in the table, or its first version. -/
def initialVersion (epochStore : EpochStore) (cacheReader : ObjectCacheRead) (k : ConsensusObjectSequenceKey) : SequenceNumber :=
  epochStore.nextSharedObjectVersions[k]?.getD
    (match initVersion epochStore cacheReader k with
      | .ok p => p.2
      | .error _ => 0)

/-- The objects of a list have next versions, or can get first ones. -/
def Initializable (epochStore : EpochStore) (cacheReader : ObjectCacheRead) (keys : List ConsensusObjectSequenceKey) : Prop :=
  ∀ k ∈ keys, epochStore.nextSharedObjectVersions[k]? = none → ∃ p, initVersion epochStore cacheReader k = .ok p

/-- A map with the initial next versions of the objects of a list added. -/
def withInitial (epochStore : EpochStore) (cacheReader : ObjectCacheRead) (keys : List ConsensusObjectSequenceKey)
    (m : NextVersions) : NextVersions :=
  keys.foldl (fun m k => m.insert k (initialVersion epochStore cacheReader k)) m

variable {keys : List ConsensusObjectSequenceKey}

theorem get_withInitial_mem (cacheReader : ObjectCacheRead) (m : NextVersions) (hk : k ∈ keys) :
    (withInitial epochStore cacheReader keys m)[k]? = some (initialVersion epochStore cacheReader k) :=
  get_foldl_insert_mem (f := id) _ (fun _ _ => rfl) m (by rwa [map_id])

theorem get_withInitial_not_mem (cacheReader : ObjectCacheRead) (m : NextVersions)
    (hk : k ∉ keys) : (withInitial epochStore cacheReader keys m)[k]? = m[k]? :=
  get_foldl_insert_not_mem (f := id) m (by rwa [map_id])

variable {cacheReader : ObjectCacheRead}

theorem initVersion_fst
    {p : ConsensusObjectSequenceKey × SequenceNumber} (h : initVersion epochStore cacheReader k = .ok p) : p.1 = k := by
  unfold initVersion at h
  split at h
  · split at h
    · exact Except.ok.inj h ▸ rfl
    · simp only [bind_ok, pure_ok] at h
      obtain ⟨-, -, rfl⟩ := h
      rfl
  · exact Except.ok.inj h ▸ rfl

/-- What `get_or_init_next_object_versions` returns, once the first versions are there. -/
theorem ret_eq_withInitial {w : List (ConsensusObjectSequenceKey × SequenceNumber)}
    (hw : (keys.filter fun key => epochStore.nextSharedObjectVersions[key]?.isNone).mapM (initVersion epochStore cacheReader) = .ok w) :
    ((keys.filterMap fun key => epochStore.nextSharedObjectVersions[key]?.map fun v => (key, v)) ++ w).foldl
        (fun m p => m.insert p.1 p.2) (∅ : NextVersions) = withInitial epochStore cacheReader keys ∅ ∧
      w.foldl (fun m p => m.insert p.1 p.2) epochStore.nextSharedObjectVersions =
        withInitial epochStore cacheReader keys epochStore.nextSharedObjectVersions := by
  have hfilter : ∀ k, k ∈ keys.filter (fun key => epochStore.nextSharedObjectVersions[key]?.isNone) ↔
      k ∈ keys ∧ epochStore.nextSharedObjectVersions[k]? = none := by
    intro k
    rw [mem_filter, Option.isNone_iff_eq_none]
  have hwrite : ∀ p ∈ w, p.2 = initialVersion epochStore cacheReader p.1 ∧ p.1 ∈ keys := by
    intro p hp
    obtain ⟨k, hk, hinit⟩ := (mem_mapM hw).mp hp
    obtain ⟨hmem, hnone⟩ := (hfilter k).mp hk
    obtain rfl := initVersion_fst hinit
    refine ⟨?_, hmem⟩
    rw [initialVersion, hnone, hinit]
    rfl
  have hold : ∀ p ∈ keys.filterMap (fun key => epochStore.nextSharedObjectVersions[key]?.map fun v => (key, v)),
      p.2 = initialVersion epochStore cacheReader p.1 ∧ p.1 ∈ keys := by
    intro p hp
    obtain ⟨k, hk, hp⟩ := mem_filterMap.mp hp
    obtain ⟨v, hv, rfl⟩ := Option.map_eq_some_iff.mp hp
    exact ⟨by simp only [initialVersion, hv, Option.getD_some], hk⟩
  -- a key that is not in the table is among the first versions
  have hfirst : ∀ k ∈ keys, k ∉ w.map Prod.fst → ∃ v, epochStore.nextSharedObjectVersions[k]? = some v := by
    intro k hk hnot
    refine Option.ne_none_iff_exists'.mp fun hnone => hnot ?_
    obtain ⟨p, hp, hinit⟩ := exists_of_mapM hw ((hfilter k).mpr ⟨hk, hnone⟩)
    exact initVersion_fst hinit ▸ mem_map_of_mem hp
  constructor
  · refine Std.ExtTreeMap.ext_getElem? fun k => ?_
    have hall := fun p hp => (mem_append.mp hp).elim (hold p) (hwrite p)
    by_cases hk : k ∈ keys
    · rw [get_withInitial_mem _ _ hk]
      refine get_foldl_insert_mem _ (fun p hp => (hall p hp).1) ∅ ?_
      rw [map_append, mem_append]
      by_cases hin : k ∈ w.map Prod.fst
      · exact .inr hin
      · obtain ⟨v, hv⟩ := hfirst k hk hin
        exact .inl (mem_map.mpr ⟨(k, v), mem_filterMap.mpr ⟨k, hk, by rw [hv]; rfl⟩, rfl⟩)
    · rw [get_withInitial_not_mem _ _ hk]
      refine get_foldl_insert_not_mem ∅ fun hin => hk ?_
      obtain ⟨p, hp, rfl⟩ := mem_map.mp hin
      exact (hall p hp).2
  · refine Std.ExtTreeMap.ext_getElem? fun k => ?_
    by_cases hin : k ∈ w.map Prod.fst
    · obtain ⟨p, hp, rfl⟩ := mem_map.mp hin
      rw [get_withInitial_mem _ _ (hwrite p hp).2]
      exact get_foldl_insert_mem _ (fun p hp => (hwrite p hp).1) _ hin
    · rw [get_foldl_insert_not_mem _ hin]
      by_cases hk : k ∈ keys
      · obtain ⟨v, hv⟩ := hfirst k hk hin
        rw [get_withInitial_mem _ _ hk, initialVersion, hv]
        rfl
      · rw [get_withInitial_not_mem _ _ hk]

theorem getOrInitNextObjectVersions_ok {r : NextVersions × NextVersions} :
    getOrInitNextObjectVersions epochStore cacheReader keys = .ok r ↔ Initializable epochStore cacheReader keys ∧
      r = (withInitial epochStore cacheReader keys ∅, withInitial epochStore cacheReader keys epochStore.nextSharedObjectVersions) := by
  rw [getOrInitNextObjectVersions, bind_ok]
  constructor
  · rintro ⟨w, hw, h⟩
    obtain ⟨hret, htable⟩ := ret_eq_withInitial hw
    simp only [pure_ok, hret, htable] at h
    refine ⟨fun k hk hnone => ?_, h.symm⟩
    obtain ⟨p, -, hp⟩ := exists_of_mapM hw (mem_filter.mpr ⟨hk, Option.isNone_iff_eq_none.mpr hnone⟩)
    exact ⟨p, hp⟩
  · rintro ⟨hinit, rfl⟩
    obtain ⟨w, hw⟩ := mapM_total fun k hk =>
      hinit k (mem_filter.mp hk).1 (Option.isNone_iff_eq_none.mp (mem_filter.mp hk).2)
    obtain ⟨hret, htable⟩ := ret_eq_withInitial hw
    exact ⟨w, hw, by simp only [hret, htable, pure_eq_ok]⟩

/-! ## What an assignment depends on -/

/-- The objects that a sequence reads and writes. -/
def keysOf (epochStore : EpochStore) (accumulator : List ConsensusObjectSequenceKey) (seq : List Schedulable) :
    List ConsensusObjectSequenceKey :=
  (seq.flatMap (inputs epochStore)).map SharedInputObject.idAndVersion ++ accumulator

variable {accumulator : List ConsensusObjectSequenceKey}

theorem mem_keysOf : k ∈ keysOf epochStore accumulator seq ↔
      (∃ s ∈ seq, ∃ o ∈ s.inputs epochStore, o.idAndVersion = k) ∨ k ∈ accumulator := by
  simp only [keysOf, mem_append, mem_map, mem_flatMap]
  refine or_congr_left ⟨fun h => ?_, fun h => ?_⟩
  · obtain ⟨o, ⟨s, hs, ho⟩, rfl⟩ := h
    exact ⟨s, hs, o, ho, rfl⟩
  · obtain ⟨s, hs, o, ho, rfl⟩ := h
    exact ⟨o, ⟨s, hs, ho⟩, rfl⟩

theorem keysOf_append (seq1 seq2 : List Schedulable) : k ∈ keysOf epochStore accumulator (seq1 ++ seq2) ↔
      k ∈ keysOf epochStore accumulator seq1 ∨ k ∈ keysOf epochStore accumulator seq2 := by
  simp only [mem_keysOf, mem_append, or_and_right, exists_or]
  exact or_or_distrib_right

variable {m1 m2 : NextVersions}

/-- The accumulator version depends on the next version of the accumulator root. -/
theorem accumulatorVersion_congr (hacc : accumulatorKeys epochStore = .ok accumulator)
    (hagree : ∀ k ∈ accumulator, m1[k]? = m2[k]?) : accumulatorVersion epochStore m1 = accumulatorVersion epochStore m2 := by
  unfold accumulatorVersion
  unfold accumulatorKeys at hacc
  split at hacc
  · rw [if_pos ‹_›, if_pos ‹_›]
    simp only [bind_ok, expect_ok, pure_ok] at hacc
    obtain ⟨v, hv, rfl⟩ := hacc
    rw [hv, expect_some, ok_bind, ok_bind, hagree _ mem_cons_self]
  · rw [if_neg ‹_›, if_neg ‹_›]

theorem assignInputs_congr
    (hagree : ∀ o ∈ shared, m1[o.idAndVersion]? = m2[o.idAndVersion]?) (info : Option CancelConsensusCertificateReason) :
    assignInputs m1 info shared = assignInputs m2 info shared := by
  cases info with
  | some => rfl
  | none => exact mapM_congr fun o ho => by rw [hagree o ho]

/-- The assignment for a certificate depends on the next versions of the objects that it accesses. -/
theorem assignVersionsForCertificate_congr {m1' : NextVersions} (hacc : accumulatorKeys epochStore = .ok accumulator)
    (hagree : ∀ k ∈ keysOf epochStore accumulator [s], m1[k]? = m2[k]?)
    (h : assignVersionsForCertificate epochStore cancelledTxns s m1 = .ok (a, m1')) :
    ∃ m2', assignVersionsForCertificate epochStore cancelledTxns s m2 = .ok (a, m2') := by
  unfold assignVersionsForCertificate at h ⊢
  simp only [bind_ok] at h
  obtain ⟨shared, hshared, acc, hversion, h⟩ := h
  have hinputs := inputs_eq hshared
  have hshare : ∀ o ∈ shared, m1[o.idAndVersion]? = m2[o.idAndVersion]? := fun o ho =>
    hagree _ (mem_keysOf.mpr (.inl ⟨s, mem_singleton_self s, o, hinputs ▸ ho, rfl⟩))
  rw [hshared, ok_bind, ← accumulatorVersion_congr hacc fun k hk => hagree k (mem_keysOf.mpr (.inr hk)), hversion, ok_bind]
  split at h
  · rename_i hempty
    rw [if_pos hempty]
    simp only [pure_ok, Prod.mk.injEq] at h
    obtain ⟨rfl, -⟩ := h
    exact ⟨m2, rfl⟩
  · rename_i hempty
    simp only [bind_ok, assert_ok, pure_ok, Prod.mk.injEq] at h
    obtain ⟨assigned, hassigned, nextVersion, hnext, -, hvalid, m1'', hupdate, rfl, -⟩ := h
    have hupdate2 : ∃ m2', updateNextVersions (s.cancellationInfo cancelledTxns).isSome nextVersion m2 assigned = .ok m2' := by
      cases hinfo : s.cancellationInfo cancelledTxns with
      | some => exact ⟨m2, rfl⟩
      | none =>
        refine ⟨_, foldlM_updateNextVersion_eq hvalid fun input hin => ?_⟩
        rw [hinfo] at hassigned
        obtain ⟨hcur, o, ho, hkey, -⟩ := mem_assignInputs hassigned hin
        rw [← hkey, ← hshare o ho, hkey, hcur]
        rfl
    obtain ⟨m2', hm2'⟩ := hupdate2
    refine ⟨m2', ?_⟩
    rw [if_neg hempty]
    simp only [← assignInputs_congr hshare, hassigned, ok_bind, hnext, hvalid, assert_true, hm2', pure_eq_ok]

variable {as : List (TransactionKey × AssignedVersions)} {r : ConsensusSharedObjVerAssignment}

/-- A loop over a sequence depends on the next versions of the objects of the sequence. -/
theorem foldlM_assignOne_congr (as' : List (TransactionKey × AssignedVersions))
    (hacc : accumulatorKeys epochStore = .ok accumulator)
    (hagree : ∀ k ∈ keysOf epochStore accumulator seq, m1[k]? = m2[k]?)
    (h : seq.foldlM (assignOne epochStore cancelledTxns) ⟨m1, as⟩ = .ok r) :
    ∃ cs m2', r.assignedVersions = as ++ cs ∧ seq.foldlM (assignOne epochStore cancelledTxns) ⟨m2, as'⟩ = .ok ⟨m2', as' ++ cs⟩ ∧
      (∀ k : ConsensusObjectSequenceKey, m1[k]? = m2[k]? → r.sharedInputNextVersions[k]? = m2'[k]?) ∧
      ∀ k ∉ keysOf epochStore accumulator seq, r.sharedInputNextVersions[k]? = m1[k]? := by
  induction seq generalizing m1 m2 as as' with
  | nil =>
    obtain rfl := Except.ok.inj h
    exact ⟨[], m2, (append_nil _).symm, by rw [append_nil]; rfl, fun k hk => hk, fun k _ => rfl⟩
  | cons s seq ih =>
    rw [foldlM_cons, bind_ok] at h
    obtain ⟨c, hstep, h⟩ := h
    simp only [assignOne, bind_ok, assert_ok, pure_ok] at hstep
    obtain ⟨-, hassert, ⟨a, m1'⟩, hcert, rfl⟩ := hstep
    have hsub : ∀ k, k ∈ keysOf epochStore accumulator [s] ∨ k ∈ keysOf epochStore accumulator seq →
        k ∈ keysOf epochStore accumulator (s :: seq) := fun k hk => (keysOf_append [s] seq).mpr hk
    obtain ⟨m2', hcert2⟩ := assignVersionsForCertificate_congr hacc (fun k hk => hagree k (hsub k (.inl hk))) hcert
    have h1 := assigned_of_ok hcert
    have h2 := assigned_of_ok hcert2
    have hkeep : ∀ k : ConsensusObjectSequenceKey, m1[k]? = m2[k]? → m1'[k]? = m2'[k]? := by
      intro k hk
      by_cases hex : s.Exclusive epochStore cancelledTxns k
      · rw [h1.exclusive k hex, h2.exclusive k hex]
      · rw [h1.other k hex, h2.other k hex, hk]
    obtain ⟨cs, m2'', hr, hfold, hsame, hother⟩ := ih (as' ++ [(s.key, a)])
      (fun k hk => hkeep k (hagree k (hsub k (.inr hk)))) h
    refine ⟨(s.key, a) :: cs, m2'', by rw [hr, append_assoc]; rfl, ?_, fun k hk => hsame k (hkeep k hk), fun k hk => ?_⟩
    · rw [foldlM_cons]
      simp only [assignOne, hassert, assert_true, ok_bind, hcert2, pure_eq_ok]
      rw [hfold, append_assoc]
      rfl
    · rw [hother k fun hin => hk (hsub k (.inr hin))]
      refine h1.other k fun hex => hk (hsub k (.inl ?_))
      obtain ⟨-, o, ho, rfl, -⟩ := hex
      exact mem_keysOf.mpr (.inl ⟨s, mem_singleton_self s, o, ho, rfl⟩)

/-- A loop does not touch the next versions of other objects. -/
theorem foldlM_assignOne_other {m : NextVersions} (hacc : accumulatorKeys epochStore = .ok accumulator)
    (h : seq.foldlM (assignOne epochStore cancelledTxns) ⟨m, as⟩ = .ok r)
    (hk : k ∉ keysOf epochStore accumulator seq) : r.sharedInputNextVersions[k]? = m[k]? := by
  obtain ⟨-, -, -, -, -, hother⟩ := foldlM_assignOne_congr as hacc (fun _ _ => rfl) h
  exact hother k hk

/-! ## A call of `assign_versions_from_consensus` -/

theorem withInitial_congr {keys' : List ConsensusObjectSequenceKey} (h : ∀ k, k ∈ keys ↔ k ∈ keys') (m : NextVersions) :
    withInitial epochStore cacheReader keys m = withInitial epochStore cacheReader keys' m := by
  refine Std.ExtTreeMap.ext_getElem? fun k => ?_
  by_cases hk : k ∈ keys
  · rw [get_withInitial_mem _ _ hk, get_withInitial_mem _ _ ((h k).mp hk)]
  · rw [get_withInitial_not_mem _ _ hk, get_withInitial_not_mem _ _ (mt (h k).mpr hk)]

theorem mapM_sharedInputObjects {shared : List (List SharedInputObject)}
    (h : seq.mapM (sharedInputObjects epochStore) = .ok shared) : shared.flatten = seq.flatMap (inputs epochStore) := by
  induction seq generalizing shared with
  | nil =>
    obtain rfl := Except.ok.inj h
    rfl
  | cons _ _ ih =>
    simp only [mapM_cons, bind_ok, pure_ok] at h
    obtain ⟨l, hl, ls, hls, rfl⟩ := h
    rw [flatten_cons, flatMap_cons, ih hls, inputs_eq hl]

/-- A call returns if the versions that the configuration has to give are set, the objects have initial versions and the loop
returns from them. -/
theorem assignVersionsFromConsensus_ok {a : ConsensusSharedObjVerAssignment} {epochStore' : EpochStore} :
    assignVersionsFromConsensus epochStore cacheReader cancelledTxns seq = .ok (a, epochStore') ↔
      ∃ accumulator, accumulatorKeys epochStore = .ok accumulator ∧ (∀ s ∈ seq, ∃ l, s.sharedInputObjects epochStore = .ok l) ∧
        Initializable epochStore cacheReader (keysOf epochStore accumulator seq) ∧
        seq.foldlM (assignOne epochStore cancelledTxns)
          ⟨withInitial epochStore cacheReader (keysOf epochStore accumulator seq) ∅, []⟩ = .ok a ∧
        epochStore' = { epochStore with
          nextSharedObjectVersions :=
            withInitial epochStore cacheReader (keysOf epochStore accumulator seq) epochStore.nextSharedObjectVersions } := by
  have hmem : ∀ keys : List ConsensusObjectSequenceKey, ∀ k, k ∈ BTreeSet.iter keys.toFinset ↔ k ∈ keys := fun keys k => by
    rw [BTreeSet.mem_iter, mem_toFinset]
  unfold assignVersionsFromConsensus getOrInitVersions
  simp only [bind_ok, getOrInitNextObjectVersions_ok, pure_ok, Prod.mk.injEq]
  constructor
  · rintro ⟨shared, hshared, -, ⟨accumulator, hacc, hinit, rfl⟩, a', hfold, rfl, rfl⟩
    rw [mapM_sharedInputObjects hshared] at hinit hfold ⊢
    have hkeys := hmem (keysOf epochStore accumulator seq)
    refine ⟨accumulator, hacc, fun s hs => ?_, fun k hk => hinit k ((hkeys k).mpr hk), ?_, ?_⟩
    · obtain ⟨l, -, hl⟩ := exists_of_mapM hshared hs
      exact ⟨l, hl⟩
    · rw [← withInitial_congr hkeys]
      exact hfold
    · rw [← withInitial_congr hkeys]
      rfl
  · rintro ⟨accumulator, hacc, hall, hinit, hfold, rfl⟩
    obtain ⟨shared, hshared⟩ := mapM_total hall
    have hkeys := hmem (keysOf epochStore accumulator seq)
    refine ⟨shared, hshared, _, ⟨accumulator, hacc, ?_, rfl⟩, a, ?_, rfl, ?_⟩
    · rw [mapM_sharedInputObjects hshared]
      exact fun k hk => hinit k ((hkeys k).mp hk)
    · rw [mapM_sharedInputObjects hshared, ← hfold]
      congr 2
      exact withInitial_congr hkeys ∅
    · rw [mapM_sharedInputObjects hshared]
      congr 1
      exact withInitial_congr hkeys _

end SharedObjVerManager

end Sui

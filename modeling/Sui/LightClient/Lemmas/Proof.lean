import Sui.LightClient.Proof
import Sui.Types.Lemmas.Checkpoint

/-!
# What a proof that verifies says about its targets
-/

namespace Sui.LightClient

open Library Checked TransactionEffectsV2

variable {Sig Agg Merkle Absence : Type} {crypto : Cryptography Sig Agg Merkle Absence}
  {summary : Types.CheckpointSummary}

/-! ## Objects and events of a transaction -/

/-- The effects write the object reference. -/
def TransactionEffects.Writes (effects : TransactionEffects) (objectRef : ObjectRef) : Prop :=
  match effects with
  | .v1 effects => objectRef ∈ effects.mutated ∨ objectRef ∈ effects.created ∨ objectRef ∈ effects.unwrapped
  | .v2 effects => ∃ change, (objectRef.id, change) ∈ effects.changedObjects ∧
      (change.outputState = .objectWrite objectRef.digest ∧ objectRef.version = effects.lamportVersion ∨
        change.outputState = .packageWrite objectRef.version objectRef.digest)

namespace TransactionEffectsV2

variable {self : TransactionEffectsV2} {objectRef : ObjectRef}

/-- What every function that keeps an entry takes from it. -/
def Output (self : TransactionEffectsV2) (id : ObjectID) (change : EffectsObjectChange) (objectRef : ObjectRef) : Prop :=
  objectRef.id = id ∧ (change.outputState = .objectWrite objectRef.digest ∧ objectRef.version = self.lamportVersion ∨
    change.outputState = .packageWrite objectRef.version objectRef.digest)

variable {change : EffectsObjectChange} {id : ObjectID}

theorem output_of_createdRef (h : self.createdRef id change = some objectRef) : self.Output id change objectRef := by
  unfold createdRef at h
  split at h
  · rename_i heq _
    cases h
    exact ⟨rfl, .inl ⟨heq, rfl⟩⟩
  · rename_i heq _
    cases h
    exact ⟨rfl, .inr heq⟩
  · cases h

theorem output_of_mutatedRef (h : self.mutatedRef id change = some objectRef) : self.Output id change objectRef := by
  unfold mutatedRef at h
  split at h
  · rename_i heq
    cases h
    exact ⟨rfl, .inl ⟨heq, rfl⟩⟩
  · rename_i heq
    cases h
    exact ⟨rfl, .inr heq⟩
  · cases h

theorem output_of_unwrappedRef (h : self.unwrappedRef id change = some objectRef) : self.Output id change objectRef := by
  unfold unwrappedRef at h
  split at h
  · rename_i heq _
    cases h
    exact ⟨rfl, .inl ⟨heq, rfl⟩⟩
  · cases h

/-- The one argument for created, mutated and unwrapped objects. -/
theorem writes_of_mem_refs {keep : TransactionEffectsV2 → ObjectID → EffectsObjectChange → Option ObjectRef}
    (hkeep : ∀ id change, keep self id change = some objectRef → self.Output id change objectRef)
    (h : objectRef ∈ self.refs keep) : (TransactionEffects.v2 self).Writes objectRef := by
  obtain ⟨entry, hentry, heq⟩ := List.mem_filterMap.mp h
  obtain ⟨hid, hout⟩ := hkeep entry.1 entry.2 heq
  exact ⟨entry.2, by rwa [hid], hout⟩

end TransactionEffectsV2

/-- Every object that the effects list as changed is written by them. -/
theorem TransactionEffects.writes_of_mem {effects : TransactionEffects} {objectRef : ObjectRef}
    (h : objectRef ∈ effects.allChangedObjects) : effects.Writes objectRef := by
  cases effects with
  | v1 =>
    simp only [allChangedObjects, List.mem_append] at h
    rcases h with (h | h) | h
    · exact .inl h
    · exact .inr (.inl h)
    · exact .inr (.inr h)
  | v2 =>
    simp only [allChangedObjects, List.mem_append] at h
    rcases h with (h | h) | h
    · exact writes_of_mem_refs (fun _ _ => output_of_mutatedRef) h
    · exact writes_of_mem_refs (fun _ _ => output_of_createdRef) h
    · exact writes_of_mem_refs (fun _ _ => output_of_unwrappedRef) h

variable (crypto summary) in
/-- The digests of the effects are in the contents that the summary certifies. -/
structure CertifiedTransaction (effects : TransactionEffects) : Prop where
  contents : ∃ contents, crypto.contentsDigest contents = summary.contentDigest
  member : ∀ contents, crypto.contentsDigest contents = summary.contentDigest → executionDigests crypto effects ∈ contents.iter

variable (crypto) in
/-- The event is the one at the index in the events that the effects name. -/
structure Emits (effects : TransactionEffects) (eventSeq : Nat) (event : Event) : Prop where
  events : ∃ events, effects.eventsDigest = some (crypto.eventsDigest events)
  stored : ∀ events, effects.eventsDigest = some (crypto.eventsDigest events) → events.data[eventSeq]? = some event

variable {targets : ProofTarget}

namespace TransactionProof

variable {self : TransactionProof}

/-- The objects have the references that are proved, and the effects write them. -/
theorem verifyObjects_ok {targets : List (ObjectRef × Object)} (h : self.verifyObjects crypto targets = .ok ()) :
    ∀ target ∈ targets, target.1 = computeObjectReference crypto target.2 ∧ self.effects.Writes target.1 := by
  intro target htarget
  have hone := forM_ok.mp h target htarget
  simp only [bind_ok, assert_ok, decide_eq_true_eq, exists_const] at hone
  exact ⟨hone.1, TransactionEffects.writes_of_mem hone.2⟩

/-- The events are those of the transaction, at the indices that are proved. -/
theorem verifyEvents_ok {targets : List (EventID × Event)} {txDigest : Types.Digest}
    (h : self.verifyEvents crypto targets txDigest = .ok ()) :
    ∀ target ∈ targets, target.1.txDigest = txDigest ∧ Emits crypto self.effects target.1.eventSeq target.2 := by
  simp only [verifyEvents, bind_ok, assert_ok, decide_eq_true_eq, exists_const] at h
  obtain ⟨hdigest, h⟩ := h
  intro target htarget
  cases hevents : self.events with
  | none =>
    rw [hevents] at h
    simp only [assert_ok, List.isEmpty_iff] at h
    simp [h] at htarget
  | some txEvents =>
    rw [hevents] at h hdigest
    have hone := forM_ok.mp h target htarget
    simp only [verifyEvent, bind_ok, assert_ok, expect_ok, decide_eq_true_eq, exists_const] at hone
    obtain ⟨htx, event, hget, rfl⟩ := hone
    refine ⟨htx, ⟨txEvents, hdigest⟩, ?_⟩
    intro events heq
    rw [hdigest, Option.map_some, Option.some.injEq] at heq
    rw [← crypto.eventsDigest_injective heq]
    exact hget

/-- A transaction proof certifies its effects, and then its targets. -/
theorem verify_ok (h : self.verify crypto targets summary = .ok ()) : CertifiedTransaction crypto summary self.effects ∧
      ((∃ objects, targets = .objects objects ∧ self.verifyObjects crypto objects = .ok ()) ∨
        ∃ events, targets = .events events ∧ self.verifyEvents crypto events self.effects.transactionDigest = .ok ()) := by
  simp only [verify, bind_ok, assert_ok, decide_eq_true_eq, exists_const] at h
  obtain ⟨hcontents, -, _, -, hmem, h⟩ := h
  refine ⟨⟨⟨_, hcontents⟩, ?_⟩, ?_⟩
  · intro contents heq
    rw [crypto.contentsDigest_injective (heq.trans hcontents.symm)]
    exact hmem
  · cases targets with
    | objects objects => exact .inl ⟨objects, rfl, h⟩
    | events events => exact .inr ⟨events, rfl, h⟩
    | committee => cases h
    | objectCheckpointState => cases h

end TransactionProof

/-! ## The next committee -/

/-- The summary ends its epoch and names the committee of the next one. -/
def NamesCommittee (summary : Types.CheckpointSummary) (committee : Types.EpochCommittee) : Prop :=
  ∃ data, summary.endOfEpochData = some data ∧ committee.epoch = summary.epoch + 1 ∧
    committee.votingRights = (Types.collectVotingRights data.nextEpochCommittee).toList

/-- The committee is the one that the summary names. -/
theorem extractNewCommitteeInfo_ok {committee : Types.EpochCommittee} (h : extractNewCommitteeInfo crypto summary = .ok committee) :
    NamesCommittee summary committee := by
  simp only [extractNewCommitteeInfo, bind_ok, expect_ok, Word.add_ok, mapError_ok] at h
  obtain ⟨data, hdata, _, ⟨-, rfl⟩, hcommittee⟩ := h
  obtain ⟨-, -, hepoch, hrights⟩ := Types.newCommittee_ok.mp hcommittee
  exact ⟨data, hdata, hepoch, hrights⟩

/-- The epoch and the voting rights of a committee that verifies are those of the committee that the summary names. -/
theorem verifyCommittee_ok (h : verifyCommittee crypto targets summary = .ok ()) :
    ∃ committee named, targets = .committee committee ∧ NamesCommittee summary named ∧ named.epoch = committee.epoch ∧
      named.votingRights = committee.votingRights := by
  cases targets with
  | committee committee =>
    simp only [verifyCommittee, bind_ok, assert_ok, decide_eq_true_eq] at h
    obtain ⟨named, hnew, hepoch, hrights⟩ := h
    exact ⟨committee, named, rfl, extractNewCommitteeInfo_ok hnew, hepoch, hrights⟩
  | objects => cases h
  | events => cases h
  | objectCheckpointState => cases h

/-! ## The state of an object -/

/-- The leaves are sorted, as non-inclusion proofs need it. -/
theorem pairwise_leaves (states : ObjectStates) : states.leaves.Pairwise ObjectRef.Lt := by
  rw [ObjectStates.leaves, List.pairwise_map]
  exact (BTreeMap.pairwise_toList states).imp fun h => .inl h

/-- The leaves are the states of the objects. -/
theorem mem_leaves {states : ObjectStates} {objectRef : ObjectRef} :
    objectRef ∈ states.leaves ↔ states[objectRef.id]? = some (objectRef.version, objectRef.digest) := by
  rw [← BTreeMap.mem_toList, ObjectStates.leaves, List.mem_map]
  constructor
  · rintro ⟨⟨id, version, digest⟩, hmem, rfl⟩
    exact hmem
  · intro hmem
    exact ⟨_, hmem, rfl⟩

variable (crypto summary) in
/-- What the object states of a checkpoint that the summary certifies say of a reference. -/
def CertifiedStates (P : ObjectStates → Prop) : Prop :=
  ∃ digest, summary.checkpointArtifactsDigest = some digest ∧ ∀ states, checkpointArtifactsDigest crypto states = digest → P states

theorem ObjectRef.Lt.id_le {a b : ObjectRef} (h : a.Lt b) : a.id ≤ b.id := by
  rcases h with h | ⟨h, -⟩ <;> exact h.le

/-- Where the leaves next to a reference are of other objects, no leaf is of its object. -/
theorem id_ne_of_neighbours {pre post : List ObjectRef} {objectRef leaf : ObjectRef} (hsorted : (pre ++ post).Pairwise ObjectRef.Lt)
    (hleft : ∀ left, pre.getLast? = some left → left.Lt objectRef ∧ left.id ≠ objectRef.id)
    (hright : ∀ right, post.head? = some right → objectRef.Lt right ∧ right.id ≠ objectRef.id) (hmem : leaf ∈ pre ++ post) :
    leaf.id ≠ objectRef.id := by
  obtain ⟨hpre, hpost, -⟩ := List.pairwise_append.mp hsorted
  intro heq
  rcases List.mem_append.mp hmem with hmem | hmem
  · obtain ⟨init, left, rfl⟩ := List.eq_nil_or_concat' pre |>.resolve_left (List.ne_nil_of_mem hmem)
    obtain ⟨hlt, hne⟩ := hleft left List.getLast?_concat
    have hle : leaf.id ≤ left.id := by
      rcases List.mem_append.mp hmem with hmem | hmem
      · exact ((List.pairwise_append.mp hpre).2.2 leaf hmem left (by simp)).id_le
      · exact (List.mem_singleton.mp hmem) ▸ le_rfl
    exact hne (le_antisymm hlt.id_le (heq ▸ hle))
  · cases post with
    | nil => simp at hmem
    | cons right rest =>
      obtain ⟨hlt, hne⟩ := hright right rfl
      have hle : right.id ≤ leaf.id := by
        rcases List.mem_cons.mp hmem with rfl | hmem
        · exact le_rfl
        · exact ((List.pairwise_cons.mp hpost).1 leaf hmem).id_le
      exact hne (le_antisymm (heq ▸ hle) hlt.id_le)

variable (crypto) in
/-- The neighbours that a non-inclusion proof shows are of other objects. -/
def OCSProof.OtherNeighbours (objectRef : ObjectRef) : OCSProof Merkle Absence → Prop
  | .inclusion _ _ _ => True
  | .nonInclusion proof _ =>
    ∀ leaf, crypto.merkle.leftLeaf proof = some leaf ∨ crypto.merkle.rightLeaf proof = some leaf → leaf.id ≠ objectRef.id

/-- An inclusion proof shows the state of the object, a non-inclusion proof, if its neighbours are of other objects, that there is
none. -/
theorem OCSProof.verify_ok {self : OCSProof Merkle Absence} (h : self.verify crypto targets summary = .ok ()) :
    ∃ target, targets = .objectCheckpointState target ∧ (self.OtherNeighbours crypto target.objectRef →
      CertifiedStates crypto summary fun states => states[target.objectRef.id]? =
        if target.targetType = .inclusion then some (target.objectRef.version, target.objectRef.digest) else none) := by
  cases targets with
  | objectCheckpointState target =>
    simp only [verify, bind_ok, assert_ok, expect_ok, decide_eq_true_eq, exists_const] at h
    obtain ⟨digest, hdigest, hroot, h⟩ := h
    refine ⟨target, rfl, ?_⟩
    intro hneighbours
    refine ⟨digest, hdigest, ?_⟩
    intro states hstates
    have hself : self.getArtifactDigest = crypto.merkle.root states.leaves := by
      have heq := crypto.artifactsDigest_injective (hroot.trans hstates.symm)
      simpa using heq
    cases self with
    | inclusion _ _ treeRoot =>
      simp only [verifyTarget, bind_ok, assert_ok, decide_eq_true_eq, exists_const] at h
      rw [show treeRoot = crypto.merkle.root states.leaves from hself] at h
      rw [if_pos h.1]
      exact mem_leaves.mp (List.mem_of_getElem? (crypto.merkle.sound h.2))
    | nonInclusion _ treeRoot =>
      simp only [verifyTarget, bind_ok, assert_ok, decide_eq_true_eq, exists_const] at h
      rw [show treeRoot = crypto.merkle.root states.leaves from hself] at h
      rw [if_neg (by simp [h.1])]
      obtain ⟨pre, post, hleaves, hleft, hright, hlt, hgt⟩ := crypto.merkle.absence_sound h.2
      have hsorted := pairwise_leaves states
      rw [hleaves] at hsorted
      have hpre : ∀ left, pre.getLast? = some left → left.Lt target.objectRef ∧ left.id ≠ target.objectRef.id := by
        intro left h
        exact ⟨hlt left (hleft ▸ h), hneighbours left (.inl (hleft ▸ h))⟩
      have hpost : ∀ right, post.head? = some right → target.objectRef.Lt right ∧ right.id ≠ target.objectRef.id := by
        intro right h
        exact ⟨hgt right (hright ▸ h), hneighbours right (.inr (hright ▸ h))⟩
      cases hstate : states[target.objectRef.id]? with
      | none => rfl
      | some state =>
        have hmem : ⟨target.objectRef.id, state.1, state.2⟩ ∈ pre ++ post := hleaves ▸ mem_leaves.mpr hstate
        exact (id_ne_of_neighbours hsorted hpre hpost hmem rfl).elim
  | objects => cases h
  | events => cases h
  | committee => cases h

end Sui.LightClient

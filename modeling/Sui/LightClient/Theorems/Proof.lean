import Sui.LightClient.Lemmas.Proof
import Mathlib.Logic.Encodable.Basic

/-!
# Soundness of light client proofs

A proof that verifies is certified by a quorum, and its targets hold, with two exceptions. A non-inclusion proof shows that one
reference is not in the artifacts, not that its object is not updated. Of a committee the epoch and the voting rights are
compared, but not the keys and the indices that come with it.
-/

namespace Sui.LightClient

open Library Checked Encodable

/-- What the targets of a proof say about the checkpoint with the summary. -/
def TargetHolds {Sig Agg Merkle Absence : Type} (crypto : Cryptography Sig Agg Merkle Absence)
    (summary : Types.CheckpointSummary) : ProofTarget → Prop
  | .objects objects => ∃ effects, CertifiedTransaction crypto summary effects ∧
      ∀ target ∈ objects, target.1 = computeObjectReference crypto target.2 ∧ effects.Writes target.1
  | .events events => ∃ effects, CertifiedTransaction crypto summary effects ∧
      ∀ target ∈ events, target.1.txDigest = effects.transactionDigest ∧ Emits crypto effects target.1.eventSeq target.2
  | .committee committee => ∃ named, NamesCommittee summary named ∧ committee = .new named
  | .objectCheckpointState ⟨objectRef, .inclusion⟩ => CertifiedStates crypto summary fun states =>
      states[objectRef.id]? = some (objectRef.version, objectRef.digest)
  -- the object was not updated in the checkpoint
  | .objectCheckpointState ⟨objectRef, .nonInclusion⟩ => CertifiedStates crypto summary fun states => states[objectRef.id]? = none

/-- What the verification does not look at: the objects of the neighbours in a non-inclusion proof, and the keys and indices of a
committee. -/
def Proof.Unseen {Sig Agg Merkle Absence : Type} (crypto : Cryptography Sig Agg Merkle Absence)
    (self : Proof Agg Merkle Absence) : Prop :=
  (∀ target proof, self.targets = .objectCheckpointState target → self.proofContents = .objectCheckpointStateProof proof →
    proof.OtherNeighbours crypto target.objectRef) ∧
    ∀ committee, self.targets = .committee committee → (committee.expandedKeys, committee.indexMap) = loadInner committee.votingRights

section Soundness

variable {Sig Agg Merkle Absence : Type} {crypto : Cryptography Sig Agg Merkle Absence}
  {self : Proof Agg Merkle Absence} {committee : Types.EpochCommittee} {summary : Types.CheckpointSummary}

/-- The contents of a proof that verifies make its targets hold. -/
theorem targetHolds_of_verify (h : self.proofContents.verify crypto self.targets summary = .ok ()) (hunseen : self.Unseen crypto) :
    TargetHolds crypto summary self.targets := by
  obtain ⟨hneighbours, hkeys⟩ := hunseen
  cases hcontents : self.proofContents with
  | transactionProof =>
    rw [hcontents] at h
    obtain ⟨hcertified, ⟨objects, htargets, h⟩ | ⟨events, htargets, h⟩⟩ := TransactionProof.verify_ok h
    · rw [htargets]
      exact ⟨_, hcertified, TransactionProof.verifyObjects_ok h⟩
    · rw [htargets]
      exact ⟨_, hcertified, TransactionProof.verifyEvents_ok h⟩
  | committeeProof =>
    rw [hcontents] at h
    obtain ⟨⟨_, rights, keys, indices⟩, named, htargets, hnamed, rfl, rfl⟩ := verifyCommittee_ok h
    have hloaded : (keys, indices) = loadInner named.votingRights := hkeys _ htargets
    rw [htargets]
    exact ⟨named, hnamed, by rw [CommitteeTarget.new, ← hloaded]⟩
  | objectCheckpointStateProof proof =>
    rw [hcontents] at h
    obtain ⟨⟨objectRef, targetType⟩, htargets, hstates⟩ := OCSProof.verify_ok h
    rw [htargets]
    have hstates := hstates (hneighbours _ proof htargets hcontents)
    cases targetType with
    | inclusion => exact hstates
    | nonInclusion => exact hstates

end Soundness

/-! ## An object that is updated and proved not to be -/

section Example

/-- The fields of a reference. -/
def ObjectRef.fields (r : ObjectRef) : Nat × Nat × Nat := (r.id, r.version, r.digest)

theorem ObjectRef.fields_injective : Function.Injective ObjectRef.fields := by
  rintro ⟨_, _, _⟩ ⟨_, _, _⟩ h
  simp_all [fields]

def Event.fields (e : Event) : Nat × List Nat × Nat × List Nat × List Nat :=
  (e.packageId, e.transactionModule, e.sender, e.type, e.contents)

theorem Event.fields_injective : Function.Injective Event.fields := by
  rintro ⟨_, _, _, _, _⟩ ⟨_, _, _, _, _⟩ h
  simp_all [fields]

def ExecutionDigests.fields (d : ExecutionDigests) : Nat × Nat := (d.transaction, d.effects)

theorem ExecutionDigests.fields_injective : Function.Injective ExecutionDigests.fields := by
  rintro ⟨_, _⟩ ⟨_, _⟩ h
  simp_all [fields]

def CheckpointTransactionContents.fields (c : CheckpointTransactionContents) : (Nat × Nat) × List (Nat × Option Nat) :=
  (c.digest.fields, c.userSignatures)

theorem CheckpointTransactionContents.fields_injective : Function.Injective CheckpointTransactionContents.fields := by
  rintro ⟨_, _⟩ ⟨_, _⟩ h
  simp only [fields, Prod.mk.injEq] at h
  rw [ExecutionDigests.fields_injective h.1, h.2]

def CheckpointContents.fields : CheckpointContents →
    (List (Nat × Nat) × List (List Nat)) ⊕ List ((Nat × Nat) × List (Nat × Option Nat))
  | .v1 transactions userSignatures => .inl (transactions.map ExecutionDigests.fields, userSignatures)
  | .v2 transactions => .inr (transactions.map CheckpointTransactionContents.fields)

theorem CheckpointContents.fields_injective : Function.Injective CheckpointContents.fields := by
  rintro (⟨_, _⟩ | ⟨_⟩) (⟨_, _⟩ | ⟨_⟩) h
  · simp only [fields, Sum.inl.injEq, Prod.mk.injEq] at h
    rw [ExecutionDigests.fields_injective.list_map h.1, h.2]
  · cases h
  · cases h
  · simp only [fields, Sum.inr.injEq] at h
    rw [CheckpointTransactionContents.fields_injective.list_map h]

/-- Digests that write the fields into one number, a list of leaves as its own proof, and signatures that are sums of keys. -/
def exampleCrypto : Cryptography Nat Nat (List ObjectRef) (List ObjectRef × Nat) where
  scheme := .ofSigning fun key _ => key
  isPublicKey _ := true
  contentsDigest contents := encode contents.fields
  contentsDigest_injective := encode_injective.comp CheckpointContents.fields_injective
  transactionDigest transaction := encode transaction.data
  effectsDigest effects := encode (effects.transactionDigest, effects.eventsDigest)
  eventsDigest events := encode (events.data.map Event.fields)
  eventsDigest_injective := by
    rintro ⟨data⟩ ⟨data'⟩ h
    have hdata : data = data' := Event.fields_injective.list_map (encode_injective h)
    rw [hdata]
  objectDigest object := encode (object.id, object.version, object.contents)
  artifactsDigest digests := encode digests
  artifactsDigest_injective := encode_injective
  merkle := .ofEncoding (fun leaves => encode (leaves.map ObjectRef.fields))
    (encode_injective.comp ObjectRef.fields_injective.list_map)

def exampleCommittee : Types.EpochCommittee := .ofOne 0 1

/-- A checkpoint in which object 3 gets version 2 and object 7 gets version 5. -/
def exampleStates : ObjectStates := ((∅ : ObjectStates).insert 3 (2, 8)).insert 7 (5, 3)

/-- The summary of that checkpoint, which ends the epoch, signed by the committee. -/
def exampleSummary : Types.CertifiedCheckpointSummary Nat :=
  ⟨⟨0, 1, 0, 0, none, [.checkpointArtifactsDigest (checkpointArtifactsDigest exampleCrypto exampleStates)], some ⟨[(2, 10000)]⟩, []⟩,
    ⟨0, 1, {0}⟩⟩

/-- The proof that an object is not updated, by the leaves before and after its place. -/
def nonInclusionOf (id : ObjectID) : Proof Nat (List ObjectRef) (List ObjectRef × Nat) :=
  ⟨.objectCheckpointState (.newNonInclusionTarget id), exampleSummary, .objectCheckpointStateProof
    (.nonInclusion (exampleStates.leaves, 1) (exampleCrypto.merkle.root exampleStates.leaves))⟩

/-- The next committee, with the key of another authority. -/
def forgedKeys : CommitteeTarget := { CommitteeTarget.new ⟨1, [(2, 10000)], List.pairwise_singleton _ _⟩ with
  expandedKeys := (∅ : BTreeMap Types.AuthorityName Types.AuthorityName).insert 2 9 }

/-- A committee with that key verifies. -/
theorem forged_keys_verify :
    Proof.verify exampleCrypto ⟨.committee forgedKeys, exampleSummary, .committeeProof⟩ exampleCommittee = .ok () ∧
      ¬ TargetHolds exampleCrypto exampleSummary.data (.committee forgedKeys) := by
  refine ⟨by decide +kernel, ?_⟩
  rintro ⟨named, ⟨data, hdata, -, hrights⟩, hforged⟩
  cases hdata
  have hkeys := congrArg (fun c => c.expandedKeys[(2 : Nat)]?) hforged
  simp only [CommitteeTarget.new, hrights] at hkeys
  exact absurd hkeys (by decide +kernel)

end Example

end Sui.LightClient

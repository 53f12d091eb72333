import Sui.Library.VectorCommitment
import Sui.Library.Word
import Sui.Types.Checkpoint

/-!
# Proofs of the light client

`client/light/src/proof`: a proof certifies targets (objects, events, the next committee, or the state of an object) by a
checkpoint summary that a committee has signed and by data that lead from its digests to the targets. Whoever builds a proof
chooses every part of it. Identifiers, type tags and contents are lists of bytes; of fields of effects that nothing looks into
only their bytes are kept.
-/

namespace Sui.LightClient

open Library Checked

abbrev ObjectID := Nat

structure ObjectRef where
  id : ObjectID
  version : Nat
  digest : Types.Digest
deriving DecidableEq, Repr

/-- The order of references: by id, then version, then digest. -/
def ObjectRef.Lt (a b : ObjectRef) : Prop :=
  a.id < b.id ∨ a.id = b.id ∧ (a.version < b.version ∨ a.version = b.version ∧ a.digest < b.digest)

instance : DecidableRel ObjectRef.Lt := fun _ _ => inferInstanceAs (Decidable (_ ∨ _))

structure Object where
  id : ObjectID
  version : Nat
  contents : List Nat
deriving DecidableEq, Repr

structure Event where
  packageId : ObjectID
  transactionModule : List Nat
  sender : Nat
  type : List Nat
  contents : List Nat
deriving DecidableEq, Repr

structure EventID where
  txDigest : Types.Digest
  eventSeq : Nat
deriving DecidableEq, Repr

structure TransactionEvents where
  data : List Event
deriving DecidableEq, Repr

structure Transaction where
  data : List Nat
deriving DecidableEq, Repr

/-! ## Effects -/

inductive ObjectIn where
  | notExist
  | exist (version : Nat) (digest : Types.Digest)
deriving DecidableEq, Repr

inductive ObjectOut where
  | notExist
  | objectWrite (digest : Types.Digest)
  | packageWrite (version : Nat) (digest : Types.Digest)
  | accumulatorWriteV1 (write : List Nat)
deriving DecidableEq, Repr

inductive IDOperation where
  | none
  | created
  | deleted
deriving DecidableEq, Repr

structure EffectsObjectChange where
  inputState : ObjectIn
  outputState : ObjectOut
  idOperation : IDOperation
deriving DecidableEq, Repr

structure TransactionEffectsV1 where
  transactionDigest : Types.Digest
  eventsDigest : Option Types.Digest
  created : List ObjectRef
  mutated : List ObjectRef
  unwrapped : List ObjectRef
  otherFields : List Nat
deriving DecidableEq, Repr

structure TransactionEffectsV2 where
  transactionDigest : Types.Digest
  eventsDigest : Option Types.Digest
  lamportVersion : Nat
  changedObjects : List (ObjectID × EffectsObjectChange)
  otherFields : List Nat
deriving DecidableEq, Repr

namespace TransactionEffectsV2

variable (self : TransactionEffectsV2)

/-- An entry that `created` keeps. -/
def createdRef (id : ObjectID) (change : EffectsObjectChange) : Option ObjectRef :=
  match change.inputState, change.outputState, change.idOperation with
  | .notExist, .objectWrite digest, .created => some ⟨id, self.lamportVersion, digest⟩
  | .notExist, .packageWrite version digest, .created => some ⟨id, version, digest⟩
  | _, _, _ => none

/-- An entry that `mutated` keeps. -/
def mutatedRef (id : ObjectID) (change : EffectsObjectChange) : Option ObjectRef :=
  match change.inputState, change.outputState with
  | .exist _ _, .objectWrite digest => some ⟨id, self.lamportVersion, digest⟩
  | .exist _ _, .packageWrite version digest => some ⟨id, version, digest⟩
  | _, _ => none

/-- An entry that `unwrapped` keeps. -/
def unwrappedRef (id : ObjectID) (change : EffectsObjectChange) : Option ObjectRef :=
  match change.inputState, change.outputState, change.idOperation with
  | .notExist, .objectWrite digest, .none => some ⟨id, self.lamportVersion, digest⟩
  | _, _, _ => none

/-- The entries of `changed_objects` that one of these functions keeps. -/
def refs (keep : TransactionEffectsV2 → ObjectID → EffectsObjectChange → Option ObjectRef) : List ObjectRef :=
  self.changedObjects.filterMap fun entry => keep self entry.1 entry.2

end TransactionEffectsV2

inductive TransactionEffects where
  | v1 (effects : TransactionEffectsV1)
  | v2 (effects : TransactionEffectsV2)
deriving DecidableEq, Repr

namespace TransactionEffects

def transactionDigest : TransactionEffects → Types.Digest
  | .v1 effects => effects.transactionDigest
  | .v2 effects => effects.transactionDigest

def eventsDigest : TransactionEffects → Option Types.Digest
  | .v1 effects => effects.eventsDigest
  | .v2 effects => effects.eventsDigest

def allChangedObjects : TransactionEffects → List ObjectRef
  | .v1 effects => effects.mutated ++ effects.created ++ effects.unwrapped
  | .v2 effects =>
    effects.refs TransactionEffectsV2.mutatedRef ++ effects.refs TransactionEffectsV2.createdRef ++
      effects.refs TransactionEffectsV2.unwrappedRef

end TransactionEffects

/-! ## Contents and artifacts of a checkpoint -/

structure ExecutionDigests where
  transaction : Types.Digest
  effects : Types.Digest
deriving DecidableEq, Repr

structure CheckpointTransactionContents where
  digest : ExecutionDigests
  userSignatures : List (Nat × Option Nat)
deriving DecidableEq, Repr

inductive CheckpointContents where
  | v1 (transactions : List ExecutionDigests) (userSignatures : List (List Nat))
  | v2 (transactions : List CheckpointTransactionContents)
deriving DecidableEq, Repr

def CheckpointContents.iter : CheckpointContents → List ExecutionDigests
  | .v1 transactions _ => transactions
  | .v2 transactions => transactions.map (·.digest)

/-- The artifact of a checkpoint: the last version and digest of each object that is updated in it. -/
abbrev ObjectStates := BTreeMap ObjectID (Nat × Types.Digest)

/-- The leaves of the tree of object states. -/
def ObjectStates.leaves (states : ObjectStates) : List ObjectRef := states.toList.map fun entry => ⟨entry.1, entry.2.1, entry.2.2⟩

/-- Signatures, digests and the Merkle library. No two values have the same digest. -/
structure Cryptography (Sig Agg Merkle Absence : Type) where
  scheme : AggregateScheme Types.AuthorityName (Types.CheckpointSummary × Types.EpochId) Sig Agg
  isPublicKey : Types.AuthorityName → Bool
  contentsDigest : CheckpointContents → Types.Digest
  contentsDigest_injective : Function.Injective contentsDigest
  transactionDigest : Transaction → Types.Digest
  effectsDigest : TransactionEffects → Types.Digest
  eventsDigest : TransactionEvents → Types.Digest
  eventsDigest_injective : Function.Injective eventsDigest
  objectDigest : Object → Types.Digest
  artifactsDigest : List Types.Digest → Types.Digest
  artifactsDigest_injective : Function.Injective artifactsDigest
  merkle : VectorCommitment ObjectRef Types.Digest Merkle Absence ObjectRef.Lt

variable {Sig Agg Merkle Absence : Type} (crypto : Cryptography Sig Agg Merkle Absence)

def executionDigests (effects : TransactionEffects) : ExecutionDigests := ⟨effects.transactionDigest, crypto.effectsDigest effects⟩

def computeObjectReference (object : Object) : ObjectRef := ⟨object.id, object.version, crypto.objectDigest object⟩

/-- `digest` of `CheckpointArtifacts` with the object states. -/
def checkpointArtifactsDigest (states : ObjectStates) : Types.Digest :=
  crypto.artifactsDigest [crypto.merkle.root states.leaves]

/-! ## Targets and proofs -/

/-- `ProofError`, and the panics on the way. -/
inductive ProofError where
  | summaryVerificationFailed (error : Types.SuiError)
  | mismatchedTargetAndProofType
  | contentsDigestMismatch
  | transactionDigestMismatch
  | transactionDigestNotFound
  | objectReferenceMismatch
  | objectNotFound
  | eventsDigestMismatch
  | eventTransactionMismatch
  | eventSequenceOutOfBounds
  | eventContentsMismatch
  | eventsMissing
  | epochAddOverflow
  | expectedEndOfEpochCheckpoint
  | committeeMismatch
  | artifactDigestMismatch
  | invalidProof
  | generalError (message : String)
  | underflow
  | committeePanic (panic : Types.CommitteePanic)
deriving DecidableEq, Repr

inductive OCSTargetType where
  | inclusion
  | nonInclusion
deriving DecidableEq, Repr

structure OCSTarget where
  objectRef : ObjectRef
  targetType : OCSTargetType
deriving DecidableEq, Repr

/-- `new_non_inclusion_target`, with its dummy reference. -/
def OCSTarget.newNonInclusionTarget (id : ObjectID) : OCSTarget := ⟨⟨id, 0, 0⟩, .nonInclusion⟩

def OCSTarget.newInclusionTarget (objectRef : ObjectRef) : OCSTarget := ⟨objectRef, .inclusion⟩

/-- `load_inner` of a committee: the expanded keys and the index map. -/
def loadInner (votingRights : List (Types.AuthorityName × Nat)) :
    BTreeMap Types.AuthorityName Types.AuthorityName × BTreeMap Types.AuthorityName Nat :=
  (votingRights.foldl (fun keys right => keys.insert right.1 right.1) ∅,
    votingRights.zipIdx.foldl (fun indices right => indices.insert right.1.1 right.2) ∅)

/-- `CommitteeTarget`: a `Committee` as it is deserialized, with any keys and any indices. -/
structure CommitteeTarget where
  epoch : Types.EpochId
  votingRights : List (Types.AuthorityName × Nat)
  expandedKeys : BTreeMap Types.AuthorityName Types.AuthorityName
  indexMap : BTreeMap Types.AuthorityName Nat

/-- A committee with the keys and the indices of its voting rights. -/
def CommitteeTarget.new (committee : Types.EpochCommittee) : CommitteeTarget :=
  ⟨committee.epoch, committee.votingRights, (loadInner committee.votingRights).1, (loadInner committee.votingRights).2⟩

inductive ProofTarget where
  | objects (objects : List (ObjectRef × Object))
  | events (events : List (EventID × Event))
  | committee (committee : CommitteeTarget)
  | objectCheckpointState (target : OCSTarget)

structure TransactionProof where
  checkpointContents : CheckpointContents
  transaction : Transaction
  effects : TransactionEffects
  events : Option TransactionEvents

inductive OCSProof (Merkle Absence : Type) where
  | inclusion (merkleProof : Merkle) (leafIndex : Nat) (treeRoot : Types.Digest)
  | nonInclusion (nonInclusionProof : Absence) (treeRoot : Types.Digest)

inductive ProofContents (Merkle Absence : Type) where
  | transactionProof (proof : TransactionProof)
  | committeeProof
  | objectCheckpointStateProof (proof : OCSProof Merkle Absence)

structure Proof (Agg Merkle Absence : Type) where
  targets : ProofTarget
  checkpointSummary : Types.CertifiedCheckpointSummary Agg
  proofContents : ProofContents Merkle Absence

namespace TransactionProof

def verifyObjects (self : TransactionProof) (targetObjects : List (ObjectRef × Object)) : Except ProofError Unit :=
  targetObjects.forM fun target => do
    assert (target.1 = computeObjectReference crypto target.2) .objectReferenceMismatch
    assert (target.1 ∈ self.effects.allChangedObjects) .objectNotFound

/-- One target of `verify_events`. -/
def verifyEvent (txEvents : TransactionEvents) (txDigest : Types.Digest) (target : EventID × Event) : Except ProofError Unit := do
  assert (target.1.txDigest = txDigest) .eventTransactionMismatch
  let event ← expect txEvents.data[target.1.eventSeq]? .eventSequenceOutOfBounds
  assert (event = target.2) .eventContentsMismatch

def verifyEvents (self : TransactionProof) (targetEvents : List (EventID × Event)) (txDigest : Types.Digest) :
    Except ProofError Unit := do
  assert (self.effects.eventsDigest = self.events.map crypto.eventsDigest) .eventsDigestMismatch
  match self.events with
  | some txEvents => targetEvents.forM (verifyEvent txEvents txDigest)
  | none => assert targetEvents.isEmpty .eventsMissing

def verify (self : TransactionProof) (targets : ProofTarget) (summary : Types.CheckpointSummary) : Except ProofError Unit := do
  assert (crypto.contentsDigest self.checkpointContents = summary.contentDigest) .contentsDigestMismatch
  let digests := executionDigests crypto self.effects
  assert (crypto.transactionDigest self.transaction = digests.transaction) .transactionDigestMismatch
  -- `enumerate_transactions` subtracts the number of transactions from the total of the network
  let _start ← Word.sub ProofError.underflow summary.networkTotalTransactions self.checkpointContents.iter.length
  assert (digests ∈ self.checkpointContents.iter) .transactionDigestNotFound
  match targets with
  | .objects objects => self.verifyObjects crypto objects
  | .events events => self.verifyEvents crypto events digests.transaction
  | .committee _ => .error .mismatchedTargetAndProofType
  | .objectCheckpointState _ => .error .mismatchedTargetAndProofType

end TransactionProof

def extractNewCommitteeInfo (summary : Types.CheckpointSummary) : Except ProofError Types.EpochCommittee := do
  let data ← expect summary.endOfEpochData .expectedEndOfEpochCheckpoint
  let nextEpoch ← Word.add ProofError.epochAddOverflow 64 summary.epoch 1
  (Types.newCommittee crypto.isPublicKey nextEpoch (Types.collectVotingRights data.nextEpochCommittee)).mapError .committeePanic

/-- `verify` of `CommitteeProof`. -/
def verifyCommittee (targets : ProofTarget) (summary : Types.CheckpointSummary) : Except ProofError Unit :=
  match targets with
  | .committee committee => do
    let newCommittee ← extractNewCommitteeInfo crypto summary
    -- `==` of committees
    assert (newCommittee.epoch = committee.epoch ∧ newCommittee.votingRights = committee.votingRights) .committeeMismatch
  | _ => .error .mismatchedTargetAndProofType

namespace OCSProof

def getArtifactDigest : OCSProof Merkle Absence → Types.Digest
  | .inclusion _ _ treeRoot => treeRoot
  | .nonInclusion _ treeRoot => treeRoot

/-- `verify` of `OCSInclusionProof` and of `OCSNonInclusionProof`. -/
def verifyTarget (target : OCSTarget) : OCSProof Merkle Absence → Except ProofError Unit
  | .inclusion merkleProof leafIndex treeRoot => do
    assert (target.targetType = .inclusion) .mismatchedTargetAndProofType
    assert (crypto.merkle.verify merkleProof treeRoot target.objectRef leafIndex) .invalidProof
  | .nonInclusion nonInclusionProof treeRoot => do
    assert (target.targetType = .nonInclusion) .mismatchedTargetAndProofType
    assert (crypto.merkle.verifyAbsence nonInclusionProof treeRoot target.objectRef) .invalidProof

def verify (self : OCSProof Merkle Absence) (targets : ProofTarget) (summary : Types.CheckpointSummary) :
    Except ProofError Unit :=
  match targets with
  | .objectCheckpointState target => do
    let actualArtifactsDigest ← expect summary.checkpointArtifactsDigest
      (.generalError "Checkpoint artifacts digest not found in checkpoint commitments")
    assert (crypto.artifactsDigest [self.getArtifactDigest] = actualArtifactsDigest) .artifactDigestMismatch
    self.verifyTarget crypto target
  | _ => .error .mismatchedTargetAndProofType

end OCSProof

def ProofContents.verify (self : ProofContents Merkle Absence) (targets : ProofTarget)
    (summary : Types.CheckpointSummary) : Except ProofError Unit :=
  match self with
  | .transactionProof proof => proof.verify crypto targets summary
  | .committeeProof => verifyCommittee crypto targets summary
  | .objectCheckpointStateProof proof => proof.verify crypto targets summary

/-- The check that targets and proof types match. -/
def matchesTarget : ProofTarget → ProofContents Merkle Absence → Bool
  | .objects _, .transactionProof _ => true
  | .events _, .transactionProof _ => true
  | .committee _, .committeeProof => true
  | .objectCheckpointState _, .objectCheckpointStateProof _ => true
  | _, _ => false

def Proof.verify (self : Proof Agg Merkle Absence) (committee : Types.EpochCommittee) : Except ProofError Unit := do
  (self.checkpointSummary.verifyAuthoritySignatures crypto.scheme committee).mapError .summaryVerificationFailed
  assert (matchesTarget self.targets self.proofContents) .mismatchedTargetAndProofType
  self.proofContents.verify crypto self.targets self.checkpointSummary.data

end Sui.LightClient

import Sui.Library.Checked

/-!
# Versions of shared objects

`authority/shared_object_version_manager.rs`: the versions that consensus assigns to the shared objects of a sequence of
transactions. A transaction is its key, its shared input objects, and the keys of its owned and receiving objects. Of the
per-epoch store the configuration and the table of next versions are kept, and of the object cache the latest version of an
object.
-/

namespace Sui

open Library Checked

abbrev SequenceNumber := Nat

abbrev ObjectID := Nat

abbrev TransactionDigest := Nat

/-- The expectations of the version manager that panic. -/
inductive VersionPanic where
  | randomnessVersionNotSet
  | accumulatorVersionNotSet
  | accumulatorNotInNextVersions
  | settlementWhenAccumulatorsDisabled
  | startVersionOfPreviousEpoch
  | nextVersionMissing
  | objectMustExist
  | sequenceNumberOverflow
  | assignedVersionInvalid
deriving DecidableEq, Repr

namespace SequenceNumber

def max : SequenceNumber := 0x7fffffffffffffff

def cancelledRead : SequenceNumber := max + 1

def congested : SequenceNumber := max + 2

def randomnessUnavailable : SequenceNumber := max + 3

def isCancelled (v : SequenceNumber) : Bool := v = cancelledRead || v = congested || v = randomnessUnavailable

def isValid (v : SequenceNumber) : Bool := v < max

/-- `lamport_increment`: a version above all the given ones. -/
def lamportIncrement (inputs : List SequenceNumber) : Except VersionPanic SequenceNumber := do
  let maxInput := inputs.foldl Nat.max 0
  assert (maxInput ≠ 2 ^ 64 - 1) .sequenceNumberOverflow
  return maxInput + 1

end SequenceNumber

/-- `ConsensusObjectSequenceKey`: a shared object since it became shared at a version. -/
structure ConsensusObjectSequenceKey where
  id : ObjectID
  initialSharedVersion : SequenceNumber
deriving DecidableEq, Repr

namespace ConsensusObjectSequenceKey

/-- The fields in the order in which keys are compared. -/
def key (k : ConsensusObjectSequenceKey) : Nat ×ₗ Nat := toLex (k.id, k.initialSharedVersion)

theorem key_injective : Function.Injective key := by
  rintro ⟨⟩ ⟨⟩ h
  simpa [key] using h

instance : LinearOrder ConsensusObjectSequenceKey := LinearOrder.lift' key key_injective

end ConsensusObjectSequenceKey

inductive SharedObjectMutability where
  | immutable
  | mutable
  | nonExclusiveWrite
deriving DecidableEq, Repr

def SharedObjectMutability.isExclusive : SharedObjectMutability → Bool
  | .mutable => true
  | .immutable => false
  | .nonExclusiveWrite => false

structure SharedInputObject where
  id : ObjectID
  initialSharedVersion : SequenceNumber
  mutability : SharedObjectMutability
deriving DecidableEq, Repr

def SharedInputObject.idAndVersion (o : SharedInputObject) : ConsensusObjectSequenceKey := ⟨o.id, o.initialSharedVersion⟩

/-- `ObjectKey`: an object at a version. -/
structure ObjectKey where
  id : ObjectID
  version : SequenceNumber
deriving DecidableEq, Repr

inductive TransactionKey where
  | digest (digest : TransactionDigest)
  | randomnessRound (epoch round : Nat)
  | accumulatorSettlement (epoch checkpointHeight : Nat)
  | consensusCommitPrologue (epoch round subDagIndex : Nat)
deriving DecidableEq, Repr

def TransactionKey.asDigest : TransactionKey → Option TransactionDigest
  | .digest d => some d
  | _ => none

/-- What is read of a `VerifiedExecutableTransaction`. -/
structure ExecutableTransaction where
  key : TransactionKey
  sharedInputObjects : List SharedInputObject
  nonSharedInputObjectKeys : List ObjectKey
  receivingObjectKeys : List ObjectKey
deriving DecidableEq, Repr

inductive Schedulable where
  | transaction (tx : ExecutableTransaction)
  | randomnessStateUpdate (epoch round : Nat)
  | accumulatorSettlement (epoch checkpointHeight : Nat)
  | consensusCommitPrologue (epoch round subDagIndex : Nat)
deriving DecidableEq, Repr

inductive CancelConsensusCertificateReason where
  | congestionOnObjects (objects : List ObjectID)
  | dkgFailed
deriving DecidableEq, Repr

/-- The next versions of the shared objects. -/
abbrev NextVersions := BTreeMap ConsensusObjectSequenceKey SequenceNumber

abbrev CancelledTxns := BTreeMap TransactionDigest CancelConsensusCertificateReason

/-- What the version manager reads of the `AuthorityPerEpochStore`. -/
structure EpochStore where
  accumulatorsEnabled : Bool
  randomnessObjInitialSharedVersion : Option SequenceNumber
  accumulatorRootObjInitialSharedVersion : Option SequenceNumber
  reshareAtSameInitialVersion : Bool
  nextSharedObjectVersions : NextVersions

/-- An object of the cache: the version at which its owner made it a consensus object, and its version. -/
structure CachedObject where
  startVersion : Option SequenceNumber
  version : SequenceNumber
deriving DecidableEq, Repr

/-- `ObjectCacheRead::get_object`. -/
abbrev ObjectCacheRead := ObjectID → Option CachedObject

def suiClockObjectId : ObjectID := 0x6

def suiClockObjectSharedVersion : SequenceNumber := 1

def suiRandomnessStateObjectId : ObjectID := 0x8

def suiAccumulatorRootObjectId : ObjectID := 0xacc

variable (epochStore : EpochStore) (cacheReader : ObjectCacheRead) (cancelledTxns : CancelledTxns)

namespace Schedulable

def sharedInputObjects (epochStore : EpochStore) : Schedulable → Except VersionPanic (List SharedInputObject)
  | .transaction tx => return tx.sharedInputObjects
  | .randomnessStateUpdate _ _ => do
    let initialSharedVersion ← expect epochStore.randomnessObjInitialSharedVersion .randomnessVersionNotSet
    return [⟨suiRandomnessStateObjectId, initialSharedVersion, .mutable⟩]
  | .accumulatorSettlement _ _ => do
    let initialSharedVersion ← expect epochStore.accumulatorRootObjInitialSharedVersion .accumulatorVersionNotSet
    return [⟨suiAccumulatorRootObjectId, initialSharedVersion, .mutable⟩]
  | .consensusCommitPrologue _ _ _ => return [⟨suiClockObjectId, suiClockObjectSharedVersion, .mutable⟩]

def nonSharedInputObjectKeys : Schedulable → List ObjectKey
  | .transaction tx => tx.nonSharedInputObjectKeys
  | _ => []

def receivingObjectKeys : Schedulable → List ObjectKey
  | .transaction tx => tx.receivingObjectKeys
  | _ => []

def key : Schedulable → TransactionKey
  | .transaction tx => tx.key
  | .randomnessStateUpdate epoch round => .randomnessRound epoch round
  | .accumulatorSettlement epoch checkpointHeight => .accumulatorSettlement epoch checkpointHeight
  | .consensusCommitPrologue epoch round subDagIndex => .consensusCommitPrologue epoch round subDagIndex

def cancellationInfo (s : Schedulable) : Option CancelConsensusCertificateReason :=
  s.key.asDigest.bind fun digest => cancelledTxns[digest]?

/-- The settlements of accumulators. -/
def isAccumulatorSettlement : Schedulable → Bool
  | .accumulatorSettlement _ _ => true
  | _ => false

end Schedulable

/-- The version that a cancelled transaction gets for an object. -/
def CancelConsensusCertificateReason.version (reason : CancelConsensusCertificateReason) (id : ObjectID) : SequenceNumber :=
  match reason with
  | .congestionOnObjects objects => if id ∈ objects then SequenceNumber.congested else SequenceNumber.cancelledRead
  | .dkgFailed => if id = suiRandomnessStateObjectId then SequenceNumber.randomnessUnavailable else SequenceNumber.cancelledRead

structure AssignedVersions where
  sharedObjectVersions : List (ConsensusObjectSequenceKey × SequenceNumber)
  accumulatorVersion : Option SequenceNumber
deriving DecidableEq, Repr

/-- A shared input with the version that it got, and whether it is accessed exclusively. -/
structure AssignedInput where
  key : ConsensusObjectSequenceKey
  version : SequenceNumber
  isExclusivelyAccessed : Bool
deriving DecidableEq, Repr

structure ConsensusSharedObjVerAssignment where
  sharedInputNextVersions : NextVersions
  assignedVersions : List (TransactionKey × AssignedVersions)

namespace SharedObjVerManager

/-- The accumulator version of `assign_versions_for_certificate`. -/
def accumulatorVersion (next : NextVersions) : Except VersionPanic (Option SequenceNumber) :=
  if epochStore.accumulatorsEnabled then do
    let initialVersion ← expect epochStore.accumulatorRootObjInitialSharedVersion .accumulatorVersionNotSet
    let version ← expect next[(⟨suiAccumulatorRootObjectId, initialVersion⟩ : ConsensusObjectSequenceKey)]?
      .accumulatorNotInNextVersions
    return some version
  else return none

/-- The versions of the shared inputs: special ones if the transaction is cancelled, the next ones if it is not. -/
def assignInputs (next : NextVersions) (cancellationInfo : Option CancelConsensusCertificateReason)
    (sharedInputObjects : List SharedInputObject) : Except VersionPanic (List AssignedInput) :=
  match cancellationInfo with
  | some reason => return sharedInputObjects.map fun o => ⟨o.idAndVersion, reason.version o.id, false⟩
  | none => sharedInputObjects.mapM fun o => do
    let assignedVersion ← expect next[o.idAndVersion]? .nextVersionMissing
    return ⟨o.idAndVersion, assignedVersion, o.mutability.isExclusive⟩

/-- The update of the next version of one input. -/
def updateNextVersion (nextVersion : SequenceNumber) (next : NextVersions) (input : AssignedInput) :
    Except VersionPanic NextVersions :=
  if input.isExclusivelyAccessed then do
    assert (SequenceNumber.isValid nextVersion) .assignedVersionInvalid
    assert next[input.key]?.isSome .objectMustExist
    return next.insert input.key nextVersion
  else return next

/-- The update of the next versions: none if the transaction is cancelled. -/
def updateNextVersions (txnCancelled : Bool) (nextVersion : SequenceNumber) (next : NextVersions) (assigned : List AssignedInput) :
    Except VersionPanic NextVersions :=
  if txnCancelled then return next else assigned.foldlM (updateNextVersion nextVersion) next

/-- `assign_versions_for_certificate`: the assigned versions, and the next versions after it. -/
def assignVersionsForCertificate (assignable : Schedulable)
    (next : NextVersions) : Except VersionPanic (AssignedVersions × NextVersions) := do
  let sharedInputObjects ← assignable.sharedInputObjects epochStore
  let accumulatorVersion ← accumulatorVersion epochStore next
  if sharedInputObjects.isEmpty then
    return ({ sharedObjectVersions := [], accumulatorVersion }, next)
  else do
    let cancellationInfo := assignable.cancellationInfo cancelledTxns
    let assigned ← assignInputs next cancellationInfo sharedInputObjects
    let inputObjectKeys := (assignable.nonSharedInputObjectKeys ++ assignable.receivingObjectKeys).map ObjectKey.version ++
      if cancellationInfo.isSome then [] else assigned.map AssignedInput.version
    let nextVersion ← SequenceNumber.lamportIncrement inputObjectKeys
    assert (SequenceNumber.isValid nextVersion) .assignedVersionInvalid
    let next ← updateNextVersions cancellationInfo.isSome nextVersion next assigned
    return ({ sharedObjectVersions := assigned.map fun a => (a.key, a.version), accumulatorVersion }, next)

/-- The first version of an object in `get_or_init_next_object_versions`. -/
def initVersion (key : ConsensusObjectSequenceKey) : Except VersionPanic (ConsensusObjectSequenceKey × SequenceNumber) :=
  match cacheReader key.id with
  | some obj =>
    if obj.startVersion = some key.initialSharedVersion then return (key, obj.version)
    else do
      assert (!epochStore.reshareAtSameInitialVersion || obj.startVersion.all (key.initialSharedVersion ≥ ·))
        .startVersionOfPreviousEpoch
      return (key, key.initialSharedVersion)
  | none => return (key, key.initialSharedVersion)

/-- `get_or_init_next_object_versions`: the next versions, and the table with those that were missing. -/
def getOrInitNextObjectVersions
    (objectsToInit : List ConsensusObjectSequenceKey) : Except VersionPanic (NextVersions × NextVersions) := do
  let uninitialized := objectsToInit.filter fun key => epochStore.nextSharedObjectVersions[key]?.isNone
  let versionsToWrite ← uninitialized.mapM (initVersion epochStore cacheReader)
  let initialized := objectsToInit.filterMap fun key => epochStore.nextSharedObjectVersions[key]?.map fun v => (key, v)
  let ret := (initialized ++ versionsToWrite).foldl (fun m p => m.insert p.1 p.2) ∅
  return (ret, versionsToWrite.foldl (fun m p => m.insert p.1 p.2) epochStore.nextSharedObjectVersions)

/-- The key of the accumulator root, if accumulators are enabled. -/
def accumulatorKeys : Except VersionPanic (List ConsensusObjectSequenceKey) :=
  if epochStore.accumulatorsEnabled then do
    let initialVersion ← expect epochStore.accumulatorRootObjInitialSharedVersion .accumulatorVersionNotSet
    return [⟨suiAccumulatorRootObjectId, initialVersion⟩]
  else return []

def getOrInitVersions (sharedInputObjects : List SharedInputObject) : Except VersionPanic (NextVersions × NextVersions) := do
  let accumulator ← accumulatorKeys epochStore
  let keys := sharedInputObjects.map SharedInputObject.idAndVersion ++ accumulator
  getOrInitNextObjectVersions epochStore cacheReader (BTreeSet.iter keys.toFinset)

/-- One pass of the loop of `assign_versions_from_consensus`. -/
def assignOne (a : ConsensusSharedObjVerAssignment)
    (assignable : Schedulable) : Except VersionPanic ConsensusSharedObjVerAssignment := do
  assert (!assignable.isAccumulatorSettlement || epochStore.accumulatorsEnabled) .settlementWhenAccumulatorsDisabled
  let (versions, next) ← assignVersionsForCertificate epochStore cancelledTxns assignable a.sharedInputNextVersions
  return { sharedInputNextVersions := next, assignedVersions := a.assignedVersions ++ [(assignable.key, versions)] }

/-- `assign_versions_from_consensus`: the assignment, and the per-epoch store with the versions that were initialized. -/
def assignVersionsFromConsensus
    (assignables : List Schedulable) : Except VersionPanic (ConsensusSharedObjVerAssignment × EpochStore) := do
  let shared ← assignables.mapM (Schedulable.sharedInputObjects epochStore)
  let (next, table) ← getOrInitVersions epochStore cacheReader shared.flatten
  let assignment ← assignables.foldlM (assignOne epochStore cancelledTxns) ⟨next, []⟩
  return (assignment, { epochStore with nextSharedObjectVersions := table })

end SharedObjVerManager

/-- The per-epoch store after the next versions of an assignment were written to it. -/
def EpochStore.setNextSharedObjectVersions (next : NextVersions) : EpochStore :=
  { epochStore with
    nextSharedObjectVersions := next.toList.foldl (fun m p => m.insert p.1 p.2) epochStore.nextSharedObjectVersions }

end Sui

import Sui.LightClient.Proof
import Sui.Library.BinarySearch
import Sui.Library.Effects
import Sui.Library.MountainRange
import Sui.Execution.Settlement

/-!
# Heads of event streams

`client/light/src/authenticated_events`: the client that fetches the head of a stream with a proof. The answer to a call may
depend on all calls before it. Committees are reached from the genesis committee by the last checkpoints of the epochs. A loop
that uses up its fuel is still waiting for answers. Fields of a response are kept as what their conversion gives: the value, or
the text of its error.
-/

namespace Sui.LightClient

open Library Checked Settlement

structure EventStreamHead where
  mmr : List Nat
  checkpointSeq : Nat
  numEvents : Nat
deriving DecidableEq, Repr

/-- `EventStreamHead::new`, also its default. -/
def EventStreamHead.new : EventStreamHead := ⟨[], 0, 0⟩

/-- The digests of event streams. No two values have the same digest, and no digest is the zero that marks an empty slot. -/
structure EventCryptography (Sig Agg Merkle Absence : Type) extends
    Cryptography Sig Agg Merkle Absence where
  objectDigest_injective : Function.Injective objectDigest
  eventDigest : Event → Types.Digest
  eventDigest_injective : Function.Injective eventDigest
  buildEventMerkleRoot : List EventCommitment → Nat
  buildEventMerkleRoot_injective : Function.Injective buildEventMerkleRoot
  buildEventMerkleRoot_ne_zero {events : List EventCommitment} : events ≠ [] → buildEventMerkleRoot events ≠ 0
  hashTwoToOneU256 : Nat → Nat → Nat
  hashTwoToOneU256_injective : Function.Injective2 hashTwoToOneU256
  hashTwoToOneU256_ne_zero (left right : Nat) : hashTwoToOneU256 left right ≠ 0
  extractStreamHeadFromObject : Object → Except String EventStreamHead
  deriveEventStreamHeadObjectId : Nat → Except String ObjectID

/-! ## Errors -/

/-- The codes of a `tonic::Status`. -/
inductive Code where
  | unavailable
  | deadlineExceeded
  | resourceExhausted
  | aborted
  | notFound
  | other
deriving DecidableEq, Repr

structure Status where
  code : Code
  message : String
deriving DecidableEq, Repr

/-- The texts of a `VerificationError`. -/
inductive VerificationFailure where
  | proof (error : ProofError)
  | failedToVerifyCheckpoint (checkpoint : Nat) (error : Types.SuiError)
  | failedToExtractCommittee (checkpoint : Nat) (error : ProofError)
  | checkpointWentBackwards (old new : Nat)
  | mmrMismatch
  | eventCountMismatch (computed expected : Nat)
  | checkpointMismatch (actual expected : Nat)
  | noSettlementTransaction (checkpoint txOffset : Nat)
deriving DecidableEq, Repr

inductive ClientError where
  | verificationError (failure : VerificationFailure)
  | internalError (message : String)
  | rpcError (status : Status)
  | transportError
deriving DecidableEq, Repr

/-- `is_retriable_grpc_code`. -/
def Code.isRetriable : Code → Bool
  | .unavailable => true
  | .deadlineExceeded => true
  | .resourceExhausted => true
  | .aborted => true
  | .notFound => false
  | .other => false

def ClientError.isTerminal : ClientError → Bool
  | .rpcError status => !status.code.isRetriable
  | .transportError => false
  | .verificationError _ => true
  | .internalError _ => true

/-- Why a computation of the client does not return: an error, a panic, or an answer that has not come. -/
inductive Stop where
  | error (error : ClientError)
  | panic (message : String)
  | pending
deriving DecidableEq, Repr

/-- `From<ProofError>`, and the panics below it. -/
def ProofError.toStop : ProofError → Stop
  | .committeePanic _ => .panic "committee"
  | .underflow => .panic "underflow"
  | error => .error (.verificationError (.proof error))

/-! ## The mountain range of a stream -/

section

variable {Sig Agg Merkle Absence : Type} (crypto : EventCryptography Sig Agg Merkle Absence)

def addToStream (mmr : List Nat) (newVal : Nat) : List Nat := MountainRange.add 0 crypto.hashTwoToOneU256 mmr newVal

/-- One batch of `apply_stream_updates`. -/
def applyBatch (newHead : EventStreamHead) (cpEvents : List EventCommitment) : Except Stop EventStreamHead := do
  let first ← expect cpEvents.head? (.panic "assertion failed: !cp_events.is_empty()")
  let checkpointSeq := first.checkpointSeq
  assert (cpEvents.all fun e => e.checkpointSeq = checkpointSeq)
    (.panic "All events in a batch must share the same checkpoint_seq")
  assert (newHead.checkpointSeq ≤ checkpointSeq || newHead.numEvents = 0) (.panic "checkpoint_seq must be non-decreasing")
  let merkleRoot := crypto.buildEventMerkleRoot cpEvents
  let numEvents ← Word.add (Stop.panic "overflow") 64 newHead.numEvents cpEvents.length
  return ⟨addToStream crypto newHead.mmr merkleRoot, checkpointSeq, numEvents⟩

def applyStreamUpdates (head : EventStreamHead) (events : List (List EventCommitment)) : Except Stop EventStreamHead :=
  events.foldlM (applyBatch crypto) head

end

/-! ## The committees of the epochs -/

structure EpochCache where
  completedCommittees : List (Nat × Nat × Types.EpochCommittee)
  currentEpochNumber : Nat
  currentCommittee : Types.EpochCommittee
  currentEpochStartCheckpoint : Nat
deriving DecidableEq

namespace EpochCache

def new (genesisCommittee : Types.EpochCommittee) : EpochCache := ⟨[], 0, genesisCommittee, 0⟩

/-- The comparison of a range with the checkpoint: 0 if the range is less, 2 if it is greater. -/
def compareRange (checkpointSeq : Nat) (range : Nat × Nat × Types.EpochCommittee) : Nat :=
  if checkpointSeq < range.1 then 2 else if range.2.1 < checkpointSeq then 0 else 1

def getCommitteeForCheckpoint (self : EpochCache) (checkpointSeq : Nat) : Option Types.EpochCommittee :=
  if self.currentEpochStartCheckpoint ≤ checkpointSeq then some self.currentCommittee
  else
    ((binarySearchByKey (compareRange checkpointSeq) 1 self.completedCommittees).bind (self.completedCommittees[·]?)).map (·.2.2)

/-- `apply_ratchet_update`. The checkpoint is below another one, so its successor does not overflow. -/
def applyRatchetUpdate (self : EpochCache) (oldEpochStart endOfEpochCheckpoint : Nat) (oldCommittee newCommittee : Types.EpochCommittee) :
    EpochCache where
  completedCommittees := self.completedCommittees ++ [(oldEpochStart, endOfEpochCheckpoint, oldCommittee)]
  currentEpochNumber := self.currentEpochNumber + 1
  currentCommittee := newCommittee
  currentEpochStartCheckpoint := endOfEpochCheckpoint + 1

end EpochCache

/-! ## Calls -/

abbrev Cursor := List Nat

inductive QueryEndReason where
  | unspecified
  | itemLimit
  | scanLimit
  | ledgerTip
  | checkpointBound
  | cursorBound
deriving DecidableEq, Repr

/-- A frame of a response that is streamed. -/
inductive Frame (Item : Type) where
  | item (cursor : Option Cursor) (item : Item)
  | watermark (cursor : Option Cursor)
  | queryEnd (reason : Option QueryEndReason)
  | other

structure ListEventsRequest where
  startCheckpoint : Nat
  streamId : Nat
  after : Option Cursor
  limitItems : Nat
deriving DecidableEq, Repr

structure EventItem where
  event : Except String Event
  checkpoint : Option Nat
  transactionOffset : Option Nat
  eventIndex : Option Nat

structure ListTransactionsRequest where
  startCheckpoint : Nat
  endCheckpoint : Option Nat
  affectedObject : ObjectID
  after : Option Cursor
  limitItems : Nat
deriving DecidableEq, Repr

/-- `TransactionItem`: the checkpoint in its transaction, and its offset. -/
structure TransactionItem where
  checkpoint : Option Nat
  transactionOffset : Option Nat

/-- `OcsInclusionProof` of a response, with the Merkle proof, the index of the leaf and the root of the tree. -/
structure InclusionProof (Merkle : Type) where
  objectRef : Option (Except String ObjectRef)
  ocsProof : Except String (Merkle × Nat × Types.Digest)
  objectData : Option (Except String Object)

/-- The proof of a response. -/
inductive ObjectProof (Merkle : Type) where
  | inclusion (proof : InclusionProof Merkle)
  | nonInclusion
  | unknown

structure GetCheckpointObjectProofResponse (Agg Merkle : Type) where
  checkpointSummary : Option (Except String (Types.CertifiedCheckpointSummary Agg))
  proof : Option (ObjectProof Merkle)

/-- `Epoch`: its last checkpoint, once it is over. -/
structure EpochInfo where
  lastCheckpoint : Option Nat
deriving DecidableEq, Repr

/-- A server: its answer to each call, which is given the number of the call and the request. -/
structure Server (Agg Merkle : Type) where
  listEvents : Nat → ListEventsRequest → Except Status (List (Except Status (Frame EventItem)))
  listTransactions : Nat → ListTransactionsRequest → Except Status (List (Except Status (Frame TransactionItem)))
  getCheckpointObjectProof : Nat → ObjectID → Nat → Except Status (GetCheckpointObjectProofResponse Agg Merkle)
  getObject : Nat → ObjectID → Except Status (Except String Object)
  getEpoch : Nat → Nat → Except Status (Option EpochInfo)
  getCheckpoint : Nat → Nat → Except Status (Option (Except String (Types.CertifiedCheckpointSummary Agg)))

/-- The client: the number of calls it has made, and the committees it has reached. -/
structure Client where
  calls : Nat
  epochCache : EpochCache
deriving DecidableEq

/-- A computation of the client. -/
abbrev ClientM := EStateM Stop Client

def call {α : Type} (answer : Nat → Except Status α) : ClientM (Except Status α) := fun client =>
  .ok (answer client.calls) { client with calls := client.calls + 1 }

/-- A result, or the error of the client. -/
def orStop {α : Type} (x : Except ClientError α) : ClientM α := Effects.lift (x.mapError .error)

/-- A call whose failure is an `RpcError`. -/
def rpc {α : Type} (answer : Nat → Except Status α) : ClientM α := do
  orStop ((← call answer).mapError .rpcError)

variable {Sig Agg Merkle Absence : Type}

/-! ## Trust ratchet -/

/-- What `fetch_and_verify_next_epoch` makes of the answer about the epoch: its last checkpoint if it is over. -/
def endOfEpochCheckpoint (currentEpoch : Nat) : Except Status (Option EpochInfo) → Except ClientError (Option Nat)
  | .ok (some epochInfo) => .ok epochInfo.lastCheckpoint
  | .ok none => .error (.internalError s!"Failed to get last checkpoint of epoch {currentEpoch}: Missing epoch info")
  | .error status =>
    if status.code = .notFound then .ok none
    else .error (.internalError s!"Failed to get last checkpoint of epoch {currentEpoch}: {status.message}")

/-- What `fetch_and_verify_next_epoch` makes of the last checkpoint of the epoch: the next committee. -/
def verifyNextCommittee (crypto : Cryptography Sig Agg Merkle Absence) (currentCommittee : Types.EpochCommittee)
    (seq : Nat) (response : Except Status (Option (Except String (Types.CertifiedCheckpointSummary Agg)))) :
    Except Stop Types.EpochCommittee := do
  let response ← response.mapError fun status => .error (.internalError s!"Failed to fetch checkpoint {seq}: {status.message}")
  let checkpoint ← expect response (.error (.internalError "Missing checkpoint in response"))
  let summary ← checkpoint.mapError fun e => .error (.internalError s!"Failed to convert checkpoint: {e}")
  (summary.verifyAuthoritySignatures crypto.scheme currentCommittee).mapError fun e =>
    .error (.verificationError (.failedToVerifyCheckpoint seq e))
  (extractNewCommitteeInfo crypto summary.data).mapError fun e =>
    match e with
    | .committeePanic _ => .panic "committee"
    | e => .error (.verificationError (.failedToExtractCommittee seq e))

def fetchAndVerifyNextEpoch (crypto : Cryptography Sig Agg Merkle Absence) (server : Server Agg Merkle)
    (currentEpoch : Nat) (currentCommittee : Types.EpochCommittee) (toCheckpoint : Nat) : ClientM (Option (Nat × Types.EpochCommittee)) := do
  match ← orStop (endOfEpochCheckpoint currentEpoch (← call (server.getEpoch · currentEpoch))) with
  | none => return none
  | some seq =>
    if toCheckpoint ≤ seq then return none
    else
      let nextCommittee ← Effects.lift (verifyNextCommittee crypto currentCommittee seq (← call (server.getCheckpoint · seq)))
      return some (seq, nextCommittee)

def trustRatchetToCheckpoint (crypto : Cryptography Sig Agg Merkle Absence) (server : Server Agg Merkle)
    (checkpoint : Nat) : Nat → ClientM Unit
  | 0 => throw .pending
  | fuel + 1 => do
    let cache := (← get).epochCache
    if checkpoint < cache.currentEpochStartCheckpoint then return ()
    else
      match ← fetchAndVerifyNextEpoch crypto server cache.currentEpochNumber cache.currentCommittee checkpoint with
      | none => return ()
      | some (seq, nextCommittee) =>
        modify fun client =>
          if client.epochCache.currentEpochNumber = cache.currentEpochNumber then
            { client with
              epochCache := client.epochCache.applyRatchetUpdate cache.currentEpochStartCheckpoint seq cache.currentCommittee
                nextCommittee }
          else client
        trustRatchetToCheckpoint crypto server checkpoint fuel

def getCommitteeForCheckpoint (crypto : Cryptography Sig Agg Merkle Absence) (server : Server Agg Merkle)
    (fuel checkpoint : Nat) : ClientM Types.EpochCommittee := do
  trustRatchetToCheckpoint crypto server checkpoint fuel
  Effects.lift (expect ((← get).epochCache.getCommitteeForCheckpoint checkpoint)
    (.panic "Committee must exist after ensure_committee_for_checkpoint succeeded"))

/-! ## The head with its proof -/

/-- The inclusion proof of a response, with the texts for a missing proof and for a non-inclusion proof. -/
def GetCheckpointObjectProofResponse.inclusionProof (response : GetCheckpointObjectProofResponse Agg Merkle)
    (missing nonInclusion : String) : Except Stop (InclusionProof Merkle) :=
  match response.proof with
  | none => .error (.error (.internalError missing))
  | some .nonInclusion => .error (.error (.internalError nonInclusion))
  | some .unknown => .error (.error (.internalError "Unknown proof variant"))
  | some (.inclusion p) => .ok p

def verifyOcsInclusionProof (crypto : Cryptography Sig Agg Merkle Absence) (committee : Types.EpochCommittee)
    (response : GetCheckpointObjectProofResponse Agg Merkle) : Except Stop Unit := do
  let summaryBytes ← expect response.checkpointSummary (.error (.internalError "Missing checkpoint summary"))
  let checkpointSummary ← summaryBytes.mapError fun e => .error (.internalError s!"BCS deserialization failed: {e}")
  let inclusionProof ← response.inclusionProof "Missing proof" "verify_ocs_inclusion_proof called with non-inclusion proof"
  let objectRefProto ← expect inclusionProof.objectRef (.error (.internalError "Missing object_ref"))
  let objectRef ← objectRefProto.mapError fun e => .error (.internalError e)
  let ocsProof ← inclusionProof.ocsProof.mapError fun e => .error (.internalError e)
  let proof : Proof Agg Merkle Absence := {
    targets := .objectCheckpointState (.newInclusionTarget objectRef)
    checkpointSummary
    proofContents := .objectCheckpointStateProof (.inclusion ocsProof.1 ocsProof.2.1 ocsProof.2.2) }
  (proof.verify crypto committee).mapError ProofError.toStop

variable (crypto : EventCryptography Sig Agg Merkle Absence)

/-- What `fetch_and_verify_stream_head` makes of the response. -/
def readStreamHead (committee : Types.EpochCommittee)
    (checkpoint : Nat) (response : GetCheckpointObjectProofResponse Agg Merkle) : Except Stop EventStreamHead := do
  let inclusionProof ← response.inclusionProof "Missing proof in response"
    s!"EventStreamHead was not updated at checkpoint {checkpoint} (no events were emitted)"
  let objectDataBytes ← expect inclusionProof.objectData
    (.error (.internalError "Missing object data on inclusion proof (object was deleted or wrapped)"))
  let object ← objectDataBytes.mapError fun e => .error (.internalError s!"BCS deserialization failed: {e}")
  let streamHead ← (crypto.extractStreamHeadFromObject object).mapError fun e => .error (.internalError e)
  verifyOcsInclusionProof crypto.toCryptography committee response
  return streamHead

def fetchAndVerifyStreamHead (server : Server Agg Merkle)
    (fuel : Nat) (streamObjectId : ObjectID) (checkpoint : Nat) : ClientM EventStreamHead := do
  let committee ← getCommitteeForCheckpoint crypto.toCryptography server fuel checkpoint
  let response ← rpc (server.getCheckpointObjectProof · streamObjectId checkpoint)
  Effects.lift (readStreamHead crypto committee checkpoint response)

def fetchCurrentStreamHeadAndVerify
    (server : Server Agg Merkle) (fuel : Nat) (streamObjectId : ObjectID) : ClientM (Option (EventStreamHead × Nat)) := do
  match ← call (server.getObject · streamObjectId) with
  | .error status => if status.code = .notFound then return none else throw (.error (.rpcError status))
  | .ok response =>
    let object ← orStop (response.mapError .internalError)
    let streamHead ← orStop ((crypto.extractStreamHeadFromObject object).mapError .internalError)
    let checkpoint := streamHead.checkpointSeq
    let verifiedHead ← fetchAndVerifyStreamHead crypto server fuel streamObjectId checkpoint
    return some (verifiedHead, checkpoint)

end Sui.LightClient

import Sui.Library.BinarySearch
import Sui.Library.Word
import Sui.Types.Checkpoint

/-!
# State sync of checkpoint summaries

`network/transport/sui/src/state_sync` with the verification of `storage/src/lib.rs`: a node learns summaries of checkpoints
from its peers and inserts them into its store one after the other. A peer pushes a summary, names it as its latest, or answers
the request for its sequence number. The first two go into a cache from which a request is answered before any peer is asked.

The handlers, the requests and the verification run concurrently. Each of them is one event here, and a run is any sequence of
events. Checkpoints also come from the archive, when peers have pruned them, and from consensus, and the builder of the node
computes summaries of its own; these too are events on the store. Which peer a request goes to is part of the event, so the
scores of peers are left out.
-/

namespace Sui.StateSync

open Library Checked Sui.Types

abbrev CheckpointDigest := Types.Digest

abbrev PeerId := Nat

/-- `Checkpoint`, the certified summary that peers exchange. -/
abbrev Checkpoint (Agg : Type) := CertifiedCheckpointSummary Agg

/-- The digest of a summary, which no two summaries share, the signatures of authorities and the names that are public keys. -/
structure Cryptography (Sig Agg : Type) where
  digest : CheckpointSummary → CheckpointDigest
  digest_injective : Function.Injective digest
  scheme : AggregateScheme AuthorityName (CheckpointSummary × EpochId) Sig Agg
  isPublicKey : AuthorityName → Bool

/-- The assertions, `expect`s and `unwrap`s on the way of a checkpoint to the store. -/
inductive Panic where
  | exhausted
  | unexpectedRequest
  | missingCommittee (epoch sequenceNumber : Nat)
  | unexpectedSequenceNumber
  | committee (panic : Types.CommitteePanic)
  | committeeMismatch
  | checkpointFork (sequenceNumber : Nat)
  | missingPrevious (sequenceNumber : Nat)
  | mismatchedPreviousDigest (sequenceNumber : Nat)
deriving DecidableEq, Repr

variable {Sig Agg : Type} (crypto : Cryptography Sig Agg)

def Checkpoint.digest (c : Checkpoint Agg) : CheckpointDigest := crypto.digest c.data

/-! ## The store -/

/-- `RocksDbStore`: the certified checkpoints, the summaries that the node computed itself, the committees and the highest
verified checkpoint. -/
structure Store (Agg : Type) where
  certifiedCheckpoints : BTreeMap Nat (Checkpoint Agg)
  locallyComputedCheckpoints : BTreeMap Nat CheckpointSummary
  committeeMap : BTreeMap Nat EpochCommittee
  highestVerified : Checkpoint Agg

namespace Store

def getCommittee (store : Store Agg) (epoch : Nat) : Option EpochCommittee := store.committeeMap[epoch]?

/-- `insert_committee`, which is `insert_new_committee` of the committee store. -/
def insertCommittee (store : Store Agg) (newCommittee : EpochCommittee) : Except Panic (Store Agg) :=
  match store.committeeMap[newCommittee.epoch]? with
  | some oldCommittee => do
    assert (oldCommittee = newCommittee) .committeeMismatch
    return store
  | none => .ok { store with committeeMap := store.committeeMap.insert newCommittee.epoch newCommittee }

/-- The committee that `insert_checkpoint` makes of the end-of-epoch data. -/
def insertNextCommittee (store : Store Agg) (checkpoint : Checkpoint Agg) : Except Panic (Store Agg) :=
  match checkpoint.nextEpochCommittee with
  | some nextEpochCommittee => do
    let nextEpoch ← Word.add .exhausted 64 checkpoint.epoch 1
    let committee ← (newCommittee crypto.isPublicKey nextEpoch (collectVotingRights nextEpochCommittee)).mapError .committee
    store.insertCommittee committee
  | none => .ok store

/-- `insert_certified_checkpoint`, with `check_for_checkpoint_fork`. -/
def insertCertifiedCheckpoint (store : Store Agg) (checkpoint : Checkpoint Agg) : Except Panic (Store Agg) := do
  let localCheckpoint := store.locallyComputedCheckpoints[checkpoint.sequenceNumber]?
  assert (localCheckpoint.all fun summary => summary = checkpoint.data) (.checkpointFork checkpoint.sequenceNumber)
  return { store with certifiedCheckpoints := store.certifiedCheckpoints.insert checkpoint.sequenceNumber checkpoint }

def updateHighestVerifiedCheckpoint (store : Store Agg) (checkpoint : Checkpoint Agg) : Store Agg :=
  if store.highestVerified.sequenceNumber < checkpoint.sequenceNumber then { store with highestVerified := checkpoint } else store

def insertVerifiedCheckpoint (store : Store Agg) (checkpoint : Checkpoint Agg) : Except Panic (Store Agg) := do
  let store ← store.insertCertifiedCheckpoint checkpoint
  return store.updateHighestVerifiedCheckpoint checkpoint

def insertCheckpoint (store : Store Agg) (checkpoint : Checkpoint Agg) : Except Panic (Store Agg) := do
  let store ← store.insertNextCommittee crypto checkpoint
  store.insertVerifiedCheckpoint checkpoint

end Store

/-! ## Verification -/

/-- `verify_checkpoint_with_committee`: the verified checkpoint, or the one that is not. Either comparison of epochs needs the
next. -/
def verifyCheckpointWithCommittee (committee : EpochCommittee) (current checkpoint : Checkpoint Agg) :
    Except Panic (Except (Checkpoint Agg) (Checkpoint Agg)) := do
  let nextSequenceNumber ← Word.add .exhausted 64 current.sequenceNumber 1
  assert (checkpoint.sequenceNumber = nextSequenceNumber) .unexpectedSequenceNumber
  if some (current.digest crypto) ≠ checkpoint.data.previousDigest then
    return .error checkpoint
  else
    let nextEpoch ← Word.add .exhausted 64 current.epoch 1
    if checkpoint.epoch ≠ current.epoch ∧ checkpoint.epoch ≠ nextEpoch then
      return .error checkpoint
    else if checkpoint.epoch = nextEpoch ∧ current.nextEpochCommittee.isNone then
      return .error checkpoint
    else
      match checkpoint.verifyAuthoritySignatures crypto.scheme committee with
      | .error _ => return .error checkpoint
      | .ok () => return .ok checkpoint

def verifyCheckpoint (current : Checkpoint Agg) (store : Store Agg) (checkpoint : Checkpoint Agg) :
    Except Panic (Except (Checkpoint Agg) (Checkpoint Agg)) := do
  let committee ← expect (store.getCommittee checkpoint.epoch)
    (.missingCommittee checkpoint.epoch checkpoint.sequenceNumber)
  verifyCheckpointWithCommittee crypto committee current checkpoint

/-- `get_or_insert_verified_checkpoint` for the archive: an error leaves the store as it is. -/
def getOrInsertVerifiedCheckpoint (store : Store Agg) (checkpoint : Checkpoint Agg) : Except Panic (Store Agg) :=
  match store.certifiedCheckpoints[checkpoint.sequenceNumber]?, checkpoint.sequenceNumber with
  | none, prevCheckpointSeqNum + 1 =>
    match store.certifiedCheckpoints[prevCheckpointSeqNum]? with
    | some prevCheckpoint => do
      match ← verifyCheckpoint crypto prevCheckpoint store checkpoint with
      | .ok checkpoint => return (← store.insertCheckpoint crypto checkpoint).updateHighestVerifiedCheckpoint checkpoint
      | .error _ => return store
    | none => .ok store
  | _, _ => .ok store

/-- `handle_checkpoint_from_consensus`. The number before 0 wraps. -/
def handleCheckpointFromConsensus (store : Store Agg) (checkpoint : Checkpoint Agg) : Except Panic (Store Agg) := do
  let prev ← expect store.certifiedCheckpoints[(checkpoint.sequenceNumber + (2 ^ 64 - 1)) % 2 ^ 64]?
    (.missingPrevious checkpoint.sequenceNumber)
  assert (checkpoint.data.previousDigest = some (prev.digest crypto)) (.mismatchedPreviousDigest checkpoint.sequenceNumber)
  if checkpoint.sequenceNumber ≤ store.highestVerified.sequenceNumber then
    return store
  else
    -- the next number is only logged
    let _nextSequenceNumber ← Word.add .exhausted 64 store.highestVerified.sequenceNumber 1
    return (← store.insertNextCommittee crypto checkpoint).updateHighestVerifiedCheckpoint checkpoint

/-! ## What the node knows of its peers -/

structure PeerStateSyncInfo where
  genesisCheckpointDigest : CheckpointDigest
  onSameChainAsUs : Bool
  height : Nat
  lowest : Nat
deriving DecidableEq, Repr

/-- `PeerHeights`: the peers, and the cache of summaries that are not processed yet. -/
structure PeerHeights (Agg : Type) where
  peers : BTreeMap PeerId PeerStateSyncInfo
  unprocessedCheckpoints : BTreeMap CheckpointDigest (Checkpoint Agg)
  sequenceNumberToDigest : BTreeMap Nat CheckpointDigest

namespace PeerHeights

/-- `PeerHeights` at the start of the node. -/
def empty : PeerHeights Agg := ⟨∅, ∅, ∅⟩

variable (self : PeerHeights Agg)

def highestKnownCheckpointSequenceNumber : Option Nat :=
  ((self.peers.toList.filter fun peer => peer.2.onSameChainAsUs).map fun peer => peer.2.height).max?

/-- `insert_checkpoint`: the first summary of a sequence number stays. -/
def insertCheckpoint (checkpoint : Checkpoint Agg) : PeerHeights Agg :=
  match self.sequenceNumberToDigest[checkpoint.sequenceNumber]? with
  | some _ => self
  | none =>
    { self with
      unprocessedCheckpoints := self.unprocessedCheckpoints.insert (checkpoint.digest crypto) checkpoint
      sequenceNumberToDigest := self.sequenceNumberToDigest.insert checkpoint.sequenceNumber (checkpoint.digest crypto) }

def removeCheckpoint (digest : CheckpointDigest) : PeerHeights Agg :=
  match self.unprocessedCheckpoints[digest]? with
  | some checkpoint =>
    { self with
      unprocessedCheckpoints := self.unprocessedCheckpoints.erase digest
      sequenceNumberToDigest := self.sequenceNumberToDigest.erase checkpoint.sequenceNumber }
  | none => self

def cleanupOldCheckpoints (sequenceNumber : Nat) : PeerHeights Agg :=
  { self with
    unprocessedCheckpoints := self.unprocessedCheckpoints.filter fun _ checkpoint => sequenceNumber < checkpoint.sequenceNumber
    sequenceNumberToDigest := self.sequenceNumberToDigest.filter fun s _ => sequenceNumber < s }

def getCheckpointBySequenceNumber (sequenceNumber : Nat) : Option (Checkpoint Agg) :=
  self.sequenceNumberToDigest[sequenceNumber]?.bind fun digest => self.unprocessedCheckpoints[digest]?

/-- `update_peer_height`: whether the peer is known to be on the same chain. -/
def updatePeerHeight (peerId : PeerId) (height : Nat) (lowWatermark : Option Nat) : PeerHeights Agg × Bool :=
  match self.peers[peerId]? with
  | some info =>
    if info.onSameChainAsUs then
      let info := { info with height := max height info.height, lowest := lowWatermark.getD info.lowest }
      ({ self with peers := self.peers.insert peerId info }, true)
    else (self, false)
  | none => (self, false)

/-- `update_peer_info`, for the latest summary that a peer names. -/
def updatePeerInfo (peerId : PeerId) (checkpoint : Checkpoint Agg) (lowWatermark : Option Nat) : PeerHeights Agg :=
  match self.updatePeerHeight peerId checkpoint.sequenceNumber lowWatermark with
  | (heights, true) => heights.insertCheckpoint crypto checkpoint
  | (heights, false) => heights

def insertPeerInfo (peerId : PeerId) (info : PeerStateSyncInfo) : PeerHeights Agg :=
  match self.peers[peerId]? with
  | some entry =>
    if entry.genesisCheckpointDigest = info.genesisCheckpointDigest then
      { self with peers := self.peers.insert peerId { entry with height := max entry.height info.height } }
    else { self with peers := self.peers.insert peerId info }
  | none => { self with peers := self.peers.insert peerId info }

def markPeerAsNotOnSameChain (peerId : PeerId) : PeerHeights Agg :=
  { self with peers := self.peers.modify peerId fun info => { info with onSameChainAsUs := false } }

/-- A lost peer in `handle_peer_event`. -/
def removePeer (peerId : PeerId) : PeerHeights Agg :=
  { self with peers := self.peers.erase peerId }

end PeerHeights

/-! ## The node -/

/-- The fields of `StateSyncConfig` that are read here, and the digest of the genesis checkpoint of the node. -/
structure Config where
  pinnedCheckpoints : List (Nat × CheckpointDigest)
  maxCheckpointLookahead : Nat
  maxCheckpointSyncBatchSize : Nat
  checkpointHeaderDownloadConcurrency : Nat
  genesisCheckpointDigest : CheckpointDigest

def Config.pinnedDigestIndex (config : Config) (sequenceNumber : Nat) : Option Nat :=
  binarySearchByKey Prod.fst sequenceNumber config.pinnedCheckpoints

/-- The future of one request: peers are asked in turn, or it has returned a summary, if any, and the peer it was fetched from. -/
inductive Request (Agg : Type) where
  | fetching
  | answered (maybeCheckpoint : Option (Checkpoint Agg)) (maybePeerId : Option PeerId)

/-- `sync_to_checkpoint` between two events: the last verified checkpoint, the next request, the last one, and those that were
polled. -/
structure SyncTask (Agg : Type) where
  current : Checkpoint Agg
  next : Nat
  targetSequenceNumber : Nat
  requests : BTreeMap Nat (Request Agg)

/-- The store, the peers and the task that syncs summaries, if one runs. -/
structure State (Agg : Type) where
  store : Store Agg
  peerHeights : PeerHeights Agg
  syncTask : Option (SyncTask Agg)

/-- The node at its start. -/
def State.init (store : Store Agg) : State Agg := ⟨store, .empty, none⟩

/-- A checkpoint that is inserted, with the store before, the checkpoint verified last and the peer, unless it was in the cache.
-/
structure Insertion (Agg : Type) where
  store : Store Agg
  current : Checkpoint Agg
  maybePeerId : Option PeerId
  checkpoint : Checkpoint Agg

/-- `saturating_add` of two `u64`. -/
def saturatingAdd (a b : Nat) : Nat := min (a + b) (2 ^ 64 - 1)

variable (config : Config)

variable (s : State Agg)

/-- `push_checkpoint_summary` of the server. -/
def pushCheckpointSummary (peerId : PeerId) (checkpoint : Checkpoint Agg) : State Agg :=
  match s.peerHeights.updatePeerHeight peerId checkpoint.sequenceNumber none with
  | (heights, false) => { s with peerHeights := heights }
  | (heights, true) =>
    if checkpoint.sequenceNumber ≤ saturatingAdd s.store.highestVerified.sequenceNumber config.maxCheckpointLookahead then
      { s with peerHeights := heights.insertCheckpoint crypto checkpoint }
    else { s with peerHeights := heights }

/-- The answer of a new peer in `get_latest_from_peer`, which was asked for its genesis checkpoint. -/
def genesisInfo : Option (Checkpoint Agg) → PeerStateSyncInfo
  | some checkpoint =>
    { genesisCheckpointDigest := checkpoint.digest crypto
      onSameChainAsUs := config.genesisCheckpointDigest = checkpoint.digest crypto
      height := checkpoint.sequenceNumber
      lowest := 0 }
  | none => { genesisCheckpointDigest := 0, onSameChainAsUs := false, height := 0, lowest := 0 }

/-- `maybe_start_checkpoint_summary_sync_task`, with the start of `sync_to_checkpoint`. -/
def maybeStartCheckpointSummarySyncTask : State Agg :=
  let current := s.store.highestVerified
  match s.syncTask, s.peerHeights.highestKnownCheckpointSequenceNumber with
  | none, some targetSeq =>
    let limitedTarget := min targetSeq (saturatingAdd current.sequenceNumber config.maxCheckpointSyncBatchSize)
    -- `sync_to_checkpoint` returns at once for a target that is not above the highest verified checkpoint
    if current.sequenceNumber < limitedTarget then
      { s with syncTask := some ⟨current, current.sequenceNumber + 1, limitedTarget, ∅⟩ }
    else s
  | _, _ => s

/-- The first poll of the request for `next`, if it is one of the requests that are buffered and was not polled before. -/
def pollRequest (next : Nat) : State Agg :=
  match s.syncTask with
  | some task =>
    if task.next ≤ next ∧ next < task.next + config.checkpointHeaderDownloadConcurrency ∧ next ≤ task.targetSequenceNumber ∧
        task.requests[next]?.isNone then
      let request := match s.peerHeights.getCheckpointBySequenceNumber next with
        | some checkpoint => .answered (some checkpoint) none
        | none => .fetching
      { s with syncTask := some { task with requests := task.requests.insert next request } }
    else s
  | none => s

/-- Whether a fetched summary has a digest other than the one that is pinned for its sequence number. -/
def mismatchesPinned (checkpoint : Checkpoint Agg) : Bool :=
  match config.pinnedDigestIndex checkpoint.sequenceNumber with
  | some pinnedDigestIndex =>
    config.pinnedCheckpoints[pinnedDigestIndex]?.any fun pinned => pinned.2 != checkpoint.digest crypto
  | none => false

/-- The answer of a peer to the request for `next`. -/
def peerResponse (next : Nat) (peerId : PeerId) (response : Option (Checkpoint Agg)) : State Agg :=
  match s.syncTask with
  | some task =>
    match task.requests[next]?, response with
    | some .fetching, some checkpoint =>
      if checkpoint.sequenceNumber ≠ next ∨ mismatchesPinned crypto config checkpoint then
        { s with peerHeights := s.peerHeights.markPeerAsNotOnSameChain peerId }
      else
        { s with
          peerHeights := s.peerHeights.insertCheckpoint crypto checkpoint
          syncTask := some { task with requests := task.requests.insert next (.answered (some checkpoint) (some peerId)) } }
    | _, _ => s
  | none => s

/-- The request for `next` has asked every peer. -/
def noPeerLeft (next : Nat) : State Agg :=
  match s.syncTask with
  | some task =>
    match task.requests[next]? with
    | some .fetching => { s with syncTask := some { task with requests := task.requests.insert next (.answered none none) } }
    | _ => s
  | none => s

/-- How the verification of a summary ends: it is inserted, or the task returns an error. -/
inductive Stage (Agg : Type) where
  | inserted (store : Store Agg)
  | failed (peerHeights : PeerHeights Agg)

/-- The block of `sync_to_checkpoint` that verifies a summary, unless its sequence number is pinned. -/
def verifyUnlessPinned (current : Checkpoint Agg) (store : Store Agg) (checkpoint : Checkpoint Agg) :
    Except Panic (Except (Checkpoint Agg) (Checkpoint Agg)) :=
  if (config.pinnedDigestIndex checkpoint.sequenceNumber).isSome then .ok (.ok checkpoint)
  else verifyCheckpoint crypto current store checkpoint

/-- The rest of the loop body, for a request that returned a summary. -/
def verificationStage (store : Store Agg) (peerHeights : PeerHeights Agg) (current checkpoint : Checkpoint Agg)
    (maybePeerId : Option PeerId) : Except Panic (Stage Agg) := do
  match ← verifyUnlessPinned crypto config current store checkpoint with
  | .ok checkpoint =>
    let store ← store.insertCheckpoint crypto checkpoint
    return .inserted store
  | .error checkpoint =>
    let peerHeights := peerHeights.removeCheckpoint (checkpoint.digest crypto)
    return .failed (maybePeerId.elim peerHeights peerHeights.markPeerAsNotOnSameChain)

/-- The loop of `sync_to_checkpoint` takes the next answer of the stream. -/
def takeAnswer (task : SyncTask Agg) (maybeCheckpoint : Option (Checkpoint Agg)) (maybePeerId : Option PeerId) :
    Except Panic (State Agg × Option (Insertion Agg)) := do
  let expected ← Word.add .exhausted 64 task.current.sequenceNumber 1
  assert (expected = task.next) .unexpectedRequest
  match maybeCheckpoint with
  | none => return ({ s with syncTask := none }, none)
  | some checkpoint =>
    match ← verificationStage crypto config s.store s.peerHeights task.current checkpoint maybePeerId with
    | .inserted store =>
      let inserted := { task with current := checkpoint, next := task.next + 1, requests := task.requests.erase task.next }
      return ({ s with store := store, syncTask := some inserted }, some ⟨s.store, task.current, maybePeerId, checkpoint⟩)
    | .failed peerHeights => return ({ s with peerHeights := peerHeights, syncTask := none }, none)

/-- The end of `sync_to_checkpoint`. -/
def finishSync : State Agg :=
  match s.syncTask with
  | some task =>
    if task.targetSequenceNumber < task.next then
      { s with peerHeights := s.peerHeights.cleanupOldCheckpoints task.current.sequenceNumber, syncTask := none }
    else s
  | none => s

/-- What can happen at a node that syncs. -/
inductive Event (Agg : Type) where
  | push (peerId : PeerId) (checkpoint : Checkpoint Agg)
  | latest (peerId : PeerId) (checkpoint : Checkpoint Agg) (lowWatermark : Option Nat)
  | genesis (peerId : PeerId) (answer : Option (Checkpoint Agg))
  | lostPeer (peerId : PeerId)
  | startSync
  | poll (next : Nat)
  | response (next : Nat) (peerId : PeerId) (response : Option (Checkpoint Agg))
  | noPeerLeft (next : Nat)
  | verifyNext
  | finishSync
  | archive (checkpoint : Checkpoint Agg)
  | consensus (checkpoint : Checkpoint Agg)
  -- the aggregator of certificates and the builder of checkpoints write to the store
  | certified (checkpoint : Checkpoint Agg)
  | computed (checkpoints : BTreeMap Nat CheckpointSummary)

/-- One event. The checkpoint that `sync_to_checkpoint` inserts, if any, is returned. -/
def step : Event Agg → Except Panic (State Agg × Option (Insertion Agg))
  | .push peerId checkpoint => .ok (pushCheckpointSummary crypto config s peerId checkpoint, none)
  | .latest peerId checkpoint lowWatermark =>
    .ok ({ s with peerHeights := s.peerHeights.updatePeerInfo crypto peerId checkpoint lowWatermark }, none)
  | .genesis peerId answer =>
    .ok ({ s with peerHeights := s.peerHeights.insertPeerInfo peerId (genesisInfo crypto config answer) }, none)
  | .lostPeer peerId => .ok ({ s with peerHeights := s.peerHeights.removePeer peerId }, none)
  | .startSync => .ok (maybeStartCheckpointSummarySyncTask config s, none)
  | .poll next => .ok (pollRequest config s next, none)
  | .response next peerId response => .ok (peerResponse crypto config s next peerId response, none)
  | .noPeerLeft next => .ok (noPeerLeft s next, none)
  | .verifyNext =>
    match s.syncTask with
    | some task =>
      match task.requests[task.next]? with
      | some (.answered maybeCheckpoint maybePeerId) => takeAnswer crypto config s task maybeCheckpoint maybePeerId
      | _ => .ok (s, none)
    | none => .ok (s, none)
  | .finishSync => .ok (finishSync s, none)
  | .archive checkpoint => return ({ s with store := ← getOrInsertVerifiedCheckpoint crypto s.store checkpoint }, none)
  | .consensus checkpoint => return ({ s with store := ← handleCheckpointFromConsensus crypto s.store checkpoint }, none)
  | .certified checkpoint => return ({ s with store := ← s.store.insertCertifiedCheckpoint checkpoint }, none)
  | .computed checkpoints => .ok ({ s with store := { s.store with locallyComputedCheckpoints := checkpoints } }, none)

/-- A run: the last state and what was inserted on the way, or the panic that ends it. -/
def run (events : List (Event Agg)) : Except Panic (State Agg × List (Insertion Agg)) :=
  events.foldlM (fun acc event => do
    let (s, inserted) ← step crypto config acc.1 event
    return (s, acc.2 ++ inserted.toList)) (s, [])

end Sui.StateSync

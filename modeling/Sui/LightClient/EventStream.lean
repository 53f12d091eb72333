import Sui.LightClient.StreamHead
import Mathlib.Data.List.DropRight

/-!
# Authenticated event streams

`client/light/src/authenticated_events/stream.rs`: a stream fetches pages of events, holds back the last checkpoint of a page
whose scan goes on, and checks what it takes from the buffer against the head of the stream before it yields it. The channel to
the consumer takes every event.
-/

namespace Sui.LightClient

open Library Checked Settlement

structure AuthenticatedEvent where
  event : Event
  checkpoint : Nat
  transactionOffset : Nat
  eventIndex : Nat
deriving DecidableEq, Repr

def AuthenticatedEvent.tryFrom (item : EventItem) : Except ClientError AuthenticatedEvent := do
  let event ← item.event.mapError .internalError
  let checkpoint ← expect item.checkpoint (.internalError "Missing checkpoint")
  let transactionOffset ← expect item.transactionOffset (.internalError "Missing transaction_offset")
  let eventIndex ← expect item.eventIndex (.internalError "Missing event_index")
  return ⟨event, checkpoint, transactionOffset, eventIndex⟩

/-- The checkpoint and the offset of a settlement transaction in `fetch_settlements_for_range`. -/
def settlementKey (item : TransactionItem) : Except ClientError (Nat × Nat) := do
  let checkpoint ← expect item.checkpoint (.internalError "settlement transaction missing checkpoint")
  let txOffset ← expect item.transactionOffset (.internalError "settlement transaction missing transaction_offset")
  return (checkpoint, txOffset)

/-! ## Pages -/

/-- What the client takes from the frames of a response. -/
structure Page (α : Type) where
  items : List α
  lastCursor : Option Cursor
  endReason : Option QueryEndReason

/-- One frame in the loops over a response. -/
def readFrame {Item α : Type} (convert : Item → Except ClientError α) (page : Page α) :
    Except Status (Frame Item) → Except ClientError (Page α)
  | .error status => .error (.rpcError status)
  | .ok (.item cursor item) => do
    return { page with items := page.items ++ [← convert item], lastCursor := cursor.or page.lastCursor }
  | .ok (.watermark cursor) => .ok { page with lastCursor := cursor.or page.lastCursor }
  | .ok (.queryEnd reason) => .ok { page with endReason := reason }
  | .ok .other => .ok page

/-- The loop over a response. -/
def readPage {Item α : Type} (convert : Item → Except ClientError α) (frames : List (Except Status (Frame Item))) :
    Except ClientError (Page α) :=
  frames.foldlM (readFrame convert) ⟨[], none, none⟩

/-- What the client makes of the frames of an answer, or of its failure. -/
def readAnswer {Item α : Type} (convert : Item → Except ClientError α) (answer : Except Status (List (Except Status (Frame Item)))) :
    Except ClientError (Page α) := do
  readPage convert (← answer.mapError .rpcError)

/-- A call that streams its response, and the loop over the response. -/
def fetchPage {Item α : Type} (convert : Item → Except ClientError α)
    (answer : Nat → Except Status (List (Except Status (Frame Item)))) : ClientM (Page α) := do
  orStop (readPage convert (← rpc answer))

/-- The scan goes on after the page. -/
def Page.scanIncomplete {α : Type} (page : Page α) : Bool :=
  page.endReason = some .itemLimit || page.endReason = some .scanLimit

variable {Sig Agg Merkle Absence : Type}

/-- `fetch_settlements_for_range`, after the settlements in `all`. -/
def fetchSettlements (server : Server Agg Merkle) (streamObjectId : ObjectID) (startCheckpoint endCheckpointExclusive : Nat) :
    Nat → List (Nat × Nat) → Option Cursor → ClientM (List (Nat × Nat))
  | 0, _, _ => throw .pending
  | fuel + 1, all, cursor => do
    let request : ListTransactionsRequest := {
      startCheckpoint
      endCheckpoint := if startCheckpoint < endCheckpointExclusive then some endCheckpointExclusive else none
      affectedObject := streamObjectId
      after := cursor
      limitItems := 1000 }
    let page ← fetchPage settlementKey (server.listTransactions · request)
    if page.scanIncomplete then
      fetchSettlements server streamObjectId startCheckpoint endCheckpointExclusive fuel (all ++ page.items) page.lastCursor
    else return all ++ page.items

variable (crypto : EventCryptography Sig Agg Merkle Absence) (server : Server Agg Merkle)
  (self : EventStreamState)

def fetchSettlementsForRange (fuel : Nat) (streamObjectId : ObjectID)
    (startCheckpoint endCheckpointExclusive : Nat) : ClientM (List (Nat × Nat)) :=
  fetchSettlements server streamObjectId startCheckpoint endCheckpointExclusive fuel [] none

/-! ## Batches of events -/

section

variable (crypto : EventCryptography Sig Agg Merkle Absence)

/-- `EventCommitment::new` of an event. -/
def commitment (event : AuthenticatedEvent) : EventCommitment :=
  ⟨event.checkpoint, event.transactionOffset, event.eventIndex, crypto.eventDigest event.event⟩

/-- The batches so far in `bucket_events_by_settlement`, with the settlements from the current one on. -/
structure Buckets where
  accumulatedEvents : List (List EventCommitment)
  currentKey : Option (Nat × Nat)
  currentBatch : List EventCommitment
  settlements : List (Nat × Nat)
deriving DecidableEq, Repr

/-- The batches with the current one. -/
def Buckets.finish (b : Buckets) : List (List EventCommitment) :=
  if b.currentBatch.isEmpty then b.accumulatedEvents else b.accumulatedEvents ++ [b.currentBatch]

/-- Add a commitment to the batch of a settlement. -/
def Buckets.push (b : Buckets) (key : Nat × Nat) (commitment : EventCommitment) : Buckets :=
  if b.currentKey = some key then { b with currentBatch := b.currentBatch ++ [commitment] }
  else { b with accumulatedEvents := b.finish, currentKey := some key, currentBatch := [commitment] }

/-- The settlement is strictly before the event. -/
def isBefore (event : AuthenticatedEvent) (settlement : Nat × Nat) : Bool :=
  settlement.1 < event.checkpoint || settlement.1 = event.checkpoint && settlement.2 < event.transactionOffset

/-- One event in `bucket_events_by_settlement`. -/
def bucketEvent (lastVerifiedCheckpoint : Nat) (b : Buckets) (event : AuthenticatedEvent) : Except ClientError Buckets :=
  -- `debug_fatal!` only logs in a release build
  if event.checkpoint ≤ lastVerifiedCheckpoint then .ok b
  else do
    let settlements := b.settlements.dropWhile (isBefore event)
    let key ← expect settlements.head?
      (.verificationError (.noSettlementTransaction event.checkpoint event.transactionOffset))
    assert (key.1 = event.checkpoint)
      (.verificationError (.noSettlementTransaction event.checkpoint event.transactionOffset))
    return Buckets.push { b with settlements } key (commitment crypto event)

def bucketEventsBySettlement (events : List AuthenticatedEvent) (settlements : List (Nat × Nat)) (lastVerifiedCheckpoint : Nat) :
    Except ClientError (List (List EventCommitment)) := do
  let b ← events.foldlM (bucketEvent crypto lastVerifiedCheckpoint) ⟨[], none, [], settlements⟩
  return b.finish

end

/-! ## The state of a stream -/

def saturatingSucc (n : Nat) : Nat := min (n + 1) (2 ^ 64 - 1)

structure EventStreamState where
  streamId : Nat
  streamObjectId : ObjectID
  nextCheckpoint : Nat
  nextCursor : Option Cursor
  unverifiedBuffer : List AuthenticatedEvent
  pageSize : Nat
  lastVerifiedCheckpoint : Nat
  verifiedStreamHead : Option EventStreamHead
deriving DecidableEq, Repr

namespace EventStreamState

def new (streamId : Nat) (streamObjectId : ObjectID) (startCheckpoint : Nat) (initialStreamHead : Option EventStreamHead)
    (pageSize : Nat) : EventStreamState where
  streamId
  streamObjectId
  nextCheckpoint := startCheckpoint
  nextCursor := none
  unverifiedBuffer := []
  pageSize
  lastVerifiedCheckpoint := startCheckpoint - 1
  verifiedStreamHead := initialStreamHead

/-- `drain_complete_checkpoints`: the events that are taken, and those that stay. -/
def drainCompleteCheckpoints (buffer : List AuthenticatedEvent) (scanIncomplete : Bool) :
    List AuthenticatedEvent × List AuthenticatedEvent :=
  match buffer.getLast? with
  | none => ([], [])
  | some last =>
    if scanIncomplete then
      (buffer.rdropWhile (·.checkpoint = last.checkpoint), buffer.rtakeWhile (·.checkpoint = last.checkpoint))
    else (buffer, [])

def request : ListEventsRequest := ⟨self.nextCheckpoint, self.streamId, self.nextCursor, self.pageSize⟩

/-- What a page changes: its events go into the buffer, complete checkpoints leave it, and the scan moves on. -/
def receive (page : Page AuthenticatedEvent) : List AuthenticatedEvent × EventStreamState :=
  let (flushed, rest) := drainCompleteCheckpoints (self.unverifiedBuffer ++ page.items) page.scanIncomplete
  let advanceFrom := (flushed.getLast?.map (·.checkpoint)).or (rest.getLast?.map (·.checkpoint))
  (flushed, { self with
    unverifiedBuffer := rest
    nextCursor := if page.scanIncomplete then page.lastCursor else none
    nextCheckpoint := if page.scanIncomplete then self.nextCheckpoint else (advanceFrom.map saturatingSucc).getD self.nextCheckpoint })

/-- The comparisons at the end of `verify_events`. -/
def checkHead (upToCheckpoint : Nat) (newStreamHead computedHead : EventStreamHead) : Except ClientError EventStreamState := do
  assert (computedHead.mmr = newStreamHead.mmr) (.verificationError .mmrMismatch)
  assert (computedHead.numEvents = newStreamHead.numEvents)
    (.verificationError (.eventCountMismatch computedHead.numEvents newStreamHead.numEvents))
  assert (newStreamHead.checkpointSeq = upToCheckpoint)
    (.verificationError (.checkpointMismatch newStreamHead.checkpointSeq upToCheckpoint))
  return { self with verifiedStreamHead := some newStreamHead, lastVerifiedCheckpoint := upToCheckpoint }

/-- `verify_events` for events of which there is a first and a last one, up to the checkpoint of the last one. -/
def verifyEvents (fuel : Nat)
    (self : EventStreamState) (first last : AuthenticatedEvent) (events : List AuthenticatedEvent) : ClientM EventStreamState := do
  let upToCheckpoint := last.checkpoint
  let oldHead := self.verifiedStreamHead.getD .new
  let settlements ← fetchSettlementsForRange server fuel self.streamObjectId first.checkpoint (saturatingSucc last.checkpoint)
  let accumulatedEvents ← orStop (bucketEventsBySettlement crypto events settlements self.lastVerifiedCheckpoint)
  let newStreamHead ← fetchAndVerifyStreamHead crypto server fuel self.streamObjectId upToCheckpoint
  orStop (assert (oldHead.checkpointSeq < newStreamHead.checkpointSeq)
    (.verificationError (.checkpointWentBackwards oldHead.checkpointSeq newStreamHead.checkpointSeq)))
  let computedHead ← Effects.lift (applyStreamUpdates crypto oldHead accumulatedEvents)
  orStop (self.checkHead upToCheckpoint newStreamHead computedHead)

/-- `fetch_and_verify_next_batch`: the result, and the state of the stream and of the client. -/
def fetchAndVerifyNextBatch (fuel : Nat) (self : EventStreamState) (client : Client) :
    Except Stop (List AuthenticatedEvent) × EventStreamState × Client :=
  match fetchPage AuthenticatedEvent.tryFrom (server.listEvents · self.request) client with
  | .error stop client => (.error stop, self, client)
  | .ok page client =>
    let (flushed, self) := self.receive page
    match flushed.head?, flushed.getLast? with
    | some first, some last =>
      if self.lastVerifiedCheckpoint < last.checkpoint then
        match self.verifyEvents crypto server fuel first last flushed client with
        | .error stop client => (.error stop, self, client)
        | .ok self client => (.ok flushed, self, client)
      else (.ok flushed, self, client)
    | _, _ => (.ok [], self, client)

end EventStreamState

/-! ## Runs -/

/-- One pass of the loop of the stream: the number of its first call, for the page, its result, and the number of the next call. -/
structure Poll where
  firstCall : Nat
  result : Except Stop (List AuthenticatedEvent)
  nextCall : Nat

/-- The events that a poll yields. -/
def Poll.events (poll : Poll) : List AuthenticatedEvent := poll.result.toOption.getD []

def Stop.ends : Stop → Bool
  | .error e => e.isTerminal
  | .panic _ => true
  | .pending => true

/-- The loop of the stream, at most `polls` times. -/
def streamLoop (crypto : EventCryptography Sig Agg Merkle Absence) (server : Server Agg Merkle) (fuel : Nat) :
    Nat → EventStreamState → Client → List Poll
  | 0, _, _ => []
  | polls + 1, state, client =>
    let (result, state', client') := state.fetchAndVerifyNextBatch crypto server fuel client
    let rest :=
      match result with
      | .ok _ => streamLoop crypto server fuel polls state' client'
      | .error stop => if stop.ends then [] else streamLoop crypto server fuel polls state' client'
    ⟨client.calls, result, client'.calls⟩ :: rest

def yielded (polls : List Poll) : List AuthenticatedEvent := polls.flatMap Poll.events

/-- `stream_events`: the state in which the stream starts. -/
def streamEvents (fuel pageSize streamId : Nat) : ClientM EventStreamState := do
  let streamObjectId ← orStop ((crypto.deriveEventStreamHeadObjectId streamId).mapError .internalError)
  match ← fetchCurrentStreamHeadAndVerify crypto server fuel streamObjectId with
  | some (head, checkpoint) =>
    let startCheckpoint ← Effects.lift (Word.add (Stop.panic "overflow") 64 checkpoint 1)
    return .new streamId streamObjectId startCheckpoint (some head) pageSize
  | none => return .new streamId streamObjectId 0 none pageSize

/-- `stream_events_from_checkpoint`: the state in which the stream starts. -/
def streamEventsFromCheckpoint (fuel pageSize streamId lastVerifiedCheckpoint : Nat) : ClientM EventStreamState := do
  let streamObjectId ← orStop ((crypto.deriveEventStreamHeadObjectId streamId).mapError .internalError)
  if lastVerifiedCheckpoint = 0 then return .new streamId streamObjectId 0 none pageSize
  else
    let verifiedHead ← fetchAndVerifyStreamHead crypto server fuel streamObjectId lastVerifiedCheckpoint
    let startCheckpoint ← Effects.lift (Word.add (Stop.panic "overflow") 64 lastVerifiedCheckpoint 1)
    return .new streamId streamObjectId startCheckpoint (some verifiedHead) pageSize

/-- Open a stream after a checkpoint, or after the latest one. -/
def openStream (fuel pageSize streamId : Nat) : Option Nat → ClientM EventStreamState
  | none => streamEvents crypto server fuel pageSize streamId
  | some lastVerifiedCheckpoint => streamEventsFromCheckpoint crypto server fuel pageSize streamId lastVerifiedCheckpoint

/-- A client that starts with the genesis committee and opens a stream: the polls of the stream, if it is opened. -/
def runStream
    (genesisCommittee : Types.EpochCommittee) (fuel pageSize streamId : Nat) (start : Option Nat) (polls : Nat) : List Poll :=
  match openStream crypto server fuel pageSize streamId start ⟨0, .new genesisCommittee⟩ with
  | .ok state client => streamLoop crypto server fuel polls state client
  | .error _ _ => []

end Sui.LightClient

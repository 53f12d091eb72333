import Sui.LightClient.EventStream
import Sui.Library.Scan

/-!
# Honest servers

A ledger holds the settlements of the stream, one after another, and a server answers every call truthfully from it. It cuts the
answers into pages as it likes, each with some progress, and a finite number of calls fails with an error that can be retried.
Checkpoint 0 holds the genesis transaction only.
-/

namespace Sui.LightClient

open Library Settlement

/-! ## The ledger -/

/-- The events that one settlement transaction folds into the head of the stream. -/
structure Settled where
  checkpoint : Nat
  txOffset : Nat
  events : List AuthenticatedEvent
deriving DecidableEq, Repr

namespace Settled

/-- Where the settlement transaction is. -/
def key (s : Settled) : Nat × Nat := (s.checkpoint, s.txOffset)

/-- The settlement `a` is before `b` and before the events of `b`. -/
def Before (a b : Settled) : Prop :=
  a.checkpoint < b.checkpoint ∨
    a.checkpoint = b.checkpoint ∧ a.txOffset < b.txOffset ∧ ∀ e ∈ b.events, a.txOffset < e.transactionOffset

/-- The settlement has events, and it comes after them in their checkpoint. -/
def WellFormed (s : Settled) : Prop :=
  s.events ≠ [] ∧ ∀ e ∈ s.events, e.checkpoint = s.checkpoint ∧ e.transactionOffset ≤ s.txOffset

end Settled

/-- A ledger with one event stream: rows of events and of transactions, some of them of the stream, and the cursor after each
row. -/
structure Ledger (genesis : Types.EpochCommittee) where
  streamId : Nat
  streamObjectId : ObjectID
  settlements : List Settled
  ordered : settlements.Pairwise Settled.Before
  wellFormed : ∀ s ∈ settlements, s.WellFormed
  afterGenesis : ∀ s ∈ settlements, 0 < s.checkpoint ∧ s.checkpoint < 2 ^ 64 - 1
  numEvents_lt : (settlements.flatMap (·.events)).length < 2 ^ 64
  eventScan : Scan AuthenticatedEvent
  eventScan_items : eventScan.items = settlements.flatMap (·.events)
  eventScan_key : ∀ row ∈ eventScan.rows, ∀ e ∈ row.2, e.checkpoint = row.1
  eventCursor : Nat → Cursor
  transactionScan : Scan (Nat × Nat)
  transactionScan_items : transactionScan.items = settlements.map Settled.key
  transactionScan_key : ∀ row ∈ transactionScan.rows, ∀ key ∈ row.2, key.1 = row.1
  transactionCursor : Nat → Cursor
  currentEpoch : Nat
  committee : Nat → Types.EpochCommittee
  committee_zero : committee 0 = genesis
  lastCheckpoint : Nat → Nat
  lastCheckpoint_lt : ∀ e, e + 1 < currentEpoch → lastCheckpoint e < lastCheckpoint (e + 1)

variable {Sig Agg Merkle Absence : Type}

variable (crypto : EventCryptography Sig Agg Merkle Absence)

def settleEvents (head : EventStreamHead) (s : Settled) : EventStreamHead where
  mmr := addToStream crypto head.mmr (crypto.buildEventMerkleRoot (s.events.map (commitment crypto)))
  checkpointSeq := s.checkpoint
  numEvents := head.numEvents + s.events.length

/-- The head after the settlements. -/
def settledHead (settlements : List Settled) : EventStreamHead :=
  settlements.foldl (settleEvents crypto) .new

namespace Ledger

variable {genesis : Types.EpochCommittee} (ledger : Ledger genesis)

def headAt (crypto : EventCryptography Sig Agg Merkle Absence) (checkpoint : Nat) : EventStreamHead :=
  settledHead crypto (ledger.settlements.filter fun s => s.checkpoint ≤ checkpoint)

def eventsFrom (checkpoint : Nat) : List AuthenticatedEvent :=
  (ledger.settlements.flatMap (·.events)).filter fun e => checkpoint ≤ e.checkpoint

def firstCheckpoint : Nat → Nat
  | 0 => 0
  | e + 1 => ledger.lastCheckpoint e + 1

def epochOf (checkpoint : Nat) : Nat := (List.range ledger.currentEpoch).countP fun e => ledger.lastCheckpoint e < checkpoint

end Ledger

/-! ## Answers -/

/-- The failure of a call that can be retried. -/
def Fails {α : Type} (x : Except Status α) : Prop := ∃ status, x = .error status ∧ status.code.isRetriable = true

/-- The request is for the rows from `a` up to `b`: at the start of the query, or where a page has ended. -/
def RequestAt {α : Type} (scan : Scan α) (cursor : Nat → Cursor) (startCheckpoint : Nat) (after : Option Cursor) (a b : Nat) : Prop :=
  a ≤ b ∧ (after = none ∧ a = scan.rowOf startCheckpoint ∨ after = some (cursor a) ∧ scan.rowOf startCheckpoint ≤ a)

/-- The page has the items of some rows from `a` on and the cursor after them, or those of all rows up to `b`. -/
def HonestPage {α : Type} (scan : Scan α) (cursor : Nat → Cursor) (a b : Nat) (page : Page α) : Prop :=
  page.scanIncomplete = true ∧ (∃ k, a < k ∧ k ≤ b ∧ page.items = scan.between a k ∧ page.lastCursor = some (cursor k)) ∨
    page.scanIncomplete = false ∧ page.items = scan.between a b

/-- The last row of a query. -/
def lastRow {α : Type} (scan : Scan α) : Option Nat → Nat
  | none => scan.rows.length
  | some endCheckpoint => scan.rowOf endCheckpoint

/-- The server fails at the calls in `faults`, with an error that can be retried, and answers the others from the ledger. -/
structure Honest {genesis : Types.EpochCommittee} (ledger : Ledger genesis) (faults : Finset Nat) (server : Server Agg Merkle)
    : Prop where
  derive : crypto.deriveEventStreamHeadObjectId ledger.streamId = .ok ledger.streamObjectId
  listEvents (n : Nat) (request : ListEventsRequest) (a : Nat) : request.streamId = ledger.streamId →
    RequestAt ledger.eventScan ledger.eventCursor request.startCheckpoint request.after a ledger.eventScan.rows.length →
    if n ∈ faults then
      ∃ status, readAnswer AuthenticatedEvent.tryFrom (server.listEvents n request) = .error (.rpcError status) ∧
        status.code.isRetriable = true
    else ∃ page, readAnswer AuthenticatedEvent.tryFrom (server.listEvents n request) = .ok page ∧
      HonestPage ledger.eventScan ledger.eventCursor a ledger.eventScan.rows.length page
  listTransactions (n : Nat) (request : ListTransactionsRequest) (a : Nat) : request.affectedObject = ledger.streamObjectId →
    RequestAt ledger.transactionScan ledger.transactionCursor request.startCheckpoint request.after a
      (lastRow ledger.transactionScan request.endCheckpoint) →
    if n ∈ faults then
      ∃ status, readAnswer settlementKey (server.listTransactions n request) = .error (.rpcError status) ∧
        status.code.isRetriable = true
    else ∃ page, readAnswer settlementKey (server.listTransactions n request) = .ok page ∧
      HonestPage ledger.transactionScan ledger.transactionCursor a (lastRow ledger.transactionScan request.endCheckpoint) page
  getEpoch (n e : Nat) : e ≤ ledger.currentEpoch →
    if n ∈ faults then Fails (server.getEpoch n e)
    else endOfEpochCheckpoint e (server.getEpoch n e) =
      .ok (if e < ledger.currentEpoch then some (ledger.lastCheckpoint e) else none)
  getCheckpoint (n e : Nat) : e < ledger.currentEpoch →
    if n ∈ faults then Fails (server.getCheckpoint n (ledger.lastCheckpoint e))
    else verifyNextCommittee crypto.toCryptography (ledger.committee e) (ledger.lastCheckpoint e)
      (server.getCheckpoint n (ledger.lastCheckpoint e)) = .ok (ledger.committee (e + 1))
  getCheckpointObjectProof (n checkpoint : Nat) :
    if n ∈ faults then Fails (server.getCheckpointObjectProof n ledger.streamObjectId checkpoint)
    else ∃ response, server.getCheckpointObjectProof n ledger.streamObjectId checkpoint = .ok response ∧
      if checkpoint ∈ ledger.settlements.map (·.checkpoint) then
        readStreamHead crypto (ledger.committee (ledger.epochOf checkpoint)) checkpoint response = .ok (ledger.headAt crypto checkpoint)
      else ∃ message, readStreamHead crypto (ledger.committee (ledger.epochOf checkpoint)) checkpoint response =
        .error (.error (.internalError message))
  getObject (n : Nat) :
    if n ∈ faults then Fails (server.getObject n ledger.streamObjectId)
    else if ledger.settlements = [] then
      ∃ status, server.getObject n ledger.streamObjectId = .error status ∧ status.code = .notFound
    else ∃ object, server.getObject n ledger.streamObjectId = .ok (.ok object) ∧
      crypto.extractStreamHeadFromObject object = .ok (settledHead crypto ledger.settlements)

end Sui.LightClient

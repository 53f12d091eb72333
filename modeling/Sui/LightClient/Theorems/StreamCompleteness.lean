import Sui.LightClient.Lemmas.StreamCompleteness
import Sui.LightClient.Theorems.EventStream

/-!
# Completeness of event streams

A page changes the state of the stream before the events that it completes are verified. If a call of this verification fails,
the events are lost although the error may be one that is retried.
-/

namespace Sui.LightClient

open Library Settlement

section Completeness

variable {Sig Agg Merkle Absence : Type} {crypto : EventCryptography Sig Agg Merkle Absence}
  {server : Server Agg Merkle} {genesis : Types.EpochCommittee} {ledger : Ledger genesis} {faults : Finset Nat}
  {fuel pageSize : Nat} {start : Option Nat} {state : EventStreamState} {client : Client}

/-- The stream never ends with a verification error, and some poll completes the events from its first checkpoint on, each once
and in order. -/
def StreamComplete (crypto : EventCryptography Sig Agg Merkle Absence) (server : Server Agg Merkle) (fuel : Nat)
    (ledger : Ledger genesis) (state : EventStreamState) (client : Client) : Prop :=
  (∀ polls, ∀ poll ∈ streamLoop crypto server fuel polls state client, ∀ failure,
    poll.result ≠ .error (.error (.verificationError failure))) ∧
    ∃ enough, ∀ polls, enough ≤ polls →
      yielded (streamLoop crypto server fuel polls state client) = ledger.eventsFrom state.nextCheckpoint

/-- A stream of an honest server is complete if and only if the only calls of its polls that fail are those for pages. -/
theorem streamComplete_iff (h : Honest crypto ledger faults server) (hfuel : EnoughFuel ledger fuel)
    (hopen : openStream crypto server fuel pageSize ledger.streamId start ⟨0, .new genesis⟩ = .ok state client) :
    StreamComplete crypto server fuel ledger state client ↔
      ∀ polls, ∀ poll ∈ streamLoop crypto server fuel polls state client, poll.OnlyPageFails faults := by
  obtain ⟨hopened, hcache⟩ := (openStream_honest h hfuel CacheHonest.new pageSize start).of_ok hopen
  obtain ⟨done, todo, hverified⟩ := hopened.verifiedUpTo
  rw [← hopened.pendingEvents_eq] at hverified
  constructor
  · rintro ⟨-, enough, hyielded⟩ polls poll hpoll
    by_contra hfails
    -- the poll is also in a run that is long enough to have yielded everything
    have hmem := mem_streamLoop_mono (Nat.le_add_right polls enough) hpoll
    have hlt := length_yielded_lt h hfuel hopened.positioned hcache hverified _ ⟨poll, hmem, hfails⟩
    rw [hyielded _ (Nat.le_add_left enough polls), hopened.pendingEvents_eq] at hlt
    exact absurd hlt (lt_irrefl _)
  · intro hpages
    have hrun : ∀ polls, _ := fun polls =>
      yielded_eq_pending h hfuel hopened.positioned hcache hverified (hpages polls)
    refine ⟨fun polls => (hrun polls).1, pollsLeft ledger faults state client (ledger.eventScan.rowOf state.nextCheckpoint), ?_⟩
    intro polls hle
    rw [(hrun polls).2 hle, hopened.pendingEvents_eq]

end Completeness

/-! ## A lost event -/

section Example

/-- Every summary may be signed. -/
def openCrypto : EventCryptography Nat Nat (List ObjectRef) (List ObjectRef × Nat) :=
  { streamCrypto exampleSummary.data with
    toCryptography := { (streamCrypto exampleSummary.data).toCryptography with scheme := exampleCrypto.scheme } }

variable (checkpoint : Nat)

def eventOf : AuthenticatedEvent := ⟨⟨0, [], 0, [], []⟩, checkpoint, 0, 0⟩

/-- Stream 7 has one event in checkpoint 1 and one in checkpoint 2. -/
def twoEvents : Ledger exampleCommittee where
  streamId := 7
  streamObjectId := 7
  settlements := [⟨1, 1, [eventOf 1]⟩, ⟨2, 1, [eventOf 2]⟩]
  ordered := by simp [Settled.Before]
  wellFormed := by simp [Settled.WellFormed, eventOf]
  afterGenesis := by simp
  numEvents_lt := by simp
  eventScan := ⟨[(1, some (eventOf 1)), (2, some (eventOf 2))], by simp⟩
  eventScan_items := rfl
  eventScan_key := by simp [eventOf]
  eventCursor k := [k]
  transactionScan := ⟨[(1, some (1, 1)), (2, some (2, 1))], by simp⟩
  transactionScan_items := rfl
  transactionScan_key := by simp
  transactionCursor k := [k]
  currentEpoch := 0
  committee _ := exampleCommittee
  committee_zero := rfl
  lastCheckpoint _ := 0
  lastCheckpoint_lt := by simp

def objectOf (version : Nat) (head : EventStreamHead) : Object := ⟨7, version, head.checkpointSeq :: head.numEvents :: head.mmr⟩

def statesAt : ObjectStates :=
  (∅ : ObjectStates).insert 7 (checkpoint, openCrypto.objectDigest (objectOf checkpoint (twoEvents.headAt openCrypto checkpoint)))

def summaryAt : Types.CertifiedCheckpointSummary Nat :=
  ⟨⟨0, checkpoint, 0, 0, none, [.checkpointArtifactsDigest (checkpointArtifactsDigest openCrypto.toCryptography (statesAt checkpoint))],
    none, []⟩, ⟨0, 1, {0}⟩⟩

/-- The head in a checkpoint, with its proof. -/
def proofAt : GetCheckpointObjectProofResponse Nat (List ObjectRef) :=
  let object := objectOf checkpoint (twoEvents.headAt openCrypto checkpoint)
  ⟨some (.ok (summaryAt checkpoint)), some (.inclusion ⟨some (.ok ⟨7, checkpoint, openCrypto.objectDigest object⟩),
    .ok ((statesAt checkpoint).leaves, 0, openCrypto.merkle.root (statesAt checkpoint).leaves), some (.ok object)⟩)⟩

/-- A page with the events from a row on, whose scan goes on. After the last event the scan is at the tip. -/
def eventFrames (row : Nat) : List (Except Status (Frame EventItem)) :=
  if row < 2 then
    (twoEvents.eventScan.between row 2).map (fun e => .ok (.item (some [2]) ⟨.ok e.event, some e.checkpoint, some 0, some 0⟩)) ++
      [.ok (.queryEnd (some .itemLimit))]
  else [.ok (.queryEnd (some .ledgerTip))]

/-- A page with the settlements from one row up to another. -/
def transactionFrames (first last : Nat) : List (Except Status (Frame TransactionItem)) :=
  (twoEvents.transactionScan.between first last).map (fun key => .ok (.item none ⟨some key.1, some key.2⟩)) ++
    [.ok (.queryEnd (some .checkpointBound))]

def requestRow {α : Type} (scan : Scan α) (startCheckpoint : Nat) (after : Option Cursor) : Nat :=
  (after.bind List.head?).getD (scan.rowOf startCheckpoint)

/-- One call fails with an error that can be retried. -/
def failAt {α : Type} (fault n : Nat) (answer : α) : Except Status α := if n = fault then .error ⟨.unavailable, ""⟩ else .ok answer

/-- A server of the two events with one call that fails. -/
def flakyServer (fault : Nat) : Server Nat (List ObjectRef) where
  listEvents n request := failAt fault n (eventFrames (requestRow twoEvents.eventScan request.startCheckpoint request.after))
  listTransactions n request := failAt fault n (transactionFrames
    (requestRow twoEvents.transactionScan request.startCheckpoint request.after) (lastRow twoEvents.transactionScan request.endCheckpoint))
  getCheckpointObjectProof n _ checkpoint := failAt fault n
    (if checkpoint = 1 ∨ checkpoint = 2 then proofAt checkpoint else ⟨none, none⟩)
  getObject n _ := failAt fault n (.ok (objectOf 2 (settledHead openCrypto twoEvents.settlements)))
  getEpoch n _ := failAt fault n (some ⟨none⟩)
  getCheckpoint n _ := failAt fault n none

theorem requestRow_eq {α : Type} {scan : Scan α} {cursor : Nat → Cursor} (hcursor : ∀ k, (cursor k).head? = some k)
    {startCheckpoint a b : Nat} {after : Option Cursor} (h : RequestAt scan cursor startCheckpoint after a b) :
    requestRow scan startCheckpoint after = a := by
  obtain ⟨-, ⟨rfl, rfl⟩ | ⟨rfl, -⟩⟩ := h
  · rfl
  · simp [requestRow, hcursor]

theorem failAt_of_ne {α : Type} {fault n : Nat} {answer : α} (h : n ≠ fault) : failAt fault n answer = .ok answer := if_neg h

theorem fails_failAt {α : Type} {fault : Nat} {answer : α} : Fails (failAt fault fault answer) := ⟨_, if_pos rfl, rfl⟩

theorem readAnswer_failAt {Item α : Type} {convert : Item → Except ClientError α} {fault : Nat}
    {answer : List (Except Status (Frame Item))} :
    ∃ status, readAnswer convert (failAt fault fault answer) = .error (.rpcError status) ∧ status.code.isRetriable = true := by
  refine ⟨⟨.unavailable, ""⟩, ?_, rfl⟩
  rw [failAt, if_pos rfl]
  rfl

theorem honest_flakyServer (fault : Nat) : Honest openCrypto twoEvents {fault} (flakyServer fault) where
  derive := rfl
  listEvents := by
    intro n request a _ hrequest
    have hrow := requestRow_eq (fun _ => rfl) hrequest
    simp only [flakyServer, hrow, Finset.mem_singleton]
    split_ifs with hn
    · rw [hn]
      exact readAnswer_failAt
    · rw [failAt_of_ne hn]
      have hle : a ≤ 2 := hrequest.1
      interval_cases a
      · exact ⟨_, rfl, .inl ⟨rfl, 2, by decide, by decide, rfl, rfl⟩⟩
      · exact ⟨_, rfl, .inl ⟨rfl, 2, by decide, by decide, rfl, rfl⟩⟩
      · exact ⟨_, rfl, .inr ⟨rfl, rfl⟩⟩
  listTransactions := by
    intro n request a _ hrequest
    have hrow := requestRow_eq (fun _ => rfl) hrequest
    simp only [flakyServer, hrow, Finset.mem_singleton]
    split_ifs with hn
    · rw [hn]
      exact readAnswer_failAt
    · rw [failAt_of_ne hn]
      have hle : a ≤ lastRow twoEvents.transactionScan request.endCheckpoint := hrequest.1
      have hlast : lastRow twoEvents.transactionScan request.endCheckpoint ≤ 2 := by
        cases request.endCheckpoint with
        | none => exact le_rfl
        | some c => exact Scan.rowOf_le_length c
      generalize lastRow twoEvents.transactionScan request.endCheckpoint = b at hle hlast
      interval_cases b <;> interval_cases a <;> exact ⟨_, rfl, .inr ⟨rfl, rfl⟩⟩
  getEpoch := by
    intro n e he
    simp only [Finset.mem_singleton]
    split
    · rename_i hn
      rw [hn]
      exact fails_failAt
    · rename_i hn
      have hepoch : (flakyServer fault).getEpoch n e = .ok (some ⟨none⟩) := failAt_of_ne hn
      rw [hepoch]
      rfl
  getCheckpoint := by
    intro n e he
    exact absurd he (Nat.not_lt_zero e)
  getCheckpointObjectProof := by
    intro n checkpoint
    simp only [Finset.mem_singleton]
    split
    · rename_i hn
      rw [hn]
      exact fails_failAt
    · rename_i hn
      refine ⟨_, failAt_of_ne hn, ?_⟩
      have hmem : checkpoint ∈ twoEvents.settlements.map (·.checkpoint) ↔ checkpoint = 1 ∨ checkpoint = 2 := by simp [twoEvents]
      simp only [hmem]
      split
      · rename_i hcheckpoint
        rcases hcheckpoint with rfl | rfl
        · decide +kernel
        · decide +kernel
      · exact ⟨_, rfl⟩
  getObject := by
    intro n
    simp only [Finset.mem_singleton]
    split
    · rename_i hn
      rw [hn]
      exact fails_failAt
    · rename_i hn
      rw [if_neg (by simp [twoEvents])]
      exact ⟨_, failAt_of_ne hn, rfl⟩

/-- The state in which the stream starts after checkpoint 0. -/
def startState : EventStreamState := .new 7 7 0 none 1000

def startClient : Client := ⟨0, .new exampleCommittee⟩

/-- The call for the settlements of checkpoint 1 fails once. Its event is lost, and the next poll ends the stream with an error.
-/
theorem retried_error_loses_event : Honest openCrypto twoEvents {1} (flakyServer 1) ∧ EnoughFuel twoEvents 3 ∧
      openStream openCrypto (flakyServer 1) 3 1000 7 (some 0) startClient = .ok startState startClient ∧
      (streamLoop openCrypto (flakyServer 1) 3 2 startState startClient).map (·.result) =
        [.error (.error (.rpcError ⟨.unavailable, ""⟩)), .error (.error (.verificationError .mmrMismatch))] ∧
      ¬ StreamComplete openCrypto (flakyServer 1) 3 twoEvents startState startClient := by
  have hrun : (streamLoop openCrypto (flakyServer 1) 3 2 startState startClient).map (·.result) =
      [.error (.error (.rpcError ⟨.unavailable, ""⟩)), .error (.error (.verificationError .mmrMismatch))] := by decide +kernel
  refine ⟨honest_flakyServer 1, ⟨by decide, by decide⟩, rfl, hrun, ?_⟩
  rintro ⟨hfailure, -⟩
  have hmem : .error (.error (.verificationError .mmrMismatch)) ∈
      (streamLoop openCrypto (flakyServer 1) 3 2 startState startClient).map (·.result) := by simp [hrun]
  obtain ⟨poll, hpoll, hresult⟩ := List.mem_map.mp hmem
  exact hfailure 2 poll hpoll _ hresult

/-- If it is the first call for a page that fails, the stream yields both events. -/
theorem streamComplete_of_failed_page :
    Honest openCrypto twoEvents {0} (flakyServer 0) ∧ StreamComplete openCrypto (flakyServer 0) 3 twoEvents startState startClient := by
  refine ⟨honest_flakyServer 0, (streamComplete_iff (honest_flakyServer 0) ⟨by decide, by decide⟩
    (rfl : openStream openCrypto (flakyServer 0) 3 1000 7 (some 0) startClient = .ok startState startClient)).mpr ?_⟩
  intro polls poll _ n hn hlt
  rw [Finset.mem_singleton.mp hn] at hlt
  exact absurd hlt (Nat.not_lt_zero _)

end Example

end Sui.LightClient

import Sui.LightClient.Lemmas.HonestServer

/-!
# The events that a stream still has to yield

What the stream still has to yield is in the buffer or not sent yet. A page moves events to the buffer and whole checkpoints out
of it. If the calls that verify them do not fail, they are the events of the next settlements.
-/

namespace Sui.LightClient

open Library Settlement Effects List Settled Buckets EventStreamState Scan

variable {Sig Agg Merkle Absence : Type} {crypto : EventCryptography Sig Agg Merkle Absence}
  {server : Server Agg Merkle} {genesis : Types.EpochCommittee} {ledger : Ledger genesis} {faults : Finset Nat} {client : Client}

/-! ## Batches of settlements -/

variable {e : AuthenticatedEvent}

theorem isBefore_iff {key : Nat × Nat} :
    isBefore e key = true ↔ key.1 < e.checkpoint ∨ key.1 = e.checkpoint ∧ key.2 < e.transactionOffset := by
  simp [isBefore]

variable {s : Settled}

/-- An event is not after its own settlement. -/
theorem isBefore_key (hs : s.WellFormed) (he : e ∈ s.events) : ¬ isBefore e s.key = true := by
  obtain ⟨hcheckpoint, hoffset⟩ := hs.2 e he
  rw [isBefore_iff, key]
  dsimp only
  omega

/-- An event is after all earlier settlements, which the bucketing then drops. -/
theorem isBefore_of_before {a b : Settled} (h : a.Before b) (hb : b.WellFormed) (he : e ∈ b.events) :
    isBefore e a.key = true := by
  have hcheckpoint := (hb.2 e he).1
  rw [isBefore_iff, hcheckpoint]
  rcases h with h | ⟨heq, -, hoffset⟩
  · exact .inl h
  · exact .inr ⟨heq, hoffset e he⟩

variable {lastVerified : Nat} {b : Buckets} {pre post : List (Nat × Nat)}

/-- An event goes into the batch of its settlement, which comes after the settlements before the event. -/
theorem bucketEvent_settled (hs : s.WellFormed) (he : e ∈ s.events) (hlast : lastVerified < s.checkpoint)
    (hsettlements : b.settlements = pre ++ s.key :: post) (hpre : ∀ key ∈ pre, isBefore e key = true) :
    bucketEvent crypto lastVerified b e = .ok (push { b with settlements := s.key :: post } s.key (commitment crypto e)) := by
  have hcheckpoint := (hs.2 e he).1
  have hdrop : b.settlements.dropWhile (isBefore e) = s.key :: post := by
    rw [hsettlements, dropWhile_append_of_pos hpre, dropWhile_cons_of_neg (isBefore_key hs he)]
  rw [bucketEvent, if_neg (by omega), hdrop]
  simp [key, hcheckpoint]

/-- The events of a settlement after the first ones. -/
theorem foldlM_bucketEvent_rest (hs : s.WellFormed) (hlast : lastVerified < s.checkpoint) {es : List AuthenticatedEvent}
    (hes : ∀ e ∈ es, e ∈ s.events) {accumulated : List (List EventCommitment)} {batch : List EventCommitment} :
    es.foldlM (bucketEvent crypto lastVerified) ⟨accumulated, some s.key, batch, s.key :: post⟩ =
      .ok ⟨accumulated, some s.key, batch ++ es.map (commitment crypto), s.key :: post⟩ := by
  induction es generalizing batch with
  | nil => simp
  | cons e _ ih =>
    have hone : bucketEvent crypto lastVerified ⟨accumulated, some s.key, batch, s.key :: post⟩ e =
        .ok ⟨accumulated, some s.key, batch ++ [commitment crypto e], s.key :: post⟩ := by
      rw [bucketEvent_settled hs (hes e mem_cons_self) hlast (nil_append _).symm (by simp), push, if_pos rfl]
    rw [foldlM_cons, hone, Checked.ok_bind, ih fun e he => hes e (mem_cons_of_mem _ he)]
    simp

variable (crypto) in
/-- The events of one settlement are one batch. -/
theorem foldlM_bucketEvent_settled (hs : s.WellFormed)
    (hlast : lastVerified < s.checkpoint) (hsettlements : b.settlements = pre ++ s.key :: post)
    (hpre : ∀ key ∈ pre, ∀ e ∈ s.events, isBefore e key = true) (hkey : b.currentKey ≠ some s.key) :
    s.events.foldlM (bucketEvent crypto lastVerified) b =
      .ok ⟨b.finish, some s.key, s.events.map (commitment crypto), s.key :: post⟩ := by
  cases hevents : s.events with
  | nil => exact absurd hevents hs.1
  | cons e es =>
    have hmem : ∀ e' ∈ e :: es, e' ∈ s.events := by simp [hevents]
    have hone : bucketEvent crypto lastVerified b e = .ok ⟨b.finish, some s.key, [commitment crypto e], s.key :: post⟩ := by
      rw [bucketEvent_settled hs (hmem e mem_cons_self) hlast hsettlements
        (fun key hkey => hpre key hkey e (hmem e mem_cons_self)), push, if_neg hkey]
      rfl
    rw [foldlM_cons, hone, Checked.ok_bind, foldlM_bucketEvent_rest hs hlast fun e' he' => hmem e' (mem_cons_of_mem _ he')]
    rfl

variable {todo : List Settled}

variable (crypto) in
/-- The events of settlements are put back into the batches of the settlements. -/
theorem foldlM_bucketEvent_flatMap (hordered : todo.Pairwise Settled.Before) (hwell : ∀ s ∈ todo, s.WellFormed)
    (hlast : ∀ s ∈ todo, lastVerified < s.checkpoint) (hsettlements : b.settlements = pre ++ todo.map key)
    (hpre : ∀ key ∈ pre, ∀ s ∈ todo, ∀ e ∈ s.events, isBefore e key = true) (hkey : ∀ s ∈ todo, b.currentKey ≠ some s.key) :
    ∃ b', (todo.flatMap (·.events)).foldlM (bucketEvent crypto lastVerified) b = .ok b' ∧
      b'.finish = b.finish ++ todo.map fun s => s.events.map (commitment crypto) := by
  induction todo generalizing b pre with
  | nil => exact ⟨b, rfl, by simp⟩
  | cons s todo ih =>
    obtain ⟨hs, hordered⟩ := pairwise_cons.mp hordered
    have hwells := hwell s mem_cons_self
    have hfirst := foldlM_bucketEvent_settled crypto hwells (hlast s mem_cons_self) hsettlements
      (fun key hkey => hpre key hkey s mem_cons_self) (hkey s mem_cons_self)
    have hwell' : ∀ s ∈ todo, s.WellFormed := fun s' hs' => hwell s' (mem_cons_of_mem _ hs')
    have hafter : settlements ⟨b.finish, some s.key, s.events.map (commitment crypto), s.key :: todo.map key⟩ =
        [s.key] ++ todo.map key := rfl
    obtain ⟨b', hrest, hfinish⟩ := ih hordered hwell' (fun s' hs' => hlast s' (mem_cons_of_mem _ hs')) hafter
      (by
        intro key hkey s' hs' e he
        rw [mem_singleton.mp hkey]
        exact isBefore_of_before (hs s' hs') (hwell' s' hs') he)
      (by
        intro s' hs' heq
        have heq : s.key = s'.key := Option.some.inj heq
        simp only [key, Prod.mk.injEq] at heq
        rcases hs s' hs' with hlt | ⟨-, hlt, -⟩ <;> omega)
    refine ⟨b', ?_, ?_⟩
    · rw [flatMap_cons, foldlM_append, hfirst, Checked.ok_bind, hrest]
    · rw [hfinish, finish, if_neg (by simp [hwells.1])]
      simp

/-- Events of settlements are bucketed into the batches of the settlements. -/
theorem bucketEventsBySettlement_flatMap (hordered : todo.Pairwise Settled.Before)
    (hwell : ∀ s ∈ todo, s.WellFormed) (hlast : ∀ s ∈ todo, lastVerified < s.checkpoint) :
    bucketEventsBySettlement crypto (todo.flatMap (·.events)) (todo.map key) lastVerified =
      .ok (todo.map fun s => s.events.map (commitment crypto)) := by
  have hstart : settlements ⟨[], none, [], todo.map key⟩ = [] ++ todo.map key := rfl
  obtain ⟨b, hfold, hfinish⟩ := foldlM_bucketEvent_flatMap crypto hordered hwell hlast hstart (by simp) (by simp)
  rw [bucketEventsBySettlement, hfold, Checked.ok_bind, hfinish]
  rfl

/-! ## Heads of settlements -/

/-- The head after all settlements continues the head after the first ones. -/
theorem settledHead_append (done todo : List Settled) :
    settledHead crypto (done ++ todo) = todo.foldl (settleEvents crypto) (settledHead crypto done) := foldl_append

variable {head : EventStreamHead}

/-- A head counts the events that were settled into it. -/
theorem numEvents_foldl :
    (todo.foldl (settleEvents crypto) head).numEvents = head.numEvents + (todo.flatMap (·.events)).length := by
  induction todo generalizing head with
  | nil => rfl
  | cons _ _ ih =>
    rw [foldl_cons, ih, flatMap_cons, length_append]
    simp only [settleEvents]
    omega

/-- The client computes what the chain does. -/
theorem applyBatch_settled (hs : s.WellFormed) (hle : head.checkpointSeq ≤ s.checkpoint)
    (hcount : head.numEvents + s.events.length < 2 ^ 64) :
    applyBatch crypto head (s.events.map (commitment crypto)) = .ok (settleEvents crypto head s) := by
  have hall : (s.events.map (commitment crypto)).all (fun e => e.checkpointSeq = s.checkpoint) = true := by
    rw [all_eq_true]
    intro c hc
    obtain ⟨e, he, rfl⟩ := mem_map.mp hc
    exact decide_eq_true (hs.2 e he).1
  cases hevents : s.events with
  | nil => exact absurd hevents hs.1
  | cons e =>
    have he : (commitment crypto e).checkpointSeq = s.checkpoint := (hs.2 e (by simp [hevents])).1
    rw [hevents] at hall hcount
    simp only [applyBatch, Checked.bind_ok, Checked.expect_ok, Checked.assert_ok, Word.add_ok]
    refine ⟨commitment crypto e, rfl, (), ?_, (), ?_, _, ⟨?_, rfl⟩, ?_⟩
    · rw [he]
      exact hall
    · rw [he, decide_eq_true hle, Bool.true_or]
    · rw [length_map]
      exact hcount
    · rw [he, length_map, ← hevents]
      rfl

/-- The client computes the head after the settlements. -/
theorem applyStreamUpdates_settled (hordered : todo.Pairwise Settled.Before) (hwell : ∀ s ∈ todo, s.WellFormed)
    (hle : ∀ s ∈ todo, head.checkpointSeq ≤ s.checkpoint)
    (hcount : head.numEvents + (todo.flatMap (·.events)).length < 2 ^ 64) :
    applyStreamUpdates crypto head (todo.map fun s => s.events.map (commitment crypto)) =
      .ok (todo.foldl (settleEvents crypto) head) := by
  induction todo generalizing head with
  | nil => rfl
  | cons s _ ih =>
    obtain ⟨hs, hordered⟩ := pairwise_cons.mp hordered
    rw [flatMap_cons, length_append] at hcount
    rw [applyStreamUpdates, map_cons, foldlM_cons,
      applyBatch_settled (hwell s mem_cons_self) (hle s mem_cons_self) (by omega), Checked.ok_bind, foldl_cons]
    refine ih hordered (fun s' hs' => hwell s' (mem_cons_of_mem _ hs')) ?_ ?_
    · intro s' hs'
      change s.checkpoint ≤ s'.checkpoint
      rcases hs s' hs' with hlt | ⟨heq, -, -⟩ <;> omega
    · change head.numEvents + s.events.length + _ < _
      omega

variable {done : List Settled}

theorem checkpointSeq_settledHead {bound : Nat} (hpos : 0 < bound) (hdone : ∀ s ∈ done, s.checkpoint < bound) :
    (settledHead crypto done).checkpointSeq < bound := by
  rcases eq_nil_or_concat done with rfl | ⟨done, s, rfl⟩
  · exact hpos
  · rw [concat_eq_append] at hdone ⊢
    rw [settledHead_append]
    exact hdone s (by simp)

theorem checkpointSeq_settledHead_append {bound : Nat} (hne : todo ≠ [])
    (htodo : ∀ s, todo.getLast? = some s → s.checkpoint = bound) : (settledHead crypto (done ++ todo)).checkpointSeq = bound := by
  rcases eq_nil_or_concat todo with rfl | ⟨todo, s, rfl⟩
  · exact absurd rfl hne
  · rw [concat_eq_append] at htodo ⊢
    rw [← append_assoc, settledHead_append]
    exact htodo s (by simp)

/-! ## What a page changes -/

variable {flushed rest : List AuthenticatedEvent}

namespace Ledger

/-- The ledger has the events in the order of their checkpoints. -/
theorem pairwise_events : (ledger.eventScan.items).Pairwise fun a b => a.checkpoint ≤ b.checkpoint :=
  pairwise_items ledger.eventScan_key

theorem checkpoint_of_mem_events (he : e ∈ ledger.settlements.flatMap (·.events)) :
    ∃ s ∈ ledger.settlements, e ∈ s.events ∧ e.checkpoint = s.checkpoint := by
  obtain ⟨s, hs, he⟩ := mem_flatMap.mp he
  exact ⟨s, hs, he, ((ledger.wellFormed s hs).2 e he).1⟩

/-- The number of rows of events. -/
def numRows (ledger : Ledger genesis) : Nat := ledger.eventScan.rows.length

end Ledger

/-- The server has sent the events before row `k`, and the stream asks for those from there on. -/
structure Positioned (ledger : Ledger genesis) (state : EventStreamState) (k : Nat) : Prop where
  streamId : state.streamId = ledger.streamId
  streamObjectId : state.streamObjectId = ledger.streamObjectId
  request : RequestAt ledger.eventScan ledger.eventCursor state.nextCheckpoint state.nextCursor k ledger.numRows
  buffer : state.unverifiedBuffer <:+ ledger.eventScan.between 0 k
  idle : state.unverifiedBuffer = [] → ledger.eventScan.between (ledger.eventScan.rowOf state.nextCheckpoint) k = []

/-- The events that the stream still has to yield. -/
def pendingEvents (ledger : Ledger genesis) (state : EventStreamState) (k : Nat) : List AuthenticatedEvent :=
  state.unverifiedBuffer ++ ledger.eventScan.between k ledger.numRows

/-- The events `flushed` are taken from what is pending, and the checkpoints of those that stay come after theirs. -/
structure Received (ledger : Ledger genesis) (state : EventStreamState) (k : Nat) (flushed : List AuthenticatedEvent)
    (received : EventStreamState) (k' : Nat) : Prop where
  position : Positioned ledger received k'
  append : flushed ++ pendingEvents ledger received k' = pendingEvents ledger state k
  before : ∀ f ∈ flushed, ∀ g ∈ pendingEvents ledger received k', f.checkpoint < g.checkpoint
  progress : k < k' ∨ pendingEvents ledger received k' = []
  lastVerified : received.lastVerifiedCheckpoint = state.lastVerifiedCheckpoint
  head : received.verifiedStreamHead = state.verifiedStreamHead

variable {k k' : Nat} {state state' : EventStreamState}

section

variable (h : Positioned ledger state k)

include h

theorem Positioned.le : k ≤ ledger.numRows := h.request.1

theorem Positioned.rowOf_le : ledger.eventScan.rowOf state.nextCheckpoint ≤ k := by
  obtain ⟨-, ⟨-, rfl⟩ | ⟨-, hle⟩⟩ := h.request
  · exact le_rfl
  · exact hle

/-- What is pending are the last events of the ledger. -/
theorem Positioned.pendingEvents_suffix : pendingEvents ledger state k <:+ ledger.eventScan.items := by
  obtain ⟨pre, hpre⟩ := h.buffer
  refine ⟨pre, ?_⟩
  rw [pendingEvents, ← append_assoc, hpre, between_append (Nat.zero_le k) h.le]
  exact between_zero_length

theorem Positioned.pairwise_pendingEvents : (pendingEvents ledger state k).Pairwise fun a b => a.checkpoint ≤ b.checkpoint :=
  ledger.pairwise_events.sublist h.pendingEvents_suffix.sublist

/-- After the last event there is none in a later checkpoint. -/
theorem Positioned.between_rowOf_last {last : AuthenticatedEvent}
    (hlast : (pendingEvents ledger state k).getLast? = some last) :
    saturatingSucc last.checkpoint = last.checkpoint + 1 ∧
      ledger.eventScan.between (ledger.eventScan.rowOf (last.checkpoint + 1)) ledger.numRows = [] := by
  obtain ⟨pre, hpre⟩ := h.pendingEvents_suffix
  have hmem : last ∈ ledger.eventScan.items := h.pendingEvents_suffix.subset (mem_of_getLast? hlast)
  constructor
  · rw [ledger.eventScan_items] at hmem
    obtain ⟨s, hs, -, hcheckpoint⟩ := Ledger.checkpoint_of_mem_events hmem
    have := (ledger.afterGenesis s hs).2
    rw [saturatingSucc]
    omega
  · rw [Ledger.numRows, between_rowOf_length ledger.eventScan_key, filter_eq_nil_iff]
    intro e he
    -- the last event is the last of all events
    have hitems : ledger.eventScan.items.getLast? = some last := by
      rw [← hpre, List.getLast?_append, hlast]
      rfl
    have hle := checkpoint_le_of_getLast ledger.pairwise_events hitems he
    simp only [decide_eq_true_eq]
    omega

/-- An answer to the request of a stream is a page of it, or an error of a call that fails. -/
theorem Positioned.answer (honest : Honest crypto ledger faults server) {r : Except ClientError (Page AuthenticatedEvent)}
    (hr : readAnswer AuthenticatedEvent.tryFrom (server.listEvents client.calls state.request) = r) :
    (∀ e, r = .error e → client.calls ∈ faults ∧ ∃ status, e = .rpcError status ∧ status.code.isRetriable = true) ∧
    ∀ page, r = .ok page → HonestPage ledger.eventScan ledger.eventCursor k ledger.numRows page := by
  subst hr
  have hanswer := honest.listEvents client.calls state.request k h.streamId h.request
  split at hanswer
  · obtain ⟨status, hanswer, hstatus⟩ := hanswer
    rw [hanswer]
    exact ⟨fun e he => ⟨‹_›, status, (Except.error.inj he).symm, hstatus⟩, by rintro _ ⟨⟩⟩
  · obtain ⟨page, hanswer, hpage⟩ := hanswer
    rw [hanswer]
    exact ⟨by rintro _ ⟨⟩, fun page' he => Except.ok.inj he ▸ hpage⟩

/-- What a page from an honest server changes. -/
theorem receive_spec (honest : Honest crypto ledger faults server) {page : Page AuthenticatedEvent}
    (hpage : readAnswer AuthenticatedEvent.tryFrom (server.listEvents client.calls state.request) = .ok page)
    (hreceive : state.receive page = (flushed, state')) : ∃ k', Received ledger state k flushed state' k' := by
  obtain ⟨flushed', rest, hdrain⟩ : ∃ flushed rest, drainCompleteCheckpoints
      (state.unverifiedBuffer ++ page.items) page.scanIncomplete = (flushed, rest) := ⟨_, _, rfl⟩
  rw [receive, hdrain] at hreceive
  dsimp only at hreceive
  obtain ⟨rfl, rfl⟩ := Prod.mk.inj hreceive
  have hpairwise := h.pairwise_pendingEvents
  rcases (h.answer honest hpage).2 _ rfl with ⟨hincomplete, k', hkk', hk', hitems, hcursor⟩ | ⟨hcomplete, hitems⟩
  · -- the scan goes on: the last checkpoint stays in the buffer
    have hpending : pendingEvents ledger state k =
        (state.unverifiedBuffer ++ page.items) ++ ledger.eventScan.between k' ledger.numRows := by
      rw [pendingEvents, hitems, append_assoc, between_append hkk'.le hk']
    rw [hpending] at hpairwise
    obtain ⟨hsorted, -, hcross⟩ := pairwise_append.mp hpairwise
    obtain ⟨happend, hlt, -, hempty⟩ := drainCompleteCheckpoints_spec hsorted hdrain
    have hempty := hempty hincomplete
    rw [if_pos hincomplete, if_pos hincomplete]
    refine ⟨k', ⟨h.streamId, h.streamObjectId, ⟨hk', .inr ⟨hcursor, h.rowOf_le.trans hkk'.le⟩⟩, ?_, ?_⟩, ?_, ?_, .inl hkk', rfl, rfl⟩
    · obtain ⟨pre, hpre⟩ := h.buffer
      refine List.IsSuffix.trans ⟨flushed', happend⟩ ⟨pre, ?_⟩
      rw [← append_assoc, hpre, hitems, between_append (Nat.zero_le k) hkk'.le]
    · intro hrest
      obtain ⟨hbuffer, hnone⟩ := append_eq_nil_iff.mp (hempty hrest)
      rw [← between_append h.rowOf_le hkk'.le, h.idle hbuffer, ← hitems, hnone]
      rfl
    · rw [pendingEvents, ← append_assoc, happend, hpending]
    · intro f hf g hg
      rcases mem_append.mp hg with hrest | hlater
      · exact hlt f hf g hrest
      · cases rest with
        | nil =>
          rw [hempty rfl] at happend
          rw [(append_eq_nil_iff.mp happend).1] at hf
          cases hf
        | cons r =>
          have hfr := hlt f hf r mem_cons_self
          have hrg := hcross r (by rw [← happend]; simp) g hlater
          omega
  · -- the scan is over: everything is taken from the buffer
    have hpending : pendingEvents ledger state k = state.unverifiedBuffer ++ page.items := by rw [pendingEvents, hitems]
    rw [hpending] at hpairwise
    obtain ⟨happend, -, hrest, -⟩ := drainCompleteCheckpoints_spec hpairwise hdrain
    obtain rfl := hrest hcomplete
    rw [append_nil] at happend
    subst happend
    rw [if_neg (by simp [hcomplete]), if_neg (by simp [hcomplete])]
    cases hlast : (state.unverifiedBuffer ++ page.items).getLast? with
    | none =>
      have hnil := List.getLast?_eq_none_iff.mp hlast
      obtain ⟨hbuffer, hnone⟩ := append_eq_nil_iff.mp hnil
      have hafter : ledger.eventScan.between (ledger.eventScan.rowOf state.nextCheckpoint) ledger.numRows = [] := by
        rw [← between_append h.rowOf_le h.le, h.idle hbuffer, ← hitems, hnone]
        rfl
      refine ⟨ledger.eventScan.rowOf state.nextCheckpoint, ⟨h.streamId, h.streamObjectId, ⟨rowOf_le_length _, .inl ⟨rfl, rfl⟩⟩,
        nil_suffix, fun _ => between_self _⟩, ?_, ?_, .inr ?_, rfl, rfl⟩
      · rw [hpending, hnil, pendingEvents, hafter]
        rfl
      · rw [hnil]
        simp
      · rw [pendingEvents, hafter]
        rfl
    | some last =>
      rw [← hpending] at hlast
      obtain ⟨hsucc, hafter⟩ := h.between_rowOf_last hlast
      refine ⟨ledger.eventScan.rowOf (last.checkpoint + 1), ⟨h.streamId, h.streamObjectId, ⟨rowOf_le_length _, .inl ⟨rfl, ?_⟩⟩,
        nil_suffix, ?_⟩, ?_, ?_, .inr ?_, rfl, rfl⟩
      · simp [hsucc]
      · intro _
        simp [hsucc]
      · rw [hpending, pendingEvents, hafter]
        simp
      · intro f _ g hg
        rw [pendingEvents, hafter] at hg
        cases hg
      · rw [pendingEvents, hafter]
        rfl

end

/-! ## What a poll verifies -/

/-- The settlements `done` are verified, and the stream still has to yield the events of those in `todo`. -/
structure VerifiedUpTo (crypto : EventCryptography Sig Agg Merkle Absence) (ledger : Ledger genesis)
    (state : EventStreamState) (pending : List AuthenticatedEvent) (done todo : List Settled) : Prop where
  split : ledger.settlements = done ++ todo
  pending : todo.flatMap (·.events) = pending
  boundary : ∀ a ∈ done, ∀ b ∈ todo, a.checkpoint < b.checkpoint
  head : state.verifiedStreamHead.getD .new = settledHead crypto done
  last : ∀ b ∈ todo, state.lastVerifiedCheckpoint < b.checkpoint

theorem pairwise_checkpoint (hordered : todo.Pairwise Settled.Before) : todo.Pairwise fun a b => a.checkpoint ≤ b.checkpoint :=
  hordered.imp fun h => h.elim Nat.le_of_lt fun h => h.1.le

/-- Choosing events by checkpoint is choosing settlements. -/
theorem filter_flatMap_events (hwell : ∀ s ∈ todo, s.WellFormed) (p : Nat → Bool) :
    (todo.flatMap (·.events)).filter (fun e => p e.checkpoint) = (todo.filter fun s => p s.checkpoint).flatMap (·.events) := by
  induction todo with
  | nil => rfl
  | cons s _ ih =>
    have hs : ∀ e ∈ s.events, e.checkpoint = s.checkpoint := fun e he => ((hwell s mem_cons_self).2 e he).1
    rw [flatMap_cons, filter_append, ih fun s' hs' => hwell s' (mem_cons_of_mem _ hs')]
    by_cases hp : p s.checkpoint
    · rw [filter_cons_of_pos (by simpa using hp), flatMap_cons, filter_eq_self.mpr]
      intro e he
      rw [hs e he]
      exact hp
    · rw [filter_cons_of_neg (by simpa using hp), filter_eq_nil_iff.mpr, nil_append]
      intro e he
      rw [hs e he]
      exact hp

/-- The next settlements: those of the events that are taken from the buffer. -/
theorem VerifiedUpTo.cut (h : VerifiedUpTo crypto ledger state (flushed ++ rest) done todo)
    (hflushed : ∀ f ∈ flushed, ∀ g ∈ rest, f.checkpoint < g.checkpoint)
    (hsorted : (flushed ++ rest).Pairwise fun a b => a.checkpoint ≤ b.checkpoint) {last : AuthenticatedEvent}
    (hlast : flushed.getLast? = some last) :
    ∃ next later, todo = next ++ later ∧ next.flatMap (·.events) = flushed ∧ later.flatMap (·.events) = rest ∧
      (∀ s ∈ next, s.checkpoint ≤ last.checkpoint) ∧ ∀ s ∈ later, last.checkpoint < s.checkpoint := by
  have hordered : todo.Pairwise Settled.Before := (pairwise_append.mp (h.split ▸ ledger.ordered)).2.1
  have hwell : ∀ s ∈ todo, s.WellFormed := by
    intro s hs
    exact ledger.wellFormed s (h.split ▸ mem_append_right _ hs)
  have hmem := mem_of_getLast? hlast
  have hle : ∀ f ∈ flushed, f.checkpoint ≤ last.checkpoint := fun f hf =>
    checkpoint_le_of_getLast (pairwise_append.mp hsorted).1 hlast hf
  have hgt : ∀ g ∈ rest, last.checkpoint < g.checkpoint := hflushed last hmem
  refine ⟨_, _, (filter_append_filter (pairwise_checkpoint hordered) (last.checkpoint + 1)).symm, ?_, ?_, ?_, ?_⟩
  · rw [← filter_flatMap_events hwell fun c => c < last.checkpoint + 1, h.pending, filter_append,
      filter_eq_self.mpr (by simpa [Nat.lt_succ_iff] using hle), filter_eq_nil_iff.mpr (by simpa using hgt), append_nil]
  · rw [← filter_flatMap_events hwell fun c => last.checkpoint + 1 ≤ c, h.pending, filter_append,
      filter_eq_nil_iff.mpr (by simpa using hle), filter_eq_self.mpr (by simpa using hgt), nil_append]
  · intro s hs
    exact Nat.le_of_lt_succ (by simpa using (mem_filter.mp hs).2)
  · intro s hs
    simpa using (mem_filter.mp hs).2

/-- The settlement transactions in the range of checkpoints of the next settlements. -/
theorem between_transactions {next later : List Settled} {lo hi : Nat} (hsplit : ledger.settlements = done ++ (next ++ later))
    (hdone : ∀ s ∈ done, s.checkpoint < lo) (hnext : ∀ s ∈ next, lo ≤ s.checkpoint ∧ s.checkpoint ≤ hi)
    (hlater : ∀ s ∈ later, hi < s.checkpoint) (hle : lo ≤ hi) :
    ledger.transactionScan.between (ledger.transactionScan.rowOf lo) (ledger.transactionScan.rowOf (hi + 1)) =
      next.map key := by
  rw [between_rowOf ledger.transactionScan_key (by omega), ledger.transactionScan_items, filter_map, hsplit,
    filter_append, filter_append]
  rw [filter_eq_nil_iff.mpr, filter_eq_self.mpr, filter_eq_nil_iff.mpr, nil_append, append_nil]
  all_goals
    intro s hs
    have hkey : s.key.1 = s.checkpoint := rfl
    simp only [Function.comp_apply, Bool.and_eq_true, decide_eq_true_eq]
  · have := hlater s hs
    omega
  · have := hnext s hs
    omega
  · have := hdone s hs
    omega

variable {pending : List AuthenticatedEvent}

/-- Pending events are after what was verified. -/
theorem VerifiedUpTo.lastVerifiedCheckpoint_lt (h : VerifiedUpTo crypto ledger state pending done todo) (he : e ∈ pending) :
    state.lastVerifiedCheckpoint < e.checkpoint := by
  rw [← h.pending] at he
  obtain ⟨s, hs, hevent⟩ := mem_flatMap.mp he
  have hwell := ledger.wellFormed s (h.split ▸ mem_append_right _ hs)
  rw [(hwell.2 e hevent).1]
  exact h.last s hs

section Next

variable {flushed rest : List AuthenticatedEvent} {done next later : List Settled} {c : Nat}

section

variable (h : VerifiedUpTo crypto ledger state pending done (next ++ later))

include h

theorem VerifiedUpTo.mem_settlements (hs : s ∈ next) : s ∈ ledger.settlements := by
  rw [h.split]
  exact mem_append_right _ (mem_append_left _ hs)

theorem VerifiedUpTo.ordered : next.Pairwise Settled.Before :=
  (pairwise_append.mp (pairwise_append.mp (h.split ▸ ledger.ordered)).2.1).1

section

variable (hnext : ∀ s ∈ next, s.checkpoint ≤ c)

include hnext

section

variable (hlater : ∀ s ∈ later, c < s.checkpoint) (hs : s ∈ next)

include hlater hs

/-- The head after the next settlements is the one that the client computes. -/
theorem VerifiedUpTo.headAt_eq : ledger.headAt crypto c = next.foldl (settleEvents crypto) (settledHead crypto done) := by
  have hdone : ∀ s' ∈ done, s'.checkpoint ≤ c :=
    fun s' hs' => (h.boundary s' hs' s (mem_append_left _ hs)).le.trans (hnext s hs)
  rw [Ledger.headAt, h.split, filter_append, filter_append, filter_eq_self.mpr (by simpa using hdone),
    filter_eq_self.mpr (by simpa using hnext), filter_eq_nil_iff.mpr (by simpa using hlater), append_nil, settledHead_append]

/-- The head that the client computes is the one of the ledger. -/
theorem VerifiedUpTo.applyStreamUpdates_eq :
    applyStreamUpdates crypto (state.verifiedStreamHead.getD .new) (next.map fun s => s.events.map (commitment crypto)) =
      .ok (ledger.headAt crypto c) := by
  rw [h.head, h.headAt_eq hnext hlater hs]
  refine applyStreamUpdates_settled h.ordered (fun s hs => ledger.wellFormed s (h.mem_settlements hs)) ?_ ?_
  · intro s hs
    have hpos := (ledger.afterGenesis s (h.mem_settlements hs)).1
    exact (checkpointSeq_settledHead hpos fun s' hs' => h.boundary s' hs' s (mem_append_left _ hs)).le
  · have hcount := ledger.numEvents_lt
    rw [h.split, flatMap_append, flatMap_append, length_append, length_append] at hcount
    have hdone : (settledHead crypto done).numEvents = 0 + (done.flatMap (·.events)).length := numEvents_foldl
    omega

/-- The checkpoint of the head is the last one of the next settlements. -/
theorem VerifiedUpTo.checkpointSeq_headAt (hc : s.checkpoint = c) : (ledger.headAt crypto c).checkpointSeq = c := by
  rw [h.headAt_eq hnext hlater hs, ← settledHead_append]
  refine checkpointSeq_settledHead_append (ne_nil_of_mem hs) ?_
  intro last hlast
  have hle := hnext last (mem_of_getLast? hlast)
  have hordered := h.ordered
  obtain ⟨init, rfl⟩ := List.getLast?_eq_some_iff.mp hlast
  rcases mem_append.mp hs with hs | hs
  · rcases (pairwise_append.mp hordered).2.2 s hs last (mem_singleton.mpr rfl) with hlt | ⟨heq, -, -⟩ <;> omega
  · rw [← mem_singleton.mp hs]
    exact hc

/-- The comparisons of the client hold, and the next settlements are verified. -/
theorem VerifiedUpTo.checkHead (hc : s.checkpoint = c) :
    (state.verifiedStreamHead.getD .new).checkpointSeq < (ledger.headAt crypto c).checkpointSeq ∧
      state.checkHead c (ledger.headAt crypto c) (ledger.headAt crypto c) =
        .ok { state with verifiedStreamHead := some (ledger.headAt crypto c), lastVerifiedCheckpoint := c } ∧
      VerifiedUpTo crypto ledger { state with verifiedStreamHead := some (ledger.headAt crypto c), lastVerifiedCheckpoint := c }
        (later.flatMap (·.events)) (done ++ next) later := by
  have hseq := h.checkpointSeq_headAt hnext hlater hs hc
  refine ⟨?_, ?_, ?_⟩
  · rw [hseq, h.head, ← hc]
    exact checkpointSeq_settledHead (ledger.afterGenesis s (h.mem_settlements hs)).1
      fun s' hs' => h.boundary s' hs' s (mem_append_left _ hs)
  · simp [EventStreamState.checkHead, hseq]
  · refine ⟨by rw [h.split, append_assoc], rfl, ?_, ?_, hlater⟩
    · intro a ha b hb
      rcases mem_append.mp ha with ha | ha
      · exact h.boundary a ha b (mem_append_right _ hb)
      · exact (hnext a ha).trans_lt (hlater b hb)
    · rw [settledHead_append, ← h.headAt_eq hnext hlater hs]
      rfl

end


end

end

end Next

/-- A page moves events but does not change what is pending in all. -/
theorem Received.verifiedUpTo (h : Received ledger state k flushed state' k')
    (hverified : VerifiedUpTo crypto ledger state (pendingEvents ledger state k) done todo) :
    VerifiedUpTo crypto ledger state' (flushed ++ pendingEvents ledger state' k') done todo :=
  ⟨hverified.split, hverified.pending.trans h.append.symm, hverified.boundary, h.head ▸ hverified.head,
    h.lastVerified ▸ hverified.last⟩

/-- The fuel is enough for every loop of the client. -/
def EnoughFuel (ledger : Ledger genesis) (fuel : Nat) : Prop :=
  ledger.transactionScan.rows.length < fuel ∧ ledger.currentEpoch < fuel

variable {events : List AuthenticatedEvent}

theorem checkpoint_le_of_head (hsorted : events.Pairwise fun a b => a.checkpoint ≤ b.checkpoint)
    {first : AuthenticatedEvent} (hfirst : events.head? = some first) (he : e ∈ events) : first.checkpoint ≤ e.checkpoint := by
  obtain ⟨_, rfl⟩ := List.head?_eq_some_iff.mp hfirst
  exact hsorted.rel_head_of_rel_head_head he le_rfl

variable {first last : AuthenticatedEvent} {fuel : Nat} (h : Honest crypto ledger faults server) (hfuel : EnoughFuel ledger fuel)
  (hposition : Positioned ledger state k) (hcache : CacheHonest ledger client.epochCache)
  (hverified : VerifiedUpTo crypto ledger state (pendingEvents ledger state k) done todo)

include h hfuel hposition hcache hverified in
/-- Events of whole checkpoints are verified, unless a call fails. -/
theorem Received.verifyEvents (hreceived : Received ledger state k flushed state' k') (hfirst : flushed.head? = some first) (hlast : flushed.getLast? = some last) :
    Ensures (state'.verifyEvents crypto server fuel first last flushed) client
      (fun verified t => CacheHonest ledger t.epochCache ∧ Unfailing faults client t ∧
        (∃ head, verified = { state' with verifiedStreamHead := some head, lastVerifiedCheckpoint := last.checkpoint }) ∧
        ∃ done' todo', VerifiedUpTo crypto ledger verified (pendingEvents ledger state' k') done' todo')
      fun _ t => Failing faults client t := by
  have hid := hreceived.position.streamObjectId
  have hsorted := hreceived.append ▸ hposition.pairwise_pendingEvents
  have hverified := hreceived.verifiedUpTo hverified
  obtain ⟨next, later, rfl, hnext, hlater, hnextLe, hlaterGt⟩ := hverified.cut hreceived.before hsorted hlast
  have hwell : ∀ s ∈ next, s.WellFormed := fun s hs => ledger.wellFormed s (hverified.mem_settlements hs)
  -- the first and the last event are in settlements of their checkpoints
  obtain ⟨s1, hs1, hfirst1⟩ : ∃ s ∈ next, first ∈ s.events := mem_flatMap.mp (hnext ▸ mem_of_head? hfirst)
  obtain ⟨s2, hs2, hlast2⟩ : ∃ s ∈ next, last ∈ s.events := mem_flatMap.mp (hnext ▸ mem_of_getLast? hlast)
  have hfirstCp := ((hwell s1 hs1).2 first hfirst1).1
  have hlastCp := ((hwell s2 hs2).2 last hlast2).1
  have hnextGe : ∀ s ∈ next, first.checkpoint ≤ s.checkpoint := by
    intro s hs
    obtain ⟨e, he⟩ := exists_mem_of_ne_nil _ (hwell s hs).1
    rw [← ((hwell s hs).2 e he).1]
    exact checkpoint_le_of_head (pairwise_append.mp hsorted).1 hfirst (hnext ▸ mem_flatMap.mpr ⟨s, hs, he⟩)
  have hdone : ∀ s ∈ done, s.checkpoint < first.checkpoint := by
    intro s hs
    rw [hfirstCp]
    exact hverified.boundary s hs s1 (mem_append_left _ hs1)
  have hle : first.checkpoint ≤ last.checkpoint := hlastCp ▸ hnextGe s2 hs2
  have hsucc : saturatingSucc last.checkpoint = last.checkpoint + 1 := by
    have := (ledger.afterGenesis s2 (hverified.mem_settlements hs2)).2
    rw [saturatingSucc]
    omega
  obtain ⟨hbackwards, hcheck, hadvance⟩ := hverified.checkHead hnextLe hlaterGt hs2 hlastCp.symm
  have hsettlements : Ensures (fetchSettlements server state'.streamObjectId first.checkpoint (last.checkpoint + 1) fuel [] none) client
      (fun r t => r = next.map key ∧ t.epochCache = client.epochCache ∧ Unfailing faults client t)
      fun _ t => t.epochCache = client.epochCache ∧ Failing faults client t := by
    rw [hid, ← between_transactions hverified.split hdone (fun s hs => ⟨hnextGe s hs, hnextLe s hs⟩) hlaterGt hle]
    refine fetchSettlements_honest h (by omega) rfl ⟨rowOf_mono (by omega), .inl ⟨rfl, rfl⟩⟩ ?_
    have hrow : ledger.transactionScan.rowOf (last.checkpoint + 1) ≤ ledger.transactionScan.rows.length := rowOf_le_length _
    have := hfuel.1
    omega
  rw [EventStreamState.verifyEvents, hsucc, fetchSettlementsForRange]
  refine .bind (hsettlements.mono ?_ (fun _ _ ht => ht.2))
  rintro settlements t ⟨rfl, ht, hcalls⟩
  rw [← hnext]
  refine .bind (.ok (orStop_ok (bucketEventsBySettlement_flatMap hverified.ordered hwell
    fun s hs => hverified.last s (mem_append_left _ hs))) ?_)
  have hmem : last.checkpoint ∈ ledger.settlements.map (·.checkpoint) :=
    mem_map.mpr ⟨s2, hverified.mem_settlements hs2, hlastCp.symm⟩
  refine .bind ((hid ▸ fetchAndVerifyStreamHead_honest h (ht ▸ hcache) hfuel.2).mono ?_ fun _ _ h => hcalls.failing (h.2 hmem))
  rintro head u ⟨hu, hcalls', rfl⟩
  refine .bind (.ok (a := ()) (orStop_ok (Checked.assert_ok.mpr (decide_eq_true hbackwards))) ?_)
  refine .bind (.ok (lift_ok.mpr ⟨hverified.applyStreamUpdates_eq hnextLe hlaterGt hs2, rfl⟩) ?_)
  refine .ok (orStop_ok hcheck) ⟨hu, hcalls.trans hcalls', ⟨_, rfl⟩, done ++ next, later, ?_⟩
  rw [← hlater]
  exact hadvance

/-! ## Polls -/

/-- A verification moves the verified head and nothing else. -/
theorem verifyEvents_state {t : Client} (h : state.verifyEvents crypto server fuel first last events client = .ok state' t) :
    ∃ head c, state' = { state with verifiedStreamHead := some head, lastVerifiedCheckpoint := c } := by
  simp only [verifyEvents, orStop, bind_ok, lift_ok, Checked.mapError_ok] at h
  obtain ⟨_, _, -, _, _, -, head, _, -, _, _, -, _, _, -, hcheck, -⟩ := h
  exact ⟨head, _, (checkHead_ok hcheck).2.2.2⟩

/-- The position does not depend on the verified head. -/
theorem Positioned.verified (h : Positioned ledger state k) (head : EventStreamHead) (c : Nat) :
    Positioned ledger { state with verifiedStreamHead := some head, lastVerifiedCheckpoint := c } k :=
  ⟨h.streamId, h.streamObjectId, h.request, h.buffer, h.idle⟩

/-- What a poll does: the page fails, or events are taken, and yielded unless their verification fails. -/
inductive PollResult (ledger : Ledger genesis) (state : EventStreamState) (k : Nat)
    (result : Except Stop (List AuthenticatedEvent)) (state' : EventStreamState) : Prop
  | failed (status : Status) (hstatus : status.code.isRetriable = true)
      (hresult : result = .error (.error (.rpcError status))) (hstate : state' = state)
  | taken (flushed : List AuthenticatedEvent) (k' : Nat) (hposition : Positioned ledger state' k')
      (happend : flushed ++ pendingEvents ledger state' k' = pendingEvents ledger state k)
      (hresult : result = .ok flushed ∨ ∃ stop, result = .error stop)

variable {result : Except Stop (List AuthenticatedEvent)} {client' : Client}

include h hposition in
/-- The step lemma for every state, verified or not. -/
theorem fetchAndVerifyNextBatch_cases
    (hbatch : state.fetchAndVerifyNextBatch crypto server fuel client = (result, state', client')) :
    PollResult ledger state k result state' := by
  cases fetchAndVerifyNextBatch_case hbatch with
  | failed hpage =>
    obtain ⟨-, status, rfl, hstatus⟩ := (hposition.answer h hpage).1 _ rfl
    exact .failed status hstatus rfl rfl
  | received hpage hreceive hcase =>
    obtain ⟨k', hr⟩ := receive_spec hposition h hpage hreceive
    cases hcase with
    | nothing | unverified => exact .taken _ k' hr.position hr.append (.inl rfl)
    | rejected => exact .taken _ k' hr.position hr.append (.inr ⟨_, rfl⟩)
    | verified _ _ hverify =>
      obtain ⟨head, c, rfl⟩ := verifyEvents_state hverify
      exact .taken _ k' (hr.position.verified head c) hr.append (.inl rfl)

/-- Of the calls of the poll only the first one fails, if any does: the call for the page. -/
def Poll.OnlyPageFails (faults : Finset Nat) (poll : Poll) : Prop := ∀ n ∈ faults, poll.firstCall < n → poll.nextCall ≤ n

/-- What a poll does: the page fails, events are taken, verified and yielded, or they are lost because another call fails. -/
inductive VerifiedPoll (crypto : EventCryptography Sig Agg Merkle Absence) (ledger : Ledger genesis) (faults : Finset Nat)
    (state : EventStreamState) (k : Nat) (client : Client) (result : Except Stop (List AuthenticatedEvent)) (state' : EventStreamState)
    (client' : Client) : Prop
  | failed (status : Status) (hstatus : status.code.isRetriable = true) (hfault : client.calls ∈ faults)
      (hresult : result = .error (.error (.rpcError status))) (hstate : state' = state)
      (hcache : CacheHonest ledger client'.epochCache) (hcalls : client'.calls = client.calls + 1)
  | yielded (flushed : List AuthenticatedEvent) (k' : Nat) (done todo : List Settled) (hresult : result = .ok flushed)
      (hposition : Positioned ledger state' k')
      (happend : flushed ++ pendingEvents ledger state' k' = pendingEvents ledger state k)
      (hprogress : k < k' ∨ pendingEvents ledger state' k' = [])
      (hverified : VerifiedUpTo crypto ledger state' (pendingEvents ledger state' k') done todo)
      (hcache : CacheHonest ledger client'.epochCache) (hcalls : Unfailing faults { client with calls := client.calls + 1 } client')
  | lost (flushed : List AuthenticatedEvent) (k' : Nat) (stop : Stop) (hresult : result = .error stop) (hne : flushed ≠ [])
      (hposition : Positioned ledger state' k')
      (happend : flushed ++ pendingEvents ledger state' k' = pendingEvents ledger state k)
      (hcalls : Failing faults { client with calls := client.calls + 1 } client')

include h hfuel hposition hcache hverified in
/-- The step lemma for a verified stream. -/
theorem fetchAndVerifyNextBatch_verified
    (hbatch : state.fetchAndVerifyNextBatch crypto server fuel client = (result, state', client')) :
    VerifiedPoll crypto ledger faults state k client result state' client' := by
  have hnext : CacheHonest ledger ({ client with calls := client.calls + 1 } : Client).epochCache := hcache
  cases fetchAndVerifyNextBatch_case hbatch with
  | failed hpage =>
    obtain ⟨hfault, status, rfl, hstatus⟩ := (hposition.answer h hpage).1 _ rfl
    exact .failed status hstatus hfault rfl rfl hcache rfl
  | received hpage hreceive hcase =>
    obtain ⟨k', hr⟩ := receive_spec hposition h hpage hreceive
    have hpending := hr.verifiedUpTo hverified
    cases hcase with
    | nothing hnil =>
      rw [hnil] at hpending hr
      exact .yielded [] k' done todo (hnil ▸ rfl) hr.position hr.append hr.progress hpending hcache .refl
    | unverified hlast =>
      have := hpending.lastVerifiedCheckpoint_lt (mem_append_left _ (mem_of_getLast? hlast))
      omega
    | rejected hfirst hlast hverify =>
      have hcalls := (hr.verifyEvents h hfuel hposition hnext hverified hfirst hlast).of_error hverify
      exact .lost _ k' _ rfl (ne_nil_of_mem (mem_of_getLast? hlast)) hr.position hr.append hcalls
    | verified hfirst hlast hverify =>
      obtain ⟨ht, hcalls, ⟨head, rfl⟩, done', todo', hverified'⟩ :=
        (hr.verifyEvents h hfuel hposition hnext hverified hfirst hlast).of_ok hverify
      exact .yielded _ k' done' todo' rfl (hr.position.verified head _) hr.append hr.progress hverified' ht hcalls

/-! ## Runs -/

variable {polls : Nat}

section

variable (hbatch : state.fetchAndVerifyNextBatch crypto server fuel client = (result, state', client'))

include hbatch

theorem mem_streamLoop_first : ⟨client.calls, result, client'.calls⟩ ∈ streamLoop crypto server fuel (polls + 1) state client := by
  simp [streamLoop, hbatch]

/-- A poll whose error can be retried is followed by the other polls. -/
theorem streamLoop_next (hends : ∀ stop, result = .error stop → stop.ends = false) :
    streamLoop crypto server fuel (polls + 1) state client =
      ⟨client.calls, result, client'.calls⟩ :: streamLoop crypto server fuel polls state' client' := by
  cases result with
  | error stop => simp [streamLoop, hbatch, hends stop rfl]
  | ok => simp [streamLoop, hbatch]

end

/-- An error that can be retried does not end the stream. -/
theorem ends_of_isRetriable {status : Status} (hstatus : status.code.isRetriable = true) (stop : Stop)
    (hstop : (.error (.error (.rpcError status)) : Except Stop (List AuthenticatedEvent)) = .error stop) : stop.ends = false := by
  cases hstop
  simp [Stop.ends, ClientError.isTerminal, hstatus]

theorem streamLoop_ends {stop : Stop}
    (hbatch : state.fetchAndVerifyNextBatch crypto server fuel client = (.error stop, state', client')) (hends : stop.ends = true) :
    streamLoop crypto server fuel (polls + 1) state client = [⟨client.calls, .error stop, client'.calls⟩] := by
  simp [streamLoop, hbatch, hends]

/-- More polls keep the polls before. -/
theorem mem_streamLoop_mono {polls' : Nat} (hle : polls ≤ polls') {poll : Poll}
    (hpoll : poll ∈ streamLoop crypto server fuel polls state client) : poll ∈ streamLoop crypto server fuel polls' state client := by
  induction polls generalizing polls' state client with
  | zero => simp [streamLoop] at hpoll
  | succ _ ih =>
    obtain ⟨polls', rfl⟩ : ∃ n, polls' = n + 1 := ⟨polls' - 1, by omega⟩
    rcases hbatch : state.fetchAndVerifyNextBatch crypto server fuel client with ⟨result | result, state', client'⟩
    · cases hends : result.ends with
      | true =>
        rw [streamLoop_ends hbatch hends] at hpoll ⊢
        exact hpoll
      | false =>
        rw [streamLoop_next hbatch (by simp [hends]), mem_cons] at hpoll ⊢
        exact hpoll.imp_right (ih (by omega))
    · rw [streamLoop_next hbatch (by simp), mem_cons] at hpoll ⊢
      exact hpoll.imp_right (ih (by omega))

theorem yielded_cons (poll : Poll) (polls : List Poll) : yielded (poll :: polls) = poll.events ++ yielded polls := flatMap_cons

theorem events_error {stop : Stop} {n m : Nat} : Poll.events ⟨n, .error stop, m⟩ = [] := rfl

variable (client) in
include h hposition in
/-- The run lemma for every state: the stream yields at most what is pending. -/
theorem length_yielded_le :
    (yielded (streamLoop crypto server fuel polls state client)).length ≤ (pendingEvents ledger state k).length := by
  induction polls generalizing state client k with
  | zero => simp [streamLoop, yielded]
  | succ _ ih =>
    rcases hbatch : state.fetchAndVerifyNextBatch crypto server fuel client with ⟨result, state', client'⟩
    cases fetchAndVerifyNextBatch_cases h hposition hbatch with
    | failed _ hstatus hresult hstate =>
      subst hresult hstate
      rw [streamLoop_next hbatch (ends_of_isRetriable hstatus), yielded_cons, events_error]
      exact ih client' hposition
    | taken flushed _ hposition' happend hresult =>
      have hle := ih client' hposition'
      rw [← happend, length_append]
      rcases hresult with rfl | ⟨stop, rfl⟩
      · rw [streamLoop_next hbatch (by simp), yielded_cons, length_append]
        exact Nat.add_le_add_left hle flushed.length
      · cases hends : stop.ends with
        | true => simp [streamLoop_ends hbatch hends, yielded, events_error]
        | false =>
          rw [streamLoop_next hbatch (by simp [hends]), yielded_cons, events_error]
          exact le_add_left hle

variable (polls) in
include h hfuel hposition hcache hverified in
/-- The run lemma for a call of a verification that fails: the stream yields less than what is pending. -/
theorem length_yielded_lt (hfails : ∃ poll ∈ streamLoop crypto server fuel polls state client, ¬ poll.OnlyPageFails faults) :
    (yielded (streamLoop crypto server fuel polls state client)).length < (pendingEvents ledger state k).length := by
  induction polls generalizing state client k done todo with
  | zero => simp [streamLoop] at hfails
  | succ _ ih =>
    rcases hbatch : state.fetchAndVerifyNextBatch crypto server fuel client with ⟨result, state', client'⟩
    cases fetchAndVerifyNextBatch_verified h hfuel hposition hcache hverified hbatch with
    | failed _ hstatus _ hresult hstate hcache' hcalls =>
      subst hresult hstate
      rw [streamLoop_next hbatch (ends_of_isRetriable hstatus)] at hfails ⊢
      rw [yielded_cons, events_error]
      obtain ⟨poll, hpoll, hfails⟩ := hfails
      rcases mem_cons.mp hpoll with rfl | hpoll
      · exact absurd (fun _ _ hlt => hcalls ▸ hlt) hfails
      · exact ih hposition hcache' hverified ⟨poll, hpoll, hfails⟩
    | yielded flushed _ _ _ hresult hposition' happend _ hverified' hcache' hcalls =>
      subst hresult
      rw [streamLoop_next hbatch (by simp)] at hfails ⊢
      rw [yielded_cons, ← happend, length_append, length_append]
      obtain ⟨poll, hpoll, hfails⟩ := hfails
      rcases mem_cons.mp hpoll with rfl | hpoll
      · exact absurd hcalls.2 hfails
      · exact Nat.add_lt_add_left (ih hposition' hcache' hverified' ⟨poll, hpoll, hfails⟩) flushed.length
    | lost flushed _ stop hresult hne hposition' happend =>
      subst hresult
      have hpos := length_pos_of_ne_nil hne
      rw [← happend, length_append]
      cases hends : stop.ends with
      | true =>
        simp only [streamLoop_ends hbatch hends, yielded, events_error, flatMap_cons, flatMap_nil, append_nil, length_nil]
        omega
      | false =>
        rw [streamLoop_next hbatch (by simp [hends]), yielded_cons, events_error, nil_append]
        exact (length_yielded_le client' h hposition').trans_lt (Nat.lt_add_of_pos_left hpos)

/-- How many polls the stream needs at most: rows that are left, calls that can fail, and one. -/
def pollsLeft (ledger : Ledger genesis) (faults : Finset Nat) (state : EventStreamState) (client : Client) (k : Nat) : Nat :=
  if pendingEvents ledger state k = [] then 0
  else (ledger.numRows - k) + (faults.filter fun n => client.calls ≤ n).card + 1

variable (faults) in
theorem card_faults_le {calls calls' : Nat} (hle : calls ≤ calls') :
    (faults.filter fun n => calls' ≤ n).card ≤ (faults.filter fun n => calls ≤ n).card :=
  Finset.card_le_card (Finset.monotone_filter_right _ fun _ _ hn => le_trans hle hn)

/-- A failed call uses up a fault. -/
theorem card_faults_lt {calls calls' : Nat} (hlt : calls < calls') (hmem : calls ∈ faults) :
    (faults.filter fun n => calls' ≤ n).card < (faults.filter fun n => calls ≤ n).card := by
  refine Finset.card_lt_card ⟨Finset.monotone_filter_right _ fun _ _ hn => le_trans hlt.le hn, fun hsubset => ?_⟩
  have := (Finset.mem_filter.mp (hsubset (Finset.mem_filter.mpr ⟨hmem, le_rfl⟩))).2
  omega

include h hfuel hposition hcache hverified in
/-- The run lemma where only calls for pages fail: no verification fails, and enough polls yield everything that was pending. -/
theorem yielded_eq_pending (hpages : ∀ poll ∈ streamLoop crypto server fuel polls state client, poll.OnlyPageFails faults) :
    (∀ poll ∈ streamLoop crypto server fuel polls state client, ∀ failure,
      poll.result ≠ .error (.error (.verificationError failure))) ∧
      (pollsLeft ledger faults state client k ≤ polls →
        yielded (streamLoop crypto server fuel polls state client) = pendingEvents ledger state k) := by
  induction polls generalizing state client k done todo with
  | zero =>
    refine ⟨by simp [streamLoop], ?_⟩
    intro hle
    rw [pollsLeft] at hle
    split_ifs at hle with hnil
    · rw [hnil]
      rfl
    · omega
  | succ _ ih =>
    rcases hbatch : state.fetchAndVerifyNextBatch crypto server fuel client with ⟨result, state', client'⟩
    have hfirst : Poll.OnlyPageFails faults ⟨client.calls, result, client'.calls⟩ := hpages _ (mem_streamLoop_first hbatch)
    cases fetchAndVerifyNextBatch_verified h hfuel hposition hcache hverified hbatch with
    | failed _ hstatus hfault hresult hstate hcache' hcalls =>
      subst hresult hstate
      rw [streamLoop_next hbatch (ends_of_isRetriable hstatus)] at hpages ⊢
      obtain ⟨hno, hall⟩ := ih hposition hcache' hverified fun poll hpoll => hpages poll (mem_cons_of_mem _ hpoll)
      refine ⟨forall_mem_cons.mpr ⟨by simp, hno⟩, ?_⟩
      intro hle
      rw [yielded_cons, hall ?_, events_error, nil_append]
      have := card_faults_lt (hcalls ▸ Nat.lt_succ_self client.calls : client.calls < client'.calls) hfault
      unfold pollsLeft at hle ⊢
      split_ifs at hle ⊢ <;> omega
    | yielded flushed k' _ _ hresult hposition' happend hprogress hverified' hcache' hcalls =>
      subst hresult
      rw [streamLoop_next hbatch (by simp)] at hpages ⊢
      obtain ⟨hno, hall⟩ := ih hposition' hcache' hverified' fun poll hpoll => hpages poll (mem_cons_of_mem _ hpoll)
      refine ⟨forall_mem_cons.mpr ⟨by simp, hno⟩, ?_⟩
      intro hle
      rw [yielded_cons, hall ?_]
      · exact happend
      · have := card_faults_le faults ((Nat.le_succ client.calls).trans hcalls.1)
        have hrows := hposition'.le
        unfold pollsLeft at hle ⊢
        split_ifs with hne
        · omega
        · have hpending : pendingEvents ledger state k ≠ [] := by
            intro hnil
            rw [hnil] at happend
            exact hne (append_eq_nil_iff.mp happend).2
          rw [if_neg hpending] at hle
          have hk := hprogress.resolve_right hne
          omega
    | lost _ _ _ _ _ _ _ hcalls =>
      obtain ⟨n, hn, hle, hlt⟩ := hcalls
      exact absurd (hfirst n hn hle) (Nat.not_le.mpr hlt)

/-! ## Opening a stream -/

/-- A stream that starts at a checkpoint, with the head as of the one before it. -/
inductive Opened (crypto : EventCryptography Sig Agg Merkle Absence) (ledger : Ledger genesis) (pageSize : Nat) :
    EventStreamState → Prop
  | atGenesis : Opened crypto ledger pageSize (.new ledger.streamId ledger.streamObjectId 0 none pageSize)
  | after (checkpoint : Nat) : Opened crypto ledger pageSize
      (.new ledger.streamId ledger.streamObjectId (checkpoint + 1) (some (ledger.headAt crypto checkpoint)) pageSize)

include h hfuel hcache in
/-- A stream is opened with the head of the ledger before its start. -/
theorem openStream_honest (pageSize : Nat) (start : Option Nat) :
    Ensures (openStream crypto server fuel pageSize ledger.streamId start) client
      (fun state t => Opened crypto ledger pageSize state ∧ CacheHonest ledger t.epochCache) fun _ _ => True := by
  have hid : orStop ((crypto.deriveEventStreamHeadObjectId ledger.streamId).mapError .internalError) client =
      .ok ledger.streamObjectId client := orStop_ok (Checked.mapError_ok.mpr h.derive)
  cases start with
  | none =>
    refine .bind (.ok hid (.bind (.bind (.ok call_of_eq ?_))))
    cases server.getObject client.calls ledger.streamObjectId with
    | error =>
      dsimp only
      split
      · exact .pure ⟨.atGenesis, hcache⟩
      · exact .throw trivial
    | ok =>
      refine .bind (orStop_ensures ?_ fun _ => trivial)
      intro object _
      refine .bind (orStop_ensures ?_ fun _ => trivial)
      intro head _
      have hnext : CacheHonest ledger ({ client with calls := client.calls + 1 } : Client).epochCache := hcache
      refine .bind ((fetchAndVerifyStreamHead_honest h hnext hfuel.2).mono ?_ fun _ _ _ => trivial)
      rintro _ t ⟨ht, -, rfl⟩
      refine .pure (.bind (.lift ?_ fun _ _ => trivial))
      intro c hc
      rw [← (Word.add_ok.mp hc).2]
      exact ⟨.after head.checkpointSeq, ht⟩
  | some lastVerifiedCheckpoint =>
    refine .bind (.ok hid ?_)
    split
    · exact .pure ⟨.atGenesis, hcache⟩
    · refine .bind ((fetchAndVerifyStreamHead_honest h hcache hfuel.2).mono ?_ fun _ _ _ => trivial)
      rintro _ t ⟨ht, -, rfl⟩
      refine .bind (.lift ?_ fun _ _ => trivial)
      intro c hc
      rw [← (Word.add_ok.mp hc).2]
      exact ⟨.after lastVerifiedCheckpoint, ht⟩

namespace Opened

variable {pageSize : Nat}

section

variable (ho : Opened crypto ledger pageSize state)

include ho

theorem positioned : Positioned ledger state (ledger.eventScan.rowOf state.nextCheckpoint) := by
  cases ho <;> exact ⟨rfl, rfl, ⟨rowOf_le_length _, .inl ⟨rfl, rfl⟩⟩, nil_suffix, fun _ => between_self _⟩

/-- What the stream has to yield at its start is every event from its first checkpoint on. -/
theorem pendingEvents_eq :
    pendingEvents ledger state (ledger.eventScan.rowOf state.nextCheckpoint) = ledger.eventsFrom state.nextCheckpoint := by
  have hbuffer : state.unverifiedBuffer = [] := by cases ho <;> rfl
  rw [pendingEvents, hbuffer, nil_append, Ledger.eventsFrom, ← ledger.eventScan_items]
  exact between_rowOf_length ledger.eventScan_key _

theorem verifiedUpTo : ∃ done todo, VerifiedUpTo crypto ledger state (ledger.eventsFrom state.nextCheckpoint) done todo := by
  cases ho with
  | atGenesis =>
    refine ⟨[], ledger.settlements, rfl, ?_, by simp, rfl, fun s hs => (ledger.afterGenesis s hs).1⟩
    rw [Ledger.eventsFrom]
    exact (filter_eq_self.mpr (by simp [new])).symm
  | after c =>
    have hlater : ∀ b ∈ ledger.settlements.filter fun s => c + 1 ≤ s.checkpoint, c < b.checkpoint := fun b hb => by
      simpa using (mem_filter.mp hb).2
    refine ⟨_, _, (filter_append_filter (pairwise_checkpoint ledger.ordered) (c + 1)).symm, ?_, ?_, ?_, hlater⟩
    · exact (filter_flatMap_events ledger.wellFormed fun checkpoint => c + 1 ≤ checkpoint).symm
    · intro a ha b hb
      have hlt : a.checkpoint < c + 1 := by simpa using (mem_filter.mp ha).2
      exact hlt.trans_le (hlater b hb)
    · simp only [Nat.lt_succ_iff]
      rfl

end

end Opened

end Sui.LightClient

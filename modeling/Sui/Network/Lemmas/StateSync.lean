import Sui.Network.Lemmas.CheckpointVerification

/-!
# The invariant of a node that syncs

The task asks for the numbers after the checkpoint that it verified last, and an answered request has a summary with the
requested number. Every event keeps this, and it says what is known of each checkpoint that a run inserts.
-/

namespace Sui.StateSync

open Library Checked Sui.Types

variable {Sig Agg : Type} {crypto : Cryptography Sig Agg} {config : Config}

/-- An answered request has a summary with the requested number and the property `P`, and a fetched one does not differ from a
pinned digest. -/
def Request.Answers (crypto : Cryptography Sig Agg) (config : Config) (P : Checkpoint Agg → Prop) (n : Nat) : Request Agg → Prop
  | .answered (some checkpoint) maybePeerId =>
    checkpoint.sequenceNumber = n ∧ P checkpoint ∧ (maybePeerId.isSome → mismatchesPinned crypto config checkpoint = false)
  | .answered none _ => True
  | .fetching => True

/-- The task asks for the numbers after its last checkpoint, which, if nothing else raises it, is the highest verified one. -/
structure TaskInvariant (crypto : Cryptography Sig Agg) (config : Config) (P : Checkpoint Agg → Prop) (Q : Prop)
    (store : Store Agg) (task : SyncTask Agg) : Prop where
  current : Q → task.current = store.highestVerified
  next : task.next = task.current.sequenceNumber + 1
  target : task.targetSequenceNumber < 2 ^ 64
  requests : ∀ (n : Nat) (request : Request Agg), task.requests[n]? = some request →
    n ≤ task.targetSequenceNumber ∧ request.Answers crypto config P n

/-- The invariant of a node that syncs, for a property `P` of all summaries that it keeps. -/
structure Invariant (crypto : Cryptography Sig Agg) (config : Config) (P : Checkpoint Agg → Prop) (Q : Prop) (s : State Agg) :
    Prop where
  cache : Consistent crypto P s.peerHeights
  task : ∀ task, s.syncTask = some task → TaskInvariant crypto config P Q s.store task

/-- The summaries of an event that get into the cache have the property `P`. -/
def Event.Delivers (crypto : Cryptography Sig Agg) (config : Config) (P : Checkpoint Agg → Prop) : Event Agg → Prop
  | .push _ checkpoint => P checkpoint
  | .latest _ checkpoint _ => P checkpoint
  | .response _ _ (some checkpoint) => mismatchesPinned crypto config checkpoint = false → P checkpoint
  | _ => True

/-- A checkpoint of the archive or of consensus is not above the highest verified one while a task runs. -/
def Event.Quiet (s : State Agg) : Event Agg → Prop
  | .archive checkpoint => s.syncTask = none ∨ checkpoint.sequenceNumber ≤ s.store.highestVerified.sequenceNumber
  | .consensus checkpoint => s.syncTask = none ∨ checkpoint.sequenceNumber ≤ s.store.highestVerified.sequenceNumber
  | _ => True

/-- What is known of a checkpoint that is inserted. -/
structure Insertion.Accepted (crypto : Cryptography Sig Agg) (config : Config) (P : Checkpoint Agg → Prop) (Q : Prop)
    (i : Insertion Agg) : Prop where
  current : Q → i.current = i.store.highestVerified
  next : i.checkpoint.sequenceNumber = i.current.sequenceNumber + 1
  property : P i.checkpoint
  fetched : i.maybePeerId.isSome → mismatchesPinned crypto config i.checkpoint = false
  verified : (config.pinnedDigestIndex i.checkpoint.sequenceNumber).isSome ∨ Verified crypto i.store i.current i.checkpoint

variable {P : Checkpoint Agg → Prop} {Q : Prop} {s s' : State Agg}

theorem Event.delivers_of_forall (hP : ∀ checkpoint, P checkpoint) (event : Event Agg) : event.Delivers crypto config P := by
  unfold Event.Delivers
  split
  · exact hP _
  · exact hP _
  · exact fun _ => hP _
  · trivial

theorem Invariant.init (store : Store Agg) : Invariant crypto config P Q (.init store) :=
  ⟨.empty, nofun⟩

/-- A change of the cache leaves the task as it is. -/
theorem Invariant.withPeerHeights (h : Invariant crypto config P Q s) {heights : PeerHeights Agg}
    (hheights : Consistent crypto P heights) : Invariant crypto config P Q { s with peerHeights := heights } :=
  ⟨hheights, h.task⟩

/-- A change of the store that keeps the highest verified checkpoint keeps the invariant. -/
theorem Invariant.withStore (h : Invariant crypto config P Q s) {store : Store Agg}
    (hstore : Q → s.syncTask = none ∨ store.highestVerified = s.store.highestVerified) :
    Invariant crypto config P Q { s with store := store } := by
  refine ⟨h.cache, ?_⟩
  intro task htask
  have hok := h.task task htask
  refine ⟨?_, hok.next, hok.target, hok.requests⟩
  intro hquiet
  rcases hstore hquiet with hnone | hsame
  · exact absurd (hnone.symm.trans htask) nofun
  · exact (hok.current hquiet).trans hsame.symm

variable {task : SyncTask Agg} {store : Store Agg}

theorem Invariant.withRequest (h : Invariant crypto config P Q s) (htask : s.syncTask = some task) {next : Nat}
    {request : Request Agg} (hle : next ≤ task.targetSequenceNumber) (hrequest : request.Answers crypto config P next)
    {heights : PeerHeights Agg} (hheights : Consistent crypto P heights) :
    Invariant crypto config P Q
      { s with peerHeights := heights, syncTask := some { task with requests := task.requests.insert next request } } := by
  refine ⟨hheights, ?_⟩
  intro task' htask'
  obtain rfl := Option.some.inj htask'
  have hok := h.task task htask
  exact ⟨hok.current, hok.next, hok.target, BTreeMap.forall_insert hok.requests ⟨hle, hrequest⟩⟩

variable {checkpoint : Checkpoint Agg}

section

variable (h : Invariant crypto config P Q s)

include h

theorem Invariant.push {peerId : PeerId} (hP : P checkpoint) :
    Invariant crypto config P Q (pushCheckpointSummary crypto config s peerId checkpoint) := by
  have hheight := h.cache.updatePeerHeight peerId checkpoint.sequenceNumber none
  unfold pushCheckpointSummary
  split
  · rename_i heights heq
    rw [heq] at hheight
    exact h.withPeerHeights hheight
  · rename_i heights heq
    rw [heq] at hheight
    split
    · exact h.withPeerHeights (hheight.insertCheckpoint hP)
    · exact h.withPeerHeights hheight

theorem Invariant.startSync : Invariant crypto config P Q (maybeStartCheckpointSummarySyncTask config s) := by
  unfold maybeStartCheckpointSummarySyncTask
  split
  · dsimp only
    split
    · refine ⟨h.cache, ?_⟩
      intro task htask
      obtain rfl := Option.some.inj htask
      refine ⟨fun _ => rfl, rfl, ?_, ?_⟩
      · dsimp only [saturatingAdd]
        omega
      · intro n request hrequest
        exact absurd hrequest (by simp)
    · exact h
  · exact h

theorem Invariant.poll (next : Nat) : Invariant crypto config P Q (pollRequest config s next) := by
  unfold pollRequest
  split
  swap
  · exact h
  rename_i task htask
  split
  swap
  · exact h
  rename_i hwindow
  refine h.withRequest htask hwindow.2.2.1 ?_ h.cache
  split
  · rename_i checkpoint hget
    exact ⟨(h.cache.get hget).1, (h.cache.get hget).2, nofun⟩
  · trivial

theorem Invariant.response {next : Nat} {peerId : PeerId} {response : Option (Checkpoint Agg)}
    (hP : ∀ checkpoint, response = some checkpoint → mismatchesPinned crypto config checkpoint = false → P checkpoint) :
    Invariant crypto config P Q (peerResponse crypto config s next peerId response) := by
  unfold peerResponse
  split
  swap
  · exact h
  rename_i task htask
  split
  swap
  · exact h
  rename_i checkpoint hfetching
  split_ifs with hgood
  · exact h.withPeerHeights (h.cache.of_cache_eq rfl rfl)
  · simp only [not_or, not_not, Bool.not_eq_true] at hgood
    have hPc := hP checkpoint rfl hgood.2
    refine h.withRequest htask ((h.task task htask).requests next _ hfetching).1 ?_ (h.cache.insertCheckpoint hPc)
    exact ⟨hgood.1, hPc, fun _ => hgood.2⟩

theorem Invariant.noPeerLeft (next : Nat) : Invariant crypto config P Q (noPeerLeft s next) := by
  unfold StateSync.noPeerLeft
  split
  swap
  · exact h
  rename_i task htask
  split
  · rename_i hfetching
    refine h.withRequest htask ((h.task task htask).requests next _ hfetching).1 ?_ h.cache
    trivial
  · exact h

theorem Invariant.finishSync : Invariant crypto config P Q (finishSync s) := by
  unfold StateSync.finishSync
  split
  swap
  · exact h
  split
  · exact ⟨h.cache.cleanupOldCheckpoints _, nofun⟩
  · exact h

end

/-- The answer that the loop takes next is a summary with the number after the highest verified checkpoint. -/
theorem TaskInvariant.answer (h : TaskInvariant crypto config P Q store task) {maybePeerId : Option PeerId}
    (hanswer : task.requests[task.next]? = some (.answered (some checkpoint) maybePeerId)) :
    checkpoint.sequenceNumber = task.current.sequenceNumber + 1 ∧ checkpoint.sequenceNumber < 2 ^ 64 ∧ P checkpoint ∧
      (maybePeerId.isSome → mismatchesPinned crypto config checkpoint = false) := by
  obtain ⟨hle, hseq, hP, hfetched⟩ := h.requests _ _ hanswer
  have htarget := h.target
  exact ⟨hseq.trans h.next, by omega, hP, hfetched⟩

theorem Invariant.takeAnswer (h : Invariant crypto config P Q s) (htask : s.syncTask = some task)
    {maybeCheckpoint : Option (Checkpoint Agg)} {maybePeerId : Option PeerId}
    (hanswer : task.requests[task.next]? = some (.answered maybeCheckpoint maybePeerId)) {inserted : Option (Insertion Agg)}
    (hstep : takeAnswer crypto config s task maybeCheckpoint maybePeerId = .ok (s', inserted)) :
    Invariant crypto config P Q s' ∧ ∀ i, inserted = some i → i.Accepted crypto config P Q := by
  have hinv := h.task task htask
  simp only [StateSync.takeAnswer, bind_ok] at hstep
  obtain ⟨_, _, _, _, hstep⟩ := hstep
  split at hstep
  · cases hstep
    exact ⟨⟨h.cache, nofun⟩, nofun⟩
  rename_i checkpoint
  obtain ⟨hnext, hlt, hP, hfetched⟩ := hinv.answer hanswer
  simp only [bind_ok] at hstep
  obtain ⟨stage, hstage, hstep⟩ := hstep
  rcases verificationStage_ok hnext hlt hstage with ⟨store', hinsert, rfl, hverified⟩ | rfl
  · cases hstep
    refine ⟨⟨h.cache, ?_⟩, ?_⟩
    · intro task' htask'
      obtain rfl := Option.some.inj htask'
      refine ⟨?_, ?_, hinv.target, BTreeMap.forall_erase hinv.requests _⟩
      · intro hquiet
        have hlt : s.store.highestVerified.sequenceNumber < checkpoint.sequenceNumber := by
          rw [← hinv.current hquiet]
          omega
        exact ((insertCheckpoint_ok hinsert).1.trans (if_pos hlt)).symm
      · have := hinv.next
        dsimp only
        omega
    · intro i hi
      obtain rfl := Option.some.inj hi
      exact ⟨hinv.current, hnext, hP, hfetched, hverified⟩
  · cases hstep
    refine ⟨⟨?_, nofun⟩, nofun⟩
    cases maybePeerId with
    | none => exact h.cache.removeCheckpoint _
    | some => exact (h.cache.removeCheckpoint _).of_cache_eq rfl rfl

/-- Every event keeps the invariant, and what it inserts is accepted. -/
theorem Invariant.step (h : Invariant crypto config P Q s) {event : Event Agg} (hP : event.Delivers crypto config P)
    (hevent : Q → event.Quiet s) {inserted : Option (Insertion Agg)} (hstep : step crypto config s event = .ok (s', inserted)) :
    Invariant crypto config P Q s' ∧ ∀ i, inserted = some i → i.Accepted crypto config P Q := by
  cases event with
  | push =>
    cases hstep
    exact ⟨h.push hP, nofun⟩
  | latest =>
    cases hstep
    exact ⟨h.withPeerHeights (h.cache.updatePeerInfo hP), nofun⟩
  | genesis =>
    cases hstep
    exact ⟨h.withPeerHeights h.cache.insertPeerInfo, nofun⟩
  | lostPeer =>
    cases hstep
    exact ⟨h.withPeerHeights (h.cache.of_cache_eq rfl rfl), nofun⟩
  | startSync =>
    cases hstep
    exact ⟨h.startSync, nofun⟩
  | poll next =>
    cases hstep
    exact ⟨h.poll next, nofun⟩
  | response =>
    cases hstep
    refine ⟨h.response ?_, nofun⟩
    rintro checkpoint rfl
    exact hP
  | noPeerLeft next =>
    cases hstep
    exact ⟨h.noPeerLeft next, nofun⟩
  | finishSync =>
    cases hstep
    exact ⟨h.finishSync, nofun⟩
  | archive =>
    simp only [StateSync.step, bind_ok, pure_ok] at hstep
    obtain ⟨store, harchive, hstep⟩ := hstep
    cases hstep
    exact ⟨h.withStore fun hquiet => (hevent hquiet).imp_right (highestVerified_archive harchive), nofun⟩
  | consensus =>
    simp only [StateSync.step, bind_ok, pure_ok] at hstep
    obtain ⟨store, hconsensus, hstep⟩ := hstep
    cases hstep
    exact ⟨h.withStore fun hquiet => (hevent hquiet).imp_right (highestVerified_consensus hconsensus), nofun⟩
  | certified =>
    simp only [StateSync.step, bind_ok, pure_ok, insertCertifiedCheckpoint_ok] at hstep
    obtain ⟨store, ⟨-, rfl⟩, hstep⟩ := hstep
    cases hstep
    exact ⟨h.withStore fun _ => .inr rfl, nofun⟩
  | computed =>
    cases hstep
    exact ⟨h.withStore fun _ => .inr rfl, nofun⟩
  | verifyNext =>
    simp only [StateSync.step] at hstep
    split at hstep
    swap
    · cases hstep
      exact ⟨h, nofun⟩
    rename_i task htask
    split at hstep
    · rename_i hanswer
      exact h.takeAnswer htask hanswer hstep
    · cases hstep
      exact ⟨h, nofun⟩

/-- Every event of a run is Q in the state before it. -/
def QuietRun (crypto : Cryptography Sig Agg) (config : Config) (store : Store Agg) (events : List (Event Agg)) : Prop :=
  ∀ pre event post, events = pre ++ event :: post → ∀ s insertions, run crypto config (.init store) pre = .ok (s, insertions) →
    event.Quiet s

/-- The invariant holds after every run, and everything that the run inserts is accepted. -/
theorem run_invariant {events : List (Event Agg)} {insertions : List (Insertion Agg)}
    (hP : ∀ event ∈ events, event.Delivers crypto config P) (hquiet : Q → QuietRun crypto config store events)
    (h : run crypto config (.init store) events = .ok (s, insertions)) :
    Invariant crypto config P Q s ∧ ∀ i ∈ insertions, i.Accepted crypto config P Q := by
  refine (foldlM_invariant (fun pre acc => run crypto config (.init store) pre = .ok acc ∧ Invariant crypto config P Q acc.1 ∧
    ∀ i ∈ acc.2, i.Accepted crypto config P Q) h ⟨rfl, .init store, nofun⟩ ?_).2
  rintro pre event post acc acc' hevents ⟨hpre, hacc⟩ hstep
  refine ⟨?_, ?_⟩
  · rw [run, List.foldlM_append, ← run, hpre, ok_bind, List.foldlM_cons, hstep, ok_bind, List.foldlM_nil, pure_eq_ok]
  simp only [bind_ok, pure_ok, Prod.exists] at hstep
  obtain ⟨s1, inserted, hstep, rfl⟩ := hstep
  obtain ⟨hinv, hinserted⟩ :=
    hacc.1.step (hP event (by simp [hevents])) (fun hq => hquiet hq pre event post hevents _ _ hpre) hstep
  refine ⟨hinv, ?_⟩
  intro i hi
  rcases List.mem_append.mp hi with hi | hi
  · exact hacc.2 i hi
  · exact hinserted i (Option.mem_toList.mp hi)

end Sui.StateSync

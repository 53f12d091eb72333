import Sui.LightClient.EventStream
import Sui.LightClient.Lemmas.Proof

/-!
# What the client has verified

Whatever the server answers, every committee in the cache is reached from the genesis committee, and an accepted head comes with
a summary that such a committee has certified. Events that are folded into a head are the last that were added to it.
-/

namespace Sui.LightClient

open Library Settlement Effects List AuthenticatedEvent MountainRange EventStreamState
open Types.CertifiedCheckpointSummary GetCheckpointObjectProofResponse

/-! ## Committees -/

variable {committee : Types.EpochCommittee} {checkpoint fuel : Nat}

section Committees

variable {Sig Agg Merkle Absence : Type} {crypto : Cryptography Sig Agg Merkle Absence}
  {server : Server Agg Merkle} {genesis : Types.EpochCommittee} {client : Client}

/-- The summary is of the epoch of the committee, and a quorum has signed it. -/
def CertifiedBy (crypto : Cryptography Sig Agg Merkle Absence) (committee : Types.EpochCommittee)
    (summary : Types.CertifiedCheckpointSummary Agg) : Prop :=
  summary.epoch = committee.epoch ∧ ∃ signers, Types.Certifies crypto.scheme true committee summary.data summary.authSig signers

/-- The committee is reached from the genesis committee: each committee has certified a checkpoint that names the next. -/
inductive Reached (crypto : Cryptography Sig Agg Merkle Absence) (genesis : Types.EpochCommittee) : Types.EpochCommittee → Prop
  | genesis : Reached crypto genesis genesis
  | next {committee next : Types.EpochCommittee} {summary : Types.CertifiedCheckpointSummary Agg} : Reached crypto genesis committee →
      CertifiedBy crypto committee summary → NamesCommittee summary.data next → Reached crypto genesis next

variable (crypto genesis) in
/-- Every committee in the cache is reached. -/
structure CacheReached (cache : EpochCache) : Prop where
  current : Reached crypto genesis cache.currentCommittee
  completed : ∀ range ∈ cache.completedCommittees, Reached crypto genesis range.2.2

theorem CacheReached.new : CacheReached crypto genesis (.new genesis) := ⟨.genesis, by simp [EpochCache.new]⟩

section

variable {α : Type} {answer : Nat → Except Status α} {stop : Stop → Client → Prop}

theorem call_ensures {post : Except Status α → Client → Prop}
    (h : post (answer client.calls) { client with calls := client.calls + 1 }) : Ensures (call answer) client post stop := h

variable {post : α → Client → Prop}

theorem orStop_ensures {x : Except ClientError α} (hok : ∀ a, x = .ok a → post a client) (hstop : ∀ e, stop e client) :
    Ensures (orStop x) client post stop :=
  .lift (fun a ha => hok a (Checked.mapError_ok.mp ha)) fun e _ => hstop e

theorem rpc_ensures (hok : ∀ a, answer client.calls = .ok a → post a { client with calls := client.calls + 1 })
    (hstop : ∀ e, stop e { client with calls := client.calls + 1 }) : Ensures (rpc answer) client post stop :=
  .bind (call_ensures (orStop_ensures (fun a ha => hok a (Checked.mapError_ok.mp ha)) hstop))

end

/-- The next committee is named by a summary that the committee has certified. -/
theorem verifyNextCommittee_ok {next : Types.EpochCommittee} {seq : Nat}
    {response : Except Status (Option (Except String (Types.CertifiedCheckpointSummary Agg)))}
    (h : verifyNextCommittee crypto committee seq response = .ok next) :
    ∃ summary, CertifiedBy crypto committee summary ∧ NamesCommittee summary.data next := by
  simp only [verifyNextCommittee, Checked.bind_ok, Checked.mapError_ok] at h
  obtain ⟨_, -, _, -, summary, -, _, hsignatures, hnext⟩ := h
  exact ⟨summary, certifies_of_verify hsignatures, extractNewCommitteeInfo_ok hnext⟩

/-- One step of the ratchet reaches the next committee and leaves the cache alone. -/
theorem fetchAndVerifyNextEpoch_ensures {epoch toCheckpoint : Nat} (hcommittee : Reached crypto genesis committee) :
    Ensures (fetchAndVerifyNextEpoch crypto server epoch committee toCheckpoint) client
      (fun r t => t.epochCache = client.epochCache ∧ ∀ next ∈ r, Reached crypto genesis next.2)
      fun _ t => t.epochCache = client.epochCache := by
  refine .bind (call_ensures (.bind (orStop_ensures ?_ fun _ => rfl)))
  intro r _
  cases r with
  | none => exact ⟨rfl, by simp⟩
  | some =>
    dsimp only
    split
    · exact ⟨rfl, by simp⟩
    · refine .bind (call_ensures (.bind (.lift ?_ fun _ _ => rfl)))
      intro next hnext
      obtain ⟨summary, hcertified, hnames⟩ := verifyNextCommittee_ok hnext
      refine ⟨rfl, ?_⟩
      rintro _ ⟨⟩
      exact .next hcommittee hcertified hnames

/-- The ratchet adds reached committees. -/
theorem CacheReached.applyRatchetUpdate {cache cache' : EpochCache} {start seq : Nat} {next : Types.EpochCommittee}
    (h : CacheReached crypto genesis cache) (h' : CacheReached crypto genesis cache') (hnext : Reached crypto genesis next) :
    CacheReached crypto genesis (cache'.applyRatchetUpdate start seq cache.currentCommittee next) := by
  refine ⟨hnext, ?_⟩
  intro range hrange
  rcases mem_concat.mp hrange with hrange | rfl
  · exact h'.completed range hrange
  · exact h.current

/-- The ratchet keeps the cache reached, by induction on its fuel. -/
theorem trustRatchetToCheckpoint_ensures (h : CacheReached crypto genesis client.epochCache) :
    Ensures (trustRatchetToCheckpoint crypto server checkpoint fuel) client (fun _ t => CacheReached crypto genesis t.epochCache)
      fun _ t => CacheReached crypto genesis t.epochCache := by
  induction fuel generalizing client with
  | zero => exact h
  | succ _ ih =>
    refine .bind (.get ?_)
    dsimp only
    split
    · exact h
    · refine .bind ((fetchAndVerifyNextEpoch_ensures h.current).mono ?_ ?_)
      · rintro r t ⟨ht, hnext⟩
        cases r with
        | none => exact ht ▸ h
        | some next =>
          refine .bind (.modify (ih ?_))
          split
          · rw [ht]
            exact h.applyRatchetUpdate h (hnext next rfl)
          · exact ht ▸ h
      · rintro _ _ ht
        exact ht ▸ h

/-- A committee that is found in the cache is reached. -/
theorem CacheReached.reached_of_get {cache : EpochCache}
    (h : CacheReached crypto genesis cache) (hget : cache.getCommitteeForCheckpoint checkpoint = some committee) :
    Reached crypto genesis committee := by
  unfold EpochCache.getCommitteeForCheckpoint at hget
  split at hget
  · cases hget
    exact h.current
  · obtain ⟨range, hrange, rfl⟩ := Option.map_eq_some_iff.mp hget
    obtain ⟨i, -, hi⟩ := Option.bind_eq_some_iff.mp hrange
    exact h.completed range (mem_of_getElem? hi)

/-- Whether from the cache or by the ratchet, the committee is reached. -/
theorem getCommitteeForCheckpoint_ensures (h : CacheReached crypto genesis client.epochCache) :
    Ensures (getCommitteeForCheckpoint crypto server fuel checkpoint) client
      (fun committee t => CacheReached crypto genesis t.epochCache ∧ Reached crypto genesis committee)
      fun _ t => CacheReached crypto genesis t.epochCache := by
  refine .bind ((trustRatchetToCheckpoint_ensures h).mono ?_ (fun _ _ h => h))
  intro _ t ht
  refine .bind (.get ?_)
  refine .lift ?_ (fun _ _ => ht)
  intro committee hget
  exact ⟨ht, ht.reached_of_get (Checked.expect_ok.mp hget)⟩

end Committees

variable {Sig Agg Merkle Absence : Type} {crypto : EventCryptography Sig Agg Merkle Absence}
  {server : Server Agg Merkle} {genesis : Types.EpochCommittee} {client : Client}

/-! ## Heads -/

/-- The response carries the object of the stream whose reference is proved. -/
def GetCheckpointObjectProofResponse.Matches (crypto : Cryptography Sig Agg Merkle Absence) (streamObjectId : ObjectID)
    (response : GetCheckpointObjectProofResponse Agg Merkle) : Prop :=
  ∀ p objectRef object, response.proof = some (.inclusion p) → p.objectRef = some (.ok objectRef) → p.objectData = some (.ok object) →
    objectRef = computeObjectReference crypto object ∧ object.id = streamObjectId

variable (crypto genesis) in
/-- The head is the one in the object of the stream, as the artifacts of a certified checkpoint name it. -/
def GenuineHead (streamObjectId : ObjectID) (head : EventStreamHead) : Prop :=
  ∃ committee summary objectRef, Reached crypto.toCryptography genesis committee ∧ CertifiedBy crypto.toCryptography committee summary ∧
    objectRef.id = streamObjectId ∧
    CertifiedStates crypto.toCryptography summary.data
      (fun states => states[streamObjectId]? = some (objectRef.version, objectRef.digest)) ∧
    (∃ object, computeObjectReference crypto.toCryptography object = objectRef) ∧
    ∀ object, computeObjectReference crypto.toCryptography object = objectRef → crypto.extractStreamHeadFromObject object = .ok head

/-- An object is determined by its reference. -/
theorem computeObjectReference_injective : Function.Injective (computeObjectReference crypto.toCryptography) := by
  intro object object' h
  simp only [computeObjectReference, ObjectRef.mk.injEq] at h
  exact crypto.objectDigest_injective h.2.2

variable {response : GetCheckpointObjectProofResponse Agg Merkle}

theorem GetCheckpointObjectProofResponse.inclusionProof_ok
    {missing nonInclusion : String} {p : InclusionProof Merkle} (h : response.inclusionProof missing nonInclusion = .ok p) :
    response.proof = some (.inclusion p) := by
  unfold inclusionProof at h
  split at h
  · cases h
  · cases h
  · cases h
  · rename_i heq
    cases h
    exact heq

/-- What a verified inclusion proof says. -/
theorem verifyOcsInclusionProof_ok {u : Unit} (h : verifyOcsInclusionProof crypto.toCryptography committee response = .ok u) :
    ∃ p objectRef summary, response.proof = some (.inclusion p) ∧ p.objectRef = some (.ok objectRef) ∧
      CertifiedBy crypto.toCryptography committee summary ∧
      CertifiedStates crypto.toCryptography summary.data fun states =>
        states[objectRef.id]? = some (objectRef.version, objectRef.digest) := by
  simp only [verifyOcsInclusionProof, Checked.bind_ok, Checked.expect_ok, Checked.mapError_ok] at h
  obtain ⟨_, -, summary, -, p, hp, refProto, href, objectRef, rfl, ocsProof, -, hverify⟩ := h
  have hproof := inclusionProof_ok hp
  simp only [Proof.verify, Checked.bind_ok, Checked.mapError_ok, Checked.assert_ok] at hverify
  obtain ⟨_, hsignatures, _, -, hcontents⟩ := hverify
  rw [ProofContents.verify] at hcontents
  obtain ⟨target, htarget, hstates⟩ := OCSProof.verify_ok hcontents
  cases htarget
  refine ⟨p, objectRef, summary, hproof, href, certifies_of_verify hsignatures, ?_⟩
  obtain ⟨digest, hdigest, hstates⟩ := hstates trivial
  refine ⟨digest, hdigest, fun states hroot => ?_⟩
  simpa [OCSTarget.newInclusionTarget] using hstates states hroot

variable {streamObjectId : ObjectID} {head : EventStreamHead}

/-- A head that is read from a response that matches is genuine. -/
theorem genuineHead_of_readStreamHead
    (hcommittee : Reached crypto.toCryptography genesis committee) (hmatches : response.Matches crypto.toCryptography streamObjectId)
    (h : readStreamHead crypto committee checkpoint response = .ok head) : GenuineHead crypto genesis streamObjectId head := by
  simp only [readStreamHead, Checked.bind_ok, Checked.expect_ok, Checked.mapError_ok] at h
  obtain ⟨p, hp, data, hdata, object, rfl, streamHead, hhead, _, hverify, hpure⟩ := h
  have hproof := inclusionProof_ok hp
  cases hpure
  obtain ⟨p', objectRef, summary, hproof', href, hcertified, hstates⟩ := verifyOcsInclusionProof_ok hverify
  rw [hproof] at hproof'
  cases hproof'
  obtain ⟨rfl, rfl⟩ := hmatches p objectRef object hproof href hdata
  refine ⟨committee, summary, _, hcommittee, hcertified, rfl, hstates, ⟨object, rfl⟩, ?_⟩
  intro object' hobject'
  rw [computeObjectReference_injective hobject']
  exact hhead

/-- What is known of a head that the client accepts: a response that a reached committee lets pass. -/
def AcceptedHead (crypto : EventCryptography Sig Agg Merkle Absence) (server : Server Agg Merkle)
    (genesis : Types.EpochCommittee) (streamObjectId : ObjectID) (checkpoint : Nat) (head : EventStreamHead) : Prop :=
  ∃ committee n response, Reached crypto.toCryptography genesis committee ∧
    server.getCheckpointObjectProof n streamObjectId checkpoint = .ok response ∧
    readStreamHead crypto committee checkpoint response = .ok head

variable (h : CacheReached crypto.toCryptography genesis client.epochCache)

include h in
/-- A head is accepted with a summary that a reached committee has certified. -/
theorem fetchAndVerifyStreamHead_ensures :
    Ensures (fetchAndVerifyStreamHead crypto server fuel streamObjectId checkpoint) client
      (fun head t => CacheReached crypto.toCryptography genesis t.epochCache ∧
        AcceptedHead crypto server genesis streamObjectId checkpoint head)
      fun _ t => CacheReached crypto.toCryptography genesis t.epochCache := by
  refine .bind ((getCommitteeForCheckpoint_ensures h).mono ?_ (fun _ _ h => h))
  rintro committee t ⟨ht, hcommittee⟩
  refine .bind (rpc_ensures ?_ fun _ => ht)
  intro response hresponse
  refine .lift ?_ fun _ _ => ht
  intro head hhead
  exact ⟨ht, committee, _, response, hcommittee, hresponse, hhead⟩

/-! ## Batches -/

/-- Adding a commitment loses none. -/
theorem Buckets.mem_finish_push {b : Buckets} {key : Nat × Nat} {c d : EventCommitment}
    (h : d = c ∨ ∃ batch ∈ b.finish, d ∈ batch) : ∃ batch ∈ (b.push key c).finish, d ∈ batch := by
  unfold push
  split
  · rcases h with rfl | ⟨batch, hbatch, hd⟩
    · exact ⟨b.currentBatch ++ [d], by simp [finish], by simp⟩
    · unfold finish at hbatch
      split at hbatch
      · exact ⟨batch, by simp [finish, hbatch], hd⟩
      · rcases mem_append.mp hbatch with hbatch | hbatch
        · exact ⟨batch, by simp [finish, hbatch], hd⟩
        · rw [mem_singleton.mp hbatch] at hd
          exact ⟨b.currentBatch ++ [c], by simp [finish], mem_append_left _ hd⟩
  · rcases h with rfl | ⟨batch, hbatch, hd⟩
    · exact ⟨[d], by simp [finish], mem_singleton.mpr rfl⟩
    · refine ⟨batch, ?_, hd⟩
      rw [finish, if_neg (by simp)]
      exact mem_append_left _ hbatch

/-- An event that was verified before is passed over, any other is put into a batch. -/
theorem bucketEvent_ok {lastVerifiedCheckpoint : Nat} {b b' : Buckets} {event : AuthenticatedEvent}
    (h : bucketEvent crypto lastVerifiedCheckpoint b event = .ok b') :
    event.checkpoint ≤ lastVerifiedCheckpoint ∧ b' = b ∨
      ∃ key settlements, b' = Buckets.push { b with settlements } key (commitment crypto event) := by
  unfold bucketEvent at h
  split_ifs at h with hle
  · cases h
    exact .inl ⟨hle, rfl⟩
  · simp only [Checked.bind_ok] at h
    obtain ⟨key, -, _, -, hpure⟩ := h
    cases hpure
    exact .inr ⟨key, _, rfl⟩

variable {batches : List (List EventCommitment)}

/-- Every event after the last verified checkpoint goes into a batch. -/
theorem bucketEventsBySettlement_ok {events : List AuthenticatedEvent} {settlements : List (Nat × Nat)} {lastVerifiedCheckpoint : Nat}
    (h : bucketEventsBySettlement crypto events settlements lastVerifiedCheckpoint = .ok batches) :
    ∀ event ∈ events, lastVerifiedCheckpoint < event.checkpoint → ∃ batch ∈ batches, commitment crypto event ∈ batch := by
  simp only [bucketEventsBySettlement, Checked.bind_ok] at h
  obtain ⟨b, hfold, hpure⟩ := h
  cases hpure
  refine (Checked.foldlM_each (I := fun _ => True) (Q := fun event b => lastVerifiedCheckpoint < event.checkpoint →
    ∃ batch ∈ b.finish, commitment crypto event ∈ batch) hfold trivial fun event c c' _ hstep => ⟨trivial, ?_⟩).2
  rcases bucketEvent_ok hstep with ⟨hle, rfl⟩ | ⟨key, settlements, rfl⟩
  · exact ⟨fun hlt => absurd hlt (Nat.not_lt.mpr hle), fun _ he => he⟩
  · exact ⟨fun _ => Buckets.mem_finish_push (.inl rfl), fun _ he hlt => Buckets.mem_finish_push (.inr (he hlt))⟩

/-! ## Folds -/

/-- A batch adds the root of its commitments to the range. -/
theorem applyBatch_ok {head' : EventStreamHead} {batch : List EventCommitment} (h : applyBatch crypto head batch = .ok head') :
    batch ≠ [] ∧ head'.mmr = addToStream crypto head.mmr (crypto.buildEventMerkleRoot batch) := by
  simp only [applyBatch, Checked.bind_ok, Checked.expect_ok] at h
  obtain ⟨first, hfirst, _, -, _, -, numEvents, -, hpure⟩ := h
  cases hpure
  refine ⟨?_, rfl⟩
  rintro rfl
  cases hfirst

/-- The range of the head after the updates has the roots of the batches added to it. -/
theorem applyStreamUpdates_ok {head' : EventStreamHead} (h : applyStreamUpdates crypto head batches = .ok head') :
    (∀ batch ∈ batches, batch ≠ []) ∧
      head'.mmr = addAll 0 crypto.hashTwoToOneU256 head.mmr (batches.map crypto.buildEventMerkleRoot) := by
  refine Checked.foldlM_invariant
    (fun pre acc => (∀ batch ∈ pre, batch ≠ []) ∧
      acc.mmr = addAll 0 crypto.hashTwoToOneU256 head.mmr (pre.map crypto.buildEventMerkleRoot)) h ⟨by simp, rfl⟩ ?_
  rintro pre batch post c c' - ⟨hne, hmmr⟩ hstep
  obtain ⟨hbatch, hmmr'⟩ := applyBatch_ok hstep
  constructor
  · intro batch' hmem
    rcases mem_concat.mp hmem with hmem | rfl
    · exact hne batch' hmem
    · exact hbatch
  · rw [hmmr', hmmr, map_append, addAll, addAll, foldl_append]
    rfl

/-- Two events with the same commitment are the same. -/
theorem commitment_injective : Function.Injective (commitment crypto) := by
  rintro ⟨event, _, _, _⟩ ⟨event', _, _, _⟩ h
  simp only [commitment, EventCommitment.mk.injEq] at h
  obtain ⟨rfl, rfl, rfl, hdigest⟩ := h
  rw [crypto.eventDigest_injective hdigest]

variable (crypto) in
/-- The range of a stream in which batches of events were settled one after another. -/
def settledMmr (history : List (List AuthenticatedEvent)) : List Nat :=
  addAll 0 crypto.hashTwoToOneU256 [] (history.map fun batch => crypto.buildEventMerkleRoot (batch.map (commitment crypto)))

variable (crypto head) in
/-- The event was settled into the head: it is in a batch, whatever the batches were that gave the range of the head. -/
def Commits (event : AuthenticatedEvent) : Prop :=
  ∀ history, (∀ batch ∈ history, batch ≠ []) → settledMmr crypto history = head.mmr → ∃ batch ∈ history, event ∈ batch

/-- What is folded into the range of a head was settled into the head. -/
theorem commits_of_applyStreamUpdates {oldHead computedHead newHead : EventStreamHead}
    {event : AuthenticatedEvent} (h : applyStreamUpdates crypto oldHead batches = .ok computedHead)
    (hmmr : computedHead.mmr = newHead.mmr) (hevent : ∃ batch ∈ batches, commitment crypto event ∈ batch) :
    Commits crypto newHead event := by
  obtain ⟨hne, hcomputed⟩ := applyStreamUpdates_ok h
  intro history hhistory hsettled
  have hsame : MountainRange.Same 0
      (addAll 0 crypto.hashTwoToOneU256 []
        (history.map fun batch => crypto.buildEventMerkleRoot (batch.map (commitment crypto))))
      (addAll 0 crypto.hashTwoToOneU256 oldHead.mmr (batches.map crypto.buildEventMerkleRoot)) := by
    intro i
    rw [← hcomputed, hmmr, ← hsettled]
    rfl
  have hsuffix := suffix_of_same_addAll
    (.of_injective crypto.hashTwoToOneU256_injective crypto.hashTwoToOneU256_ne_zero)
    (by
      intro v hv
      obtain ⟨batch, hbatch, rfl⟩ := mem_map.mp hv
      exact crypto.buildEventMerkleRoot_ne_zero (hne batch hbatch))
    (by
      intro v hv
      obtain ⟨batch, hbatch, rfl⟩ := mem_map.mp hv
      exact crypto.buildEventMerkleRoot_ne_zero (by simpa using hhistory batch hbatch)) hsame
  obtain ⟨batch, hbatch, hmem⟩ := hevent
  obtain ⟨settled, hsettledMem, hroot⟩ := mem_map.mp (hsuffix.subset (mem_map_of_mem hbatch))
  rw [← crypto.buildEventMerkleRoot_injective hroot] at hmem
  obtain ⟨event', hevent', heq⟩ := mem_map.mp hmem
  rw [← commitment_injective heq]
  exact ⟨settled, hsettledMem, hevent'⟩

/-! ## Pages -/

variable {α : Type} {answer : Nat → Except Status α}

theorem call_of_eq : call answer client = .ok (answer client.calls) { client with calls := client.calls + 1 } := rfl

theorem orStop_ok {x : Except ClientError α} {a : α} (h : x = .ok a) : orStop x client = .ok a client := by
  rw [h]
  rfl

theorem rpc_of_ok {a : α} (h : answer client.calls = .ok a) :
    rpc answer client = .ok a { client with calls := client.calls + 1 } := by
  simp only [rpc, call, orStop, bind_ok, lift_ok, Checked.mapError_ok]
  exact ⟨_, _, rfl, h, rfl⟩

theorem rpc_of_error {status : Status} (h : answer client.calls = .error status) :
    rpc answer client = .error (.error (.rpcError status)) { client with calls := client.calls + 1 } := by
  simp only [rpc, call, orStop, bind_error, lift_error, Checked.mapError_error]
  exact .inr ⟨_, _, rfl, ⟨_, ⟨status, h, rfl⟩, rfl⟩, rfl⟩

theorem fetchPage_of_ok {Item α : Type} {convert : Item → Except ClientError α}
    {answer : Nat → Except Status (List (Except Status (Frame Item)))} {page : Page α}
    (h : readAnswer convert (answer client.calls) = .ok page) :
    fetchPage convert answer client = .ok page { client with calls := client.calls + 1 } := by
  simp only [readAnswer, Checked.bind_ok, Checked.mapError_ok] at h
  obtain ⟨frames, hframes, hpage⟩ := h
  rw [fetchPage, bind_of_ok (rpc_of_ok hframes), orStop, lift_ok, Checked.mapError_ok]
  exact ⟨hpage, rfl⟩

theorem fetchPage_of_error {Item α : Type} {convert : Item → Except ClientError α}
    {answer : Nat → Except Status (List (Except Status (Frame Item)))} {e : ClientError}
    (h : readAnswer convert (answer client.calls) = .error e) :
    fetchPage convert answer client = .error (.error e) { client with calls := client.calls + 1 } := by
  simp only [readAnswer, Checked.bind_error, Checked.mapError_error, Checked.mapError_ok] at h
  rw [fetchPage]
  rcases h with ⟨status, hstatus, rfl⟩ | ⟨frames, hframes, hpage⟩
  · exact bind_of_error (rpc_of_error hstatus)
  · rw [bind_of_ok (rpc_of_ok hframes), orStop, lift_error, Checked.mapError_error]
    exact ⟨⟨e, hpage, rfl⟩, rfl⟩

/-! ## Polls -/

/-- Fetching settlements does not touch the cache of committees. -/
theorem fetchSettlements_ensures {startCheckpoint endCheckpoint : Nat} {all : List (Nat × Nat)} {cursor : Option Cursor} :
    Ensures (fetchSettlements server streamObjectId startCheckpoint endCheckpoint fuel all cursor) client
      (fun _ t => t.epochCache = client.epochCache) fun _ t => t.epochCache = client.epochCache := by
  induction fuel generalizing client all cursor with
  | zero => exact rfl
  | succ _ ih =>
    refine .bind (.bind (rpc_ensures ?_ fun _ => rfl))
    intro frames _
    refine orStop_ensures ?_ fun _ => rfl
    intro page _
    split
    · exact ih
    · exact rfl

variable {state : EventStreamState}

namespace EventStreamState

variable {self : EventStreamState}

/-- The computed head agrees with the new one, which becomes the verified one. -/
theorem checkHead_ok {upToCheckpoint : Nat} {newHead computedHead : EventStreamHead}
    (h : self.checkHead upToCheckpoint newHead computedHead = .ok state) :
    computedHead.mmr = newHead.mmr ∧ computedHead.numEvents = newHead.numEvents ∧ newHead.checkpointSeq = upToCheckpoint ∧
      state = { self with verifiedStreamHead := some newHead, lastVerifiedCheckpoint := upToCheckpoint } := by
  simp only [checkHead, Checked.bind_ok, Checked.assert_ok, decide_eq_true_eq, exists_const] at h
  obtain ⟨hmmr, hnum, hseq, hpure⟩ := h
  cases hpure
  exact ⟨hmmr, hnum, hseq, rfl⟩

include h in
/-- Events that are verified were settled into the head that is accepted with them. -/
theorem verifyEvents_ensures {first last : AuthenticatedEvent} {events : List AuthenticatedEvent} :
    Ensures (self.verifyEvents crypto server fuel first last events) client
      (fun state t => CacheReached crypto.toCryptography genesis t.epochCache ∧ ∃ head,
        state = { self with verifiedStreamHead := some head, lastVerifiedCheckpoint := last.checkpoint } ∧
          AcceptedHead crypto server genesis self.streamObjectId last.checkpoint head ∧
          ∀ event ∈ events, self.lastVerifiedCheckpoint < event.checkpoint → Commits crypto head event)
      fun _ t => CacheReached crypto.toCryptography genesis t.epochCache := by
  refine .bind (fetchSettlements_ensures.mono ?_ (fun _ _ ht => ht ▸ h))
  intro settlements t ht
  refine .bind (orStop_ensures ?_ fun _ => ht ▸ h)
  intro batches hbatches
  refine .bind ((fetchAndVerifyStreamHead_ensures (ht ▸ h)).mono ?_ (fun _ _ h => h))
  rintro newHead u ⟨hu, haccepted⟩
  refine .bind (orStop_ensures ?_ fun _ => hu)
  intro _ _
  refine .bind (.lift ?_ fun _ _ => hu)
  intro computedHead hcomputed
  refine orStop_ensures ?_ fun _ => hu
  intro state hcheck
  obtain ⟨hmmr, -, -, rfl⟩ := checkHead_ok hcheck
  refine ⟨hu, newHead, rfl, haccepted, ?_⟩
  intro event hevent hlt
  exact commits_of_applyStreamUpdates hcomputed hmmr (bucketEventsBySettlement_ok hbatches event hevent hlt)

end EventStreamState

/-- The cases of `fetch_and_verify_next_batch` for the events `flushed` that a page has completed. -/
inductive FlushCase (crypto : EventCryptography Sig Agg Merkle Absence) (server : Server Agg Merkle) (fuel : Nat)
    (received : EventStreamState) (client : Client) (flushed : List AuthenticatedEvent) :
    Except Stop (List AuthenticatedEvent) → EventStreamState → Client → Prop
  | nothing (hnil : flushed = []) : FlushCase crypto server fuel received client flushed (.ok flushed) received client
  | unverified {last : AuthenticatedEvent} (hlast : flushed.getLast? = some last)
      (hle : last.checkpoint ≤ received.lastVerifiedCheckpoint) :
      FlushCase crypto server fuel received client flushed (.ok flushed) received client
  | rejected {first last : AuthenticatedEvent} {stop : Stop} {client' : Client} (hfirst : flushed.head? = some first)
      (hlast : flushed.getLast? = some last)
      (hverify : received.verifyEvents crypto server fuel first last flushed client = .error stop client') :
      FlushCase crypto server fuel received client flushed (.error stop) received client'
  | verified {first last : AuthenticatedEvent} {verified : EventStreamState} {client' : Client}
      (hfirst : flushed.head? = some first) (hlast : flushed.getLast? = some last)
      (hverify : received.verifyEvents crypto server fuel first last flushed client = .ok verified client') :
      FlushCase crypto server fuel received client flushed (.ok flushed) verified client'

/-- The cases of `fetch_and_verify_next_batch`. -/
inductive BatchCase (crypto : EventCryptography Sig Agg Merkle Absence) (server : Server Agg Merkle) (fuel : Nat)
    (state : EventStreamState) (client : Client) : Except Stop (List AuthenticatedEvent) → EventStreamState → Client → Prop
  | failed {e : ClientError} (hpage : readAnswer tryFrom (server.listEvents client.calls state.request) = .error e) :
      BatchCase crypto server fuel state client (.error (.error e)) state { client with calls := client.calls + 1 }
  | received {page : Page AuthenticatedEvent} {flushed : List AuthenticatedEvent} {received state' : EventStreamState}
      {result : Except Stop (List AuthenticatedEvent)} {client' : Client}
      (hpage : readAnswer tryFrom (server.listEvents client.calls state.request) = .ok page)
      (hreceive : state.receive page = (flushed, received))
      (hcase : FlushCase crypto server fuel received { client with calls := client.calls + 1 } flushed result state' client') :
      BatchCase crypto server fuel state client result state' client'

variable {result : Except Stop (List AuthenticatedEvent)}

/-- The ways in which a poll can go, whatever the server answers. -/
theorem fetchAndVerifyNextBatch_case {state' : EventStreamState}
    {client' : Client} (hbatch : state.fetchAndVerifyNextBatch crypto server fuel client = (result, state', client')) :
    BatchCase crypto server fuel state client result state' client' := by
  rw [fetchAndVerifyNextBatch] at hbatch
  cases hpage : readAnswer tryFrom (server.listEvents client.calls state.request) with
  | error =>
    rw [fetchPage_of_error hpage] at hbatch
    cases hbatch
    exact .failed hpage
  | ok page =>
    rw [fetchPage_of_ok hpage] at hbatch
    obtain ⟨flushed, received, hreceive⟩ : ∃ flushed received, state.receive page = (flushed, received) := ⟨_, _, rfl⟩
    refine .received hpage hreceive ?_
    dsimp only at hbatch
    rw [hreceive] at hbatch
    dsimp only at hbatch
    split at hbatch
    · rename_i first last hfirst hlast
      split at hbatch
      · split at hbatch
        · rename_i stop t hverify
          cases hbatch
          exact .rejected hfirst hlast hverify
        · rename_i verified t hverify
          cases hbatch
          exact .verified hfirst hlast hverify
      · rename_i hle
        cases hbatch
        exact .unverified hlast (Nat.le_of_not_lt hle)
    · rename_i hnone
      cases hbatch
      cases flushed with
      | nil => exact .nothing rfl
      | cons first flushed => exact absurd (List.getLast?_eq_some_getLast (cons_ne_nil first flushed)) (hnone _ _ rfl)

/-! ## Pages in order -/

/-- The last of the events in order has the highest checkpoint. -/
theorem checkpoint_le_of_getLast {events : List AuthenticatedEvent} (hsorted : events.Pairwise fun a b => a.checkpoint ≤ b.checkpoint)
    {e last : AuthenticatedEvent} (hlast : events.getLast? = some last) (he : e ∈ events) : e.checkpoint ≤ last.checkpoint := by
  obtain ⟨_, rfl⟩ := mem_getLast?_eq_getLast hlast
  exact hsorted.rel_getLast_of_rel_getLast_getLast he le_rfl

variable {flushed rest : List AuthenticatedEvent} {page : Page AuthenticatedEvent} {position : Cursor → Nat}

/-- What is taken from the buffer and what stays. -/
theorem drainCompleteCheckpoints_spec {buffer : List AuthenticatedEvent} {incomplete : Bool}
    (hsorted : buffer.Pairwise fun a b => a.checkpoint ≤ b.checkpoint)
    (h : drainCompleteCheckpoints buffer incomplete = (flushed, rest)) :
    flushed ++ rest = buffer ∧ (∀ f ∈ flushed, ∀ r ∈ rest, f.checkpoint < r.checkpoint) ∧
      (incomplete = false → rest = []) ∧ (incomplete = true → rest = [] → buffer = []) := by
  unfold drainCompleteCheckpoints at h
  split at h
  · rename_i hnone
    cases h
    have hnil := List.getLast?_eq_none_iff.mp hnone
    simp [hnil]
  · rename_i last hlast
    split at h
    · rename_i hincomplete
      cases h
      have happend := rdropWhile_append_rtakeWhile (l := buffer) (p := fun e => decide (e.checkpoint = last.checkpoint))
      refine ⟨happend, ?_, fun hcomplete => absurd hincomplete (by simp [hcomplete]), ?_⟩
      · intro f hf r hr
        have hr : r.checkpoint = last.checkpoint := by simpa using mem_rtakeWhile_imp hr
        -- the last event that is taken is of another checkpoint than those that stay
        have hne := ne_nil_of_mem hf
        have hother := rdropWhile_last_not (fun e => decide (e.checkpoint = last.checkpoint)) buffer hne
        rw [← happend] at hsorted
        obtain ⟨hflushed, -, hcross⟩ := pairwise_append.mp hsorted
        have hle := checkpoint_le_of_getLast hflushed (List.getLast?_eq_some_getLast hne) hf
        have hle' := hcross _ (getLast_mem hne) r (by assumption)
        have hother : ((buffer.rdropWhile fun e => decide (e.checkpoint = last.checkpoint)).getLast hne).checkpoint ≠
            last.checkpoint := by simpa using hother
        omega
      · intro _ hrest
        have hne := (rtakeWhile_eq_nil_iff).mp hrest
        by_contra hbuffer
        refine hne hbuffer ?_
        have hget : buffer.getLast hbuffer = last := by
          rw [List.getLast?_eq_some_getLast hbuffer] at hlast
          exact Option.some.inj hlast
        simp [hget]
    · rename_i hcomplete
      cases h
      exact ⟨append_nil _, by simp, fun _ => rfl, fun hincomplete => absurd hincomplete hcomplete⟩

/-- The request asks for the checkpoint, if a cursor is for what is at or after its position. Checkpoint 0 has no events. -/
def ListEventsRequest.Admits (position : Cursor → Nat) (request : ListEventsRequest) (k : Nat) : Prop :=
  0 < k ∧ request.startCheckpoint ≤ k ∧ ∀ cursor ∈ request.after, position cursor ≤ k

/-- The events of the page are sorted and asked for, and if the scan goes on there is a cursor with a position after them. -/
structure Page.InOrder (position : Cursor → Nat) (request : ListEventsRequest) (page : Page AuthenticatedEvent) : Prop where
  sorted : page.items.Pairwise fun a b => a.checkpoint ≤ b.checkpoint
  admits : ∀ event ∈ page.items, request.Admits position event.checkpoint ∧ event.checkpoint + 1 < 2 ^ 64
  cursor : page.scanIncomplete = true → ∃ cursor, page.lastCursor = some cursor ∧
    (∀ event ∈ page.items, event.checkpoint ≤ position cursor) ∧ ∀ cursor' ∈ request.after, position cursor' ≤ position cursor

/-- What is in the buffer, and what the stream asks for, is after the last verified checkpoint. -/
structure Fresh (position : Cursor → Nat) (state : EventStreamState) : Prop where
  sorted : state.unverifiedBuffer.Pairwise fun a b => a.checkpoint ≤ b.checkpoint
  buffer : ∀ event ∈ state.unverifiedBuffer, state.lastVerifiedCheckpoint < event.checkpoint ∧ event.checkpoint + 1 < 2 ^ 64
  next {k : Nat} : state.request.Admits position k →
    state.lastVerifiedCheckpoint < k ∧ ∀ event ∈ state.unverifiedBuffer, event.checkpoint ≤ k
  idle {k : Nat} : state.unverifiedBuffer = [] → 0 < k → state.nextCheckpoint ≤ k → state.lastVerifiedCheckpoint < k

/-- A new stream has nothing in its buffer. -/
theorem Fresh.new {streamId start pageSize : Nat} {head : Option EventStreamHead} :
    Fresh position (.new streamId streamObjectId start head pageSize) where
  sorted := .nil
  buffer := by simp [EventStreamState.new]
  next hk := by
    refine ⟨?_, by simp [EventStreamState.new]⟩
    obtain ⟨hpos, hle, -⟩ := hk
    simp only [request, EventStreamState.new] at hle ⊢
    omega
  idle _ hpos hle := by
    simp only [EventStreamState.new] at hle ⊢
    omega

/-- A page in order adds events after those in the buffer. -/
theorem Fresh.append {self : EventStreamState} (h : Fresh position self) (hpage : page.InOrder position self.request) :
    (self.unverifiedBuffer ++ page.items).Pairwise (fun a b => a.checkpoint ≤ b.checkpoint) ∧
      ∀ event ∈ self.unverifiedBuffer ++ page.items,
        self.lastVerifiedCheckpoint < event.checkpoint ∧ event.checkpoint + 1 < 2 ^ 64 := by
  refine ⟨pairwise_append.mpr ⟨h.sorted, hpage.sorted, ?_⟩, ?_⟩
  · intro a ha b hb
    exact (h.next (hpage.admits b hb).1).2 a ha
  · intro event hevent
    rcases mem_append.mp hevent with hevent | hevent
    · exact h.buffer event hevent
    · exact ⟨(h.next (hpage.admits event hevent).1).1, (hpage.admits event hevent).2⟩

/-- Where the buffer is emptied, the next checkpoint that is asked for is after what was taken. -/
theorem Fresh.lt_of_next {self : EventStreamState} (h : Fresh position self) {verified k : Nat}
    (hsorted : flushed.Pairwise fun a b => a.checkpoint ≤ b.checkpoint)
    (hnew : ∀ event ∈ flushed, self.lastVerifiedCheckpoint < event.checkpoint ∧ event.checkpoint + 1 < 2 ^ 64)
    (hidle : flushed = [] → self.unverifiedBuffer = [])
    (hverified : verified = self.lastVerifiedCheckpoint ∨ ∃ event ∈ flushed, verified = event.checkpoint) (hpos : 0 < k)
    (hstart : ((flushed.getLast?.map (·.checkpoint)).map saturatingSucc).getD self.nextCheckpoint ≤ k) : verified < k := by
  cases hlast : flushed.getLast? with
  | none =>
    obtain rfl := List.getLast?_eq_none_iff.mp hlast
    obtain rfl := hverified.resolve_right (by simp)
    exact h.idle (hidle rfl) hpos hstart
  | some last =>
    obtain ⟨hold, hfits⟩ := hnew last (mem_of_getLast? hlast)
    have hle : verified ≤ last.checkpoint := by
      rcases hverified with rfl | ⟨event, hevent, rfl⟩
      · exact hold.le
      · exact checkpoint_le_of_getLast hsorted hlast hevent
    simp only [hlast, Option.map_some, Option.getD_some, saturatingSucc] at hstart
    omega

/-- A page in order leaves the stream fresh, also after the events that are taken from the buffer are verified. -/
theorem Fresh.receive {self received : EventStreamState} (h : Fresh position self) (hpage : page.InOrder position self.request)
    (hreceive : self.receive page = (flushed, received)) :
    (∀ event ∈ flushed, self.lastVerifiedCheckpoint < event.checkpoint) ∧
      ∀ head verified, (verified = self.lastVerifiedCheckpoint ∨ ∃ event ∈ flushed, verified = event.checkpoint) →
        Fresh position { received with verifiedStreamHead := head, lastVerifiedCheckpoint := verified } := by
  obtain ⟨flushed', rest, hdrain⟩ : ∃ flushed rest, drainCompleteCheckpoints
      (self.unverifiedBuffer ++ page.items) page.scanIncomplete = (flushed, rest) := ⟨_, _, rfl⟩
  rw [EventStreamState.receive, hdrain] at hreceive
  dsimp only at hreceive
  obtain ⟨rfl, rfl⟩ := Prod.mk.inj hreceive
  obtain ⟨hsorted, hnew⟩ := h.append hpage
  obtain ⟨happend, hlt, hcomplete, hempty⟩ := drainCompleteCheckpoints_spec hsorted hdrain
  rw [← happend] at hsorted hnew
  refine ⟨fun event hevent => (hnew event (mem_append_left _ hevent)).1, ?_⟩
  intro head verified hverified
  have hrest : ∀ event ∈ rest, verified < event.checkpoint ∧ event.checkpoint + 1 < 2 ^ 64 := by
    intro event hevent
    obtain ⟨hlast, hfits⟩ := hnew event (mem_append_right _ hevent)
    rcases hverified with rfl | ⟨event', hevent', rfl⟩
    · exact ⟨hlast, hfits⟩
    · exact ⟨hlt event' hevent' event hevent, hfits⟩
  cases hincomplete : page.scanIncomplete with
  | true =>
    obtain ⟨cursor, hcursor, hitems, hmono⟩ := hpage.cursor hincomplete
    -- with an empty buffer nothing was taken
    have hidle : rest = [] → self.unverifiedBuffer = [] ∧ verified = self.lastVerifiedCheckpoint := by
      intro hrest
      have hnil := hempty hincomplete hrest
      refine ⟨(append_eq_nil_iff.mp hnil).1, hverified.resolve_right ?_⟩
      rintro ⟨event, hevent, -⟩
      rw [(append_eq_nil_iff.mp (happend.trans hnil)).1] at hevent
      cases hevent
    refine ⟨(pairwise_append.mp hsorted).2.1, hrest, ?_, ?_⟩
    · rintro k ⟨hpos, hstart, hposition⟩
      have hk : position cursor ≤ k := hposition cursor (by simpa [request] using hcursor)
      obtain ⟨hlast, hbuffer⟩ := h.next (k := k) ⟨hpos, hstart, fun cursor' h' => (hmono cursor' h').trans hk⟩
      have hall : ∀ event ∈ flushed' ++ rest, event.checkpoint ≤ k := by
        intro event hevent
        rw [happend] at hevent
        rcases mem_append.mp hevent with hevent | hevent
        · exact hbuffer event hevent
        · exact (hitems event hevent).trans hk
      refine ⟨?_, fun event hevent => hall event (mem_append_right _ hevent)⟩
      cases rest with
      | nil => exact (hidle rfl).2 ▸ hlast
      | cons r => exact (hrest r mem_cons_self).1.trans_le (hall r (by simp))
    · intro k hnil hpos hstart
      obtain ⟨hbuffer, rfl⟩ := hidle hnil
      exact h.idle hbuffer hpos hstart
  | false =>
    obtain rfl := hcomplete hincomplete
    rw [append_nil] at happend hsorted hnew
    have hidle : flushed' = [] → self.unverifiedBuffer = [] := fun hnil => (append_eq_nil_iff.mp (happend.symm.trans hnil)).1
    refine ⟨.nil, by simp, ?_, ?_⟩
    · rintro k ⟨hpos, hstart, -⟩
      exact ⟨h.lt_of_next hsorted hnew hidle hverified hpos (by simpa [request, hincomplete] using hstart), by simp⟩
    · intro k _ hpos hstart
      exact h.lt_of_next hsorted hnew hidle hverified hpos (by simpa [hincomplete] using hstart)

/-- Receiving a page verifies nothing. -/
theorem receive_lastVerifiedCheckpoint {received : EventStreamState} (hreceive : state.receive page = (flushed, received)) :
    received.lastVerifiedCheckpoint = state.lastVerifiedCheckpoint ∧ received.streamObjectId = state.streamObjectId := by
  rw [receive] at hreceive
  cases hreceive
  exact ⟨rfl, rfl⟩

/-- The answers of the server are in order, and every proof comes with the object that it is about. -/
structure Faithful (crypto : EventCryptography Sig Agg Merkle Absence) (server : Server Agg Merkle)
    (position : Cursor → Nat) : Prop where
  proofs {n checkpoint : Nat} {id : ObjectID} {response : GetCheckpointObjectProofResponse Agg Merkle} :
    server.getCheckpointObjectProof n id checkpoint = .ok response → response.Matches crypto.toCryptography id
  events {n : Nat} {request : ListEventsRequest} {page : Page AuthenticatedEvent} :
    readAnswer tryFrom (server.listEvents n request) = .ok page → page.InOrder position request

/-- What a stream may yield: events that were settled into a genuine head of its object. -/
def Genuine (crypto : EventCryptography Sig Agg Merkle Absence) (genesis : Types.EpochCommittee)
    (streamObjectId : ObjectID) (event : AuthenticatedEvent) : Prop :=
  ∃ head, GenuineHead crypto genesis streamObjectId head ∧ Commits crypto head event

include h

/-- The step lemma: committees stay reached, the stream stays fresh, and what is yielded is verified. -/
theorem fetchAndVerifyNextBatch_genuine (hserver : Faithful crypto server position) {self : EventStreamState} {client' : Client}
    (hfresh : Fresh position self) (hbatch : self.fetchAndVerifyNextBatch crypto server fuel client = (result, state, client')) :
    CacheReached crypto.toCryptography genesis client'.epochCache ∧ Fresh position state ∧ state.streamObjectId = self.streamObjectId ∧
      ∀ events, result = .ok events → ∀ event ∈ events, Genuine crypto genesis self.streamObjectId event := by
  have hnext : CacheReached crypto.toCryptography genesis ({ client with calls := client.calls + 1 } : Client).epochCache := h
  cases fetchAndVerifyNextBatch_case hbatch with
  | failed => exact ⟨h, hfresh, rfl, by simp⟩
  | received hpage hreceive hcase =>
    obtain ⟨hverified, hid⟩ := receive_lastVerifiedCheckpoint hreceive
    obtain ⟨hnew, hreceived⟩ := hfresh.receive (hserver.events hpage) hreceive
    cases hcase with
    | nothing hnil => exact ⟨h, hreceived state.verifiedStreamHead _ (.inl hverified), hid, by simp [hnil]⟩
    | unverified hlast hle => exact absurd (hnew _ (mem_of_getLast? hlast)) (Nat.not_lt.mpr (hverified ▸ hle))
    | rejected _ _ hverify =>
      exact ⟨(verifyEvents_ensures hnext).of_error hverify, hreceived state.verifiedStreamHead _ (.inl hverified), hid, by simp⟩
    | verified _ hlast hverify =>
      obtain ⟨hu, head, rfl, ⟨committee, n, response, hcommittee, hresponse, hread⟩, hcommits⟩ :=
        (verifyEvents_ensures hnext).of_ok hverify
      refine ⟨hu, hreceived _ _ (.inr ⟨_, mem_of_getLast? hlast, rfl⟩), hid, ?_⟩
      rintro _ ⟨⟩ event hevent
      rw [hid] at hresponse
      exact ⟨head, genuineHead_of_readStreamHead hcommittee (hserver.proofs hresponse) hread,
        hcommits event hevent (hverified ▸ hnew event hevent)⟩

/-- The run lemma. -/
theorem yielded_genuine (hserver : Faithful crypto server position) {polls : Nat} (hfresh : Fresh position state) :
    ∀ event ∈ yielded (streamLoop crypto server fuel polls state client), Genuine crypto genesis state.streamObjectId event := by
  induction polls generalizing state client with
  | zero => simp [streamLoop, yielded]
  | succ polls ih =>
    intro event hevent
    rcases hbatch : state.fetchAndVerifyNextBatch crypto server fuel client with ⟨result, state', client'⟩
    obtain ⟨hclient, hfresh', hid, hgenuine⟩ := fetchAndVerifyNextBatch_genuine h hserver hfresh hbatch
    have hlater := hid ▸ ih hclient hfresh'
    rw [streamLoop, hbatch, yielded, flatMap_cons] at hevent
    rcases mem_append.mp hevent with hevent | hevent
    · cases result with
      | error => cases hevent
      | ok => exact hgenuine _ rfl event hevent
    · cases result with
      | ok => exact hlater event hevent
      | error stop =>
        dsimp only at hevent
        split at hevent
        · cases hevent
        · exact hlater event hevent

/-! ## Opening a stream -/

theorem fetchCurrentStreamHeadAndVerify_ensures :
    Ensures (fetchCurrentStreamHeadAndVerify crypto server fuel streamObjectId) client
      (fun _ t => CacheReached crypto.toCryptography genesis t.epochCache)
      fun _ t => CacheReached crypto.toCryptography genesis t.epochCache := by
  refine .bind (call_ensures ?_)
  split
  · split
    · exact .pure h
    · exact .throw h
  · refine .bind (orStop_ensures ?_ fun _ => h)
    intro object _
    refine .bind (orStop_ensures ?_ fun _ => h)
    intro head _
    refine .bind (.mono (fetchAndVerifyStreamHead_ensures h) ?_ fun _ _ h => h)
    rintro _ u ⟨hu, -⟩
    exact hu

/-- Opening a stream keeps the cache reached, and the stream starts fresh. -/
theorem openStream_ensures (fuel pageSize streamId : Nat) (start : Option Nat) :
    Ensures (openStream crypto server fuel pageSize streamId start) client
      (fun state t => CacheReached crypto.toCryptography genesis t.epochCache ∧ Fresh position state ∧
        crypto.deriveEventStreamHeadObjectId streamId = .ok state.streamObjectId)
      fun _ t => CacheReached crypto.toCryptography genesis t.epochCache := by
  cases start with
  | none =>
    refine .bind (orStop_ensures ?_ fun _ => h)
    intro id hid
    refine .bind ((fetchCurrentStreamHeadAndVerify_ensures h).mono ?_ (fun _ _ h => h))
    intro r t ht
    cases r with
    | none => exact ⟨ht, .new, Checked.mapError_ok.mp hid⟩
    | some =>
      refine .bind (.lift ?_ (fun _ _ => ht))
      intro start _
      exact ⟨ht, .new, Checked.mapError_ok.mp hid⟩
  | some =>
    refine .bind (orStop_ensures ?_ fun _ => h)
    intro id hid
    split
    · exact ⟨h, .new, Checked.mapError_ok.mp hid⟩
    · refine .bind ((fetchAndVerifyStreamHead_ensures h).mono ?_ (fun _ _ h => h))
      rintro head t ⟨ht, -⟩
      refine .bind (.lift ?_ (fun _ _ => ht))
      intro start _
      exact ⟨ht, .new, Checked.mapError_ok.mp hid⟩

end Sui.LightClient

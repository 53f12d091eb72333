import Sui.Network.Lemmas.StateSync

/-!
# What peers can do to state sync

Every checkpoint that a sync task inserts is verified, or it was fetched and has the pinned digest, or it was answered from the
cache for a pinned number. For the last of these nothing has compared the digest. Elsewhere the committee of the epoch that a
summary names is looked up before anything else about it is checked, and a peer that names an epoch without a committee ends the
node.
-/

namespace Sui.StateSync

open Library Checked BTreeMap Sui.Types

variable {Sig Agg : Type} {crypto : Cryptography Sig Agg} {config : Config}

/-! ## What is inserted -/

/-- A checkpoint that may be inserted: it has the next number, and it is verified against its predecessor or has the pinned digest. -/
structure Insertion.Trusted (crypto : Cryptography Sig Agg) (config : Config) (i : Insertion Agg) : Prop where
  next : i.checkpoint.sequenceNumber = i.store.highestVerified.sequenceNumber + 1
  verified : Verified crypto i.store i.store.highestVerified i.checkpoint ∨ config.Pins crypto i.checkpoint

/-- If no peer pushes or names a summary that has a pinned number and another digest, everything that is inserted follows the
last checkpoint of the task and is verified against it or pinned. That checkpoint is the highest verified one, unless the
archive or consensus has put another one above it. -/
theorem trusted_of_delivers {store : Store Agg} {events : List (Event Agg)} {s : State Agg} {insertions : List (Insertion Agg)}
    (hevents : ∀ event ∈ events, ∀ checkpoint, (∃ peerId, event = .push peerId checkpoint) ∨
      (∃ peerId lowWatermark, event = .latest peerId checkpoint lowWatermark) →
      (config.pinnedDigestIndex checkpoint.sequenceNumber).isSome → config.Pins crypto checkpoint)
    (h : run crypto config (.init store) events = .ok (s, insertions)) {i : Insertion Agg} (hi : i ∈ insertions) :
    (i.checkpoint.sequenceNumber = i.current.sequenceNumber + 1 ∧
      (Verified crypto i.store i.current i.checkpoint ∨ config.Pins crypto i.checkpoint)) ∧
      (QuietRun crypto config store events → i.Trusted crypto config) := by
  have hdelivers : ∀ event ∈ events, event.Delivers crypto config fun checkpoint =>
      (config.pinnedDigestIndex checkpoint.sequenceNumber).isSome → config.Pins crypto checkpoint := by
    intro event hevent
    cases event with
    | push peerId checkpoint => exact hevents _ hevent checkpoint (.inl ⟨peerId, rfl⟩)
    | latest peerId checkpoint lowWatermark => exact hevents _ hevent checkpoint (.inr ⟨peerId, lowWatermark, rfl⟩)
    | response _ _ response =>
      cases response with
      | none => trivial
      | some => exact pins_of_not_mismatchesPinned
    | _ => trivial
  have haccepted := (run_invariant (Q := QuietRun crypto config store events) hdelivers id h).2 i hi
  have hverified : Verified crypto i.store i.current i.checkpoint ∨ config.Pins crypto i.checkpoint := by
    rcases haccepted.verified with hpinned | hverified
    · exact .inr (haccepted.property hpinned)
    · exact .inl hverified
  refine ⟨⟨haccepted.next, hverified⟩, ?_⟩
  intro hquiet
  rw [haccepted.current hquiet] at hverified
  exact ⟨haccepted.current hquiet ▸ haccepted.next, hverified⟩

/-! ## A small network -/

section Example

/-- A commitment as a pair of numbers. -/
def encodeCommitment : CheckpointCommitment → Nat × Nat
  | .ecmhLiveObjectSetDigest digest => (0, digest)
  | .checkpointArtifactsDigest digest => (1, digest)

theorem encodeCommitment_injective : Function.Injective encodeCommitment := by
  rintro (_ | _) (_ | _) h <;> simp_all [encodeCommitment]

/-- A digest that writes the fields of a summary into one number, and signatures that are sums of keys. -/
def exampleCrypto : Cryptography Nat Nat where
  digest s := Encodable.encode (s.epoch, s.sequenceNumber, s.networkTotalTransactions, s.contentDigest, s.previousDigest,
    s.checkpointCommitments.map encodeCommitment, s.endOfEpochData.map (·.nextEpochCommittee), s.otherFields)
  digest_injective := by
    intro a b hab
    have := Encodable.encode_injective hab
    obtain ⟨e, n, t, c, p, m, d, o⟩ := a
    obtain ⟨e', n', t', c', p', m', d', o'⟩ := b
    simp only [Prod.mk.injEq] at this
    obtain ⟨rfl, rfl, rfl, rfl, rfl, hcommitments, hdata, rfl⟩ := this
    have hinj : Function.Injective EndOfEpochData.nextEpochCommittee := by
      rintro ⟨_⟩ ⟨_⟩ rfl
      rfl
    rw [Option.map_injective hinj hdata, encodeCommitment_injective.list_map hcommitments]
  scheme := .ofSigning fun key _ => key
  isPublicKey _ := true

/-- A summary with no end-of-epoch data. -/
def exampleCheckpoint (epoch sequenceNumber : Nat) (previousDigest : Option CheckpointDigest) (signers : BTreeSet Nat) :
    Checkpoint Nat :=
  ⟨⟨epoch, sequenceNumber, 0, 0, previousDigest, [], none, []⟩, ⟨epoch, 1, signers⟩⟩

def exampleCommittee : EpochCommittee := .ofOne 0 1

/-- A store with the genesis checkpoint and the committee of epoch 0. -/
def exampleStore : Store Nat :=
  ⟨(∅ : BTreeMap Nat (Checkpoint Nat)).insert 0 (exampleCheckpoint 0 0 none ∅), ∅,
    (∅ : BTreeMap Nat EpochCommittee).insert 0 exampleCommittee, exampleCheckpoint 0 0 none ∅⟩

/-- A node with the pinned checkpoints `pinned`. -/
def exampleConfig (pinned : List (Nat × CheckpointDigest)) : Config where
  pinnedCheckpoints := pinned
  maxCheckpointLookahead := 100
  maxCheckpointSyncBatchSize := 100
  checkpointHeaderDownloadConcurrency := 4
  genesisCheckpointDigest := (exampleCheckpoint 0 0 none ∅).digest exampleCrypto

/-- A peer that gives the genesis checkpoint of the node pushes a summary of checkpoint 1, and the node syncs it. -/
def pushEvents (checkpoint : Checkpoint Nat) : List (Event Nat) :=
  [.genesis 5 (some (exampleCheckpoint 0 0 none ∅)), .push 5 checkpoint, .startSync, .poll 1, .verifyNext]

/-- A peer pushes a summary of checkpoint 2, and another peer answers the request for checkpoint 1. -/
def fetchEvents (checkpoint : Checkpoint Nat) : List (Event Nat) :=
  [.genesis 5 (some (exampleCheckpoint 0 0 none ∅)), .push 5 (exampleCheckpoint 0 2 none ∅), .startSync, .poll 1,
    .response 1 6 (some checkpoint), .verifyNext]

/-- Checkpoint 1 is pinned to the digest 0. A peer pushes a summary with another digest, no predecessor and no signer, and it is
inserted. -/
theorem pushed_inserted_despite_pin :
    ∃ s insertions, run exampleCrypto (exampleConfig [(1, 0)]) (.init exampleStore) (pushEvents (exampleCheckpoint 0 1 none ∅)) =
      .ok (s, insertions) ∧ ∃ i ∈ insertions, ¬ i.Trusted exampleCrypto (exampleConfig [(1, 0)]) := by
  obtain ⟨⟨s, insertions⟩, hrun, hbad⟩ := exists_ok
    (x := run exampleCrypto (exampleConfig [(1, 0)]) (.init exampleStore) (pushEvents (exampleCheckpoint 0 1 none ∅)))
    (fun r => r.2.any fun i => decide (i.checkpoint.data.previousDigest = none) &&
      decide ((i.checkpoint.sequenceNumber, i.checkpoint.digest exampleCrypto) ∉ (exampleConfig [(1, 0)]).pinnedCheckpoints))
    (by decide +kernel)
  obtain ⟨i, hi, hbad⟩ := List.any_eq_true.mp hbad
  simp only [Bool.and_eq_true, decide_eq_true_eq] at hbad
  refine ⟨s, insertions, hrun, i, hi, ?_⟩
  intro htrusted
  rcases htrusted.verified with hverified | hpins
  · exact absurd (hbad.1.symm.trans hverified.chained) nofun
  · exact hbad.2 hpins

/-- With the digest of the summary pinned, the same summary is fetched and inserted. -/
theorem trusted_of_delivers_fetched :
    ∃ s i, run exampleCrypto (exampleConfig [(1, (exampleCheckpoint 0 1 none ∅).digest exampleCrypto)]) (.init exampleStore)
      (fetchEvents (exampleCheckpoint 0 1 none ∅)) = .ok (s, [i]) ∧
      i.Trusted exampleCrypto (exampleConfig [(1, (exampleCheckpoint 0 1 none ∅).digest exampleCrypto)]) := by
  obtain ⟨⟨s, insertions⟩, hrun, hone⟩ := exists_ok
    (x := run exampleCrypto (exampleConfig [(1, (exampleCheckpoint 0 1 none ∅).digest exampleCrypto)]) (.init exampleStore)
      (fetchEvents (exampleCheckpoint 0 1 none ∅))) (fun r => decide (r.2.length = 1)) (by decide +kernel)
  simp only [decide_eq_true_eq] at hone
  obtain ⟨i, rfl⟩ := List.length_eq_one_iff.mp hone
  refine ⟨s, i, hrun, (trusted_of_delivers ?_ hrun List.mem_cons_self).2 ?_⟩
  · -- the only pushed summary has number 2, which is not pinned
    rintro event hevent checkpoint hdelivered hpinned
    have hcheckpoint : checkpoint = exampleCheckpoint 0 2 none ∅ := by
      rcases hdelivered with ⟨_, rfl⟩ | ⟨_, _, rfl⟩ <;> simp [fetchEvents] at hevent
      exact hevent.2
    rw [hcheckpoint] at hpinned
    exact absurd hpinned (by decide +kernel)
  · rintro pre event post hevents state _ -
    have hevent : event ∈ fetchEvents (exampleCheckpoint 0 1 none ∅) := by simp [hevents]
    simp only [fetchEvents, List.mem_cons, List.not_mem_nil, or_false] at hevent
    rcases hevent with rfl | rfl | rfl | rfl | rfl | rfl <;> trivial

end Example

/-! ## How the verification of a summary ends -/

/-- The loop of `sync_to_checkpoint` takes the summary `checkpoint` and inserts it. -/
def Inserts (crypto : Cryptography Sig Agg) (config : Config) (s : State Agg) (checkpoint : Checkpoint Agg) : Prop :=
  ∃ s' inserted, step crypto config s .verifyNext = .ok (s', some inserted) ∧ inserted.checkpoint = checkpoint ∧
    s'.store.certifiedCheckpoints[checkpoint.sequenceNumber]? = some checkpoint ∧
    checkpoint.sequenceNumber ≤ s'.store.highestVerified.sequenceNumber

/-- The loop of `sync_to_checkpoint` returns an error, with the summary removed from the cache and the store as it was. -/
def Discards (crypto : Cryptography Sig Agg) (config : Config) (s : State Agg) (checkpoint : Checkpoint Agg) : Prop :=
  ∃ s', step crypto config s .verifyNext = .ok (s', none) ∧ s'.syncTask = none ∧ s'.store = s.store ∧
    s'.peerHeights.unprocessedCheckpoints[checkpoint.digest crypto]? = none

/-- In every reachable state, the summary that is verified next is inserted or discarded if and only if it is verifiable with
the store. Otherwise the node panics. -/
theorem verifyNext_ends_iff {store : Store Agg} {events : List (Event Agg)} {s : State Agg} {insertions : List (Insertion Agg)}
    (h : run crypto config (.init store) events = .ok (s, insertions)) {task : SyncTask Agg} (htask : s.syncTask = some task)
    {checkpoint : Checkpoint Agg} {maybePeerId : Option PeerId}
    (hanswer : task.requests[task.next]? = some (.answered (some checkpoint) maybePeerId)) :
    (Inserts crypto config s checkpoint ∨ Discards crypto config s checkpoint) ↔
      Verifiable crypto config s.store task.current checkpoint := by
  have hinv := (run_invariant (P := fun _ => True) (Q := False) (fun event _ => event.delivers_of_forall fun _ => trivial)
    False.elim h).1.task task htask
  obtain ⟨hnext, hlt, -, -⟩ := hinv.answer hanswer
  rw [← verificationStage_exists s.peerHeights maybePeerId hnext hlt]
  have hstep : step crypto config s .verifyNext = takeAnswer crypto config s task (some checkpoint) maybePeerId := by
    simp only [step, htask, hanswer]
  have htake : Word.add Panic.exhausted 64 task.current.sequenceNumber 1 = .ok task.next := by
    rw [Word.add_eq (by omega), hinv.next]
  simp only [Inserts, Discards, hstep, takeAnswer, htake, ok_bind, decide_true, assert_true]
  constructor
  · rintro (⟨s', _, hs', -⟩ | ⟨s', hs', -⟩)
    all_goals
      obtain ⟨stage, hstage, -⟩ := bind_ok.mp hs'
      exact ⟨stage, hstage⟩
  · rintro ⟨stage, hstage⟩
    rw [hstage, ok_bind]
    rcases verificationStage_ok hnext hlt hstage with ⟨store', hinsert, rfl, -⟩ | rfl
    · obtain ⟨hhighest, hcertified⟩ := insertCheckpoint_ok hinsert
      refine .inl ⟨_, _, rfl, rfl, hcertified, ?_⟩
      rw [hhighest]
      split <;> omega
    · refine .inr ⟨_, rfl, rfl, rfl, ?_⟩
      cases maybePeerId with
      | none => exact removeCheckpoint_get _ _
      | some => exact removeCheckpoint_get s.peerHeights _

section Example

/-- The store holds the committee of epoch 0 and of all epochs up to the one after its last end-of-epoch checkpoint. -/
def Store.HoldsCommittees (store : Store Agg) : Prop :=
  (store.getCommittee 0).isSome ∧ ∀ (n : Nat) (checkpoint : Checkpoint Agg), store.certifiedCheckpoints[n]? = some checkpoint →
    checkpoint.nextEpochCommittee.isSome → ∀ epoch ≤ checkpoint.epoch + 1, (store.getCommittee epoch).isSome

theorem exampleStore_holdsCommittees : exampleStore.HoldsCommittees := by
  refine ⟨by decide +kernel, ?_⟩
  intro n checkpoint hget hsome
  simp only [exampleStore, get_insert, get_empty] at hget
  split at hget
  · obtain rfl := Option.some.inj hget
    exact absurd hsome (by decide)
  · exact absurd hget nofun

/-- A peer pushes a summary of checkpoint 1 that names epoch 7, and the node panics. -/
theorem pushed_epoch_panics : exampleStore.HoldsCommittees ∧ run exampleCrypto (exampleConfig []) (.init exampleStore)
      (pushEvents (exampleCheckpoint 7 1 none ∅)) = .error (.missingCommittee 7 1) := by
  refine ⟨exampleStore_holdsCommittees, eq_error ?_⟩
  decide +kernel

/-- Checkpoint 1, signed by the committee. -/
def signedCheckpoint : Checkpoint Nat := exampleCheckpoint 0 1 (some ((exampleCheckpoint 0 0 none ∅).digest exampleCrypto)) {0}

/-- The task stands at epoch 0, and the next answer is a summary of checkpoint 1 from the cache that does not end epoch 0. -/
def answeredFromCache (task : SyncTask Nat) : Bool :=
  match task.requests[task.next]? with
  | some (Request.answered (some checkpoint) none) => decide (task.current.epoch = 0) &&
      decide (checkpoint.epoch = 0) && decide (checkpoint.sequenceNumber = 1) && checkpoint.nextEpochCommittee.isNone
  | _ => false

/-- A pushed summary of epoch 0, whose committee is there, is inserted or discarded. -/
theorem verifyNext_ends_iff_pushed :
    ∃ s insertions checkpoint, run exampleCrypto (exampleConfig []) (.init exampleStore) ((pushEvents signedCheckpoint).take 4) =
        .ok (s, insertions) ∧
      (Inserts exampleCrypto (exampleConfig []) s checkpoint ∨ Discards exampleCrypto (exampleConfig []) s checkpoint) := by
  obtain ⟨⟨s, insertions⟩, hrun, hstate⟩ := exists_ok
    (x := run exampleCrypto (exampleConfig []) (.init exampleStore) ((pushEvents signedCheckpoint).take 4))
    (fun r => (r.1.store.getCommittee 0).isSome && r.1.store.locallyComputedCheckpoints[(1 : Nat)]?.isNone &&
      r.1.syncTask.any answeredFromCache) (by decide +kernel)
  simp only [Bool.and_eq_true, Option.isNone_iff_eq_none] at hstate
  obtain ⟨⟨hcommittee, hlocal⟩, htask⟩ := hstate
  obtain ⟨task, htask, hanswer⟩ := (Option.any_eq_true _ _).mp htask
  rw [answeredFromCache] at hanswer
  split at hanswer
  swap
  · exact absurd hanswer (by simp)
  rename_i checkpoint hrequest
  simp only [Bool.and_eq_true, decide_eq_true_eq, Option.isNone_iff_eq_none] at hanswer
  obtain ⟨⟨⟨hcurrent, hepoch⟩, hseq⟩, hnone⟩ := hanswer
  refine ⟨s, insertions, checkpoint, hrun, (verifyNext_ends_iff hrun htask hrequest).mpr ⟨.inr ?_, .inr ?_, ?_, ?_⟩⟩
  · rwa [hepoch]
  · intro _
    rw [hcurrent]
    decide
  · intro _ members hmembers
    exact absurd (hnone.symm.trans hmembers) nofun
  · intro _ summary hsummary
    rw [hseq, hlocal] at hsummary
    cases hsummary

end Example

end Sui.StateSync

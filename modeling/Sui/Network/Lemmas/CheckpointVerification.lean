import Sui.Network.StateSync
import Sui.Types.Lemmas.Checkpoint

/-!
# The verification of a checkpoint and the cache of summaries

What the verification accepts and when it panics, when the store takes a checkpoint, and that the cache maps a sequence number to a
summary with that number.
-/

namespace Sui.StateSync

open Library Checked BTreeMap Sui.Types StateSync.Store PeerHeights Option

variable {Sig Agg : Type} {crypto : Cryptography Sig Agg} {config : Config}

/-! ## Verification -/

/-- The checkpoint names the digest of `current`, its epoch is that of `current` or the next one when `current` ends its epoch,
and a quorum of the committee of its epoch has signed it. -/
structure Verified (crypto : Cryptography Sig Agg) (store : Store Agg) (current checkpoint : Checkpoint Agg) : Prop where
  chained : checkpoint.data.previousDigest = some (current.digest crypto)
  epoch : checkpoint.epoch = current.epoch ∨ checkpoint.epoch = current.epoch + 1 ∧ current.nextEpochCommittee.isSome
  signed : ∃ committee, store.getCommittee checkpoint.epoch = some committee ∧
    checkpoint.verifyAuthoritySignatures crypto.scheme committee = .ok ()

variable {store : Store Agg} {current : Checkpoint Agg}

variable {r : Except (Checkpoint Agg) (Checkpoint Agg)}

theorem verified_iff {committee : EpochCommittee} {checkpoint : Checkpoint Agg}
    (hcommittee : store.getCommittee checkpoint.epoch = some committee) :
    Verified crypto store current checkpoint ↔ checkpoint.data.previousDigest = some (current.digest crypto) ∧
      (checkpoint.epoch = current.epoch ∨ checkpoint.epoch = current.epoch + 1 ∧ current.nextEpochCommittee.isSome) ∧
      checkpoint.verifyAuthoritySignatures crypto.scheme committee = .ok () := by
  constructor
  · rintro ⟨hchain, hepoch, committee', h', hsigned⟩
    rw [hcommittee] at h'
    cases h'
    exact ⟨hchain, hepoch, hsigned⟩
  · rintro ⟨hchain, hepoch, hsigned⟩
    exact ⟨hchain, hepoch, committee, hcommittee, hsigned⟩

/-- What is verified is the checkpoint that came in. -/
theorem verifyCheckpoint_same {checkpoint verified : Checkpoint Agg}
    (h : verifyCheckpoint crypto current store checkpoint = .ok (.ok verified)) : verified = checkpoint := by
  simp only [verifyCheckpoint, verifyCheckpointWithCommittee, bind_ok] at h
  obtain ⟨_, _, _, _, _, _, h⟩ := h
  split at h
  · cases h
  simp only [bind_ok] at h
  obtain ⟨_, _, h⟩ := h
  split at h
  · cases h
  split at h
  · cases h
  split at h
  · cases h
  · cases h
    rfl

section

variable {current checkpoint : Checkpoint Agg} (hnext : checkpoint.sequenceNumber = current.sequenceNumber + 1)
  (hlt : checkpoint.sequenceNumber < 2 ^ 64)

include hnext hlt

theorem verifyCheckpointWithCommittee_ok {committee : EpochCommittee}
    (hcommittee : store.getCommittee checkpoint.epoch = some committee) :
    verifyCheckpointWithCommittee crypto committee current checkpoint = .ok r ↔
      (checkpoint.data.previousDigest = some (current.digest crypto) → current.epoch + 1 < 2 ^ 64) ∧
      (Verified crypto store current checkpoint ∧ r = .ok checkpoint ∨
        ¬ Verified crypto store current checkpoint ∧ r = .error checkpoint) := by
  have hok : ∀ x, (.ok x : Except Panic (Except (Checkpoint Agg) (Checkpoint Agg))) = .ok r ↔ r = x := by
    intro x
    rw [Except.ok.injEq]
    exact eq_comm
  unfold verifyCheckpointWithCommittee
  rw [verified_iff hcommittee, Word.add_eq (by omega)]
  simp only [ok_bind, hnext, decide_true, assert_true, pure_eq_ok]
  by_cases hchain : checkpoint.data.previousDigest = some (current.digest crypto)
  swap
  · rw [if_pos fun h => hchain h.symm, hok]
    simp [hchain]
  rw [if_neg (by simp [hchain])]
  simp only [hchain, true_and, true_imp_iff, bind_ok, Word.add_ok]
  by_cases hepoch : current.epoch + 1 < 2 ^ 64
  swap
  · simp only [hepoch, false_and, exists_false]
  simp only [hepoch, true_and, exists_eq_left']
  by_cases hcur : checkpoint.epoch = current.epoch
  · have hne : checkpoint.epoch ≠ current.epoch + 1 := by omega
    rw [if_neg (by simp [hcur]), if_neg (by simp [hne])]
    cases hv : checkpoint.verifyAuthoritySignatures crypto.scheme committee with
    | error => simp [hok]
    | ok => simp [hcur, hok]
  · by_cases hsucc : checkpoint.epoch = current.epoch + 1
    · rw [if_neg (by simp [hsucc])]
      cases hdata : current.nextEpochCommittee with
      | none => simp [hsucc, hok]
      | some =>
        rw [if_neg (by simp)]
        cases hv : checkpoint.verifyAuthoritySignatures crypto.scheme committee with
        | error => simp [hok]
        | ok => simp [hsucc, hok]
    · rw [if_pos ⟨hcur, hsucc⟩, hok]
      simp [hcur, hsucc]

/-- Without a pin the verification ends if and only if the committee is there and the next epoch, where needed, is a number. -/
theorem verifyUnlessPinned_ok : verifyUnlessPinned crypto config current store checkpoint = .ok r ↔
      ((config.pinnedDigestIndex checkpoint.sequenceNumber).isSome ∨ (store.getCommittee checkpoint.epoch).isSome ∧
        (checkpoint.data.previousDigest = some (current.digest crypto) → current.epoch + 1 < 2 ^ 64)) ∧
      (((config.pinnedDigestIndex checkpoint.sequenceNumber).isSome ∨ Verified crypto store current checkpoint) ∧ r = .ok checkpoint ∨
        ¬ ((config.pinnedDigestIndex checkpoint.sequenceNumber).isSome ∨ Verified crypto store current checkpoint) ∧
          r = .error checkpoint) := by
  unfold verifyUnlessPinned
  split_ifs with hpinned
  · simp only [hpinned, true_or, true_and, not_true, false_and, or_false, Except.ok.injEq]
    exact eq_comm
  · simp only [hpinned, false_or, Bool.false_eq_true]
    unfold verifyCheckpoint
    cases hcommittee : store.getCommittee checkpoint.epoch with
    | none => simp [expect]
    | some =>
      simp only [expect_some, ok_bind, verifyCheckpointWithCommittee_ok hnext hlt hcommittee, isSome_some, true_and]

end

/-! ## The store -/

/-- The end-of-epoch data of a checkpoint make a committee of the next epoch, and the store has no other one of that epoch. -/
structure FitsStore (crypto : Cryptography Sig Agg) (store : Store Agg) (checkpoint : Checkpoint Agg)
    (nextEpochCommittee : List (AuthorityName × Nat)) : Prop where
  epoch : checkpoint.epoch + 1 < 2 ^ 64
  total : ((collectVotingRights nextEpochCommittee).toList.map Prod.snd).sum % 2 ^ 64 = totalVotingPower
  publicKeys : ∀ right ∈ (collectVotingRights nextEpochCommittee).toList, crypto.isPublicKey right.1 = true
  same : ∀ committee, store.getCommittee (checkpoint.epoch + 1) = some committee →
    committee.epoch = checkpoint.epoch + 1 ∧ committee.votingRights = (collectVotingRights nextEpochCommittee).toList

variable {checkpoint : Checkpoint Agg}

/-- The committee of the next epoch is all that changes. -/
theorem insertNextCommittee_frame {store' : Store Agg} (h : store.insertNextCommittee crypto checkpoint = .ok store') :
    ∃ committees, store' = { store with committeeMap := committees } := by
  unfold insertNextCommittee at h
  split at h
  · simp only [bind_ok] at h
    obtain ⟨_, _, committee, _, h⟩ := h
    unfold insertCommittee at h
    split at h
    · simp only [bind_ok, pure_ok] at h
      obtain ⟨_, _, rfl⟩ := h
      exact ⟨_, rfl⟩
    · cases h
      exact ⟨_, rfl⟩
  · cases h
    exact ⟨_, rfl⟩

theorem insertNextCommittee_ok : (∃ store', store.insertNextCommittee crypto checkpoint = .ok store') ↔
      ∀ members, checkpoint.nextEpochCommittee = some members → FitsStore crypto store checkpoint members := by
  unfold insertNextCommittee
  split
  swap
  · rename_i hnone
    simp [hnone]
  rename_i members hmembers
  simp only [hmembers, some.injEq, forall_eq', bind_ok, Word.add_ok, mapError_ok]
  constructor
  · rintro ⟨store', _, ⟨hlt, rfl⟩, committee, hcommittee, hinsert⟩
    obtain ⟨htotal, hkeys, hepoch, hrights⟩ := newCommittee_ok.mp hcommittee
    refine ⟨hlt, htotal, hkeys, ?_⟩
    intro old hold
    unfold insertCommittee at hinsert
    rw [hepoch, show store.committeeMap[checkpoint.epoch + 1]? = some old from hold] at hinsert
    simp only [bind_ok, assert_ok, decide_eq_true_eq, exists_const] at hinsert
    obtain ⟨rfl, _⟩ := hinsert
    exact ⟨hepoch, hrights⟩
  · rintro ⟨hlt, htotal, hkeys, hsame⟩
    let committee : EpochCommittee := ⟨checkpoint.epoch + 1, _, pairwise_toList (collectVotingRights members)⟩
    have hcommittee : newCommittee crypto.isPublicKey (checkpoint.epoch + 1) (collectVotingRights members) = .ok committee :=
      newCommittee_ok.mpr ⟨htotal, hkeys, rfl, rfl⟩
    cases hold : store.getCommittee (checkpoint.epoch + 1) with
    | none =>
      refine ⟨{ store with committeeMap := store.committeeMap.insert committee.epoch committee }, _, ⟨hlt, rfl⟩, committee, hcommittee, ?_⟩
      unfold insertCommittee
      rw [show store.committeeMap[committee.epoch]? = none from hold]
    | some old =>
      obtain ⟨hepoch, hrights⟩ := hsame old hold
      have heq : old = committee := by
        obtain ⟨e, r, _⟩ := old
        obtain ⟨rfl, rfl⟩ : e = _ ∧ r = _ := ⟨hepoch, hrights⟩
        rfl
      refine ⟨store, _, ⟨hlt, rfl⟩, committee, hcommittee, ?_⟩
      unfold insertCommittee
      rw [show store.committeeMap[committee.epoch]? = some old from hold]
      simp [heq]

variable (store checkpoint) in
/-- The node has computed no other summary of the number. -/
def NoFork : Prop :=
  ∀ summary, store.locallyComputedCheckpoints[checkpoint.sequenceNumber]? = some summary → summary = checkpoint.data

theorem insertCertifiedCheckpoint_ok {store' : Store Agg} : store.insertCertifiedCheckpoint checkpoint = .ok store' ↔
      NoFork store checkpoint ∧
        { store with certifiedCheckpoints := store.certifiedCheckpoints.insert checkpoint.sequenceNumber checkpoint } = store' := by
  simp only [insertCertifiedCheckpoint, bind_ok, assert_ok, pure_ok, exists_const, NoFork]
  cases store.locallyComputedCheckpoints[checkpoint.sequenceNumber]? <;> simp

/-- The higher one of two checkpoints. -/
theorem highestVerified_update : (store.updateHighestVerifiedCheckpoint checkpoint).highestVerified =
    if store.highestVerified.sequenceNumber < checkpoint.sequenceNumber then checkpoint else store.highestVerified := by
  unfold updateHighestVerifiedCheckpoint
  split <;> rfl

theorem certifiedCheckpoints_update :
    (store.updateHighestVerifiedCheckpoint checkpoint).certifiedCheckpoints = store.certifiedCheckpoints := by
  unfold updateHighestVerifiedCheckpoint
  split <;> rfl

/-- A checkpoint that is inserted becomes the highest verified one, unless that is higher. -/
theorem insertCheckpoint_ok {store' : Store Agg} (h : store.insertCheckpoint crypto checkpoint = .ok store') :
    (store'.highestVerified =
      if store.highestVerified.sequenceNumber < checkpoint.sequenceNumber then checkpoint else store.highestVerified) ∧
      store'.certifiedCheckpoints[checkpoint.sequenceNumber]? = some checkpoint := by
  simp only [Store.insertCheckpoint, insertVerifiedCheckpoint, bind_ok, pure_ok, insertCertifiedCheckpoint_ok] at h
  obtain ⟨store1, hnext, _, ⟨-, rfl⟩, rfl⟩ := h
  obtain ⟨committees, rfl⟩ := insertNextCommittee_frame hnext
  rw [highestVerified_update, certifiedCheckpoints_update, get_insert, if_pos rfl]
  exact ⟨rfl, rfl⟩

/-- A checkpoint from the archive that is not above the highest verified one does not change it. -/
theorem highestVerified_archive {store' : Store Agg} (h : getOrInsertVerifiedCheckpoint crypto store checkpoint = .ok store')
    (hle : checkpoint.sequenceNumber ≤ store.highestVerified.sequenceNumber) : store'.highestVerified = store.highestVerified := by
  unfold getOrInsertVerifiedCheckpoint at h
  split at h
  swap
  · cases h
    rfl
  split at h
  swap
  · cases h
    rfl
  simp only [bind_ok] at h
  obtain ⟨r, hverify, h⟩ := h
  cases r with
  | error =>
    cases h
    rfl
  | ok verified =>
    simp only [bind_ok, pure_ok] at h
    obtain ⟨store1, hinsert, rfl⟩ := h
    obtain rfl := verifyCheckpoint_same hverify
    have hnot : ¬ store.highestVerified.sequenceNumber < verified.sequenceNumber := Nat.not_lt.mpr hle
    have hhighest := (insertCheckpoint_ok hinsert).1
    rw [if_neg hnot] at hhighest
    rw [highestVerified_update, hhighest, if_neg hnot]

/-- A checkpoint from consensus that is not above the highest verified one does not change it. -/
theorem highestVerified_consensus {store' : Store Agg} (h : handleCheckpointFromConsensus crypto store checkpoint = .ok store')
    (hle : checkpoint.sequenceNumber ≤ store.highestVerified.sequenceNumber) : store'.highestVerified = store.highestVerified := by
  simp only [handleCheckpointFromConsensus, if_pos hle, bind_ok, pure_ok] at h
  obtain ⟨_, _, _, _, rfl⟩ := h
  rfl

/-! ## Pinned checkpoints -/

/-- A summary has the digest that is pinned for its sequence number. -/
def Config.Pins (config : Config) (crypto : Cryptography Sig Agg) (checkpoint : Checkpoint Agg) : Prop :=
  (checkpoint.sequenceNumber, checkpoint.digest crypto) ∈ config.pinnedCheckpoints

theorem pins_of_not_mismatchesPinned (h : mismatchesPinned crypto config checkpoint = false)
    (hpinned : (config.pinnedDigestIndex checkpoint.sequenceNumber).isSome) : config.Pins crypto checkpoint := by
  obtain ⟨i, hi⟩ := isSome_iff_exists.mp hpinned
  obtain ⟨pinned, hget, hkey⟩ := getElem?_of_binarySearchByKey hi
  rw [mismatchesPinned, hi] at h
  simp only [hget, any_some, bne_eq_false_iff_eq] at h
  have hmem := List.mem_of_getElem? hget
  rwa [show pinned = (checkpoint.sequenceNumber, checkpoint.digest crypto) from Prod.ext hkey h] at hmem

/-! ## The cache -/

/-- A sequence number of the cache leads to a summary with that number, a digest to the summary with that digest, and every summary
of the cache has the property `P`. -/
structure Consistent (crypto : Cryptography Sig Agg) (P : Checkpoint Agg → Prop) (heights : PeerHeights Agg) : Prop where
  sequenceNumber : ∀ (n : Nat) (digest : CheckpointDigest), heights.sequenceNumberToDigest[n]? = some digest →
    ∃ checkpoint, heights.unprocessedCheckpoints[digest]? = some checkpoint ∧ checkpoint.sequenceNumber = n
  digest : ∀ (digest : CheckpointDigest) (checkpoint : Checkpoint Agg), heights.unprocessedCheckpoints[digest]? = some checkpoint →
    checkpoint.digest crypto = digest ∧ P checkpoint

namespace Consistent

variable {P : Checkpoint Agg → Prop} {heights : PeerHeights Agg}

theorem empty : Consistent crypto P (.empty : PeerHeights Agg) := by
  constructor
  · intro n digest h
    exact absurd h (by simp [PeerHeights.empty])
  · intro digest checkpoint h
    exact absurd h (by simp [PeerHeights.empty])

section

variable (h : Consistent crypto P heights)

include h

theorem get {n : Nat}
    (hget : heights.getCheckpointBySequenceNumber n = some checkpoint) : checkpoint.sequenceNumber = n ∧ P checkpoint := by
  obtain ⟨digest, hdigest, hcheckpoint⟩ := bind_eq_some_iff.mp hget
  obtain ⟨checkpoint', hcheckpoint', hseq⟩ := h.sequenceNumber n digest hdigest
  obtain rfl : checkpoint' = checkpoint := some.inj (hcheckpoint'.symm.trans hcheckpoint)
  exact ⟨hseq, (h.digest digest _ hcheckpoint).2⟩

/-- The peers are no part of the cache. -/
theorem of_cache_eq {heights' : PeerHeights Agg}
    (hcheckpoints : heights'.unprocessedCheckpoints = heights.unprocessedCheckpoints)
    (hdigests : heights'.sequenceNumberToDigest = heights.sequenceNumberToDigest) : Consistent crypto P heights' := by
  constructor
  · rw [hcheckpoints, hdigests]
    exact h.sequenceNumber
  · rw [hcheckpoints]
    exact h.digest

theorem insertCheckpoint (hP : P checkpoint) : Consistent crypto P (heights.insertCheckpoint crypto checkpoint) := by
  unfold PeerHeights.insertCheckpoint
  split
  · exact h
  rename_i hnone
  constructor
  · intro n digest hdigest
    simp only [get_insert] at hdigest ⊢
    split at hdigest
    · rename_i heq
      obtain rfl := some.inj hdigest
      exact ⟨checkpoint, if_pos rfl, heq⟩
    · obtain ⟨other, hother, hseq⟩ := h.sequenceNumber n digest hdigest
      split
      · -- two summaries of one digest are one, and the number of this one was free
        rename_i hne heq
        have hdata := crypto.digest_injective ((h.digest digest other hother).1.trans heq.symm)
        exact absurd (by rw [CertifiedCheckpointSummary.sequenceNumber, ← hdata]; exact hseq) hne
      · exact ⟨other, hother, hseq⟩
  · exact forall_insert h.digest ⟨rfl, hP⟩

theorem removeCheckpoint (digest : CheckpointDigest) : Consistent crypto P (heights.removeCheckpoint digest) := by
  unfold PeerHeights.removeCheckpoint
  split
  swap
  · exact h
  rename_i removed hremoved
  constructor
  · intro n digest' hdigest'
    simp only [get_erase] at hdigest' ⊢
    split at hdigest'
    · exact absurd hdigest' nofun
    rename_i hne
    obtain ⟨other, hother, hseq⟩ := h.sequenceNumber n digest' hdigest'
    refine ⟨other, ?_, hseq⟩
    rw [if_neg ?_, hother]
    rintro rfl
    obtain rfl : removed = other := some.inj (hremoved.symm.trans hother)
    exact hne hseq
  · exact forall_erase h.digest digest

theorem cleanupOldCheckpoints (sequenceNumber : Nat) : Consistent crypto P (heights.cleanupOldCheckpoints sequenceNumber) := by
  unfold PeerHeights.cleanupOldCheckpoints
  constructor
  · intro n digest hdigest
    simp only [Std.ExtTreeMap.getElem?_filter, pfilter_eq_some_iff, Std.ExtTreeMap.getKey_eq, decide_eq_true_eq] at hdigest ⊢
    obtain ⟨hdigest, hlt⟩ := hdigest
    obtain ⟨other, hother, hseq⟩ := h.sequenceNumber n digest hdigest
    exact ⟨other, ⟨hother, hseq ▸ hlt⟩, hseq⟩
  · intro digest other hother
    simp only [Std.ExtTreeMap.getElem?_filter, pfilter_eq_some_iff] at hother
    exact h.digest digest other hother.1

theorem updatePeerHeight (peerId : PeerId) (height : Nat) (lowWatermark : Option Nat) :
    Consistent crypto P (heights.updatePeerHeight peerId height lowWatermark).1 := by
  unfold PeerHeights.updatePeerHeight
  split
  · split
    · exact h.of_cache_eq rfl rfl
    · exact h
  · exact h

theorem updatePeerInfo {peerId : PeerId} {lowWatermark : Option Nat}
    (hP : P checkpoint) : Consistent crypto P (heights.updatePeerInfo crypto peerId checkpoint lowWatermark) := by
  have hheight := h.updatePeerHeight peerId checkpoint.sequenceNumber lowWatermark
  unfold PeerHeights.updatePeerInfo
  split
  · rename_i heights' heq
    rw [heq] at hheight
    exact hheight.insertCheckpoint hP
  · rename_i heights' heq
    rwa [heq] at hheight

theorem insertPeerInfo {peerId : PeerId} {info : PeerStateSyncInfo} :
    Consistent crypto P (heights.insertPeerInfo peerId info) := by
  unfold PeerHeights.insertPeerInfo
  split
  · split <;> exact h.of_cache_eq rfl rfl
  · exact h.of_cache_eq rfl rfl

end

end Consistent

/-! ## The stage that verifies -/

/-- A summary that the stage inserts is pinned or verified. One that it does not insert is neither, and it is removed from the
cache. -/
theorem verificationStage_ok {heights : PeerHeights Agg} {maybePeerId : Option PeerId} {stage : Stage Agg}
    (hnext : checkpoint.sequenceNumber = current.sequenceNumber + 1) (hlt : checkpoint.sequenceNumber < 2 ^ 64)
    (h : verificationStage crypto config store heights current checkpoint maybePeerId = .ok stage) :
    (∃ store', store.insertCheckpoint crypto checkpoint = .ok store' ∧ stage = .inserted store' ∧
      ((config.pinnedDigestIndex checkpoint.sequenceNumber).isSome ∨ Verified crypto store current checkpoint)) ∨
    stage = .failed (maybePeerId.elim (heights.removeCheckpoint (checkpoint.digest crypto))
      (heights.removeCheckpoint (checkpoint.digest crypto)).markPeerAsNotOnSameChain) := by
  simp only [verificationStage, bind_ok, verifyUnlessPinned_ok hnext hlt] at h
  obtain ⟨r, ⟨-, ⟨hgood, rfl⟩ | ⟨-, rfl⟩⟩, h⟩ := h
  · simp only [bind_ok, pure_ok] at h
    obtain ⟨store', hinsert, rfl⟩ := h
    exact .inl ⟨store', hinsert, rfl, hgood⟩
  · cases h
    exact .inr rfl

variable (crypto config store current checkpoint) in
/-- What the stage needs to end without a panic: the number is pinned or the committee of the epoch is there, the next epoch is
a number where it is needed, the end-of-epoch data of an inserted summary make a committee, and the node has not computed
another summary of its number. -/
structure Verifiable : Prop where
  committee : (config.pinnedDigestIndex checkpoint.sequenceNumber).isSome ∨ (store.getCommittee checkpoint.epoch).isSome
  epoch : (config.pinnedDigestIndex checkpoint.sequenceNumber).isSome ∨
    (checkpoint.data.previousDigest = some (current.digest crypto) → current.epoch + 1 < 2 ^ 64)
  nextCommittee : (config.pinnedDigestIndex checkpoint.sequenceNumber).isSome ∨ Verified crypto store current checkpoint →
    ∀ members, checkpoint.nextEpochCommittee = some members → FitsStore crypto store checkpoint members
  fork : (config.pinnedDigestIndex checkpoint.sequenceNumber).isSome ∨ Verified crypto store current checkpoint →
    NoFork store checkpoint

theorem insertCheckpoint_exists : (∃ store', store.insertCheckpoint crypto checkpoint = .ok store') ↔
      (∀ members, checkpoint.nextEpochCommittee = some members → FitsStore crypto store checkpoint members) ∧
        NoFork store checkpoint := by
  rw [← insertNextCommittee_ok]
  simp only [Store.insertCheckpoint, insertVerifiedCheckpoint, bind_ok, pure_ok, insertCertifiedCheckpoint_ok]
  constructor
  · rintro ⟨_, store1, hnext, _, ⟨hfork, -⟩, -⟩
    obtain ⟨_, rfl⟩ := insertNextCommittee_frame hnext
    exact ⟨⟨_, hnext⟩, hfork⟩
  · rintro ⟨⟨store1, hnext⟩, hfork⟩
    obtain ⟨_, rfl⟩ := insertNextCommittee_frame hnext
    exact ⟨_, _, hnext, _, ⟨hfork, rfl⟩, rfl⟩

theorem verificationStage_exists (heights : PeerHeights Agg) (maybePeerId : Option PeerId)
    (hnext : checkpoint.sequenceNumber = current.sequenceNumber + 1) (hlt : checkpoint.sequenceNumber < 2 ^ 64) :
    (∃ stage, verificationStage crypto config store heights current checkpoint maybePeerId = .ok stage) ↔
      Verifiable crypto config store current checkpoint := by
  simp only [verificationStage, bind_ok, verifyUnlessPinned_ok hnext hlt]
  constructor
  · rintro ⟨stage, r, ⟨hends, hr⟩, h⟩
    rcases hr with ⟨-, rfl⟩ | ⟨hbad, -⟩
    · simp only [bind_ok] at h
      obtain ⟨store', hinsert, -⟩ := h
      obtain ⟨hfits, hfork⟩ := insertCheckpoint_exists.mp ⟨store', hinsert⟩
      exact ⟨hends.imp_right And.left, hends.imp_right And.right, fun _ => hfits, fun _ => hfork⟩
    · exact ⟨hends.imp_right And.left, hends.imp_right And.right, fun hgood => absurd hgood hbad, fun hgood => absurd hgood hbad⟩
  · intro h
    have hends := or_and_left.mpr ⟨h.committee, h.epoch⟩
    by_cases hgood : (config.pinnedDigestIndex checkpoint.sequenceNumber).isSome ∨ Verified crypto store current checkpoint
    · obtain ⟨store', hinsert⟩ := insertCheckpoint_exists.mpr ⟨h.nextCommittee hgood, h.fork hgood⟩
      exact ⟨.inserted store', .ok checkpoint, ⟨hends, .inl ⟨hgood, rfl⟩⟩, by simp [hinsert]⟩
    · exact ⟨_, .error checkpoint, ⟨hends, .inr ⟨hgood, rfl⟩⟩, rfl⟩

theorem removeCheckpoint_get (heights : PeerHeights Agg) (digest : CheckpointDigest) :
    (heights.removeCheckpoint digest).unprocessedCheckpoints[digest]? = none := by
  unfold removeCheckpoint
  split
  · simp
  · assumption

end Sui.StateSync

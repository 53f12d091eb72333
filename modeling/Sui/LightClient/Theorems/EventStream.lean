import Sui.LightClient.Lemmas.EventStream
import Sui.LightClient.Theorems.Proof

/-!
# Authenticity of event streams

An event is authentic if it was settled into the head of the stream as of a certified checkpoint. The client does not compare
the object of a response with the reference that is proved, and it yields events at or before the last verified checkpoint
without a check.
-/

namespace Sui.LightClient

open Library Settlement Encodable

/-- The event was settled into the head of the stream in a certified checkpoint. -/
def Authentic {Sig Agg Merkle Absence : Type} (crypto : EventCryptography Sig Agg Merkle Absence)
    (genesis : Types.EpochCommittee) (streamId : Nat) (event : AuthenticatedEvent) : Prop :=
  ∃ streamObjectId, crypto.deriveEventStreamHeadObjectId streamId = .ok streamObjectId ∧ Genuine crypto genesis streamObjectId event

/-- If every proof of the server comes with the object that it is about, and its pages are in order, every event that a stream
yields is authentic. -/
theorem authentic_of_matches {Sig Agg Merkle Absence : Type}
    (crypto : EventCryptography Sig Agg Merkle Absence) (server : Server Agg Merkle) (position : Cursor → Nat)
    (genesis : Types.EpochCommittee) (fuel pageSize streamId : Nat) (start : Option Nat) (polls : Nat)
    (hserver : Faithful crypto server position) :
    ∀ event ∈ yielded (runStream crypto server genesis fuel pageSize streamId start polls),
      Authentic crypto genesis streamId event := by
  intro event hevent
  unfold runStream at hevent
  split at hevent
  · rename_i state t hstate
    obtain ⟨ht, hfresh, hid⟩ := (openStream_ensures CacheReached.new fuel pageSize streamId start).of_ok hstate
    exact ⟨_, hid, yielded_genuine ht hserver hfresh event hevent⟩
  · cases hevent

/-! ## A genuine and a forged event -/

section Example

def commitmentFields (c : EventCommitment) : Nat × Nat × Nat × Nat := (c.checkpointSeq, c.transactionIdx, c.eventIdx, c.digest)

theorem commitmentFields_injective : Function.Injective commitmentFields := by
  rintro ⟨_, _, _, _⟩ ⟨_, _, _, _⟩ h
  simp_all [commitmentFields]

def Object.fields (object : Object) : Nat × Nat × List Nat := (object.id, object.version, object.contents)

theorem Object.fields_injective : Function.Injective Object.fields := by
  rintro ⟨_, _, _⟩ ⟨_, _, _⟩ h
  simp_all [fields]

/-- The head in the contents of an object. -/
def exampleHead (object : Object) : Except String EventStreamHead :=
  match object.contents with
  | checkpointSeq :: numEvents :: mmr => .ok ⟨mmr, checkpointSeq, numEvents⟩
  | _ => .error "Failed to deserialize EventStreamHead"

/-- Digests that write the fields into one number. Only one summary is ever signed. -/
def streamCrypto (summary : Types.CheckpointSummary) : EventCryptography Nat Nat (List ObjectRef) (List ObjectRef × Nat) where
  toCryptography := { exampleCrypto with
    scheme := exampleCrypto.scheme.restrict fun message => message = (summary, 0)
    objectDigest := fun object => encode object.fields }
  objectDigest_injective := encode_injective.comp Object.fields_injective
  eventDigest event := encode event.fields
  eventDigest_injective := encode_injective.comp Event.fields_injective
  buildEventMerkleRoot events := encode (events.map commitmentFields)
  buildEventMerkleRoot_injective := encode_injective.comp commitmentFields_injective.list_map
  buildEventMerkleRoot_ne_zero := by
    intro events hevents hzero
    have hnil : encode (events.map commitmentFields) = encode ([] : List (Nat × Nat × Nat × Nat)) := hzero
    exact hevents (List.map_eq_nil_iff.mp (encode_injective hnil))
  hashTwoToOneU256 left right := Nat.pair left right + 1
  hashTwoToOneU256_injective := by
    intro a b c d h
    exact Nat.pair_eq_pair.mp (Nat.succ.inj h)
  hashTwoToOneU256_ne_zero left right := Nat.succ_ne_zero _
  extractStreamHeadFromObject := exampleHead
  deriveEventStreamHeadObjectId streamId := .ok streamId

section

variable (objectRef : ObjectRef)

/-- The only checkpoint writes one object. -/
def writtenStates : ObjectStates := (∅ : ObjectStates).insert objectRef.id (objectRef.version, objectRef.digest)

def writtenSummary : Types.CertifiedCheckpointSummary Nat :=
  ⟨⟨0, 1, 0, 0, none, [.checkpointArtifactsDigest (checkpointArtifactsDigest exampleCrypto (writtenStates objectRef))], none, []⟩,
    ⟨0, 1, {0}⟩⟩

/-- The digests with which only that summary is signed. -/
def writtenCrypto : EventCryptography Nat Nat (List ObjectRef) (List ObjectRef × Nat) := streamCrypto (writtenSummary objectRef).data

def sentEvent : AuthenticatedEvent := ⟨⟨0, [], 0, [], []⟩, 1, 0, 0⟩

/-- The object of stream 7, with a head into which the event is folded. -/
def sentObject : Object :=
  ⟨7, 1, [1, 1, (writtenCrypto objectRef).buildEventMerkleRoot [commitment (writtenCrypto objectRef) sentEvent]]⟩

/-- A server that sends the event, and the head with the proof that the written object is in the checkpoint. -/
def sendingServer : Server Nat (List ObjectRef) where
  listEvents _ request := .ok (if request.startCheckpoint ≤ 1 then
    [.ok (.item none ⟨.ok sentEvent.event, some 1, some 0, some 0⟩), .ok (.queryEnd (some .ledgerTip))] else [])
  listTransactions _ _ := .ok [.ok (.item none ⟨some 1, some 0⟩), .ok (.queryEnd (some .checkpointBound))]
  getCheckpointObjectProof _ id _ := if id = 7 then .ok ⟨some (.ok (writtenSummary objectRef)), some (.inclusion ⟨some (.ok objectRef),
    .ok ((writtenStates objectRef).leaves, 0, exampleCrypto.merkle.root (writtenStates objectRef).leaves),
    some (.ok (sentObject objectRef))⟩)⟩ else .error ⟨.notFound, ""⟩
  getObject _ _ := .error ⟨.notFound, ""⟩
  getEpoch _ _ := .ok (some ⟨none⟩)
  getCheckpoint _ _ := .error ⟨.notFound, ""⟩

end

def sentRef : ObjectRef := computeObjectReference (writtenCrypto ⟨7, 1, 0⟩).toCryptography (sentObject ⟨7, 1, 0⟩)

theorem faithful_sendingServer : Faithful (writtenCrypto sentRef) (sendingServer sentRef) fun _ => 0 where
  proofs := by
    intro n checkpoint id response hresponse
    rw [sendingServer] at hresponse
    dsimp only at hresponse
    split_ifs at hresponse with hid
    cases hresponse
    rintro p objectRef object ⟨⟩ ⟨⟩ ⟨⟩
    exact ⟨rfl, hid.symm⟩
  events := by
    intro n request page hpage
    rw [sendingServer] at hpage
    dsimp only at hpage
    split_ifs at hpage with hstart
    · cases hpage
      refine ⟨List.pairwise_singleton _ _, ?_, by simp [Page.scanIncomplete]⟩
      intro event hevent
      rw [List.mem_singleton.mp hevent]
      exact ⟨⟨Nat.one_pos, hstart, fun _ _ => Nat.zero_le _⟩, by decide⟩
    · cases hpage
      exact ⟨.nil, by simp, by simp [Page.scanIncomplete]⟩

/-- A stream of this server yields its event, which is authentic. -/
theorem authentic_of_matches_sentEvent :
    yielded (runStream (writtenCrypto sentRef) (sendingServer sentRef) exampleCommittee 1 1000 7 (some 0) 1) = [sentEvent] ∧
      Authentic (writtenCrypto sentRef) exampleCommittee 7 sentEvent := by
  have hyielded : yielded (runStream (writtenCrypto sentRef) (sendingServer sentRef) exampleCommittee 1 1000 7 (some 0) 1) =
      [sentEvent] := by decide +kernel
  refine ⟨hyielded, ?_⟩
  exact authentic_of_matches _ _ _ exampleCommittee 1 1000 7 (some 0) 1 faithful_sendingServer sentEvent (by simp [hyielded])

/-- Only the one summary is certified. -/
theorem eq_of_certifiedBy {summary : Types.CheckpointSummary} {committee : Types.EpochCommittee}
    {certified : Types.CertifiedCheckpointSummary Nat} (h : CertifiedBy (streamCrypto summary).toCryptography committee certified) :
    certified.data = summary := by
  obtain ⟨-, signers, hcertifies⟩ := h
  obtain ⟨sigs, hsigs, -⟩ := hcertifies.signatures
  cases hsigs with
  | nil => exact absurd hcertifies.stake (Nat.not_le.mpr (show 0 < Types.quorumThreshold by decide))
  | cons hfirst =>
    have hsigned := (Bool.and_eq_true_iff.mp hfirst).1
    exact (Prod.mk.inj (of_decide_eq_true hsigned)).1

/-- The reference of an object that is not the one of the stream. -/
def otherRef : ObjectRef := ⟨9, 1, 4⟩

/-- A server that proves another object makes the client yield an event that no certified checkpoint has in the stream. -/
theorem forged_event_yielded :
    yielded (runStream (writtenCrypto otherRef) (sendingServer otherRef) exampleCommittee 1 1000 7 (some 0) 1) = [sentEvent] ∧
      ¬ Authentic (writtenCrypto otherRef) exampleCommittee 7 sentEvent := by
  refine ⟨by decide +kernel, ?_⟩
  rintro ⟨streamObjectId, hid, head, ⟨committee, summary, objectRef, -, hcertified, -, ⟨digest, hdigest, hstates⟩, -⟩, -⟩
  cases hid
  rw [eq_of_certifiedBy hcertified] at hdigest
  have hsome : (writtenStates otherRef)[(7 : Nat)]? = some (objectRef.version, objectRef.digest) :=
    hstates (writtenStates otherRef) (Option.some.inj hdigest)
  have hnone : (writtenStates otherRef)[(7 : Nat)]? = none := by decide +kernel
  rw [hnone] at hsome
  cases hsome

end Example

end Sui.LightClient

import Sui.Types.Crypto

/-!
# Checkpoint summaries

`types/sui/src/messages_checkpoint.rs`: the summary of a checkpoint, which a quorum of the committee of its epoch certifies, and the
committee of the next epoch that the last summary of an epoch names. Digests are numbers.
-/

namespace Sui.Types

open Library Checked

abbrev Digest := Nat

/-- `EndOfEpochData`: the members of the next committee with their stakes. -/
structure EndOfEpochData where
  nextEpochCommittee : List (AuthorityName × Nat)
deriving DecidableEq, Repr

inductive CheckpointCommitment where
  | ecmhLiveObjectSetDigest (digest : Digest)
  | checkpointArtifactsDigest (digest : Digest)
deriving DecidableEq, Repr

/-- `CheckpointSummary`. The fields that nothing here looks into are in `otherFields`. -/
structure CheckpointSummary where
  epoch : Nat
  sequenceNumber : Nat
  networkTotalTransactions : Nat
  contentDigest : Digest
  previousDigest : Option Digest
  checkpointCommitments : List CheckpointCommitment
  endOfEpochData : Option EndOfEpochData
  otherFields : List Nat
deriving DecidableEq, Repr

/-- `checkpoint_artifacts_digest`: the first commitment of that kind. -/
def CheckpointSummary.checkpointArtifactsDigest (summary : CheckpointSummary) : Option Digest :=
  summary.checkpointCommitments.findSome? fun
    | .checkpointArtifactsDigest digest => some digest
    | .ecmhLiveObjectSetDigest _ => none

/-- `CertifiedCheckpointSummary`, also as `VerifiedCheckpoint`, which wraps it. -/
structure CertifiedCheckpointSummary (Agg : Type) where
  data : CheckpointSummary
  authSig : AuthorityQuorumSignInfo Agg

namespace CertifiedCheckpointSummary

variable {Sig Agg : Type}

def epoch (c : CertifiedCheckpointSummary Agg) : Nat := c.data.epoch

def sequenceNumber (c : CertifiedCheckpointSummary Agg) : Nat := c.data.sequenceNumber

def nextEpochCommittee (c : CertifiedCheckpointSummary Agg) : Option (List (AuthorityName × Nat)) :=
  c.data.endOfEpochData.map (·.nextEpochCommittee)

def verifyAuthoritySignatures (scheme : AggregateScheme AuthorityName (CheckpointSummary × EpochId) Sig Agg)
    (c : CertifiedCheckpointSummary Agg) (committee : EpochCommittee) : Except SuiError Unit := do
  assert (c.epoch = c.authSig.epoch) (.wrongEpoch c.authSig.epoch c.epoch)
  c.authSig.verifySecure scheme true c.data committee

end CertifiedCheckpointSummary

/-- The assertions of `Committee::new`. -/
inductive CommitteePanic where
  | empty
  | noVotingRights
  | unexpectedTotalVotes
  | invalidPublicKey
deriving DecidableEq, Repr

/-- `Committee::new`, with the public keys that `load_inner` makes of the names. The votes are added up on `u64`, and the sum wraps. -/
def newCommittee (isPublicKey : AuthorityName → Bool) (epoch : Nat) (votingRights : BTreeMap AuthorityName Nat) :
    Except CommitteePanic EpochCommittee := do
  assert (!votingRights.toList.isEmpty) .empty
  assert (votingRights.toList.any fun right => right.2 != 0) .noVotingRights
  assert ((votingRights.toList.map Prod.snd).sum % 2 ^ 64 = totalVotingPower) .unexpectedTotalVotes
  assert (votingRights.toList.all fun right => isPublicKey right.1) .invalidPublicKey
  return ⟨epoch, votingRights.toList, BTreeMap.pairwise_toList votingRights⟩

/-- The pairs of the end-of-epoch data, collected into a map. -/
def collectVotingRights (nextEpochCommittee : List (AuthorityName × Nat)) : BTreeMap AuthorityName Nat :=
  nextEpochCommittee.foldl (fun m member => m.insert member.1 member.2) ∅

end Sui.Types

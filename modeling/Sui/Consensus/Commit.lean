import Sui.Consensus.Context

/-!
# Commits

`consensus/src/commit.rs`: commits, committed sub-dags, the status of a leader slot and ranges of commit indices, and the
assertions of the modelled code.
-/

namespace Sui

open Library

/-- The assertions and explicit panics of the modelled code, with the reference, slot or round they report. A loop that uses
up its fuel panics with `outOfFuel`. -/
inductive Panic where
  | outOfFuel
  -- `DagState`
  | genesisAccepted
  | ownSlotOccupied (block : BlockRef)
  | parentDoesNotExist (parent block : BlockRef)
  | roundAboveNextRound (block : BlockRef) (nextRound : Nat)
  | roundInfoEmpty
  | roundInfoOutOfRange (round : Nat)
  | roundInfoNotContiguous (round : Nat)
  | slotNotAboveGcRound (slot : Slot)
  | roundHasCommittedBlocks (round : Nat)
  | shouldExistInDag (block : BlockRef)
  | notFoundToSetCommitted (block : BlockRef)
  | commitStatusNotCached (block : BlockRef)
  | notInDagState (block : BlockRef)
  | inclusionNotCached (block : BlockRef)
  | commitIndexNotNext (index : Nat)
  | commitTimestampDecreases (index : Nat)
  | lastCommitNotSet
  | scoringSubdagNotEmpty
  | committedAgainWhenRecovering (block : BlockRef)
  | commitBlockNotInStore
  | leaderNotInSubDag
  -- `ScoringSubdag` and `CommitRange`
  | duplicateVote (block : BlockRef)
  | commitRangeShrinks
  -- `BaseCommitter`
  | moreThanOneCandidate (leader : Slot)
  | moreThanOneCertifiedLeader (leader : Slot)
  | blockNotFoundInStorage (block : BlockRef)
  -- `LeaderSlotDecider`
  | committedAndSkipped (block : BlockRef)
  | noDecisionSlots
  | decisionSlotsOfSeveralRounds
  | anchorTooClose (anchor : BlockRef) (decisionRound : Nat)
  | blockMustExist (block : BlockRef)
  -- `Linearizer`
  | leaderCommittedTwice (block : BlockRef)
  | uncommittedBlockMissing (block : BlockRef)
  | blockCommittedTwice (block : BlockRef)
  | committedAtOrBelowGcRound (gcRound : Nat)
  | parentBlockMissing (block : BlockRef)
  | noMedianTimestamp (leader : BlockRef)
deriving DecidableEq, Repr

def genesisCommitIndex : Nat := 0

/-- `MINIMUM_WAVE_LENGTH`: a leader round, a voting round and a decision round. -/
def minimumWaveLength : Nat := 3

def defaultWaveLength : Nat := minimumWaveLength

/-- `TrustedCommit`: a commit with its digest. -/
structure TrustedCommit extends Commit where
  digest : Digest
deriving DecidableEq, Repr

namespace TrustedCommit

/-- `TrustedCommit::new_trusted`: the digest is the one of the bytes. -/
def newTrusted (ctx : Context) (c : Commit) : TrustedCommit := { c with digest := ctx.commitDigest c }

def reference (c : TrustedCommit) : CommitRef := ⟨c.index, c.digest⟩

end TrustedCommit

/-- `CommittedSubDag`: the blocks of a commit. -/
structure CommittedSubDag where
  leader : BlockRef
  blocks : List VerifiedBlock
  timestampMs : Nat
  commitRef : CommitRef
  decidedWithLocalBlocks : Bool
  recoveredRejectedTransactions : Bool
  rejectedTransactionsByBlock : BTreeMap BlockRef (List TransactionIndex)

def CommittedSubDag.new (leader : BlockRef) (blocks : List VerifiedBlock) (timestampMs : Nat) (commitRef : CommitRef) :
    CommittedSubDag :=
  { leader, blocks, timestampMs, commitRef, decidedWithLocalBlocks := true, recoveredRejectedTransactions := false
    rejectedTransactionsByBlock := ∅ }

/-- The order of `sort_sub_dag_blocks`: by round, then by author. Equivocating blocks are equal in it. -/
def subDagBlockLe (a b : VerifiedBlock) : Prop := a.round < b.round ∨ (a.round = b.round ∧ a.author ≤ b.author)

instance : DecidableRel subDagBlockLe := fun _ _ => inferInstanceAs (Decidable (_ ∨ _))

/-- `sort_sub_dag_blocks`: a stable sort. -/
def sortSubDagBlocks (blocks : List VerifiedBlock) : List VerifiedBlock := blocks.insertionSort subDagBlockLe

inductive Decision where
  | direct
  | indirect
  | certified
deriving DecidableEq, Repr

/-- `LeaderStatus`: the status of a leader slot under the commit rules. -/
inductive LeaderStatus where
  | commit (block : VerifiedBlock)
  | skip (slot : Slot)
  | undecided (slot : Slot)
deriving DecidableEq, Repr

/-- `DecidedLeader`: the decision on a leader slot, and whether a commit is direct. -/
inductive DecidedLeader where
  | commit (block : VerifiedBlock) (direct : Bool)
  | skip (slot : Slot)
deriving DecidableEq, Repr

namespace LeaderStatus

def round : LeaderStatus → Nat
  | .commit block => block.round
  | .skip leader => leader.round
  | .undecided leader => leader.round

def isDecided : LeaderStatus → Bool
  | .commit _ => true
  | .skip _ => true
  | .undecided _ => false

def intoDecidedLeader (direct : Bool) : LeaderStatus → Option DecidedLeader
  | .commit block => some (.commit block direct)
  | .skip slot => some (.skip slot)
  | .undecided _ => none

/-- The slot a status is about. -/
def slot : LeaderStatus → Slot
  | .commit block => block.slot
  | .skip slot => slot
  | .undecided slot => slot

end LeaderStatus

namespace DecidedLeader

def slot : DecidedLeader → Slot
  | .commit block _ => block.reference.slot
  | .skip slot => slot

end DecidedLeader

/-- `CommitRange`: a range of commit indices; `start` is in the range and `stop` is not. -/
structure CommitRange where
  start : Nat
  stop : Nat
deriving DecidableEq, Repr

namespace CommitRange

/-- `CommitRange::default`: the empty range. -/
def default : CommitRange := ⟨0, 0⟩

/-- `CommitRange::new`, from an inclusive range. -/
def new (first last : Nat) : CommitRange := ⟨first, last + 1⟩

def last (r : CommitRange) : Nat := r.stop - 1

def extendTo (r : CommitRange) (other : Nat) : Except Panic CommitRange := do
  Checked.assert (r.stop ≤ other + 1) .commitRangeShrinks
  return ⟨r.start, other + 1⟩

end CommitRange

end Sui

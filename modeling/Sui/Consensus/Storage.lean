import Sui.Consensus.LeaderScoring

/-!
# Storage

The interface `Store` of `consensus/src/storage`, as its in-memory implementation has it. The index of blocks by author is
read off the keys of the block table, and the table of commit votes is left out: nothing modelled reads it.
-/

namespace Sui

open Library

/-- `CommitInfo`: the last committed round of each authority and the reputation scores at a commit. -/
structure CommitInfo where
  committedRounds : AuthorityIndex → Nat
  reputationScores : ReputationScores

structure WriteBatch where
  blocks : List VerifiedBlock
  commits : List TrustedCommit
  commitInfo : List (CommitRef × CommitInfo)
  finalizedCommits : List (CommitRef × BTreeMap BlockRef (List TransactionIndex))

/-- The tables of the store. -/
structure Store where
  blocks : BTreeMap BlockRef VerifiedBlock
  commits : BTreeMap CommitRef TrustedCommit
  commitInfo : BTreeMap CommitRef CommitInfo
  finalizedCommits : BTreeMap CommitRef (BTreeMap BlockRef (List TransactionIndex))

namespace Store

/-- The store before anything is written. -/
def new : Store := ⟨∅, ∅, ∅, ∅⟩

variable (s : Store)

/-- `Store::write`: all of a batch is written at once. -/
def write (batch : WriteBatch) : Store where
  blocks := batch.blocks.foldl (fun m b => m.insert b.reference b) s.blocks
  commits := batch.commits.foldl (fun m c => m.insert c.reference c) s.commits
  commitInfo := batch.commitInfo.foldl (fun m p => m.insert p.1 p.2) s.commitInfo
  finalizedCommits := batch.finalizedCommits.foldl (fun m p => m.insert p.1 p.2) s.finalizedCommits

/-- `Store::read_blocks`, for one reference. -/
def readBlock (r : BlockRef) : Option VerifiedBlock := s.blocks[r]?

/-- `Store::contains_blocks`, for one reference. -/
def containsBlock (r : BlockRef) : Bool := s.blocks[r]?.isSome

/-- `Store::scan_blocks_by_author`: the blocks of an author from a round on, in the order of their references. -/
def scanBlocksByAuthor (author : AuthorityIndex) (startRound : Nat) : List VerifiedBlock :=
  (s.blocks.toList.filter fun p => p.1.author == author && startRound ≤ p.1.round).map Prod.snd

/-- `Store::scan_last_blocks_by_author`, without a bound on the round. -/
def scanLastBlocksByAuthor (author : AuthorityIndex) (numOfRounds : Nat) : List VerifiedBlock :=
  ((s.scanBlocksByAuthor author 0).reverse.take numOfRounds).reverse

def readLastCommit : Option TrustedCommit := s.commits.toList.getLast?.map Prod.snd

/-- `Store::scan_commits`: the commits of a range of indices that includes both ends. -/
def scanCommits (first last : Nat) : List TrustedCommit :=
  (s.commits.toList.filter fun p => first ≤ p.1.index && p.1.index ≤ last).map Prod.snd

def readLastCommitInfo : Option (CommitRef × CommitInfo) := s.commitInfo.toList.getLast?

def readRejectedTransactions (r : CommitRef) : Option (BTreeMap BlockRef (List TransactionIndex)) :=
  s.finalizedCommits[r]?

end Store

def loadCommittedSubdagFromStore (store : Store) (commit : TrustedCommit) : Except Panic CommittedSubDag := do
  let blocks ← commit.blocks.mapM fun r => Checked.expect (store.readBlock r) Panic.commitBlockNotInStore
  let leaderBlock ← Checked.expect (blocks.find? fun b => b.reference == commit.leader) Panic.leaderNotInSubDag
  let subdag := CommittedSubDag.new leaderBlock.reference blocks commit.timestampMs commit.reference
  match store.readRejectedTransactions commit.reference with
  | some rejectVotes =>
    return { subdag with
      decidedWithLocalBlocks := true
      recoveredRejectedTransactions := true
      rejectedTransactionsByBlock := rejectVotes }
  | none => return { subdag with decidedWithLocalBlocks := false, recoveredRejectedTransactions := false }

end Sui

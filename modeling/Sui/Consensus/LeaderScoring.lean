import Sui.Consensus.Commit

/-!
# Leader scoring

`consensus/src/leader_scoring.rs`: the votes for leaders collected from the committed sub-dags since the last change of the
leader schedule, and the scores computed from them.
-/

namespace Sui

open Library

/-- `ReputationScores`: a score for each authority, by its index, and the commits they come from. -/
structure ReputationScores where
  scoresPerAuthority : List Nat
  commitRange : CommitRange
deriving DecidableEq, Repr

def ReputationScores.default : ReputationScores := ⟨[], CommitRange.default⟩

structure ScoringSubdag where
  commitRange : Option CommitRange
  leaders : BTreeSet BlockRef
  votes : BTreeMap BlockRef (StakeAggregator .quorum)

namespace ScoringSubdag

def new : ScoringSubdag := ⟨none, ∅, ∅⟩

variable (ctx : Context) (s : ScoringSubdag)

/-- The body of the loop over the ancestors of a block in `add_subdags`. -/
def addVote (block : VerifiedBlock) (s : ScoringSubdag) (ancestor : BlockRef) : Except Panic ScoringSubdag := do
  -- only the links to the round before count
  if ancestor.round != block.round - 1 then
    return s
  let votes ← if ancestor ∈ s.leaders then do
      Checked.assert s.votes[block.reference]?.isNone (Panic.duplicateVote block.reference)
      pure (s.votes.insert block.reference .new)
    else pure s.votes
  return { s with votes := votes.modify ancestor fun stake => stake.addUnique block.author ctx.committee }

/-- The loop over the blocks of one sub-dag in `add_subdags`. -/
def addBlocks (blocks : List VerifiedBlock) : Except Panic ScoringSubdag :=
  blocks.foldlM (fun s block => block.ancestors.foldlM (addVote ctx block) s) s

/-- The range of commits after one more sub-dag. -/
def extendRange (range : Option CommitRange) (index : Nat) : Except Panic CommitRange :=
  match range with
  | none => return CommitRange.new index index
  | some range => range.extendTo index

/-- The body of the loop over the sub-dags in `add_subdags`. -/
def addSubdag (subdag : CommittedSubDag) : Except Panic ScoringSubdag := do
  let range ← extendRange s.commitRange subdag.commitRef.index
  addBlocks ctx { s with commitRange := some range, leaders := insert subdag.leader s.leaders } subdag.blocks

def addSubdags (committedSubdags : List CommittedSubDag) : Except Panic ScoringSubdag :=
  committedSubdags.foldlM (addSubdag ctx) s

def isEmpty (s : ScoringSubdag) : Bool := s.leaders = ∅ ∧ s.votes.isEmpty ∧ s.commitRange.isNone

def clear (_ : ScoringSubdag) : ScoringSubdag := new

end ScoringSubdag

end Sui

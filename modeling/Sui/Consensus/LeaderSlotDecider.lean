import Sui.Consensus.DagState

/-!
# Leader slot decider

`consensus/src/leader_slot_decider.rs`: the decision rules of commit rule v3. A direct decision counts the votes that
`DagState` keeps with each block; an indirect decision counts the votes in the history of an anchor.
-/

namespace Sui

open Library Checked

def indirectCommitDepth : Nat := 2

namespace LeaderSlotDecider

variable (ctx : Context) (d : DagState)

/-- The authorities that have a block in the voting round, but none that is a child of the block. -/
def rejectVotes (votingRound : RoundInfo) (info : BlockInfo) : StakeAggregator .quorum :=
  (BTreeSet.iter (votingRound.blocks \ info.children)).foldl (fun votes r => votes.addUnique r.author ctx.committee) .new

/-- The loop of `try_direct_decide` over the blocks of the slot: the committed block, or the number of skipped blocks. -/
def decideBlocks (ctx : Context) (votingRound : RoundInfo) : List BlockInfo → Nat → Except Panic (VerifiedBlock ⊕ Nat)
  | [], skipped => return .inr skipped
  | info :: infos, skipped => do
    let rejected := (rejectVotes ctx votingRound info).reachedThreshold ctx.committee
    if info.childrenStake.reachedThreshold ctx.committee then
      assert (!rejected) (Panic.committedAndSkipped info.block.reference)
      return .inl info.block
    else decideBlocks ctx votingRound infos (if rejected then skipped + 1 else skipped)

def tryDirectDecide (slot : Slot) : Except Panic LeaderStatus := do
  match ← d.getRoundInfo ctx (slot.round + 1) with
  | none => return .undecided slot
  | some votingRound =>
    if !votingRound.totalStake.reachedThreshold ctx.committee then
      return .undecided slot
    else do
      let infos ← d.getBlockInfoAtSlot ctx slot
      match ← decideBlocks ctx votingRound infos 0 with
      | .inl block => return .commit block
      | .inr skipped => if skipped = infos.length then return .skip slot else return .undecided slot

abbrev CommitVotes := BTreeMap BlockRef (StakeAggregator .certification)

/-- The state of the traversal of `try_indirect_decide`. -/
structure Search where
  toVisit : List VerifiedBlock
  visited : BTreeSet BlockRef
  votes : CommitVotes

/-- One more vote of the author of a block. -/
def addVote (votes : CommitVotes) (r : BlockRef) (author : AuthorityIndex) : CommitVotes :=
  votes.insert r ((votes[r]?.getD .new).addUnique author ctx.committee)

/-- An ancestor above the decision round is put into the queue when it is seen for the first time. -/
def enqueue (decisionRound : Nat) (s : Search) (ancestor : BlockRef) : Except Panic Search :=
  if ancestor.round > decisionRound ∧ ancestor ∉ s.visited then do
    let ancestorBlock ← expect (d.getBlock ancestor) (Panic.blockMustExist ancestor)
    return { s with toVisit := s.toVisit ++ [ancestorBlock], visited := insert ancestor s.visited }
  else
    return s

/-- The loop of `try_indirect_decide` over the ancestors of a block. -/
def visitAncestor (decisionRound : Nat) (decisionBlocks : BTreeSet BlockRef)
    (block : VerifiedBlock) (s : Search) (ancestor : BlockRef) : Except Panic Search := do
  let s ← enqueue d decisionRound s ancestor
  if ancestor ∈ decisionBlocks ∧ block.round = decisionRound + 1 then
    return { s with votes := addVote ctx s.votes ancestor block.author }
  else
    return s

/-- One pass of the traversal. -/
def visit (decisionRound : Nat) (decisionBlocks : BTreeSet BlockRef) (s : Search) :
    Except Panic (Loop.Pass Search CommitVotes) :=
  match s.toVisit with
  | [] => return .done s.votes
  | block :: toVisit => do
    let s ← block.ancestors.foldlM (visitAncestor ctx d decisionRound decisionBlocks block) { s with toVisit }
    return .next s

/-- The votes for the decision blocks in the history of the anchor. -/
def collectVotes (anchor : VerifiedBlock) (decisionRound : Nat)
    (decisionBlocks : BTreeSet BlockRef) : Except Panic CommitVotes :=
  Loop.run Panic.outOfFuel (visit ctx d decisionRound decisionBlocks) (d.knownRefs.card + 2) ⟨[anchor], {anchor.reference}, ∅⟩

/-- The certified blocks of a slot, in the order of their references. -/
def certifiedBlocks (votes : CommitVotes) (slot : Slot) : Except Panic (List VerifiedBlock) :=
  (votes.toList.filter fun p => p.1.slot == slot && p.2.reachedThreshold ctx.committee).mapM fun p =>
    expect (d.getBlock p.1) (Panic.blockMustExist p.1)

def decideSlot (votes : CommitVotes) (slot : Slot) : Except Panic LeaderStatus := do
  match ← certifiedBlocks ctx d votes slot with
  | [block] => return .commit block
  | _ => return .skip slot

def tryIndirectDecide (anchor : VerifiedBlock) (decisionSlots : List Slot) : Except Panic (List LeaderStatus) := do
  let first ← expect decisionSlots.head? Panic.noDecisionSlots
  let decisionRound := first.round
  assert (decisionSlots.all fun s => s.round == decisionRound) Panic.decisionSlotsOfSeveralRounds
  assert (decisionRound + indirectCommitDepth ≤ anchor.round) (Panic.anchorTooClose anchor.reference decisionRound)
  let decisionBlocks :=
    (decisionSlots.flatMap fun slot => (d.getUncommittedBlocksAtSlot slot).map VerifiedBlock.reference).toFinset
  let votes ← collectVotes ctx d anchor decisionRound decisionBlocks
  decisionSlots.mapM (decideSlot ctx d votes)

end LeaderSlotDecider

end Sui

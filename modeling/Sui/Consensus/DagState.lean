import Sui.Library.Loop
import Sui.Consensus.Storage
import Sui.Consensus.ThresholdClock

/-!
# DAG state

`consensus/src/dag_state.rs`: the accepted blocks, the last commit, what is buffered for the next write and the store under
it. The context is an argument of the operations, vectors indexed by an authority are functions of the authority, and what is
kept for metrics only is left out.
-/

namespace Sui

open Library Checked BTreeMap Panic

/-- `BlockInfo`: an accepted block and what is known about it. -/
structure BlockInfo where
  block : VerifiedBlock
  children : BTreeSet BlockRef
  childrenStake : StakeAggregator .quorum
  committed : Bool
  included : Bool
deriving DecidableEq

def BlockInfo.new (block : VerifiedBlock) : BlockInfo := ⟨block, ∅, .new, false, false⟩

/-- `RoundInfo`: the blocks accepted at a round. -/
structure RoundInfo where
  round : Nat
  blocks : BTreeSet BlockRef
  totalStake : StakeAggregator .quorum
deriving DecidableEq

def RoundInfo.new (round : Nat) : RoundInfo := ⟨round, ∅, .new⟩

structure DagState where
  genesis : BTreeMap BlockRef VerifiedBlock
  recentBlocks : BTreeMap BlockRef BlockInfo
  recentRefsByAuthority : AuthorityIndex → BTreeSet BlockRef
  roundInfo : List RoundInfo
  thresholdClock : ThresholdClock
  evictedRounds : AuthorityIndex → Nat
  highestAcceptedRound : Nat
  lastCommit : Option TrustedCommit
  lastCommittedRounds : AuthorityIndex → Nat
  scoringSubdag : ScoringSubdag
  pendingCommitVotes : List CommitRef
  blocksToWrite : List VerifiedBlock
  commitsToWrite : List TrustedCommit
  commitInfoToWrite : List (CommitRef × CommitInfo)
  finalizedCommitsToWrite : List (CommitRef × BTreeMap BlockRef (List TransactionIndex))
  store : Store

namespace DagState

/-! ## The last commit -/

variable (ctx : Context) (d : DagState)

def lastCommitIndex : Nat := d.lastCommit.elim 0 fun c => c.index

/-- `DagState::last_commit_digest`; the digest of the genesis is the least one. -/
def lastCommitDigest : Digest := d.lastCommit.elim 0 fun c => c.digest

def lastCommitTimestampMs : Nat := d.lastCommit.elim 0 fun c => c.timestampMs

def lastCommitRound : Nat := d.lastCommit.elim 0 fun c => c.leader.round

def gcRound : Nat := ctx.calculateGcRound d.lastCommitRound

/-! ## Reading blocks -/

/-- `DagState::get_block`: genesis, then the cached blocks, then the store. -/
def getBlock (r : BlockRef) : Option VerifiedBlock :=
  if r.round == genesisRound then d.genesis[r]?
  else
    match d.recentBlocks[r]? with
    | some info => some info.block
    | none => d.store.readBlock r

/-- The infos of the cached blocks of a slot, in the order of their references. -/
def infosAtSlot (slot : Slot) : List BlockInfo :=
  (d.recentBlocks.toList.filter fun p => p.1.slot == slot).map Prod.snd

def getBlockInfoAtSlot (slot : Slot) : Except Panic (List BlockInfo) := do
  assert (slot.round > d.gcRound ctx) (slotNotAboveGcRound slot)
  return d.infosAtSlot slot

def getUncommittedBlocksAtSlot (slot : Slot) : List VerifiedBlock := (d.infosAtSlot slot).map BlockInfo.block

def getUncommittedBlocksAtRound (round : Nat) : Except Panic (List VerifiedBlock) := do
  assert (!(round ≤ d.lastCommitRound)) (roundHasCommittedBlocks round)
  return (d.recentBlocks.toList.filter fun p => p.1.round == round).map fun p => p.2.block

/-- The references of all blocks that can be read. -/
def knownRefs : BTreeSet BlockRef :=
  keySet d.genesis ∪ keySet d.recentBlocks ∪ keySet d.store.blocks

/-- One pass of the loop of `ancestors_at_round`: the last reference is replaced by the ancestors of its block. -/
def ancestorsAtRoundBody (earlierRound : Nat) (linked : BTreeSet BlockRef) :
    Except Panic (Loop.Pass (BTreeSet BlockRef) (BTreeSet BlockRef)) :=
  match BTreeSet.last? linked with
  | none => return .done linked
  | some r =>
    if r.round ≤ earlierRound then return .done linked
    else do
      let block ← expect (d.getBlock r) (shouldExistInDag r)
      return .next (linked.erase r ∪ block.ancestors.toFinset)

def ancestorsAtRound (laterBlock : VerifiedBlock) (earlierRound : Nat) : Except Panic (List VerifiedBlock) := do
  let linked ← Loop.run outOfFuel (d.ancestorsAtRoundBody earlierRound) (d.knownRefs.card + 1)
    laterBlock.ancestors.toFinset
  ((BTreeSet.iter linked).filter fun r => earlierRound ≤ r.round).mapM fun r =>
    expect (d.getBlock r) (shouldExistInDag r)

/-- `DagState::contains_block`. A reference above the last cached one of its author is not looked up in the store. -/
def containsBlock (d : DagState) (r : BlockRef) : Bool :=
  let recentRefs := d.recentRefsByAuthority r.author
  if r ∈ recentRefs ∨ d.genesis[r]?.isSome then true
  else
    match BTreeSet.last? recentRefs with
    | none => false
    | some last => if last.round < r.round then false else d.store.containsBlock r

/-! ## Accepting blocks -/

/-- One pass of the loop over the ancestors in `update_block_metadata`: a link to the round before is a vote. -/
def addChild (block : BlockRef) (d : DagState) (ancestor : BlockRef) : Except Panic DagState := do
  if ancestor.round + 1 != block.round || ancestor.round ≤ d.gcRound ctx then
    return d
  assert d.recentBlocks[ancestor]?.isSome (parentDoesNotExist ancestor block)
  return { d with
    recentBlocks := d.recentBlocks.modify ancestor fun info =>
      { info with
        children := insert block info.children
        childrenStake := info.childrenStake.addUnique block.author ctx.committee } }

def updateRoundInfo (block : VerifiedBlock) : Except Panic DagState := do
  if block.round ≤ d.gcRound ctx then
    return d
  let nextRound := d.roundInfo.getLast?.elim (d.gcRound ctx + 1) fun info => info.round + 1
  assert (block.round ≤ nextRound) (roundAboveNextRound block.reference nextRound)
  let infos := if block.round == nextRound then d.roundInfo ++ [RoundInfo.new block.round] else d.roundInfo
  let front ← expect infos.head? roundInfoEmpty
  let index := block.round - front.round
  assert (front.round ≤ block.round && index < infos.length) (roundInfoOutOfRange block.round)
  return { d with
    roundInfo := infos.modify index fun info =>
      { info with
        blocks := insert block.reference info.blocks
        totalStake := info.totalStake.addUnique block.author ctx.committee } }

/-- The votes and the round info of commit rule v3, in `update_block_metadata`. -/
def updateVotes (block : VerifiedBlock) : Except Panic DagState :=
  if ctx.protocolConfig.enableV3 then do
    let d ← block.ancestors.foldlM (addChild ctx block.reference) d
    d.updateRoundInfo ctx block
  else
    return d

def insertBlock (block : VerifiedBlock) : DagState :=
  let r := block.reference
  { d with
    recentBlocks := d.recentBlocks.insert r (BlockInfo.new block)
    recentRefsByAuthority :=
      Function.update d.recentRefsByAuthority r.author (insert r (d.recentRefsByAuthority r.author)) }

def updateBlockMetadata (block : VerifiedBlock) : Except Panic DagState := do
  let d ← (d.insertBlock block).updateVotes ctx block
  return { d with
    thresholdClock := (d.thresholdClock.addBlock ctx block.reference).1
    highestAcceptedRound := max d.highestAcceptedRound block.round }

/-- The check of `accept_block` that no block is in the slot of an own block. -/
def checkOwnSlot (block : VerifiedBlock) : Except Panic Unit :=
  if block.author == ctx.ownIndex && !ctx.parameters.skipEquivocationValidation then
    assert (d.getUncommittedBlocksAtSlot block.slot).isEmpty (ownSlotOccupied block.reference)
  else return ()

def acceptBlock (block : VerifiedBlock) : Except Panic DagState := do
  assert (block.round != 0) genesisAccepted
  if d.containsBlock block.reference then
    return d
  d.checkOwnSlot ctx block
  let d ← d.updateBlockMetadata ctx block
  return { d with blocksToWrite := d.blocksToWrite ++ [block] }

def acceptBlocks (blocks : List VerifiedBlock) : Except Panic DagState :=
  blocks.foldlM (acceptBlock ctx) d

/-! ## Marking blocks -/

/-- `DagState::set_committed`: whether the block is marked for the first time is the second component. -/
def setCommitted (r : BlockRef) : Except Panic (DagState × Bool) := do
  let info ← expect d.recentBlocks[r]? (notFoundToSetCommitted r)
  if info.committed then
    return (d, false)
  else
    return ({ d with recentBlocks := d.recentBlocks.insert r { info with committed := true } }, true)

def isCommitted (r : BlockRef) : Except Panic Bool := do
  let info ← expect d.recentBlocks[r]? (commitStatusNotCached r)
  return info.committed

/-- The state of the loop of `link_causal_history`. -/
structure Linking where
  dag : DagState
  linkedBlocks : List BlockRef
  targets : List BlockRef

/-- One pass of the loop of `link_causal_history`. -/
def linkBody (gcRound : Nat) (s : Linking) : Except Panic (Loop.Pass Linking (DagState × List BlockRef)) :=
  match s.targets with
  | [] => return .done (s.dag, s.linkedBlocks)
  | r :: targets =>
    if r.round ≤ gcRound then return .next { s with targets }
    else do
      let info ← expect s.dag.recentBlocks[r]? (notInDagState r)
      if info.included then
        return .next { s with targets }
      else
        return .next {
          dag := { s.dag with recentBlocks := s.dag.recentBlocks.insert r { info with included := true } }
          linkedBlocks := s.linkedBlocks ++ [r]
          targets := targets ++ info.block.ancestors }

/-- The links that are left to follow from blocks that are not included yet. -/
def linksLeft : Nat :=
  ∑ r ∈ keySet d.recentBlocks, d.recentBlocks[r]?.elim 0 fun info => if info.included then 0 else info.block.ancestors.length

/-- `DagState::link_causal_history`: the newly linked blocks are the second component. -/
def linkCausalHistory (rootBlock : BlockRef) : Except Panic (DagState × List BlockRef) :=
  Loop.run outOfFuel (linkBody (d.gcRound ctx)) (d.linksLeft + 2) ⟨d, [], [rootBlock]⟩

def getRoundInfo (round : Nat) : Except Panic (Option RoundInfo) :=
  match d.roundInfo.head? with
  | none => return none
  | some front =>
    if round < front.round ∨ round ≤ d.gcRound ctx then return none
    else
      match d.roundInfo[round - front.round]? with
      | none => return none
      | some info => do
        assert (info.round == round) (roundInfoNotContiguous round)
        return some info

/-! ## Commits -/

/-- The last committed rounds after the blocks of a commit. -/
def raiseCommittedRounds (rounds : AuthorityIndex → Nat) (blocks : List BlockRef) : AuthorityIndex → Nat :=
  blocks.foldl (fun rounds r => Function.update rounds r.author (max (rounds r.author) r.round)) rounds

/-- `DagState::add_commit`. A commit whose index is not above the last one is ignored. -/
def addCommit (commit : TrustedCommit) : Except Panic DagState := do
  if d.lastCommit.any fun last => commit.index ≤ last.index then
    return d
  assert (commit.index == d.lastCommitIndex + 1) (commitIndexNotNext commit.index)
  assert (!(commit.timestampMs < d.lastCommitTimestampMs)) (commitTimestampDecreases commit.index)
  return { d with
    lastCommit := some commit
    lastCommittedRounds := raiseCommittedRounds d.lastCommittedRounds commit.blocks
    pendingCommitVotes := d.pendingCommitVotes ++ [commit.reference]
    commitsToWrite := d.commitsToWrite ++ [commit] }

def addCommitInfo (reputationScores : ReputationScores) : Except Panic DagState := do
  assert d.scoringSubdag.isEmpty scoringSubdagNotEmpty
  let lastCommit ← expect d.lastCommit lastCommitNotSet
  return { d with
    commitInfoToWrite :=
      d.commitInfoToWrite ++ [(lastCommit.reference, { committedRounds := d.lastCommittedRounds, reputationScores })] }

def addFinalizedCommit (r : CommitRef) (rejected : BTreeMap BlockRef (List TransactionIndex)) : DagState :=
  { d with finalizedCommitsToWrite := d.finalizedCommitsToWrite ++ [(r, rejected)] }

def takeCommitVotes (limit : Nat) : DagState × List CommitRef :=
  ({ d with pendingCommitVotes := d.pendingCommitVotes.drop limit }, d.pendingCommitVotes.take limit)

def addScoringSubdags (subdags : List CommittedSubDag) : Except Panic DagState := do
  return { d with scoringSubdag := ← d.scoringSubdag.addSubdags ctx subdags }

def clearScoringSubdag : DagState := { d with scoringSubdag := d.scoringSubdag.clear }

/-! ## Writing to the store -/

def evictionRound (lastRound gcRound cachedRounds : Nat) : Nat := min gcRound (lastRound - cachedRounds)

def calculateAuthorityEvictionRound (a : AuthorityIndex) : Nat :=
  let lastRound := (BTreeSet.last? (d.recentRefsByAuthority a)).elim genesisRound fun r => r.round
  evictionRound lastRound (d.gcRound ctx) ctx.parameters.dagStateCachedRounds

/-- The clean up of the cache for one authority, in `flush`. -/
def evict (a : AuthorityIndex) : DagState :=
  let evictionRound := d.calculateAuthorityEvictionRound ctx a
  let evicted := (BTreeSet.iter (d.recentRefsByAuthority a)).takeWhile fun r => r.round ≤ evictionRound
  { d with
    recentBlocks := evicted.foldl (fun m r => m.erase r) d.recentBlocks
    recentRefsByAuthority :=
      Function.update d.recentRefsByAuthority a (d.recentRefsByAuthority a \ evicted.toFinset)
    evictedRounds := Function.update d.evictedRounds a evictionRound }

def nothingToWrite : Bool :=
  d.blocksToWrite.isEmpty && d.commitsToWrite.isEmpty && d.commitInfoToWrite.isEmpty && d.finalizedCommitsToWrite.isEmpty

/-- What is buffered is written to the store. -/
def writeBuffered : DagState :=
  { d with
    store := d.store.write ⟨d.blocksToWrite, d.commitsToWrite, d.commitInfoToWrite, d.finalizedCommitsToWrite⟩
    blocksToWrite := []
    commitsToWrite := []
    commitInfoToWrite := []
    finalizedCommitsToWrite := [] }

def flush : DagState :=
  if d.nothingToWrite then d
  else
    let d := ctx.authorities.foldl (evict ctx) d.writeBuffered
    { d with roundInfo := d.roundInfo.dropWhile fun info => info.round ≤ d.gcRound ctx }

/-! ## Recovery -/

/-- The commits since the last commit info, in `DagState::new`: the last committed rounds and the sub-dags not yet scored. -/
def recoverCommits (store : Store) (rounds : AuthorityIndex → Nat) (first last : Nat) :
    Except Panic ((AuthorityIndex → Nat) × List CommittedSubDag) := do
  let commits := store.scanCommits first last
  let subdags ← commits.mapM (loadCommittedSubdagFromStore store)
  return (commits.foldl (fun rounds c => raiseCommittedRounds rounds c.blocks) rounds, subdags)

/-- The eviction round and the blocks to load for an authority, in `DagState::new`. -/
def recoverAuthority (a : AuthorityIndex) : Nat × List VerifiedBlock :=
  let lastBlockRound := (d.store.scanLastBlocksByAuthor a 1).getLast?.elim genesisRound fun b => b.round
  let round := evictionRound lastBlockRound (d.gcRound ctx) ctx.parameters.dagStateCachedRounds
  (round, d.store.scanBlocksByAuthor a (round + 1))

/-- A block of a commit is marked as committed, in `DagState::new`. -/
def recoverCommittedBlock (r : BlockRef) : Except Panic DagState := do
  let (d, first) ← d.setCommitted r
  assert first (committedAgainWhenRecovering r)
  return d

/-- One pass of the loop that marks the committed blocks, from the last commit backwards. -/
def recoverCommittedBody (gcRound : Nat) (s : DagState × Nat) : Except Panic (Loop.Pass (DagState × Nat) DagState) :=
  match s.1.store.scanCommits s.2 s.2 with
  | [] => return .done s.1
  | commit :: _ =>
    if gcRound > 0 ∧ commit.leader.round ≤ gcRound then return .done s.1
    else do
      let dag ← (commit.blocks.filter fun r => gcRound < r.round).foldlM recoverCommittedBlock s.1
      if s.2 - 1 = 0 then return .done dag else return .next (dag, s.2 - 1)

/-- The marking of committed blocks in `DagState::new`. -/
def recoverCommitted : Except Panic DagState :=
  match d.lastCommit with
  | none => return d
  | some commit => Loop.run outOfFuel (recoverCommittedBody (d.gcRound ctx)) (commit.index + 1) (d, commit.index)

/-- The state `DagState::new` starts from, before any block is loaded. -/
def initial (store : Store) (lastCommittedRounds : AuthorityIndex → Nat) (scoringSubdag : ScoringSubdag) : DagState where
  genesis := (genesisBlocks ctx).foldl (fun m b => m.insert b.reference b) ∅
  recentBlocks := ∅
  recentRefsByAuthority := fun _ => ∅
  roundInfo := []
  thresholdClock := ThresholdClock.new 1
  evictedRounds := fun _ => 0
  highestAcceptedRound := 0
  lastCommit := store.readLastCommit
  lastCommittedRounds
  scoringSubdag
  pendingCommitVotes := []
  blocksToWrite := []
  commitsToWrite := []
  commitInfoToWrite := []
  finalizedCommitsToWrite := []
  store

/-- The blocks are loaded in the order of their references, in `DagState::new`. -/
def recoverBlocks : Except Panic DagState := do
  let recovered := ctx.authorities.map fun a => (a, d.recoverAuthority ctx a)
  let d := recovered.foldl (fun d p => { d with evictedRounds := Function.update d.evictedRounds p.1 p.2.1 }) d
  let blocks := (recovered.flatMap fun p => p.2.2).insertionSort fun a b => a.reference ≤ b.reference
  blocks.foldlM (updateBlockMetadata ctx) d

/-- The history of an own block is linked again, in `DagState::new`. -/
def recoverLink (b : VerifiedBlock) : Except Panic DagState := do
  let (d, _) ← d.linkCausalHistory ctx b.reference
  return d

/-- The own blocks above the GC round are linked again, in `DagState::new`. -/
def recoverLinks : Except Panic DagState :=
  (d.store.scanBlocksByAuthor ctx.ownIndex (d.gcRound ctx + 1)).foldlM (recoverLink ctx) d

/-- `DagState::new`: the state is recovered from the store. -/
def new (ctx : Context) (store : Store) : Except Panic DagState := do
  let (rounds, first) := match store.readLastCommitInfo with
    | some (r, info) => (info.committedRounds, r.index + 1)
    | none => (fun _ => 0, genesisCommitIndex + 1)
  let (rounds, subdags) ← match store.readLastCommit with
    | some last => recoverCommits store rounds first last.index
    | none => pure (rounds, [])
  let scoring ← ScoringSubdag.new.addSubdags ctx subdags
  let d ← (initial ctx store rounds scoring).recoverBlocks ctx
  let d ← d.recoverCommitted ctx
  d.recoverLinks ctx

end DagState

end Sui

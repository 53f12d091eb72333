import Sui.Consensus.DagState

/-!
# Base committer

`consensus/src/base_committer.rs`: the direct and the indirect decision rule for one leader slot. The leader schedule is the
function that elects the leader of a round.
-/

namespace Sui

open Library Checked

structure BaseCommitterOptions where
  waveLength : Nat
  leaderOffset : Nat
  roundOffset : Nat
deriving DecidableEq, Repr

structure BaseCommitter where
  /-- `LeaderSchedule::elect_leader`, of the round and the leader offset. -/
  leaderSchedule : Nat → Nat → AuthorityIndex
  options : BaseCommitterOptions

variable (ctx : Context) (d : DagState) (c : BaseCommitter)

namespace BaseCommitter

/-! ## Waves -/

def leaderRound (wave : Nat) : Nat := wave * c.options.waveLength + c.options.roundOffset

def decisionRound (wave : Nat) : Nat :=
  wave * c.options.waveLength + c.options.waveLength - 1 + c.options.roundOffset

def waveNumber (round : Nat) : Nat := (round - c.options.roundOffset) / c.options.waveLength

def electLeader (round : Nat) : Option Slot :=
  if c.leaderRound (c.waveNumber round) != round then none
  else some ⟨round, c.leaderSchedule round c.options.leaderOffset⟩

/-! ## Votes and certificates -/

/-- `BaseCommitter::find_supported_block`. The recursion goes to lower rounds. -/
def findSupportedBlock (d : DagState) (leaderSlot : Slot) : Nat → VerifiedBlock → Except Panic (Option BlockRef)
  | 0, _ => .error Panic.outOfFuel
  | fuel + 1, block =>
    if block.round < leaderSlot.round then return none
    else
      block.ancestors.findSomeM? fun ancestor => do
        if ancestor.slot == leaderSlot then
          return some ancestor
        -- weak links may point below the leader round
        if ancestor.round ≤ leaderSlot.round then
          return none
        let ancestorBlock ← expect (d.getBlock ancestor) (Panic.blockNotFoundInStorage ancestor)
        findSupportedBlock d leaderSlot fuel ancestorBlock

def isVote (potentialVote leaderBlock : VerifiedBlock) : Except Panic Bool := do
  let supported ← findSupportedBlock d leaderBlock.reference.slot (potentialVote.round + 1) potentialVote
  return supported == some leaderBlock.reference

/-- Whether a reference is a vote. A block that is not found is not above the GC round, and not a vote. -/
def freshVote (leaderBlock : VerifiedBlock) (r : BlockRef) : Except Panic Bool :=
  match d.getBlock r with
  | some potentialVote => isVote d potentialVote leaderBlock
  | none => do
    assert (r.round ≤ d.gcRound ctx) (Panic.blockNotFoundInStorage r)
    return false

/-- Whether a reference is a vote, looked up in the cache first, in `is_certificate`. -/
def lookupVote (leaderBlock : VerifiedBlock) (allVotes : BTreeMap BlockRef Bool)
    (r : BlockRef) : Except Panic (Bool × BTreeMap BlockRef Bool) :=
  match allVotes[r]? with
  | some vote => return (vote, allVotes)
  | none => do
    let vote ← freshVote ctx d leaderBlock r
    return (vote, allVotes.insert r vote)

/-- The loop of `is_certificate` over the ancestors, with the stake of the votes counted so far. -/
def countVotes (ctx : Context) (d : DagState) (leaderBlock : VerifiedBlock) :
    List BlockRef → StakeAggregator .quorum → BTreeMap BlockRef Bool → Except Panic (Bool × BTreeMap BlockRef Bool)
  | [], _, allVotes => return (false, allVotes)
  | r :: refs, votes, allVotes => do
    let (vote, allVotes) ← lookupVote ctx d leaderBlock allVotes r
    if vote then
      let (votes, reached) := votes.add r.author ctx.committee
      if reached then return (true, allVotes) else countVotes ctx d leaderBlock refs votes allVotes
    else countVotes ctx d leaderBlock refs votes allVotes

def isCertificate (potentialCertificate leaderBlock : VerifiedBlock)
    (allVotes : BTreeMap BlockRef Bool) : Except Panic (Bool × BTreeMap BlockRef Bool) :=
  countVotes ctx d leaderBlock potentialCertificate.ancestors .new allVotes

/-! ## Direct decision -/

/-- The loop of `enough_leader_blame` over the blocks of the voting round. -/
def countBlames (ctx : Context) (leader : AuthorityIndex) : List VerifiedBlock → StakeAggregator .quorum → Bool
  | [], _ => false
  | votingBlock :: blocks, blames =>
    if votingBlock.ancestors.all fun ancestor => ancestor.author != leader then
      let (blames, reached) := blames.add votingBlock.author ctx.committee
      if reached then true else countBlames ctx leader blocks blames
    else countBlames ctx leader blocks blames

def enoughLeaderBlame (votingRound : Nat) (leader : AuthorityIndex) : Except Panic Bool := do
  let votingBlocks ← d.getUncommittedBlocksAtRound votingRound
  return countBlames ctx leader votingBlocks .new

/-- The loop of `enough_leader_support` over the blocks of the decision round. -/
def countCertificates (ctx : Context) (d : DagState) (leaderBlock : VerifiedBlock) :
    List VerifiedBlock → StakeAggregator .quorum → BTreeMap BlockRef Bool → Except Panic Bool
  | [], _, _ => return false
  | decisionBlock :: blocks, certificates, allVotes => do
    let (certificate, allVotes) ← isCertificate ctx d decisionBlock leaderBlock allVotes
    if certificate then
      let (certificates, reached) := certificates.add decisionBlock.author ctx.committee
      if reached then return true else countCertificates ctx d leaderBlock blocks certificates allVotes
    else countCertificates ctx d leaderBlock blocks certificates allVotes

def enoughLeaderSupport (decisionRound : Nat) (leaderBlock : VerifiedBlock) : Except Panic Bool := do
  let decisionBlocks ← d.getUncommittedBlocksAtRound decisionRound
  let totalStake := (decisionBlocks.map fun b => ctx.committee.stake b.author).sum
  if !ctx.committee.reachedQuorum totalStake then
    return false
  countCertificates ctx d leaderBlock decisionBlocks .new ∅

def tryDirectDecide (leader : Slot) : Except Panic LeaderStatus := do
  if ← enoughLeaderBlame ctx d (leader.round + 1) leader.authority then
    return .skip leader
  let decisionRound := c.decisionRound (c.waveNumber leader.round)
  let leaders ← (d.getUncommittedBlocksAtSlot leader).filterM (enoughLeaderSupport ctx d decisionRound)
  assert (leaders.length ≤ 1) (Panic.moreThanOneCandidate leader)
  return leaders.getLast?.elim (.undecided leader) .commit

/-! ## Indirect decision -/

/-- Whether one of the blocks is a certificate for the leader block, in `decide_leader_from_anchor`. -/
def anyCertificate (ctx : Context) (d : DagState) (leaderBlock : VerifiedBlock) :
    List VerifiedBlock → BTreeMap BlockRef Bool → Except Panic Bool
  | [], _ => return false
  | potentialCertificate :: blocks, allVotes => do
    let (certificate, allVotes) ← isCertificate ctx d potentialCertificate leaderBlock allVotes
    if certificate then return true else anyCertificate ctx d leaderBlock blocks allVotes

def decideLeaderFromAnchor (anchor : VerifiedBlock) (leaderSlot : Slot) : Except Panic LeaderStatus := do
  let leaderBlocks := d.getUncommittedBlocksAtSlot leaderSlot
  let decisionRound := c.decisionRound (c.waveNumber leaderSlot.round)
  let potentialCertificates ← d.ancestorsAtRound anchor decisionRound
  let certified ← leaderBlocks.filterM fun b => anyCertificate ctx d b potentialCertificates ∅
  assert (certified.length ≤ 1) (Panic.moreThanOneCertifiedLeader leaderSlot)
  return certified.getLast?.elim (.skip leaderSlot) .commit

/-- The loop of `try_indirect_decide` over the anchors. -/
def decideFromAnchors (ctx : Context) (d : DagState) (c : BaseCommitter) (leaderSlot : Slot) :
    List LeaderStatus → Except Panic LeaderStatus
  | [] => return .undecided leaderSlot
  | .commit anchor :: _ => decideLeaderFromAnchor ctx d c anchor leaderSlot
  | .skip _ :: anchors => decideFromAnchors ctx d c leaderSlot anchors
  | .undecided _ :: _ => return .undecided leaderSlot

def tryIndirectDecide (leaderSlot : Slot) (leaders : List LeaderStatus) : Except Panic LeaderStatus :=
  decideFromAnchors ctx d c leaderSlot (leaders.filter fun x => leaderSlot.round + c.options.waveLength ≤ x.round)

end BaseCommitter

/-! ## Universal committer -/

/-- `UniversalCommitter` of `consensus/src/universal_committer.rs`. -/
structure UniversalCommitter where
  committers : List BaseCommitter

namespace UniversalCommitter

def build (leaderSchedule : Nat → Nat → AuthorityIndex) (waveLength numberOfLeaders : Nat) (pipeline : Bool) :
    UniversalCommitter where
  committers :=
    (List.range (if pipeline then waveLength else 1)).flatMap fun roundOffset =>
      (List.range numberOfLeaders).map fun leaderOffset =>
        { leaderSchedule, options := { waveLength, roundOffset, leaderOffset } }

/-- The committer that `Core` builds: one leader for each round, pipelined. -/
def pipelined (leaderSchedule : Nat → Nat → AuthorityIndex) : UniversalCommitter :=
  build leaderSchedule defaultWaveLength 1 true

/-- The two loops of `try_decide`, over the pairs of a round and a committer in order. The statuses so far ascend in their
rounds. -/
def decideSlots (ctx : Context) (d : DagState) (lastDecided : Slot) :
    List (Nat × BaseCommitter) → List (LeaderStatus × Decision) → Except Panic (List (LeaderStatus × Decision))
  | [], leaders => return leaders
  | (round, committer) :: slots, leaders =>
    match committer.electLeader round with
    | none => decideSlots ctx d lastDecided slots leaders
    | some slot =>
      if slot = lastDecided then return leaders
      else do
        let status ← committer.tryDirectDecide ctx d slot
        if status.isDecided then
          decideSlots ctx d lastDecided slots ((status, .direct) :: leaders)
        else do
          let status ← committer.tryIndirectDecide ctx d slot (leaders.map Prod.fst)
          decideSlots ctx d lastDecided slots ((status, .indirect) :: leaders)

/-- The longest prefix of decided leaders, without the genesis round. -/
def decidedPrefix : List (LeaderStatus × Decision) → List DecidedLeader
  | [] => []
  | (leader, decision) :: leaders =>
    if leader.round = genesisRound then decidedPrefix leaders
    else
      match leader.intoDecidedLeader (decision == .direct) with
      | none => []
      | some decided => decided :: decidedPrefix leaders

def lastRound (lastDecided : Slot) : Nat :=
  match ctx.protocolConfig.numLeadersPerRound with
  | some 1 => lastDecided.round + 1
  | _ => lastDecided.round

/-- The rounds that `try_decide` looks at, from the highest one down. -/
def roundsToDecide (lastDecided : Slot) : List Nat :=
  let first := lastRound ctx lastDecided
  (List.range' first (d.highestAcceptedRound - 2 + 1 - first)).reverse

def tryDecide (u : UniversalCommitter) (lastDecided : Slot) : Except Panic (List DecidedLeader) := do
  let slots := (roundsToDecide ctx d lastDecided).flatMap fun round => u.committers.reverse.map fun c => (round, c)
  let leaders ← decideSlots ctx d lastDecided slots []
  return decidedPrefix leaders

end UniversalCommitter

end Sui

import Sui.Consensus.Committee

/-!
# Context

`consensus/src/context.rs`, the parts of the protocol configuration and of the node's parameters that the modelled code
reads, and the genesis blocks. Hashing and signature verification are functions of the context: a digest is a function of the
bytes, and the bytes are a function of the value.
-/

namespace Sui

open Library

/-- `Commit`: what a commit is on disk and on the network. -/
structure Commit where
  index : Nat
  previousDigest : Digest
  timestampMs : Nat
  leader : BlockRef
  blocks : List BlockRef
deriving DecidableEq, Repr

/-- `ConsensusProtocolConfig`. A size limit of zero is no limit. -/
structure ConsensusProtocolConfig where
  gcDepth : Nat
  enableV3 : Bool
  transactionVotingEnabled : Bool
  numLeadersPerRound : Option Nat
  maxTransactionSizeBytes : Nat
  maxNumTransactionsInBlock : Nat
  maxTransactionsInBlockBytes : Nat
  badNodesStakeThreshold : Nat
deriving DecidableEq, Repr

/-- `Parameters`: what is configured per node. -/
structure Parameters where
  dagStateCachedRounds : Nat
  skipEquivocationValidation : Bool
deriving DecidableEq, Repr

/-- `Context`: the configuration of this authority for one epoch. -/
structure Context where
  epochStartTimestampMs : Nat
  ownIndex : AuthorityIndex
  committee : Committee
  parameters : Parameters
  protocolConfig : ConsensusProtocolConfig
  /-- The digest of a signed block. -/
  blockDigest : SignedBlock → Digest
  /-- The digest of a commit. -/
  commitDigest : Commit → Digest
  /-- Whether the signature of a block is the one of its author. -/
  signatureIsValid : SignedBlock → Bool

variable (ctx : Context)

namespace Context

/-- `DagState::calculate_gc_round`: the round up to which blocks are garbage collected after a commit of that round. -/
def calculateGcRound (commitRound : Nat) : Nat := commitRound - ctx.protocolConfig.gcDepth

/-- The context of another node of the same epoch: its own index and its own parameters. -/
def forNode (ownIndex : AuthorityIndex) (parameters : Parameters) : Context :=
  { ctx with ownIndex, parameters }

def authorities : List AuthorityIndex := List.range ctx.committee.size

@[simp] theorem mem_authorities {ctx : Context} {a : AuthorityIndex} : a ∈ ctx.authorities ↔ a < ctx.committee.size := by
  simp [authorities]

theorem calculateGcRound_le (r : Nat) : ctx.calculateGcRound r ≤ r := Nat.sub_le _ _

theorem calculateGcRound_mono {r r' : Nat} (h : r ≤ r') :
    ctx.calculateGcRound r ≤ ctx.calculateGcRound r' := Nat.sub_le_sub_right h _

end Context

/-- `VerifiedBlock::new_verified`: the digest is the one of the bytes. -/
def VerifiedBlock.newVerified (b : SignedBlock) : VerifiedBlock := { b with digest := ctx.blockDigest b }

/-- `genesis_block`: the block of an authority at the genesis round. -/
def genesisBlock (author : AuthorityIndex) : VerifiedBlock :=
  VerifiedBlock.newVerified ctx
    { epoch := ctx.committee.epoch
      round := genesisRound
      author
      timestampMs := ctx.epochStartTimestampMs
      ancestors := []
      transactions := []
      transactionVotes := []
      commitVotes := []
      signature := [] }

/-- `genesis_blocks`: one for each authority. -/
def genesisBlocks : List VerifiedBlock := ctx.authorities.map (genesisBlock ctx)

@[simp] theorem genesisBlock_ancestors (a : AuthorityIndex) : (genesisBlock ctx a).ancestors = [] := rfl

def genesisRefs : List BlockRef := (genesisBlocks ctx).map VerifiedBlock.reference

end Sui

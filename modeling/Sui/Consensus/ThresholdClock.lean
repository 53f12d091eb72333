import Sui.Consensus.Context

/-!
# Threshold clock

`consensus/src/threshold_clock.rs`: the round a validator may propose for. The times it records for metrics are left out.
-/

namespace Sui

/-- `ThresholdClock`: the current round and the authorities that have a block in it. -/
structure ThresholdClock where
  aggregator : StakeAggregator .quorum
  round : Nat
deriving DecidableEq

namespace ThresholdClock

def new (round : Nat) : ThresholdClock := ⟨.new, round⟩

/-- `ThresholdClock::add_block`: whether the round advances is the second component. -/
def addBlock (ctx : Context) (c : ThresholdClock) (block : BlockRef) : ThresholdClock × Bool :=
  match compare block.round c.round with
  | .lt => (c, false)
  | .eq =>
    let (aggregator, reached) := c.aggregator.add block.author ctx.committee
    if reached then (⟨.new, block.round + 1⟩, true) else (⟨aggregator, c.round⟩, false)
  | .gt =>
    -- a block of a higher round: a quorum of the round before it has been accepted
    let (aggregator, reached) := StakeAggregator.new.add block.author ctx.committee
    if reached then (⟨aggregator, block.round + 1⟩, true) else (⟨aggregator, block.round⟩, true)

end ThresholdClock

end Sui

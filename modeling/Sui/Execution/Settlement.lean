import Sui.Execution.Accumulator
import Sui.Execution.SharedObjectVersions
import Sui.Library.Chunks
import Sui.Library.Word

/-!
# Accumulator settlement

`authority/src/accumulators/mod.rs`: the accumulator events of a checkpoint are merged per account and settled by system
transactions, each for a chunk of the accounts. Counters of events are `Nat`s; amounts have the width of the source. The Merkle root
of a stream of events is a parameter.
-/

namespace Sui.Settlement

open Library

/-- The panics of the builder. -/
inductive SettlementPanic where
  | overflow
  | invalidAccumulatorValue
  | invalidMerge
  | invalidSettlement
  | todo
  | noAddress
  | zeroChunkSize
deriving DecidableEq, Repr

structure EventCommitment where
  checkpointSeq : Nat
  transactionIdx : Nat
  eventIdx : Nat
  digest : Nat
deriving DecidableEq, Repr

structure TransactionEffects where
  transactionDigest : TransactionDigest
  accumulatorEvents : List AccumulatorEvent
deriving DecidableEq, Repr

/-- `total_sui_in_event`: the SUI that flows into and out of the transaction. -/
def totalSuiInEvent (event : AccumulatorEvent) : Except SettlementPanic (Nat × Nat) := do
  let sui ← match event.write.address.ty, event.write.value with
    | .balance .sui, .integer v => .ok v
    | .balance .sui, _ => .error .invalidAccumulatorValue
    | _, _ => .ok 0
  match event.write.operation with
  | .merge => return (0, sui)
  | .split => return (sui, 0)

inductive MergedValueIntermediate where
  | sumU128 (v : Nat)
  | sumU128U128 (v1 v2 : Nat)
  | events (commitments : List EventCommitment)
deriving DecidableEq, Repr

namespace MergedValueIntermediate

def zero : AccumulatorValue → MergedValueIntermediate
  | .integer _ => .sumU128 0
  | .integerTuple _ _ => .sumU128U128 0 0
  | .eventDigest _ => .events []

def accumulateInto (self : MergedValueIntermediate) (value : AccumulatorValue) (checkpointSeq transactionIdx : Nat) :
    Except SettlementPanic MergedValueIntermediate :=
  match self, value with
  | .sumU128 v1, .integer v2 => return .sumU128 (← Word.add .overflow 128 v1 v2)
  | .sumU128U128 v1 v2, .integerTuple w1 w2 =>
    return .sumU128U128 (← Word.add .overflow 128 v1 w1) (← Word.add .overflow 128 v2 w2)
  | .events commitments, .eventDigest eventDigests =>
    return .events (commitments ++ eventDigests.map fun d => ⟨checkpointSeq, transactionIdx, d.1, d.2⟩)
  | _, _ => .error .invalidMerge

end MergedValueIntermediate

inductive MergedValue where
  | sumU128 (v : Nat)
  | sumU128U128 (v1 v2 : Nat)
  | eventDigest (root : Nat) (eventCount : Nat)
deriving DecidableEq, Repr

variable (buildEventMerkleRoot : List EventCommitment → Nat)
  (cache : Option (TransactionDigest → Option (List AccumulatorEvent)))

/-- `MergedValue::from`, with `build_event_merkle_root` as a parameter. -/
def MergedValue.ofIntermediate : MergedValueIntermediate → MergedValue
  | .sumU128 v => .sumU128 v
  | .sumU128U128 v1 v2 => .sumU128U128 v1 v2
  | .events events => .eventDigest (buildEventMerkleRoot events) events.length

structure Update where
  merge : MergedValueIntermediate
  split : MergedValueIntermediate
  inputSui : Nat
  outputSui : Nat
deriving DecidableEq, Repr

/-- The Move calls of a settlement transaction. -/
inductive SettlementCall where
  | settlementPrologue (epoch checkpointHeight idx totalInputSui totalOutputSui : Nat)
  | settleU128 (ty : TypeTag) (address : SuiAddress) (merge split : Nat)
  | settleEvents (address : SuiAddress) (root eventCount checkpointSeq : Nat)
deriving DecidableEq, Repr

/-- A settlement transaction. -/
structure SettlementTxn where
  rootInitialSharedVersion : SequenceNumber
  calls : List SettlementCall
deriving DecidableEq, Repr

/-- `MergedValue::add_move_call`: the calls that it adds. -/
def MergedValue.addMoveCall (merge split : MergedValue) (address : AccumulatorAddress) (checkpointSeq : Nat) :
    Except SettlementPanic (List SettlementCall) :=
  match address.ty, merge, split with
  | .balance coin, .sumU128 mergeAmount, .sumU128 splitAmount =>
    let (mergeAmount, splitAmount) :=
      if splitAmount ≤ mergeAmount then (mergeAmount - splitAmount, 0) else (0, splitAmount - mergeAmount)
    if mergeAmount ≠ 0 ∨ splitAmount ≠ 0 then
      return [.settleU128 (.balance coin) address.address mergeAmount splitAmount]
    else return []
  | _, .sumU128U128 _ _, .sumU128U128 _ _ => .error .todo
  | _, .eventDigest digest eventCount, .eventDigest _ _ =>
    return [.settleEvents address.address digest eventCount checkpointSeq]
  | _, _, _ => .error .invalidSettlement

structure AccumulatorSettlementTxBuilder where
  updates : BTreeMap AccumulatorObjId Update
  addresses : BTreeMap AccumulatorObjId AccumulatorAddress
  numDeposits : Nat
  numWithdrawals : Nat

namespace AccumulatorSettlementTxBuilder

/-- One event in `new`. -/
def addEvent (checkpointSeq transactionIdx : Nat) (self : AccumulatorSettlementTxBuilder) (event : AccumulatorEvent) :
    Except SettlementPanic AccumulatorSettlementTxBuilder := do
  let (eventInputSui, eventOutputSui) ← totalSuiInEvent event
  let addresses := self.addresses.insert event.accumulatorObj event.write.address
  let zero := MergedValueIntermediate.zero event.write.value
  let entry := self.updates[event.accumulatorObj]?.getD ⟨zero, zero, 0, 0⟩
  let inputSui ← Word.add .overflow 64 entry.inputSui eventOutputSui
  let outputSui ← Word.add .overflow 64 entry.outputSui eventInputSui
  match event.write.operation with
  | .merge =>
    let merge ← entry.merge.accumulateInto event.write.value checkpointSeq transactionIdx
    return ⟨self.updates.insert event.accumulatorObj ⟨merge, entry.split, inputSui, outputSui⟩, addresses, self.numDeposits + 1,
      self.numWithdrawals⟩
  | .split =>
    let split ← entry.split.accumulateInto event.write.value checkpointSeq transactionIdx
    return ⟨self.updates.insert event.accumulatorObj ⟨entry.merge, split, inputSui, outputSui⟩, addresses, self.numDeposits,
      self.numWithdrawals + 1⟩

/-- The events of a transaction: from the cache if it has them, and from the effects if not. -/
def eventsOf (effect : TransactionEffects) : List AccumulatorEvent :=
  match cache.bind fun c => c effect.transactionDigest with
  | some events => events
  | none => effect.accumulatorEvents

/-- One transaction in `new`. -/
def addEffects (checkpointSeq txIndexOffset : Nat) (self : AccumulatorSettlementTxBuilder) (effect : TransactionEffects × Nat) :
    Except SettlementPanic AccumulatorSettlementTxBuilder :=
  (eventsOf cache effect.1).foldlM (addEvent checkpointSeq (effect.2 + txIndexOffset)) self

def new (ckptEffects : List TransactionEffects)
    (checkpointSeq txIndexOffset : Nat) : Except SettlementPanic AccumulatorSettlementTxBuilder :=
  ckptEffects.zipIdx.foldlM (addEffects cache checkpointSeq txIndexOffset) ⟨∅, ∅, 0, 0⟩

def asI128 (v : Nat) : Int := if v < 2 ^ 127 then v else (v : Int) - 2 ^ 128

/-- The change of an account, in `collect_funds_changes`. -/
def fundsChange (entry : AccumulatorObjId × Update) : Option (AccumulatorObjId × Int) :=
  match entry.2.merge, entry.2.split with
  | .sumU128 merge, .sumU128 split => some (entry.1, asI128 merge - asI128 split)
  | _, _ => none

def collectFundsChanges (self : AccumulatorSettlementTxBuilder) : BTreeMap AccumulatorObjId Int :=
  (self.updates.toList.filterMap fundsChange).foldl (fun m e => m.insert e.1 e.2) ∅

def suiTotals (updates : List (AccumulatorObjId × Update)) : Except SettlementPanic (Nat × Nat) :=
  updates.foldlM (fun acc entry => do
    return (← Word.add .overflow 64 acc.1 entry.2.inputSui, ← Word.add .overflow 64 acc.2 entry.2.outputSui)) (0, 0)

/-- The calls for one account, in `build_one_settlement_txn`. -/
def settleCalls (addresses : BTreeMap AccumulatorObjId AccumulatorAddress)
    (checkpointSeq : Nat) (entry : AccumulatorObjId × Update) : Except SettlementPanic (List SettlementCall) := do
  let address ← Checked.expect addresses[entry.1]? .noAddress
  MergedValue.addMoveCall (.ofIntermediate buildEventMerkleRoot entry.2.merge) (.ofIntermediate buildEventMerkleRoot entry.2.split)
    address checkpointSeq

/-- `build_one_settlement_txn`, with the totals of the chunk. -/
def buildOneSettlementTxn (addresses : BTreeMap AccumulatorObjId AccumulatorAddress) (epoch checkpointHeight : Nat)
    (accumulatorRootObjInitialSharedVersion : SequenceNumber) (checkpointSeq : Nat)
    (chunk : List (AccumulatorObjId × Update) × Nat) : Except SettlementPanic SettlementTxn := do
  let (totalInputSui, totalOutputSui) ← suiTotals chunk.1
  let calls ← chunk.1.mapM (settleCalls buildEventMerkleRoot addresses checkpointSeq)
  return ⟨accumulatorRootObjInitialSharedVersion,
    .settlementPrologue epoch checkpointHeight chunk.2 totalInputSui totalOutputSui :: calls.flatten⟩

/-- `build_tx`, with `max_updates_per_settlement_txn_as_option`. -/
def buildTx (self : AccumulatorSettlementTxBuilder)
    (maxUpdatesPerSettlementTxn : Option Nat) (epoch : Nat) (accumulatorRootObjInitialSharedVersion : SequenceNumber)
    (checkpointHeight checkpointSeq : Nat) : Except SettlementPanic (List SettlementTxn) := do
  let chunkSize := maxUpdatesPerSettlementTxn.getD (2 ^ 32 - 1)
  Checked.assert (chunkSize ≠ 0) .zeroChunkSize
  (chunks chunkSize self.updates.toList).zipIdx.mapM
    (buildOneSettlementTxn buildEventMerkleRoot self.addresses epoch checkpointHeight accumulatorRootObjInitialSharedVersion
      checkpointSeq)

end AccumulatorSettlementTxBuilder

end Sui.Settlement

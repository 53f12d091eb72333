import Sui.Library.Ordered

/-!
# Accumulators

`sui-types/src/effects/object_change.rs` and `accumulator_event.rs`: the writes to accumulators, of which address balances are the
case of a balance type.
-/

namespace Sui

open Library

abbrev SuiAddress := Nat

abbrev AccumulatorObjId := Nat

/-- The type of a coin: SUI or another one. -/
inductive CoinType where
  | sui
  | other (id : Nat)
deriving DecidableEq, Repr

/-- `TypeTag`: the balance of a coin type, or another type. -/
inductive TypeTag where
  | balance (coin : CoinType)
  | other (id : Nat)
deriving DecidableEq, Repr

structure AccumulatorAddress where
  address : SuiAddress
  ty : TypeTag
deriving DecidableEq, Repr

inductive AccumulatorOperation where
  | merge
  | split
deriving DecidableEq, Repr

inductive AccumulatorValue where
  | integer (value : Nat)
  | integerTuple (first second : Nat)
  | eventDigest (digests : List (Nat × Nat))
deriving DecidableEq, Repr

structure AccumulatorWriteV1 where
  address : AccumulatorAddress
  operation : AccumulatorOperation
  value : AccumulatorValue
deriving DecidableEq, Repr

structure AccumulatorEvent where
  accumulatorObj : AccumulatorObjId
  write : AccumulatorWriteV1
deriving DecidableEq, Repr

/-! ## Running withdrawals -/

/-- What was withdrawn net of what was deposited, and the most that was ever withdrawn. -/
structure RunningWithdraws where
  net : BTreeMap AccumulatorObjId Int
  max : BTreeMap AccumulatorObjId Nat

namespace RunningWithdraws

/-- One event in `calculate_accumulator_running_max_withdraws`. -/
def addEvent (r : RunningWithdraws) (event : AccumulatorEvent) : RunningWithdraws :=
  match event.write.value with
  | .integer amount =>
    let entry := r.net[event.accumulatorObj]?.getD 0
    match event.write.operation with
    | .split =>
      let entry := entry + (amount : Int)
      { net := r.net.insert event.accumulatorObj entry
        max :=
          if 0 < entry then r.max.insert event.accumulatorObj (Nat.max (r.max[event.accumulatorObj]?.getD 0) entry.toNat) else r.max }
    | .merge => { r with net := r.net.insert event.accumulatorObj (entry - (amount : Int)) }
  | .integerTuple _ _ | .eventDigest _ => r

end RunningWithdraws

/-- `calculate_accumulator_running_max_withdraws`, of `temporary_store.rs`. -/
def calculateAccumulatorRunningMaxWithdraws (accumulatorEvents : List AccumulatorEvent) : BTreeMap AccumulatorObjId Nat :=
  (accumulatorEvents.foldl RunningWithdraws.addEvent ⟨∅, ∅⟩).max

end Sui

import Sui.Execution.SharedObjectVersions
import Sui.Library.Loop

/-!
# The order of the transactions of a checkpoint

`authority/src/checkpoints/causal_order.rs`: the effects of a checkpoint are sorted such that a transaction comes after those
that it depends on. Of the effects the digest, the dependencies and the consensus objects are kept.
-/

namespace Sui

open Library

structure ObjectRef where
  id : ObjectID
  version : SequenceNumber
  digest : Nat
deriving DecidableEq, Repr

namespace ObjectKey

def key (k : ObjectKey) : Nat ×ₗ Nat := toLex (k.id, k.version)

theorem key_injective : Function.Injective key := by
  rintro ⟨⟩ ⟨⟩ h
  simpa [key] using h

instance : LinearOrder ObjectKey := LinearOrder.lift' key key_injective

def ofRef (r : ObjectRef) : ObjectKey := ⟨r.id, r.version⟩

end ObjectKey

inductive InputConsensusObject where
  | mutate (ref : ObjectRef)
  | readOnly (ref : ObjectRef)
  | readConsensusStreamEnded (id : ObjectID) (version : SequenceNumber)
  | mutateConsensusStreamEnded (id : ObjectID) (version : SequenceNumber)
  | cancelled (id : ObjectID) (version : SequenceNumber)
deriving DecidableEq, Repr

structure TransactionEffects where
  transactionDigest : TransactionDigest
  dependencies : List TransactionDigest
  inputConsensusObjects : List InputConsensusObject
deriving DecidableEq, Repr

/-- The panics of the sort, and the loops of the model that run out of fuel. -/
inductive CausalPanic where
  | noFirst
  | finished
  | insertExhausted
  | sortExhausted
deriving DecidableEq, Repr

/-! ## Reads before overwrites -/

structure RWLockDependencyBuilder where
  readVersion : BTreeMap ObjectKey (List TransactionDigest)
  overwriteVersions : BTreeMap TransactionDigest (List ObjectKey)

variable (effects : List TransactionEffects)

namespace RWLockDependencyBuilder

/-- `entry(key).or_default().push(value)`. -/
def pushEntry {K V : Type} [LinearOrder K] (m : BTreeMap K (List V)) (key : K) (value : V) : BTreeMap K (List V) :=
  m.insert key (m[key]?.getD [] ++ [value])

/-- An object of a transaction in `from_effects`. -/
def addObject (digest : TransactionDigest) (b : RWLockDependencyBuilder) : InputConsensusObject → RWLockDependencyBuilder
  | .readOnly ref => { b with readVersion := pushEntry b.readVersion (.ofRef ref) digest }
  | .mutate ref => { b with overwriteVersions := pushEntry b.overwriteVersions digest (.ofRef ref) }
  | .readConsensusStreamEnded id version => { b with readVersion := pushEntry b.readVersion ⟨id, version⟩ digest }
  | .mutateConsensusStreamEnded id version => { b with overwriteVersions := pushEntry b.overwriteVersions digest ⟨id, version⟩ }
  | .cancelled _ _ => b

def fromEffects : RWLockDependencyBuilder :=
  effects.foldl (fun b effect => effect.inputConsensusObjects.foldl (addObject effect.transactionDigest) b) ⟨∅, ∅⟩

def addDependenciesFor (b : RWLockDependencyBuilder) (digest : TransactionDigest) (v : BTreeSet TransactionDigest) :
    BTreeSet TransactionDigest :=
  match b.overwriteVersions[digest]? with
  | none => v
  | some overwrites =>
    overwrites.foldl (fun v objVer =>
      match b.readVersion[objVer]? with
      | none => v
      | some reads => reads.foldl (fun v dep => insert dep v) v) v

end RWLockDependencyBuilder

/-! ## The sort -/

structure TransactionDependencies where
  digest : TransactionDigest
  dependencies : BTreeSet TransactionDigest
  effects : TransactionEffects

def TransactionDependencies.fromEffects (effects : TransactionEffects) (rwlockBuilder : RWLockDependencyBuilder) :
    TransactionDependencies where
  digest := effects.transactionDigest
  dependencies := rwlockBuilder.addDependenciesFor effects.transactionDigest effects.dependencies.toFinset
  effects := effects

structure CausalOrder where
  notSeen : BTreeMap TransactionDigest TransactionDependencies
  output : List TransactionEffects

/-- `InsertState`. The dependencies that are left are popped off the end of a vector; here the last one comes first. -/
structure InsertState where
  dependencies : List TransactionDigest
  transaction : Option TransactionDependencies

namespace InsertState

def new (transaction : TransactionDependencies) : InsertState :=
  ⟨(BTreeSet.iter transaction.dependencies).reverse, some transaction⟩

/-- The first dependency that was not seen, with its transaction and the dependencies after it. -/
def nextUnseen (notSeen : BTreeMap TransactionDigest TransactionDependencies) :
    List TransactionDigest → Option (TransactionDigest × TransactionDependencies × List TransactionDigest)
  | [] => none
  | dep :: rest =>
    match notSeen[dep]? with
    | some transaction => some (dep, transaction, rest)
    | none => nextUnseen notSeen rest

/-- `InsertState::process`: the state and the order after it, and the state of a dependency to be inserted first. -/
def process (s : InsertState) (c : CausalOrder) : Except CausalPanic (InsertState × CausalOrder × Option InsertState) :=
  match nextUnseen c.notSeen s.dependencies with
  | some (dep, transaction, rest) =>
    return ({ s with dependencies := rest }, { c with notSeen := c.notSeen.erase dep }, some (new transaction))
  | none => do
    let transaction ← Checked.expect s.transaction .finished
    return ({ dependencies := [], transaction := none }, { c with output := c.output ++ [transaction.effects] }, none)

end InsertState

namespace CausalOrder

def fromVec : CausalOrder where
  notSeen := (effects.map fun e => TransactionDependencies.fromEffects e (.fromEffects effects)).foldl (fun m e => m.insert e.digest e) ∅
  output := []

def popFirst (c : CausalOrder) : Except CausalPanic (Option (TransactionDependencies × CausalOrder)) :=
  match c.notSeen.keys.head? with
  | none => return none
  | some key => do
    let transaction ← Checked.expect c.notSeen[key]? .noFirst
    return some (transaction, { c with notSeen := c.notSeen.erase key })

/-- A pass of the loop of `insert`, over the stack of states with the last one first. -/
def insertPass : List InsertState × CausalOrder → Except CausalPanic (Loop.Pass (List InsertState × CausalOrder) CausalOrder)
  | ([], c) => return .done c
  | (state :: states, c) => do
    match ← state.process c with
    | (state, c, some newState) => return .next (newState :: state :: states, c)
    | (_, c, none) => return .next (states, c)

def insert (c : CausalOrder) (transaction : TransactionDependencies) : Except CausalPanic CausalOrder :=
  Loop.run .insertExhausted insertPass (2 * c.notSeen.size + 2) ([.new transaction], c)

/-- A pass of the loop of `causal_sort`. -/
def sortPass (c : CausalOrder) : Except CausalPanic (Loop.Pass CausalOrder (List TransactionEffects)) := do
  match ← c.popFirst with
  | none => return .done c.output
  | some (item, c) => return .next (← c.insert item)

def causalSort : Except CausalPanic (List TransactionEffects) :=
  Loop.run .sortExhausted sortPass ((fromVec effects).notSeen.size + 1) (fromVec effects)

end CausalOrder

end Sui

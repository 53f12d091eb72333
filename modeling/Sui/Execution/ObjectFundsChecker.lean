import Sui.Execution.Accumulator
import Sui.Execution.SharedObjectVersions

/-!
# The checker of object funds

`authority/src/accumulators/object_funds_checker/mod.rs`: withdrawals from the accounts of objects are checked against the
balance at the accumulator version that they read, less what earlier transactions withdrew at that version. Metrics and the task
that waits for a version to be settled are left out: a check that is pending is made again.
-/

namespace Sui

open Library

/-- The panics of the checker. -/
inductive FundsPanic where
  | fundsBelowUnsettled (objId : AccumulatorObjId)
  | overflow
deriving DecidableEq, Repr

/-- `AccountFundsRead`: the amount of an account at a version. -/
structure AccountFundsRead where
  getAccountAmountAtVersion : AccumulatorObjId → SequenceNumber → Nat
  lt : ∀ a v, getAccountAmountAtVersion a v < 2 ^ 128

/-- `ObjectFundsChecker`, with its `Inner`. -/
structure ObjectFundsChecker where
  lastSettledVersion : SequenceNumber
  unsettledWithdraws : BTreeMap AccumulatorObjId (BTreeMap SequenceNumber Nat)
  unsettledAccounts : BTreeMap SequenceNumber (BTreeSet AccumulatorObjId)

/-- What the checker says of the withdrawals of a transaction: `Pending` is told apart by what its receiver is sent. -/
inductive ObjectFundsWithdrawStatus where
  | sufficientFunds
  | insufficient
  | pending
deriving DecidableEq, Repr

namespace ObjectFundsChecker

def new (startingAccumulatorVersion : SequenceNumber) : ObjectFundsChecker := ⟨startingAccumulatorVersion, ∅, ∅⟩

variable (accumulatorVersion : SequenceNumber) (s : ObjectFundsChecker)

/-- What was withdrawn from an account at a version and is not settled. -/
def unsettledWithdraw (objId : AccumulatorObjId) (version : SequenceNumber) : Nat :=
  (s.unsettledWithdraws[objId]?.bind fun withdraws => withdraws[version]?).getD 0

/-- One account in the first loop of `try_withdraw`: whether the funds suffice. -/
def examine (fundsRead : AccountFundsRead) (accumulatorVersion : SequenceNumber) (s : ObjectFundsChecker)
    (withdraw : AccumulatorObjId × Nat) : Except FundsPanic Bool := do
  let funds := fundsRead.getAccountAmountAtVersion withdraw.1 accumulatorVersion
  let unsettledWithdraw := s.unsettledWithdraw withdraw.1 accumulatorVersion
  Checked.assert (funds ≥ unsettledWithdraw) (.fundsBelowUnsettled withdraw.1)
  return ¬ (funds - unsettledWithdraw < withdraw.2)

/-- The first loop of `try_withdraw`. -/
def examineAll (fundsRead : AccountFundsRead) (accumulatorVersion : SequenceNumber) (s : ObjectFundsChecker) :
    List (AccumulatorObjId × Nat) → Except FundsPanic Bool
  | [] => return true
  | withdraw :: rest => do
    if ← s.examine fundsRead accumulatorVersion withdraw then s.examineAll fundsRead accumulatorVersion rest else return false

/-- One account in the second loop of `try_withdraw`. -/
def record (withdraw : AccumulatorObjId × Nat) : Except FundsPanic ObjectFundsChecker := do
  let withdraws := s.unsettledWithdraws[withdraw.1]?.getD ∅
  let entry := withdraws[accumulatorVersion]?.getD 0
  Checked.assert (entry + withdraw.2 < 2 ^ 128) .overflow
  return { s with
    unsettledWithdraws := s.unsettledWithdraws.insert withdraw.1 (withdraws.insert accumulatorVersion (entry + withdraw.2))
    unsettledAccounts :=
      s.unsettledAccounts.insert accumulatorVersion (insert withdraw.1 (s.unsettledAccounts[accumulatorVersion]?.getD ∅)) }

/-- The second loop of `try_withdraw`, under the lock. -/
def recordAll (objectWithdraws : List (AccumulatorObjId × Nat)) : Except FundsPanic ObjectFundsChecker :=
  objectWithdraws.foldlM (record accumulatorVersion) s

def tryWithdraw (fundsRead : AccountFundsRead) (objectWithdraws : BTreeMap AccumulatorObjId Nat) (accumulatorVersion : SequenceNumber)
    (s : ObjectFundsChecker) : Except FundsPanic (Bool × ObjectFundsChecker) := do
  if ← s.examineAll fundsRead accumulatorVersion objectWithdraws.toList then
    return (true, ← s.recordAll accumulatorVersion objectWithdraws.toList)
  else return (false, s)

def checkObjectFunds (objectWithdraws : BTreeMap AccumulatorObjId Nat) (accumulatorVersion : SequenceNumber)
    (fundsRead : AccountFundsRead) (s : ObjectFundsChecker) : Except FundsPanic (ObjectFundsWithdrawStatus × ObjectFundsChecker) :=
  if accumulatorVersion ≤ s.lastSettledVersion then do
    let (sufficient, s) ← s.tryWithdraw fundsRead objectWithdraws accumulatorVersion
    return (if sufficient then .sufficientFunds else .insufficient, s)
  else return (.pending, s)

def settleAccumulatorVersion (nextAccumulatorVersion : SequenceNumber) : ObjectFundsChecker :=
  { s with lastSettledVersion := nextAccumulatorVersion }

/-- An account in `commit_accumulator_versions`. -/
def commitAccount (withdraws : BTreeMap AccumulatorObjId (BTreeMap SequenceNumber Nat))
    (account : AccumulatorObjId) : BTreeMap AccumulatorObjId (BTreeMap SequenceNumber Nat) :=
  match withdraws[account]? with
  | none => withdraws
  | some versions =>
    let versions := versions.erase accumulatorVersion
    if versions.isEmpty then withdraws.erase account else withdraws.insert account versions

/-- A version in `commit_accumulator_versions`. -/
def commitVersion (accumulatorVersion : SequenceNumber) : ObjectFundsChecker :=
  let accounts := s.unsettledAccounts[accumulatorVersion]?.getD ∅
  { s with
    unsettledAccounts := s.unsettledAccounts.erase accumulatorVersion
    unsettledWithdraws := (BTreeSet.iter accounts).foldl (commitAccount accumulatorVersion) s.unsettledWithdraws }

def commitAccumulatorVersions (committedAccumulatorVersions : List SequenceNumber) : ObjectFundsChecker :=
  committedAccumulatorVersions.foldl commitVersion s

end ObjectFundsChecker

/-! ## Runs -/

/-- A transaction as the checker sees it: the accumulator version that it reads, the events of its execution, and the accounts that
it has reservations for. -/
structure FundsTransaction where
  accumulatorVersion : SequenceNumber
  accumulatorEvents : List AccumulatorEvent
  addressFundsReservations : BTreeSet AccumulatorObjId
deriving DecidableEq

/-- The object withdrawals, in `should_commit_object_funds_withdraws`. -/
def FundsTransaction.objectWithdraws (t : FundsTransaction) : BTreeMap AccumulatorObjId Nat :=
  (calculateAccumulatorRunningMaxWithdraws t.accumulatorEvents).filter fun account _ => account ∉ t.addressFundsReservations

/-- A call of `try_withdraw` that is in its first loop, with the accounts that are left. -/
structure FundsCall where
  transaction : FundsTransaction
  rest : List (AccumulatorObjId × Nat)

/-- The checker with the calls that are running; and as a record of the run, the accepted transactions and the committed
versions. -/
structure FundsNode where
  checker : ObjectFundsChecker
  calls : List FundsCall
  accepted : List FundsTransaction
  committed : List SequenceNumber

/-- A step of a run. A call reads the withdrawals account by account and then writes them at once; others may come between, of
transactions without an account in common. A version is committed after the transactions that read it were checked. -/
inductive FundsStep (fundsRead : AccountFundsRead) : FundsNode → FundsNode → Prop
  | settle {n : FundsNode} (version : SequenceNumber) (h : n.checker.lastSettledVersion < version) :
      FundsStep fundsRead n { n with checker := n.checker.settleAccumulatorVersion version }
  | acceptWithoutWithdraws {n : FundsNode} (t : FundsTransaction) (h : t.objectWithdraws.isEmpty = true) :
      FundsStep fundsRead n { n with accepted := n.accepted ++ [t] }
  | call {n : FundsNode} (t : FundsTransaction) (hsettled : t.accumulatorVersion ≤ n.checker.lastSettledVersion)
      (hopen : t.accumulatorVersion ∉ n.committed)
      (hdisjoint : ∀ c ∈ n.calls, ∀ a : AccumulatorObjId, t.objectWithdraws[a]?.isSome → c.transaction.objectWithdraws[a]?.isSome → False) :
      FundsStep fundsRead n { n with calls := n.calls ++ [⟨t, t.objectWithdraws.toList⟩] }
  | examine {n : FundsNode} {pre post : List FundsCall} {t : FundsTransaction} {withdraw : AccumulatorObjId × Nat}
      {rest : List (AccumulatorObjId × Nat)} (hcalls : n.calls = pre ++ ⟨t, withdraw :: rest⟩ :: post)
      (h : n.checker.examine fundsRead t.accumulatorVersion withdraw = .ok true) :
      FundsStep fundsRead n { n with calls := pre ++ ⟨t, rest⟩ :: post }
  | reject {n : FundsNode} {pre post : List FundsCall} {t : FundsTransaction} {withdraw : AccumulatorObjId × Nat}
      {rest : List (AccumulatorObjId × Nat)} (hcalls : n.calls = pre ++ ⟨t, withdraw :: rest⟩ :: post)
      (h : n.checker.examine fundsRead t.accumulatorVersion withdraw = .ok false) :
      FundsStep fundsRead n { n with calls := pre ++ post }
  | record {n : FundsNode} {pre post : List FundsCall} {t : FundsTransaction} {s : ObjectFundsChecker}
      (hcalls : n.calls = pre ++ ⟨t, []⟩ :: post)
      (h : n.checker.recordAll t.accumulatorVersion t.objectWithdraws.toList = .ok s) :
      FundsStep fundsRead n { n with checker := s, calls := pre ++ post, accepted := n.accepted ++ [t] }
  | commit {n : FundsNode} (versions : List SequenceNumber)
      (h : ∀ c ∈ n.calls, c.transaction.accumulatorVersion ∉ versions) :
      FundsStep fundsRead n
        { n with checker := n.checker.commitAccumulatorVersions versions, committed := n.committed ++ versions }

/-- What is reached from a new checker. -/
inductive FundsReachable (fundsRead : AccountFundsRead) : FundsNode → Prop
  | start (startingAccumulatorVersion : SequenceNumber) : FundsReachable fundsRead ⟨.new startingAccumulatorVersion, [], [], []⟩
  | step {n n' : FundsNode} (h : FundsReachable fundsRead n) (hstep : FundsStep fundsRead n n') : FundsReachable fundsRead n'

end Sui

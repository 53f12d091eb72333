import Sui.Execution.TransactionDriver

/-!
# Certified effects

`transaction_driver/effects_certifier.rs` and `safe_client.rs`: the digest of the effects is certified by the acknowledgments,
the effects with their events and objects come from one validator. Of the effects only what the client reads is kept, and the
rest as a number; events and the contents of objects are numbers.
-/

namespace Sui.TransactionDriver

open Library Checked
open Sui.Types (AuthorityName totalVotingPower quorumThreshold validityThreshold)

/-- `ObjectRef`: id, version and digest. -/
abbrev ObjectRef := Nat × Nat × Types.Digest

structure Object where
  id : Nat
  version : Nat
  contents : Nat
deriving DecidableEq, Repr

/-- `TransactionEffects`, with the references of `old_object_metadata` and `all_changed_objects`. -/
structure TransactionEffects where
  transactionDigest : Types.Digest
  executedEpoch : Nat
  eventsDigest : Option Types.Digest
  oldObjectMetadata : List ObjectRef
  allChangedObjects : List ObjectRef
  otherFields : Nat
deriving DecidableEq, Repr

structure ExecutedData where
  effects : TransactionEffects
  events : Option (List Nat)
  inputObjects : List Object
  outputObjects : List Object
deriving DecidableEq, Repr

/-- The hash functions. That of effects has no collisions. -/
structure Digests where
  effects : TransactionEffects → Types.Digest
  events : List Nat → Types.Digest
  object : Object → Types.Digest
  effects_injective : Function.Injective effects

namespace Digests

variable (digests : Digests)

def computeObjectReference (object : Object) : ObjectRef := (object.id, object.version, digests.object object)

/-! ## Safe client -/

def byzantineAuthoritySuspicion (reason : String) : SuiError := ⟨.internal, reason, none⟩

def verifyEvents : Option (List Nat) → Option Types.Digest → Except SuiError Unit
  | none, _ => .ok ()
  | some events, none =>
    assert (events = []) (byzantineAuthoritySuspicion "Returned events but no event digest present in effects")
  | some events, some eventsDigest =>
    assert (digests.events events = eventsDigest)
      (byzantineAuthoritySuspicion "Returned events don't match events digest in effects")

/-- `verify_objects`. The map of the expected references keeps the last one of an id. -/
def verifyObjects (objects : List Object) (expectedRefs : List ObjectRef) : Except SuiError Unit :=
  assert (∀ object ∈ objects, expectedRefs.reverse.find? (·.1 = object.id) = some (digests.computeObjectReference object))
    (byzantineAuthoritySuspicion "Returned object that wasn't present in effects")

def verifyExecutedData (data : ExecutedData) : Except SuiError Unit := do
  digests.verifyEvents data.events data.effects.eventsDigest
  digests.verifyObjects data.inputObjects data.effects.oldObjectMetadata
  digests.verifyObjects data.outputObjects data.effects.allChangedObjects

/-- `wait_for_effects` of the safe client, for the answer of the validator. -/
def waitForEffects : Except SuiError (WaitForEffectsResponse ExecutedData) → Except SuiError (WaitForEffectsResponse ExecutedData)
  | .ok (.executed effectsDigest (some details)) => do
    digests.verifyExecutedData details
    return .executed effectsDigest (some details)
  | response => response

/-! ## Full effects -/

/-- `get_full_effects`, for the answer of the validator if it comes in time. -/
def getFullEffects (answer : Option (Except SuiError (WaitForEffectsResponse ExecutedData))) :
    Except TransactionRequestError (Types.Digest × ExecutedData) :=
  match answer.map digests.waitForEffects with
  | some (.ok (.executed effectsDigest (some details))) => .ok (effectsDigest, details)
  | some (.ok (.executed _ none)) => .error (.validatorInternal "Execution data not found")
  | some (.ok (.rejected (some e))) => .error (.rejectedAtValidator e)
  | some (.ok (.rejected none)) => .error .rejectedByConsensus
  | some (.ok (.expired epoch round)) => .error (.statusExpired epoch (round.getD 0))
  | some (.error e) => .error (.aborted e)
  | none => .error .timedOutGettingFullEffectsAtValidator

end Digests

/-- `RequestRetrier`: the errors so far. The clients that are left are an argument of the loop. -/
structure RequestRetrier where
  nonRetriableErrorsAggregator : StatusAggregator TransactionRequestError
  retriableErrorsAggregator : StatusAggregator TransactionRequestError

namespace RequestRetrier

def new (committee : Types.Committee) : RequestRetrier := ⟨.new committee, .new committee⟩

/-- `RejectedByValidators` with the errors so far. -/
def rejected (self : RequestRetrier) : TransactionDriverError :=
  .rejectedByValidators (aggregateRequestErrors self.nonRetriableErrorsAggregator.statusByAuthority)
    (aggregateRequestErrors self.retriableErrorsAggregator.statusByAuthority)

/-- The error of `next_target` when all validators were asked. -/
def noTarget (self : RequestRetrier) : TransactionDriverError :=
  if validityThreshold ≤ self.nonRetriableErrorsAggregator.totalVotes then self.rejected
  else .aborted (aggregateRequestErrors self.nonRetriableErrorsAggregator.statusByAuthority)
    (aggregateRequestErrors self.retriableErrorsAggregator.statusByAuthority) ⟨[]⟩

def addError (self : RequestRetrier) (name : AuthorityName) (error : TransactionRequestError) :
    Except TransactionDriverError RequestRetrier :=
  if error.isSubmissionRetriable then
    .ok { self with retriableErrorsAggregator := self.retriableErrorsAggregator.insert name error }
  else
    let self := { self with nonRetriableErrorsAggregator := self.nonRetriableErrorsAggregator.insert name error }
    if validityThreshold ≤ self.nonRetriableErrorsAggregator.totalVotes then .error self.rejected else .ok self

end RequestRetrier

structure QuorumTransactionResponse where
  effects : TransactionEffects
  finalityEpoch : Nat
  events : Option (List Nat)
  inputObjects : Option (List Object)
  outputObjects : Option (List Object)
deriving DecidableEq, Repr

def getQuorumTransactionResponse (data : ExecutedData) : QuorumTransactionResponse where
  effects := data.effects
  finalityEpoch := data.effects.executedEpoch
  events := data.events
  inputObjects := if data.inputObjects = [] then none else some data.inputObjects
  outputObjects := if data.outputObjects = [] then none else some data.outputObjects

inductive SubmitTxResult where
  | submitted (consensusPosition : Nat)
  | executed (effectsDigest : Types.Digest) (details : Option ExecutedData)
  | rejected (error : SuiError)
deriving DecidableEq, Repr

/-- The full effects of the response to the submission. -/
def SubmitTxResult.fullEffects : SubmitTxResult → Option (Types.Digest × ExecutedData)
  | .executed effectsDigest (some details) => some (effectsDigest, details)
  | _ => none

section

variable (digests : Digests) (query : AuthorityName → Option (Except SuiError (WaitForEffectsResponse ExecutedData)))

/-- The loop over the results for the full effects, until one has the certified digest. -/
def retryFullEffects (certifiedDigest : Types.Digest) (clients : List AuthorityName) (retrier : RequestRetrier)
    (currentTarget : AuthorityName) (fullEffectsResult : Except TransactionRequestError (Types.Digest × ExecutedData)) :
    Except TransactionDriverError QuorumTransactionResponse := do
  let next (retrier : RequestRetrier) : Except TransactionDriverError QuorumTransactionResponse :=
    match clients with
    | [] => .error retrier.noTarget
    | name :: rest => retryFullEffects certifiedDigest rest retrier name (digests.getFullEffects (query name))
  match fullEffectsResult with
  | .ok (effectsDigest, data) =>
    if effectsDigest = certifiedDigest then return getQuorumTransactionResponse data else next retrier
  | .error e => next (← retrier.addError currentTarget e)

/-- The first result for the full effects: of the submission, or of the first request to complete, to the first target or to a
validator that has acknowledged the effects. -/
def firstFullEffects (rankedClients : List AuthorityName) (currentTarget : AuthorityName) (submitTxnResult : SubmitTxResult)
    (first : AuthorityName × Option (Except SuiError (WaitForEffectsResponse ExecutedData))) :
    Except DriverPanic (List AuthorityName × AuthorityName × Except TransactionRequestError (Types.Digest × ExecutedData)) :=
  match submitTxnResult.fullEffects, rankedClients with
  | some fullEffects, _ => .ok (rankedClients, currentTarget, .ok fullEffects)
  | none, [] => .error .noTarget
  | none, _ :: rest => .ok (rest, first.1, digests.getFullEffects first.2)

def getCertifiedFinalizedEffects (committee : Types.Committee) (rankedClients : List AuthorityName)
    (currentTarget : AuthorityName) (submitTxnResult : SubmitTxResult)
    (acknowledgments : List (AuthorityName × Except SuiError (WaitForEffectsResponse ExecutedData)))
    (first : AuthorityName × Option (Except SuiError (WaitForEffectsResponse ExecutedData))) :
    Except DriverPanic (Except TransactionDriverError QuorumTransactionResponse) :=
  match submitTxnResult with
  | .rejected error =>
    .ok (.error (.clientInternal ("Unexpected submission error in get_certified_finalized_effects(): " ++ error.text)))
  | _ => do
    let acknowledgmentsResult ← waitForAcknowledgments committee acknowledgments
    let (clients, currentTarget, fullEffectsResult) ← firstFullEffects digests rankedClients currentTarget submitTxnResult first
    return acknowledgmentsResult.bind fun certifiedDigest =>
      retryFullEffects digests query certifiedDigest clients (.new committee) currentTarget fullEffectsResult

end

end Sui.TransactionDriver

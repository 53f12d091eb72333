import Sui.Types.Checkpoint
import Sui.Library.Word

/-!
# Acknowledgments of effects

`authority/src/transaction_driver`: the driver asks every validator for the effects of a transaction and adds up the stake
behind each answer, until a digest has a quorum or the errors say enough. Of an error only its category and its texts are kept.
The answer of a validator is the one after the retries of the call, or the timeout.
-/

namespace Sui.TransactionDriver

open Library
open Sui.Types (AuthorityName totalVotingPower quorumThreshold validityThreshold)

/-! ## Errors -/

inductive ErrorCategory where
  | aborted
  | invalidTransaction
  | lockConflict
  | internal
  | validatorOverloaded
  | unavailable
deriving DecidableEq, Repr

def ErrorCategory.isSubmissionRetriable : ErrorCategory → Bool
  | .aborted => true
  | .validatorOverloaded => true
  | .unavailable => true
  | _ => false

/-- `SuiError`: its category, its text, and the text of the `UserInputError` if it is one. -/
structure SuiError where
  category : ErrorCategory
  text : String
  userInputError : Option String
deriving DecidableEq, Repr

inductive TransactionRequestError where
  | timedOutSubmittingTransaction
  | timedOutGettingFullEffectsAtValidator
  | validatorInternal (message : String)
  | rejectedAtValidator (error : SuiError)
  | rejectedByConsensus
  | statusExpired (epoch round : Nat)
  | aborted (error : SuiError)
deriving DecidableEq, Repr

namespace TransactionRequestError

def categorize : TransactionRequestError → ErrorCategory
  | timedOutSubmittingTransaction => .unavailable
  | timedOutGettingFullEffectsAtValidator => .unavailable
  | validatorInternal _ => .internal
  | rejectedAtValidator error => error.category
  | rejectedByConsensus => .aborted
  | statusExpired _ _ => .aborted
  | aborted error => error.category

def isSubmissionRetriable (self : TransactionRequestError) : Bool := self.categorize.isSubmissionRetriable

/-- `format_transaction_request_error`. -/
def format : TransactionRequestError → String
  | timedOutSubmittingTransaction => "Request timed out submitting transaction"
  | timedOutGettingFullEffectsAtValidator => "Request timed out getting full effects"
  | validatorInternal message => message
  | rejectedAtValidator error => error.userInputError.getD error.text
  | rejectedByConsensus => "Transaction rejected by consensus"
  | statusExpired _ _ => "Transaction status expired"
  | aborted error => error.text

end TransactionRequestError

/-- `AggregatedRequestErrors`: texts with the authorities, their stake and the category. -/
structure AggregatedRequestErrors where
  errors : List (String × List AuthorityName × Nat × ErrorCategory)
  totalStake : Nat
deriving DecidableEq, Repr

/-- One error in the loop of `aggregate_request_errors`. -/
def addRequestError (aggregated : BTreeMap String (List AuthorityName × Nat × ErrorCategory))
    (error : AuthorityName × Nat × TransactionRequestError) : BTreeMap String (List AuthorityName × Nat × ErrorCategory) :=
  let (name, stake, error) := error
  let key := error.format
  let (names, total, category) := aggregated[key]?.getD ([], 0, error.categorize)
  aggregated.insert key (names ++ [name], total + stake, category)

def aggregateRequestErrors (errors : List (AuthorityName × Nat × TransactionRequestError)) : AggregatedRequestErrors where
  errors := (errors.foldl addRequestError ∅).toList.mergeSort fun a b => b.2.2.1 ≤ a.2.2.1
  totalStake := (errors.map (·.2.1)).sum

structure AggregatedEffectsDigests where
  digests : List (Types.Digest × List AuthorityName × Nat)
deriving DecidableEq, Repr

inductive TransactionDriverError where
  | clientInternal (error : String)
  | validationFailed (error : String)
  | aborted (submissionNonRetriableErrors submissionRetriableErrors : AggregatedRequestErrors)
      (observedEffectsDigests : AggregatedEffectsDigests)
  | rejectedByValidators (submissionNonRetriableErrors submissionRetriableErrors : AggregatedRequestErrors)
  | forkedExecution (observedEffectsDigests : AggregatedEffectsDigests)
      (submissionNonRetriableErrors submissionRetriableErrors : AggregatedRequestErrors)
  | timeoutWithLastRetriableError (attempts timeout : Nat)
deriving DecidableEq, Repr

namespace TransactionDriverError

/-- The category of the first error of a list, or else of another one. -/
def firstCategory (first second : AggregatedRequestErrors) (default : ErrorCategory) : ErrorCategory :=
  match first.errors, second.errors with
  | (_, _, _, category) :: _, _ => category
  | [], (_, _, _, category) :: _ => category
  | [], [] => default

def categorize : TransactionDriverError → ErrorCategory
  | clientInternal _ => .internal
  | validationFailed _ => .invalidTransaction
  | aborted nonRetriable retriable _ => firstCategory retriable nonRetriable .aborted
  | rejectedByValidators nonRetriable retriable => firstCategory nonRetriable retriable .internal
  | forkedExecution _ _ _ => .internal
  | timeoutWithLastRetriableError _ _ => .unavailable

def isSubmissionRetriable (self : TransactionDriverError) : Bool := self.categorize.isSubmissionRetriable

end TransactionDriverError

/-! ## Status aggregator -/

variable (committee : Types.Committee)

def stakeByIndex (index : Nat) : Option Nat := (committee.votingRights[index]?).map Prod.snd

structure StatusAggregator (T : Type) where
  committee : Types.Committee
  totalVotes : Nat
  statuses : BTreeMap AuthorityName T

namespace StatusAggregator

variable {T : Type}

def new (committee : Types.Committee) : StatusAggregator T := ⟨committee, 0, ∅⟩

/-- `insert`. The callers do not look at what it returns. -/
def insert (self : StatusAggregator T) (authority : AuthorityName) (status : T) : StatusAggregator T :=
  match self.committee.authorityIndex authority with
  | none => self
  | some index =>
    if self.statuses[authority]?.isSome then { self with statuses := self.statuses.insert authority status }
    else
      { self with
        statuses := self.statuses.insert authority status
        -- `authority_index` returned the index, so there is a stake at it
        totalVotes := self.totalVotes + (stakeByIndex self.committee index).getD 0 }

def authorities (self : StatusAggregator T) : List AuthorityName := self.statuses.toList.map Prod.fst

def statusByAuthority (self : StatusAggregator T) : List (AuthorityName × Nat × T) :=
  self.statuses.toList.map fun entry =>
    (entry.1, ((self.committee.authorityIndex entry.1).bind (stakeByIndex self.committee)).getD 0, entry.2)

def reachedQuorumThreshold (self : StatusAggregator T) : Bool := quorumThreshold ≤ self.totalVotes

end StatusAggregator

/-! ## Waiting for acknowledgments -/

inductive WaitForEffectsResponse (Data : Type) where
  | executed (effectsDigest : Types.Digest) (details : Option Data)
  | rejected (error : Option SuiError)
  | expired (epoch : Nat) (round : Option Nat)
deriving DecidableEq, Repr

/-- The aggregators of `wait_for_acknowledgments`. -/
structure Acknowledgments where
  effectsDigestAggregators : BTreeMap Types.Digest (StatusAggregator Unit)
  nonRetriableErrorsAggregator : StatusAggregator TransactionRequestError
  retriableErrorsAggregator : StatusAggregator TransactionRequestError
  reasonNotFoundAggregator : StatusAggregator Unit

variable (self : Acknowledgments)

/-- The subtraction of the remaining weight underflowed, or there is no validator to ask. -/
inductive DriverPanic where
  | remainingWeightUnderflow
  | noTarget
deriving DecidableEq, Repr

namespace Acknowledgments

/-- The aggregators at the start. -/
def new (committee : Types.Committee) : Acknowledgments := ⟨∅, .new committee, .new committee, .new committee⟩

/-- Insert an error into the aggregator of its kind. -/
def addError (name : AuthorityName) (error : TransactionRequestError) : Acknowledgments :=
  if error.isSubmissionRetriable then
    { self with retriableErrorsAggregator := self.retriableErrorsAggregator.insert name error }
  else { self with nonRetriableErrorsAggregator := self.nonRetriableErrorsAggregator.insert name error }

variable {Data : Type}

/-- What the loop does with a response. -/
def record (committee : Types.Committee) (self : Acknowledgments) (name : AuthorityName) :
    Except SuiError (WaitForEffectsResponse Data) → Acknowledgments
  | .ok (.executed effectsDigest _) =>
    let aggregator := (self.effectsDigestAggregators[effectsDigest]?.getD (.new committee)).insert name ()
    { self with effectsDigestAggregators := self.effectsDigestAggregators.insert effectsDigest aggregator }
  | .ok (.rejected (some e)) => self.addError name (.rejectedAtValidator e)
  | .ok (.rejected none) => { self with reasonNotFoundAggregator := self.reasonNotFoundAggregator.insert name () }
  | .ok (.expired epoch round) =>
    { self with
      retriableErrorsAggregator := self.retriableErrorsAggregator.insert name (.statusExpired epoch (round.getD 0)) }
  | .error error => self.addError name (.aborted error)

/-- The digest of the response, if its aggregator has reached a quorum. -/
def certified (self : Acknowledgments) : Except SuiError (WaitForEffectsResponse Data) → Option Types.Digest
  | .ok (.executed effectsDigest _) =>
    (self.effectsDigestAggregators[effectsDigest]?.filter (·.reachedQuorumThreshold)).map fun _ => effectsDigest
  | _ => none

def executedWeight : Nat := (self.effectsDigestAggregators.toList.map (·.2.totalVotes)).sum

def totalWeight : Nat :=
  self.executedWeight + self.reasonNotFoundAggregator.totalVotes + self.nonRetriableErrorsAggregator.totalVotes +
    self.retriableErrorsAggregator.totalVotes

/-- The submission errors that are not retriable, aggregated. -/
def nonRetriableErrors : AggregatedRequestErrors :=
  aggregateRequestErrors self.nonRetriableErrorsAggregator.statusByAuthority

/-- The submission errors that are retriable, aggregated. -/
def retriableErrors : AggregatedRequestErrors :=
  aggregateRequestErrors self.retriableErrorsAggregator.statusByAuthority

def observedEffectsDigests : AggregatedEffectsDigests :=
  ⟨self.effectsDigestAggregators.toList.map fun entry => (entry.1, entry.2.authorities, entry.2.totalVotes)⟩

/-- The error with which the loop is left early. -/
def earlyError (remainingWeight : Nat) : Option TransactionDriverError :=
  if quorumThreshold ≤ self.totalWeight then
    if validityThreshold ≤ self.nonRetriableErrorsAggregator.totalVotes then
      some (.rejectedByValidators self.nonRetriableErrors self.retriableErrors)
    else if self.nonRetriableErrorsAggregator.totalVotes + remainingWeight < validityThreshold ∧
        validityThreshold ≤ self.retriableErrorsAggregator.totalVotes + self.nonRetriableErrorsAggregator.totalVotes then
      some (.aborted self.nonRetriableErrors self.retriableErrors self.observedEffectsDigests)
    else none
  else none

def retriableWeight : Nat :=
  self.retriableErrorsAggregator.totalVotes + self.reasonNotFoundAggregator.totalVotes

def submissionRetriable : Bool :=
  quorumThreshold ≤ self.retriableWeight ||
    self.effectsDigestAggregators.toList.any fun entry => quorumThreshold ≤ entry.2.totalVotes + self.retriableWeight

def finalError : TransactionDriverError :=
  if self.submissionRetriable then .aborted self.nonRetriableErrors self.retriableErrors self.observedEffectsDigests
  else .forkedExecution self.observedEffectsDigests self.nonRetriableErrors self.retriableErrors

end Acknowledgments

/-- The loop of `wait_for_acknowledgments` over the responses in the order in which they arrive. -/
def awaitResponses {Data : Type} (committee : Types.Committee) :
    List (AuthorityName × Except SuiError (WaitForEffectsResponse Data)) → Acknowledgments →
      Except DriverPanic (Except TransactionDriverError Types.Digest)
  | [], acks => .ok (.error acks.finalError)
  | (name, response) :: rest, acks =>
    let acks := acks.record committee name response
    match acks.certified response with
    | some effectsDigest => .ok (.ok effectsDigest)
    | none => do
      let remainingWeight ← Word.sub .remainingWeightUnderflow totalVotingPower acks.totalWeight
      match acks.earlyError remainingWeight with
      | some e => return .error e
      | none => awaitResponses committee rest acks

def waitForAcknowledgments {Data : Type} (committee : Types.Committee)
    (responses : List (AuthorityName × Except SuiError (WaitForEffectsResponse Data))) :
    Except DriverPanic (Except TransactionDriverError Types.Digest) :=
  awaitResponses committee responses (.new committee)

/-- `drive_transaction`: the results of the attempts, until one is final. -/
def driveTransaction {R : Type} : List (Except TransactionDriverError R) → Option (Except TransactionDriverError R)
  | [] => none
  | .ok response :: _ => some (.ok response)
  | .error e :: rest => if e.isSubmissionRetriable then driveTransaction rest else some (.error e)

end Sui.TransactionDriver

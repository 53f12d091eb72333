import Sui.Types.Crypto
import Sui.Library.Word

/-!
# The stake aggregator

`authority/src/stake_aggregator.rs`: votes of authorities are collected until they reach a threshold. The aggregator of
signatures then aggregates what it holds, verifies the aggregate, and takes out the signatures that are not valid if it is not.
-/

namespace Sui.Types

open Library

/-- A stake counter left the range of `u64`. -/
inductive StakeOverflow where
  | add
  | sub
deriving DecidableEq, Repr

structure StakeAggregator (S : Type) where
  data : BTreeMap AuthorityName S
  totalVotes : Nat
  committee : Committee

inductive InsertResult (CertT : Type) where
  | quorumReached (cert : CertT)
  | failed (error : SuiError)
  | notEnoughVotes (badVotes : Nat) (badAuthorities : List AuthorityName)

def InsertResult.isQuorumReached {CertT : Type} : InsertResult CertT → Bool
  | .quorumReached _ => true
  | _ => false

/-- `Envelope` with the signature of one authority. -/
structure Envelope (T Sig : Type) where
  data : T
  authSignature : AuthoritySignInfo Sig

namespace StakeAggregator

def new {S : Type} (committee : Committee) : StakeAggregator S := ⟨∅, 0, committee⟩

/-- `insert_generic`, with the aggregator after it. -/
def insertGeneric {S : Type} [BEq S] (strength : Bool) (self : StakeAggregator S) (authority : AuthorityName) (s : S) :
    Except StakeOverflow (InsertResult (BTreeMap AuthorityName S) × StakeAggregator S) :=
  match self.data[authority]? with
  | some oc => return (.failed (.stakeAggregatorRepeatedSigner authority (oc != s)), self)
  | none => do
    let self := { self with data := self.data.insert authority s }
    let votes := self.committee.weight authority
    if 0 < votes then
      let self := { self with totalVotes := ← Word.add .add 64 self.totalVotes votes }
      if Committee.threshold strength ≤ self.totalVotes then return (.quorumReached self.data, self)
      else return (.notEnoughVotes 0 [], self)
    else return (.failed .invalidAuthenticator, self)

variable {T Sig Agg : Type} (scheme : AggregateScheme AuthorityName (T × EpochId) Sig Agg) (strength : Bool)

/-- One signature in the loop that verifies them: the aggregator, the bad votes and the bad authorities so far. -/
def evict (data : T) (acc : StakeAggregator (AuthoritySignInfo Sig) × Nat × List AuthorityName)
    (entry : AuthorityName × AuthoritySignInfo Sig) :
    Except StakeOverflow (StakeAggregator (AuthoritySignInfo Sig) × Nat × List AuthorityName) :=
  match entry.2.verifySecure scheme data acc.1.committee with
  | .ok _ => return acc
  | .error _ => do
    let votes := acc.1.committee.weight entry.1
    let totalVotes ← Word.sub .sub acc.1.totalVotes votes
    let badVotes ← Word.add .add 64 acc.2.1 votes
    return (⟨acc.1.data.erase entry.1, totalVotes, acc.1.committee⟩, badVotes, acc.2.2 ++ [entry.1])

variable (self : StakeAggregator (AuthoritySignInfo Sig))

/-- The signatures that the aggregator holds, aggregated. -/
def aggregated : Except SuiError (AuthorityQuorumSignInfo Agg) :=
  AuthorityQuorumSignInfo.newFromAuthSignInfos scheme strength (self.data.toList.map Prod.snd) self.committee

/-- The fallback if the aggregate does not verify: the signatures that are not valid are taken out. -/
def evictInvalid (data : T) :
    Except StakeOverflow (InsertResult (AuthorityQuorumSignInfo Agg) × StakeAggregator (AuthoritySignInfo Sig)) := do
  let (self, badVotes, badAuthorities) ← self.data.toList.foldlM (evict scheme data) (self, 0, [])
  if Committee.threshold strength ≤ self.totalVotes then
    match self.aggregated scheme strength with
    | .ok cert => return (.quorumReached cert, self)
    | .error error => return (.failed error, self)
  else return (.notEnoughVotes badVotes badAuthorities, self)

/-- What `insert` does once the stake of what is held reaches the threshold. -/
def certify (data : T) :
    Except StakeOverflow (InsertResult (AuthorityQuorumSignInfo Agg) × StakeAggregator (AuthoritySignInfo Sig)) :=
  match self.aggregated scheme strength with
  | .ok cert =>
    match cert.verifySecure scheme strength data self.committee with
    | .ok _ => return (.quorumReached cert, self)
    | .error _ => self.evictInvalid scheme strength data
  | .error error => return (.failed error, self)

/-- `insert`, with the aggregator after it. -/
def insert (envelope : Envelope T Sig) :
    Except StakeOverflow (InsertResult (AuthorityQuorumSignInfo Agg) × StakeAggregator (AuthoritySignInfo Sig)) :=
  let sig := envelope.authSignature
  if self.committee.epoch ≠ sig.epoch then return (.failed (.wrongEpoch self.committee.epoch sig.epoch), self)
  else do
    match ← self.insertGeneric strength sig.authority sig with
    | (.quorumReached _, self) => self.certify scheme strength envelope.data
    | (.failed error, self) => return (.failed error, self)
    | (.notEnoughVotes badVotes badAuthorities, self) => return (.notEnoughVotes badVotes badAuthorities, self)

def inserts (envelopes : List (Envelope T Sig)) : Except StakeOverflow (StakeAggregator (AuthoritySignInfo Sig)) :=
  envelopes.foldlM (fun self envelope => Prod.snd <$> self.insert scheme strength envelope) self

/-- The aggregator after a sequence of inserts without signatures. -/
def insertsGeneric {S : Type} [BEq S] (self : StakeAggregator S) (votes : List (AuthorityName × S)) :
    Except StakeOverflow (StakeAggregator S) :=
  votes.foldlM (fun self vote => Prod.snd <$> self.insertGeneric strength vote.1 vote.2) self

end StakeAggregator

structure MultiStakeAggregator (K V Sig : Type) [LinearOrder K] where
  committee : Committee
  stakeMaps : BTreeMap K (V × StakeAggregator (AuthoritySignInfo Sig))

namespace MultiStakeAggregator

variable {K V Sig Agg : Type} [LinearOrder K] (scheme : AggregateScheme AuthorityName (V × EpochId) Sig Agg) (strength : Bool)

def new (committee : Committee) : MultiStakeAggregator K V Sig := ⟨committee, ∅⟩

/-- `MultiStakeAggregator::insert`, with the aggregator after it. An entry whose first insert fails is not added. -/
def insert (self : MultiStakeAggregator K V Sig) (k : K) (envelope : Envelope V Sig) :
    Except StakeOverflow (InsertResult (AuthorityQuorumSignInfo Agg) × MultiStakeAggregator K V Sig) := do
  match self.stakeMaps[k]? with
  | some entry =>
    let (result, agg) ← entry.2.insert scheme strength envelope
    return (result, { self with stakeMaps := self.stakeMaps.insert k (entry.1, agg) })
  | none =>
    let (result, newEntry) ← (StakeAggregator.new self.committee).insert scheme strength envelope
    match result with
    | .failed error => return (.failed error, self)
    | result => return (result, { self with stakeMaps := self.stakeMaps.insert k (envelope.data, newEntry) })

def inserts (self : MultiStakeAggregator K V Sig) (envelopes : List (K × Envelope V Sig)) :
    Except StakeOverflow (MultiStakeAggregator K V Sig) :=
  envelopes.foldlM (fun self e => Prod.snd <$> self.insert scheme strength e.1 e.2) self

end MultiStakeAggregator

end Sui.Types

import Sui.Library.Checked
import Sui.Library.AggregateSignature

/-!
# Committees and their signatures

`types/sui/src/committee.rs` and the signature infos of `types/sui/src/crypto.rs`: the committee of an epoch, the signature of
one authority, and the certificate of a quorum. The public key of an authority is its name, and the message that is signed is
the data with the epoch. Stake is a `Nat`.
-/

namespace Sui.Types

open Library Checked

abbrev EpochId := Nat

/-- `AuthorityName`: the bytes of the public key. -/
abbrev AuthorityName := Nat

def totalVotingPower : Nat := 10000

def quorumThreshold : Nat := 6667

def validityThreshold : Nat := 3334

/-- `Committee` as `Committee::new` makes it, whatever the voting rights are: sorted by name. The expanded keys and the index map are
functions of the voting rights, and `==` does not compare them. -/
structure EpochCommittee where
  epoch : EpochId
  votingRights : List (AuthorityName × Nat)
  sorted : votingRights.Pairwise fun a b => a.1 < b.1
deriving DecidableEq

/-- A committee of one authority. -/
def EpochCommittee.ofOne (epoch : EpochId) (name : AuthorityName) : EpochCommittee :=
  ⟨epoch, [(name, totalVotingPower)], List.pairwise_singleton _ _⟩

/-- A `Committee` whose voting rights add up to the total. The check of `Committee::new`, on a sum that wraps, does not make
sure of that. -/
structure Committee extends EpochCommittee where
  total : (votingRights.map Prod.snd).sum = totalVotingPower
deriving DecidableEq

instance : CoeOut Committee EpochCommittee := ⟨Committee.toEpochCommittee⟩

/-- The errors of signatures, of the aggregator and of checkpoint verification. -/
inductive SuiError where
  | wrongEpoch (expectedEpoch actualEpoch : EpochId)
  | unknownSigner (signer : Option AuthorityName) (index : Option Nat)
  | invalidCommittee (authority : AuthorityName)
  | certificateRequiresQuorum
  | signaturesFromOtherEpoch
  | signaturesWithoutQuorum
  | aggregationFailed (e : String)
  | failedToBatchVerify
  | invalidAuthenticator
  | stakeAggregatorRepeatedSigner (signer : AuthorityName) (conflictingSig : Bool)
deriving DecidableEq, Repr

namespace EpochCommittee

variable (c : EpochCommittee)

def names : List AuthorityName := c.votingRights.map Prod.fst

def weight (author : AuthorityName) : Nat := (c.votingRights.lookup author).getD 0

def authorityIndex (author : AuthorityName) : Option Nat := c.names.idxOf? author

def authorityByIndex (index : Nat) : Option AuthorityName := c.names[index]?

def publicKey (authority : AuthorityName) : Except SuiError AuthorityName :=
  if authority ∈ c.names then .ok authority else .error (.invalidCommittee authority)

end EpochCommittee

def Committee.threshold (strength : Bool) : Nat := if strength then quorumThreshold else validityThreshold

structure AuthoritySignInfo (Sig : Type) where
  epoch : EpochId
  authority : AuthorityName
  signature : Sig
deriving DecidableEq, Repr

/-- `PartialEq` of `AuthoritySignInfo`: the signature is not compared. -/
instance {Sig : Type} : BEq (AuthoritySignInfo Sig) where
  beq a b := a.epoch == b.epoch && a.authority == b.authority

structure AuthorityQuorumSignInfo (Agg : Type) where
  epoch : EpochId
  signature : Agg
  signersMap : BTreeSet Nat

variable {T Sig Agg : Type} (scheme : AggregateScheme AuthorityName (T × EpochId) Sig Agg)

def AuthoritySignInfo.verifySecure (self : AuthoritySignInfo Sig) (data : T) (committee : EpochCommittee) :
    Except SuiError Unit := do
  assert (self.epoch = committee.epoch) (.wrongEpoch committee.epoch self.epoch)
  assert (0 < committee.weight self.authority) (.unknownSigner (some self.authority) none)
  let publicKey ← committee.publicKey self.authority
  assert (scheme.verify publicKey (data, self.epoch) self.signature) .failedToBatchVerify

namespace AuthorityQuorumSignInfo

/-- One signer in `add_to_verification_obligation`: the weight, a `u64` that wraps, and the public keys so far. A bitmap holds no
index twice, so `seen` skips none. -/
def addSigner (committee : EpochCommittee) (acc : Nat × List AuthorityName) (authorityIndex : Nat) :
    Except SuiError (Nat × List AuthorityName) := do
  let authority ← expect (committee.authorityByIndex authorityIndex) (.unknownSigner none (some authorityIndex))
  let votingRights := committee.weight authority
  assert (0 < votingRights) (.unknownSigner (some authority) (some authorityIndex))
  let publicKey ← committee.publicKey authority
  return ((acc.1 + votingRights) % 2 ^ 64, acc.2 ++ [publicKey])

def verifySecure (strength : Bool) (self : AuthorityQuorumSignInfo Agg) (data : T) (committee : EpochCommittee) :
    Except SuiError Unit := do
  assert (self.epoch = committee.epoch) (.wrongEpoch committee.epoch self.epoch)
  let (weight, selectedPublicKeys) ← self.signersMap.iter.foldlM (addSigner committee) (0, [])
  assert (Committee.threshold strength ≤ weight) .certificateRequiresQuorum
  assert (scheme.verifyAggregate selectedPublicKeys (data, self.epoch) self.signature) .failedToBatchVerify

/-- One key in the loop of `new_from_auth_sign_infos` that collects the indices of the signers. -/
def addIndex (committee : EpochCommittee) (map : BTreeSet Nat) (pk : AuthorityName) : Except SuiError (BTreeSet Nat) := do
  let index ← expect (committee.authorityIndex pk) (.unknownSigner (some pk) none)
  return insert index map

def newFromAuthSignInfos (strength : Bool) (authSignInfos : List (AuthoritySignInfo Sig)) (committee : Committee) :
    Except SuiError (AuthorityQuorumSignInfo Agg) := do
  assert (authSignInfos.all fun a => a.epoch = committee.epoch) .signaturesFromOtherEpoch
  let totalStake := (authSignInfos.map fun a => committee.weight a.authority).sum
  assert (Committee.threshold strength ≤ totalStake) .signaturesWithoutQuorum
  let signatures : BTreeMap AuthorityName Sig := authSignInfos.foldl (fun m a => m.insert a.authority a.signature) ∅
  let map ← (signatures.toList.map Prod.fst).foldlM (addIndex committee) ∅
  let signature ← (scheme.aggregate (signatures.toList.map Prod.snd)).mapError .aggregationFailed
  return ⟨committee.epoch, signature, map⟩

end AuthorityQuorumSignInfo

end Sui.Types

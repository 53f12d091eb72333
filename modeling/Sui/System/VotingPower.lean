import Sui.System.Move

/-!
# Voting power

`sui-system/sources/voting_power.move`: the stakes of the validators are turned into voting powers that add up to a fixed total,
with a cap on the power of each. Of a validator only its stake and its voting power are kept.
-/

namespace Sui

open Library Checked

/-- `Validator`: the total stake of its pool and its voting power. -/
structure Validator where
  totalStake : Nat
  votingPower : Nat
deriving DecidableEq, Repr

def Validator.setVotingPower (v : Validator) (newVotingPower : Nat) : Validator := { v with votingPower := newVotingPower }

namespace VotingPower

/-- `VotingPowerInfoV2`. -/
structure VotingPowerInfo where
  validatorIndex : Nat
  votingPower : Nat
  stake : Nat
deriving DecidableEq, Repr

def totalVotingPower : Nat := 10000

def maxVotingPower : Nat := 1000

def deriveRawVotingPower (stake totalStake : Nat) : Except Abort Nat := U64.mulDiv stake totalVotingPower totalStake

variable (validators : List Validator) (infoList : List VotingPowerInfo)

/-- `insert`: in front of the first info whose stake is not higher. -/
def insert (newInfo : VotingPowerInfo) : List VotingPowerInfo :=
  let idx := (infoList.findIdx? fun info => newInfo.stake ≥ info.stake).getD infoList.length
  infoList.insertIdx idx newInfo

/-- One pass of the loop of `init_voting_power_info`. -/
def initOne (threshold totalStake : Nat) (s : List VotingPowerInfo × Nat) (v : Validator × Nat) :
    Except Abort (List VotingPowerInfo × Nat) := do
  let stake := v.1.totalStake
  let votingPower := min (← deriveRawVotingPower stake totalStake) threshold
  let totalPower ← U64.add s.2 votingPower
  return (insert s.1 { validatorIndex := v.2, votingPower, stake }, totalPower)

/-- `init_voting_power_info`: the infos in the descending order of their stakes, and the power that is left. -/
def initVotingPowerInfo (threshold totalStake : Nat) : Except Abort (List VotingPowerInfo × Nat) := do
  let (result, totalPower) ← validators.zipIdx.foldlM (initOne threshold totalStake) ([], 0)
  return (result, ← U64.sub totalVotingPower totalPower)

/-- One pass of the loop of `adjust_voting_power`, with the number of validators that are left. -/
def adjustOne (threshold remainingPower left : Nat) (v : VotingPowerInfo) : Except Abort (VotingPowerInfo × Nat) := do
  let planned ← U64.divCeil remainingPower left
  let target := min threshold (← U64.add v.votingPower planned)
  let actual := min remainingPower (← U64.sub target v.votingPower)
  let votingPower ← U64.add v.votingPower actual
  assert (votingPower ≤ threshold) .votingPowerOverThreshold
  let remainingPower ← U64.sub remainingPower actual
  return ({ v with votingPower }, remainingPower)

/-- The loop of `adjust_voting_power`, from the first info on, until no power is left. -/
def adjustLoop (threshold : Nat) : Nat → List VotingPowerInfo → Except Abort (List VotingPowerInfo × Nat)
  | remainingPower, [] => return ([], remainingPower)
  | remainingPower, v :: rest =>
    if remainingPower > 0 then do
      let (v, remainingPower) ← adjustOne threshold remainingPower (rest.length + 1) v
      let (rest, remainingPower) ← adjustLoop threshold remainingPower rest
      return (v :: rest, remainingPower)
    else return (v :: rest, remainingPower)

/-- `adjust_voting_power`: the power that is left is given to validators below the threshold. -/
def adjustVotingPower (threshold remainingPower : Nat) : Except Abort (List VotingPowerInfo) := do
  let (infoList, remainingPower) ← adjustLoop threshold remainingPower infoList
  assert (remainingPower = 0) .totalPowerMismatch
  return infoList

/-- One pass of the loop of `update_voting_power`. -/
def updateOne (info : VotingPowerInfo) : Except Abort (List Validator) := do
  assert (info.validatorIndex < validators.length) .indexOutOfBounds
  return validators.modify info.validatorIndex fun v => v.setVotingPower info.votingPower

def updateVotingPower : Except Abort (List Validator) :=
  infoList.foldlM updateOne validators

/-- The sum of the powers in `check_invariants`; no power is zero. -/
def checkTotal (total : Nat) (v : Validator) : Except Abort Nat := do
  assert (v.votingPower > 0) .invalidVotingPower
  U64.add total v.votingPower

/-- The check of a pair of validators in `check_invariants`. -/
def checkPair (a b : Validator) : Except Abort Unit := do
  assert (!(a.totalStake > b.totalStake) || a.votingPower ≥ b.votingPower) .relativePowerMismatch
  assert (!(a.totalStake < b.totalStake) || a.votingPower ≤ b.votingPower) .relativePowerMismatch

/-- The check of all pairs in `check_invariants`. -/
def checkPairs : List Validator → Except Abort Unit
  | [] => return ()
  | a :: rest => do
    rest.forM (checkPair a)
    checkPairs rest

def checkInvariants (v : List Validator) : Except Abort Unit := do
  let total ← v.foldlM checkTotal 0
  assert (total = totalVotingPower) .totalPowerMismatch
  checkPairs v

def setVotingPower (totalStake : Nat) : Except Abort (List Validator) := do
  let averageVotingPower ← U64.divCeil totalVotingPower validators.length
  let threshold := min totalVotingPower (max maxVotingPower averageVotingPower)
  let (infoList, remainingPower) ← initVotingPowerInfo validators threshold totalStake
  let infoList ← adjustVotingPower infoList threshold remainingPower
  let validators ← updateVotingPower validators infoList
  checkInvariants validators
  return validators

end VotingPower

end Sui

import Sui.Library.Word

/-!
# Move

The aborts of the modelled Move modules, and the integer operations and the library functions that they use. An operation that
aborts has no effect: a transaction that aborts changes nothing.
-/

namespace Sui

open Library Checked Word

/-- How a Move function aborts: the virtual machine's own aborts, then the abort codes of the modules. -/
inductive Abort where
  -- the virtual machine
  | overflow
  | underflow
  | divisionByZero
  | castOverflow
  | indexOutOfBounds
  -- `dynamic_field` and `table`
  | fieldAlreadyExists
  | fieldDoesNotExist
  -- `vec_map`
  | keyAlreadyExists
  -- `balance`
  | notEnough
  -- `voting_power`
  | totalPowerMismatch
  | relativePowerMismatch
  | votingPowerOverThreshold
  | invalidVotingPower
  -- `staking_pool`
  | wrongPool
  | tokenBalancesDoNotMatchExchangeRate
  | delegationToInactivePool
  | poolAlreadyActive
  | poolPreactiveOrInactive
  | activationOfInactivePool
  | delegationOfZeroSui
  | stakedSuiBelowThreshold
  | cannotMintFungibleStakedSuiYet
  | invariantFailure
  | deactivationOfInactivePool
  -- `validator`
  | calledDuringNonGenesis
  | invalidStakeAmount
  -- `validator_set`
  | notAValidator
  | validatorSetEmpty
  | nonValidatorInReportRecords
  | duplicateValidator
  | noPoolFound
  | minJoiningStakeNotReached
  | alreadyValidatorCandidate
  | validatorNotCandidate
  | notValidatorCandidate
  | stakingBelowThreshold
  | validatorAlreadyRemoved
  | alreadyValidator
  -- `sui_system_state_inner`
  | limitExceeded
  | bpsTooLarge
  | notValidator
  | cannotReportOneself
  | reportRecordNotFound
deriving DecidableEq, Repr

/-- `Balance::split`: what is left of a balance. -/
def Balance.split (balance value : Nat) : Except Abort Nat := do
  assert (balance ≥ value) .notEnough
  return balance - value

/-- `VecMap`: the entries in the order in which they were inserted. -/
abbrev VecMap (K V : Type) := List (K × V)

def VecMap.insert {K V : Type} [BEq K] (m : VecMap K V) (key : K) (value : V) : Except Abort (VecMap K V) := do
  assert (m.lookup key).isNone .keyAlreadyExists
  return m ++ [(key, value)]

namespace U64

def add (a b : Nat) : Except Abort Nat := Word.add .overflow 64 a b

def sub (a b : Nat) : Except Abort Nat := Word.sub .underflow a b

def divCeil (x y : Nat) : Except Abort Nat := do
  let quotient ← div .divisionByZero x y
  if x % y = 0 then return quotient else U64.add quotient 1

/-- `(a as u128) * (b as u128) / (c as u128) as u64`, the macro `mul_div`. -/
def mulDiv (a b c : Nat) : Except Abort Nat := do
  let product ← mul .overflow 128 a b
  let quotient ← div .divisionByZero product c
  cast .castOverflow 64 quotient

/-- The quotient rounded up. -/
theorem divCeil_eq {x y : Nat} (hy : 0 < y) (hx : x < 2 ^ 63) : divCeil x y = .ok ((x + y - 1) / y) := by
  have hle := Nat.div_le_self x y
  have hmod := Nat.div_add_mod x y
  have hlt := Nat.mod_lt x hy
  rw [divCeil, Word.div_eq (by omega), ok_bind]
  split_ifs with h0
  · rw [pure_ok]
    symm
    rw [Nat.div_eq_iff hy]
    rw [h0, Nat.add_zero, Nat.mul_comm] at hmod
    omega
  · rw [add, Word.add_eq (by omega), Except.ok.injEq]
    symm
    rw [Nat.div_eq_iff hy, Nat.add_mul, Nat.mul_comm (x / y) y]
    omega

/-- The product of two words divided by a third fits when the quotient does. -/
theorem mulDiv_eq {a b c : Nat} (ha : a < 2 ^ 64) (hb : b < 2 ^ 64) (hc : 0 < c) (hq : a * b / c < 2 ^ 64) :
    mulDiv a b c = .ok (a * b / c) := by
  have hmul : a * b < 2 ^ 128 := mul_lt ha hb
  rw [mulDiv, mul_eq hmul, ok_bind, div_eq (by omega), ok_bind, cast_eq hq]

theorem errorsIn_mulDiv {P : Abort → Prop} {c : Nat} (hover : P .overflow) (hzero : c = 0 → P .divisionByZero)
    (hcast : P .castOverflow) (a b : Nat) : ErrorsIn P (mulDiv a b c) := by
  refine .bind (.ite fun _ => hover) fun _ _ => .bind ?_ fun _ _ => .ite fun _ => hcast
  unfold div
  split
  · exact fun _ he => Except.error.inj he ▸ hzero ‹_›
  · exact .ok _

theorem mulDiv_ok {a b c q : Nat} (h : mulDiv a b c = .ok q) : 0 < c ∧ q = a * b / c ∧ q < 2 ^ 64 := by
  unfold mulDiv at h
  simp only [bind_ok, mul_ok, div_ok, cast_ok] at h
  obtain ⟨-, ⟨-, rfl⟩, -, ⟨hc, rfl⟩, hlt, rfl⟩ := h
  exact ⟨by omega, rfl, hlt⟩

end U64

end Sui

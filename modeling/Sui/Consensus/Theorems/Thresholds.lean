import Mathlib.Tactic.Linarith
import Sui.Consensus.Committee

/-!
# The thresholds of a committee

The constructors of a committee never fail on the stakes, as long as no sum or product of their assertions wraps: scaled budgets
leave room for the assertions of `new_v3`, and the fault tolerance for those of `new`.
-/

namespace Sui.Committee

open Library Checked

/-! ## On words -/

/-- `Committee::new` on `u64` in a release build, where sums, products and differences wrap. -/
def newOnWords (epoch : Nat) (authorities : List Authority) : Except CommitteePanic Committee := do
  assert (!authorities.isEmpty) .empty
  assert (authorities.length < 2 ^ 32 - 1) .tooManyAuthorities
  let totalStake := sumStake authorities % 2 ^ 64
  assert (totalStake != 0) .zeroTotalStake
  let faultTolerance := (totalStake - 1) / 3
  let quorumThreshold := totalStake - faultTolerance
  let validityThreshold := faultTolerance + 1
  assert ((2 * quorumThreshold + (2 ^ 64 - faultTolerance)) % 2 ^ 64 > totalStake) .quorumsDoNotIntersect
  return { epoch, authorities, totalStake, quorumThreshold, validityThreshold, certificationThreshold := quorumThreshold }

/-- A budget of `new_v3` on `u64`: there is nothing to scale if both are zero. -/
def scaleOnWords (actualTotalStake baseStake nominal : Nat) : Except CommitteePanic Nat :=
  if baseStake > 0 then scale actualTotalStake baseStake nominal else .ok 0

/-- `Committee::new_v3` on `u64` in a release build. -/
def newV3OnWords (epoch : Nat) (authorities : List Authority) (maliciousStake crashStake : Nat) :
    Except CommitteePanic Committee := do
  assert (!authorities.isEmpty) .empty
  assert (authorities.length < 2 ^ 32 - 1) .tooManyAuthorities
  let actualTotalStake := sumStake authorities % 2 ^ 64
  assert (actualTotalStake != 0) .zeroTotalStake
  let baseStake := (5 * maliciousStake + 3 * crashStake) % 2 ^ 64
  let f ← scaleOnWords actualTotalStake baseStake maliciousStake
  let c ← scaleOnWords actualTotalStake baseStake crashStake
  let validityThreshold := (f + 1) % 2 ^ 64
  let certificationThreshold := (2 * f + c + 1) % 2 ^ 64
  let quorumThreshold := (actualTotalStake + (2 ^ 64 - f) + (2 ^ 64 - c)) % 2 ^ 64
  assert ((certificationThreshold + quorumThreshold) % 2 ^ 64 ≥ (actualTotalStake + f + 1) % 2 ^ 64) .certificationStakeSafety
  assert ((quorumThreshold * 2) % 2 ^ 64 ≥ (actualTotalStake + f + certificationThreshold) % 2 ^ 64) .quorumStakeSafety
  return { epoch, authorities, totalStake := actualTotalStake, quorumThreshold, certificationThreshold, validityThreshold }

/-- Two budgets that are scaled and rounded down still leave the safety margin. -/
theorem scaled_margin {n F C : Nat} (hn : 0 < n) :
    5 * (F * (n - 1) / (5 * F + 3 * C)) + 3 * (C * (n - 1) / (5 * F + 3 * C)) + 1 ≤ n := by
  rcases Nat.eq_zero_or_pos (5 * F + 3 * C) with hzero | hpos
  · rw [hzero, Nat.div_zero, Nat.div_zero]
    exact hn
  have hf := Nat.div_mul_le_self (F * (n - 1)) (5 * F + 3 * C)
  have hc := Nat.div_mul_le_self (C * (n - 1)) (5 * F + 3 * C)
  have hle : (5 * (F * (n - 1) / (5 * F + 3 * C)) + 3 * (C * (n - 1) / (5 * F + 3 * C))) * (5 * F + 3 * C) ≤
      (n - 1) * (5 * F + 3 * C) := by
    linarith
  have := Nat.le_of_mul_le_mul_right hle hpos
  omega

theorem scaleOnWords_eq {n base nominal : Nat} (h : nominal * (n - 1) < 2 ^ 64) :
    scaleOnWords n base nominal = .ok (nominal * (n - 1) / base) := by
  unfold scaleOnWords
  split_ifs with hpos
  · simp only [scale, checkedMul, if_pos h, expect_some, ok_bind, pure_eq_ok]
  · rw [Nat.eq_zero_of_not_pos hpos, Nat.div_zero]

section

variable {authorities : List Authority} {n F C : Nat} (hn : sumStake authorities = n) (hne : authorities ≠ [])
  (hlen : authorities.length < 2 ^ 32 - 1) (hpos : 1 ≤ n) (hfit : n < 2 ^ 64)

include hn hne hlen hpos hfit

/-- Both assertions of `new_v3` for scaled budgets: the first is an equation, and the second fails only if the double of the
quorum wraps and the other side does not. -/
theorem newV3OnWords_ok_iff (epoch : Nat) (hbase : 5 * F + 3 * C < 2 ^ 64) (hF : F * (n - 1) < 2 ^ 64) (hC : C * (n - 1) < 2 ^ 64)
    {f c : Nat} (hf : F * (n - 1) / (5 * F + 3 * C) = f) (hc : C * (n - 1) / (5 * F + 3 * C) = c) (hmargin : 5 * f + 3 * c + 1 ≤ n) :
    newV3OnWords epoch authorities F C = .ok ⟨epoch, authorities, n, n - f - c, 2 * f + c + 1, f + 1⟩ ↔
      2 * (n - f - c) < 2 ^ 64 ∨ 2 ^ 64 ≤ n + f + (2 * f + c + 1) := by
  have hquorum : (n + (2 ^ 64 - f) + (2 ^ 64 - c)) % 2 ^ 64 = n - f - c := by omega
  have hcertification : (2 * f + c + 1) % 2 ^ 64 = 2 * f + c + 1 := by omega
  have hvalidity : (f + 1) % 2 ^ 64 = f + 1 := by omega
  simp only [newV3OnWords, hn, Nat.mod_eq_of_lt hfit, Nat.mod_eq_of_lt hbase, scaleOnWords_eq hF, scaleOnWords_eq hC, hf, hc,
    ok_bind, hquorum,
    hcertification, hvalidity, List.isEmpty_eq_false_iff.mpr hne, bind_ok, assert_ok, pure_ok, exists_and_left, exists_const,
    Bool.not_false, decide_eq_true_eq, bne_iff_ne, and_true, true_and]
  omega

/-- The assertion of `new` fails only for the two largest total stakes. -/
theorem newOnWords_ok_iff (epoch : Nat) :
    newOnWords epoch authorities = .ok ⟨epoch, authorities, n, n - (n - 1) / 3, n - (n - 1) / 3, (n - 1) / 3 + 1⟩ ↔ n < 2 ^ 64 - 2 := by
  have hwrap : 2 * (n - (n - 1) / 3) + (2 ^ 64 - (n - 1) / 3) = 2 * n - 3 * ((n - 1) / 3) + 2 ^ 64 := by omega
  simp only [newOnWords, hn, Nat.mod_eq_of_lt hfit, hwrap, Nat.add_mod_right, List.isEmpty_eq_false_iff.mpr hne, bind_ok, assert_ok, pure_ok, exists_and_left,
    exists_const, Bool.not_false, decide_eq_true_eq, bne_iff_ne, and_true, true_and]
  rcases Nat.lt_or_ge n (2 ^ 64 - 2) with hlt | hge
  · rw [Nat.mod_eq_of_lt (by omega)]
    omega
  · obtain heq | heq : n = 2 ^ 64 - 2 ∨ n = 2 ^ 64 - 1 := by omega
    · simp [heq]
    · simp [heq]

/-- The thresholds of `new_v3` and `new` keep every margin of their assertions. `new_v3` returns them unless in the last
assertion only the double of the quorum wraps, and `new` unless the total stake is one of the two largest words. -/
theorem constructors_safe (epoch : Nat) (hbase : 5 * F + 3 * C < 2 ^ 64) (hF : F * (n - 1) < 2 ^ 64) (hC : C * (n - 1) < 2 ^ 64) :
    (∃ f c quorum certification validity, f = F * (n - 1) / (5 * F + 3 * C) ∧ c = C * (n - 1) / (5 * F + 3 * C) ∧
      quorum = n - f - c ∧ certification = 2 * f + c + 1 ∧ validity = f + 1 ∧ 5 * f + 3 * c + 1 ≤ n ∧ f + c ≤ n ∧
      n + f + 1 ≤ certification + quorum ∧ n + f + certification ≤ 2 * quorum ∧ certification ≤ quorum ∧ validity ≤ certification ∧
      (newV3OnWords epoch authorities F C = .ok ⟨epoch, authorities, n, quorum, certification, validity⟩ ↔
        2 * quorum < 2 ^ 64 ∨ 2 ^ 64 ≤ n + f + certification)) ∧
    ∃ f quorum, f = (n - 1) / 3 ∧ quorum = n - f ∧ n < 2 * quorum - f ∧
      (newOnWords epoch authorities = .ok ⟨epoch, authorities, n, quorum, quorum, f + 1⟩ ↔ n < 2 ^ 64 - 2) := by
  constructor
  · have hmargin := scaled_margin (F := F) (C := C) hpos
    have hwords := newV3OnWords_ok_iff hn hne hlen hpos hfit epoch hbase hF hC rfl rfl hmargin
    refine ⟨_, _, _, _, _, rfl, rfl, rfl, rfl, rfl, hmargin, ?_, ?_, ?_, ?_, ?_, hwords⟩ <;> omega
  · exact ⟨_, _, rfl, rfl, by omega, newOnWords_ok_iff hn hne hlen hpos hfit epoch⟩

end

/-- A total stake of `2 ^ 63` and malicious budgets only: no assertion overflows. -/
theorem two_authorities_safe : ∃ quorum certification validity, certification ≤ quorum ∧
    newV3OnWords 0 [⟨2 ^ 62⟩, ⟨2 ^ 62⟩] 1 0 = .ok ⟨0, [⟨2 ^ 62⟩, ⟨2 ^ 62⟩], 2 ^ 63, quorum, certification, validity⟩ := by
  obtain ⟨⟨f, c, quorum, certification, validity, rfl, rfl, hquorum, -, -, -, -, -, -, hle, -, hiff⟩, -⟩ :=
    constructors_safe (F := 1) (C := 0) (show sumStake [⟨2 ^ 62⟩, ⟨2 ^ 62⟩] = 2 ^ 63 from rfl) (by decide) (by decide) (by decide)
      (by decide) 0 (by decide) (by decide) (by decide)
  exact ⟨quorum, certification, validity, hle, hiff.mpr (.inl (by rw [hquorum]; decide))⟩

/-- The double of a quorum of `2 ^ 63` wraps to zero, although no product of the budgets overflows. -/
theorem quorum_overflows : newV3OnWords 0 [⟨2 ^ 63⟩] 0 0 = .error .quorumStakeSafety := by decide +kernel

end Sui.Committee

import Sui.Library.Checked

/-!
# Checked arithmetic of a fixed width

Unsigned integers of `w` bits as natural numbers below `2 ^ w`. Every operation fails with the given error when its result does
not fit, when a difference is negative or when a divisor is zero.
-/

namespace Sui.Library

namespace Word

variable {ε : Type} {e : ε} {w a b c : ℕ}

/-- A sum that fits. -/
def add (e : ε) (w a b : ℕ) : Except ε ℕ := if a + b < 2 ^ w then .ok (a + b) else .error e

/-- A difference that is not negative. -/
def sub (e : ε) (a b : ℕ) : Except ε ℕ := if b ≤ a then .ok (a - b) else .error e

/-- A product that fits. -/
def mul (e : ε) (w a b : ℕ) : Except ε ℕ := if a * b < 2 ^ w then .ok (a * b) else .error e

/-- A quotient rounded down. -/
def div (e : ε) (a b : ℕ) : Except ε ℕ := if b = 0 then .error e else .ok (a / b)

/-- A value of another width that fits. -/
def cast (e : ε) (w a : ℕ) : Except ε ℕ := if a < 2 ^ w then .ok a else .error e

theorem add_ok : add e w a b = .ok c ↔ a + b < 2 ^ w ∧ a + b = c := by
  unfold add
  split <;> simp_all

theorem sub_ok : sub e a b = .ok c ↔ b ≤ a ∧ a - b = c := by
  unfold sub
  split <;> simp_all

theorem mul_ok : mul e w a b = .ok c ↔ a * b < 2 ^ w ∧ a * b = c := by
  unfold mul
  split <;> simp_all

theorem div_ok : div e a b = .ok c ↔ b ≠ 0 ∧ a / b = c := by
  unfold div
  split <;> simp_all

theorem cast_ok : cast e w a = .ok c ↔ a < 2 ^ w ∧ a = c := by
  unfold cast
  split <;> simp_all

theorem add_eq (h : a + b < 2 ^ w) : add e w a b = .ok (a + b) := if_pos h

theorem sub_eq (h : b ≤ a) : sub e a b = .ok (a - b) := if_pos h

theorem mul_eq (h : a * b < 2 ^ w) : mul e w a b = .ok (a * b) := if_pos h

theorem div_eq (h : b ≠ 0) : div e a b = .ok (a / b) := if_neg h

theorem cast_eq (h : a < 2 ^ w) : cast e w a = .ok a := if_pos h

/-- The product of two words fits into a word of twice the width. -/
theorem mul_lt (ha : a < 2 ^ w) (hb : b < 2 ^ w) : a * b < 2 ^ (2 * w) := by
  rw [Nat.two_mul, Nat.pow_add]
  exact Nat.mul_lt_mul'' ha hb

/-- A loop that adds up what it looks up. -/
theorem foldlM_add {α β : Type} {g : α → Except ε β} {k : α → β} (f : β → ℕ) {l : List α} (hg : ∀ a ∈ l, g a = .ok (k a))
    (hsum : c + (l.map fun a => f (k a)).sum < 2 ^ w) :
    l.foldlM (fun sum a => do let b ← g a; add e w sum (f b)) c = .ok (c + (l.map fun a => f (k a)).sum) := by
  induction l generalizing c with
  | nil => rfl
  | cons a l ih =>
    rw [List.map_cons, List.sum_cons, ← Nat.add_assoc] at hsum ⊢
    rw [List.foldlM_cons, hg a List.mem_cons_self, Checked.ok_bind, add_eq (by omega), Checked.ok_bind]
    exact ih (fun b hb => hg b (List.mem_cons_of_mem _ hb)) hsum

end Word

end Sui.Library

import Mathlib.Data.List.Count
import Mathlib.Order.Basic

/-!
# Coverage of numbers by a collection

A collection of ranges, seen as the number of ranges that hold each number. It covers the numbers from a lower mark, which is
done, to an upper mark, up to which ranges were handed out: each number in between is in one range, and none is above the upper
mark.
-/

namespace Sui.Library

/-- Each number above `lo` and up to `hi` is counted once, none twice, and none above `hi`. -/
structure Covers (count : ℕ → ℕ) (lo hi : ℕ) : Prop where
  once : ∀ i, count i ≤ 1
  covered : ∀ i, lo < i → i ≤ hi → count i = 1
  bounded : ∀ i, hi < i → count i = 0

namespace Covers

variable {count count' : ℕ → ℕ} {lo lo' hi hi' : ℕ}

/-- Nothing is handed out at the start. -/
theorem zero (lo : ℕ) : Covers (fun _ => 0) lo 0 where
  once := fun _ => Nat.zero_le 1
  covered := fun _ hlo hhi => absurd (Nat.lt_of_lt_of_le hlo hhi) (Nat.not_lt_zero lo)
  bounded := fun _ _ => rfl

section

variable (h : Covers count lo hi)

include h

theorem congr (heq : ∀ i, count' i = count i) : Covers count' lo hi := by
  obtain rfl : count' = count := funext heq
  exact h

/-- More is done. -/
theorem raise (hlo : lo ≤ lo') : Covers count lo' hi :=
  ⟨h.once, fun i hi' => h.covered i (Nat.lt_of_le_of_lt hlo hi'), h.bounded⟩

/-- The numbers above both marks, up to a new upper mark, are handed out. -/
theorem extend (hhi : max lo hi ≤ hi')
    (heq : ∀ i, count' i = count i + if max lo hi < i ∧ i ≤ hi' then 1 else 0) : Covers count' lo hi' := by
  refine ⟨fun i => ?_, fun i hlo hle => ?_, fun i hlt => ?_⟩
  · have honce := h.once i
    have hbound := h.bounded i
    rw [heq i]
    split <;> omega
  · have hcov := h.covered i hlo
    have hbound := h.bounded i
    rw [heq i]
    split <;> omega
  · rw [heq i, h.bounded i (by omega), if_neg (by omega)]

/-- A range of numbers that are done is taken out. -/
theorem discard {d : ℕ → ℕ} (hd : ∀ i, 0 < d i → i ≤ lo) (heq : ∀ i, count i = count' i + d i) : Covers count' lo hi := by
  refine ⟨fun i => ?_, fun i hlo hhi => ?_, fun i hhi => ?_⟩
  · have honce := h.once i
    rw [heq i] at honce
    exact Nat.le_trans (Nat.le_add_right _ _) honce
  · have hcov := h.covered i hlo hhi
    have hout : d i = 0 := Nat.eq_zero_of_not_pos fun hpos => absurd (hd i hpos) (Nat.not_le_of_lt hlo)
    rw [heq i, hout] at hcov
    exact hcov
  · have hzero := h.bounded i hhi
    rw [heq i] at hzero
    exact Nat.eq_zero_of_add_eq_zero_right hzero

end

end Covers

/-- Ranges of which no number is in two are disjoint. -/
theorem pairwise_disjoint_of_countP {R : Type} (holds : R → ℕ → Bool) {l : List R} (h : ∀ i, l.countP (holds · i) ≤ 1) :
    l.Pairwise fun a b => ∀ i, ¬ (holds a i = true ∧ holds b i = true) := by
  induction l with
  | nil => exact List.Pairwise.nil
  | cons a l ih =>
    refine List.Pairwise.cons (fun b hb i hboth => ?_) (ih fun i => Nat.le_trans (List.sublist_cons_self a l).countP_le (h i))
    have hone : 0 < l.countP (holds · i) := List.countP_pos_iff.mpr ⟨b, hb, hboth.2⟩
    have hcount := h i
    rw [List.countP_cons, if_pos hboth.1] at hcount
    omega

end Sui.Library

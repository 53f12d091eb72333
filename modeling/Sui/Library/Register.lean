import Mathlib.Data.Nat.Init
import Mathlib.Order.Basic

/-!
# The history of registers

A sequence of steps, each of which writes one value to some registers: what a register holds is what the last step that wrote it
wrote. Steps are numbered, `Wrote j k` says that step `j` writes register `k`, and `value j` is what it writes.
-/

namespace Sui.Library

variable {K V : Type}

/-- The value of register `k` before step `i`: that of the last step before `i` that wrote it, or the initial one. -/
def LastWrite (Wrote : ℕ → K → Prop) (value : ℕ → V) (init : K → V) (i : ℕ) (k : K) (v : V) : Prop :=
  (∃ j < i, Wrote j k ∧ (∀ x, j < x → x < i → ¬ Wrote x k) ∧ v = value j) ∨ ((∀ j < i, ¬ Wrote j k) ∧ v = init k)

namespace LastWrite

variable {Wrote : ℕ → K → Prop} {value : ℕ → V} {init : K → V} {i j : ℕ} {k : K} {v w : V}

/-- The first step finds the initial value. -/
theorem zero : LastWrite Wrote value init 0 k (init k) := .inr ⟨fun _ h => absurd h (Nat.not_lt_zero _), rfl⟩

theorem step_of_wrote (h : Wrote i k) : LastWrite Wrote value init (i + 1) k (value i) :=
  .inl ⟨i, Nat.lt_succ_self i, h, fun _ hlt hle => absurd hlt (Nat.not_lt_of_le (Nat.le_of_lt_succ hle)), rfl⟩

theorem step_of_not_wrote (h : LastWrite Wrote value init i k v) (hn : ¬ Wrote i k) : LastWrite Wrote value init (i + 1) k v := by
  rcases h with ⟨j, hj, hw, hlast, hv⟩ | ⟨hnone, hv⟩
  · refine .inl ⟨j, Nat.lt_succ_of_lt hj, hw, fun x hjx hx => ?_, hv⟩
    rcases Nat.lt_succ_iff_lt_or_eq.mp hx with hx | rfl
    · exact hlast x hjx hx
    · exact hn
  · refine .inr ⟨fun x hx => ?_, hv⟩
    rcases Nat.lt_succ_iff_lt_or_eq.mp hx with hx | rfl
    · exact hnone x hx
    · exact hn

/-- Only the steps before matter. -/
theorem congr {Wrote' : ℕ → K → Prop} {value' : ℕ → V} (hw : ∀ j < i, Wrote' j k ↔ Wrote j k) (hv : ∀ j < i, value' j = value j)
    (h : LastWrite Wrote value init i k v) : LastWrite Wrote' value' init i k v := by
  rcases h with ⟨j, hj, hwrote, hlast, rfl⟩ | ⟨hnone, rfl⟩
  · exact .inl ⟨j, hj, (hw j hj).mpr hwrote, fun x hjx hx => mt (hw x hx).mp (hlast x hjx hx), (hv j hj).symm⟩
  · exact .inr ⟨fun j hj => mt (hw j hj).mp (hnone j hj), rfl⟩

/-- A register that no step wrote between two steps is unchanged. -/
theorem of_not_wrote (h : LastWrite Wrote value init i k v) (hij : i ≤ j) (hn : ∀ x, i ≤ x → x < j → ¬ Wrote x k) :
    LastWrite Wrote value init j k v := by
  induction j, hij using Nat.le_induction with
  | base => exact h
  | succ j hij ih =>
    have hbefore := ih fun x hix hx => hn x hix (Nat.lt_succ_of_lt hx)
    exact hbefore.step_of_not_wrote (hn j hij (Nat.lt_succ_self j))

/-- A register holds one value. -/
theorem unique (h : LastWrite Wrote value init i k v) (h' : LastWrite Wrote value init i k w) : v = w := by
  rcases h with ⟨j, hj, hw, hlast, rfl⟩ | ⟨hnone, rfl⟩
  · rcases h' with ⟨j', hj', hw', hlast', rfl⟩ | ⟨hnone', rfl⟩
    · -- neither of the two last writes is before the other
      rcases Nat.lt_trichotomy j j' with hlt | rfl | hgt
      · exact absurd hw' (hlast j' hlt hj')
      · rfl
      · exact absurd hw (hlast' j hgt hj)
    · exact absurd hw (hnone' j hj)
  · rcases h' with ⟨j', hj', hw', -, rfl⟩ | ⟨-, rfl⟩
    · exact absurd hw' (hnone j' hj')
    · rfl

/-- A register always holds a value. -/
theorem exists_value (Wrote : ℕ → K → Prop) (value : ℕ → V) (init : K → V) (i : ℕ) (k : K) :
    ∃ v, LastWrite Wrote value init i k v := by
  induction i with
  | zero => exact ⟨_, zero⟩
  | succ i ih =>
    obtain ⟨v, hv⟩ := ih
    by_cases hw : Wrote i k
    · exact ⟨_, step_of_wrote hw⟩
    · exact ⟨v, hv.step_of_not_wrote hw⟩

/-- If every write is above what it overwrites, what a register holds does not decrease. -/
theorem mono [Preorder V] (hgrow : ∀ x v, Wrote x k → LastWrite Wrote value init x k v → v < value x)
    (h : LastWrite Wrote value init i k v) (h' : LastWrite Wrote value init j k w) (hij : i ≤ j) : v ≤ w := by
  induction j, hij using Nat.le_induction generalizing w with
  | base => exact (h.unique h').le
  | succ j _ ih =>
    obtain ⟨u, hu⟩ := exists_value Wrote value init j k
    by_cases hw : Wrote j k
    · obtain rfl := h'.unique (step_of_wrote hw)
      exact le_trans (ih hu) (hgrow j u hw hu).le
    · obtain rfl := h'.unique (hu.step_of_not_wrote hw)
      exact ih hu

/-- If every write is above what it overwrites, a later step finds more than an earlier write found. -/
theorem lt_of_wrote [Preorder V] (hgrow : ∀ x v, Wrote x k → LastWrite Wrote value init x k v → v < value x)
    (h : LastWrite Wrote value init i k v) (hw : Wrote i k) (h' : LastWrite Wrote value init j k w) (hij : i < j) : v < w :=
  lt_of_lt_of_le (hgrow i v hw h) (mono hgrow (step_of_wrote hw) h' hij)

end LastWrite

end Sui.Library

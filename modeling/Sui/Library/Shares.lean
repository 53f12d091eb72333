import Mathlib.Algebra.Order.BigOperators.Group.List
import Mathlib.Tactic.Linarith
import Mathlib.Tactic.Ring

/-!
# Shares rounded down

A pool of `S` coins with `P` shares: amounts are converted pro rata and rounded down, so that the shares that are handed out are
never worth more than the pool.
-/

namespace Sui.Library

open List

variable {α : Type}

theorem zipIdx_map_comp_fst {β : Type} (f : α → β) {l : List α} : l.zipIdx.map (f ∘ Prod.fst) = l.map f := by
  rw [← map_map, zipIdx_map_fst]

/-- Quotients rounded down add up to at most the quotient of the sum. -/
theorem sum_mul_div_le (f : α → ℕ) (l : List α) (m t : ℕ) : (l.map fun a => f a * m / t).sum ≤ (l.map f).sum * m / t := by
  induction l with
  | nil => simp
  | cons a l ih =>
    rw [map_cons, map_cons, sum_cons, sum_cons, Nat.add_mul]
    exact le_trans (Nat.add_le_add_left ih _) Nat.div_add_div_le_add_div

/-- Each quotient rounded down loses less than one. -/
theorem lt_sum_mul_div (f : α → ℕ) {l : List α} (hl : l ≠ []) (m : ℕ) {t : ℕ} (ht : 0 < t) :
    (l.map f).sum * m < ((l.map fun a => f a * m / t).sum + l.length) * t := by
  induction l with
  | nil => exact absurd rfl hl
  | cons a l ih =>
    have hhead : f a * m < (f a * m / t + 1) * t := Nat.lt_mul_of_div_lt (Nat.lt_succ_self _) ht
    rw [map_cons, map_cons, sum_cons, sum_cons, length_cons, Nat.add_mul]
    cases l with
    | nil => simpa using hhead
    | cons b l =>
      calc f a * m + ((b :: l).map f).sum * m
          < (f a * m / t + 1) * t + (((b :: l).map fun a => f a * m / t).sum + (b :: l).length) * t :=
            Nat.add_lt_add hhead (ih (cons_ne_nil _ _))
        _ = _ := by ring

/-- Shares of an amount that are all of it, but for less than one unit of each. -/
def SharesOf (l : List α) (share : α → ℕ) (total : ℕ) : Prop :=
  (l.map share).sum ≤ total ∧ total < (l.map share).sum + l.length

theorem sharesOf_weights (f : α → ℕ) {l : List α} (total : ℕ) (hpos : 0 < (l.map f).sum) :
    SharesOf l (fun a => f a * total / (l.map f).sum) total := by
  have hne : l ≠ [] := by
    rintro rfl
    exact absurd hpos (Nat.lt_irrefl 0)
  have hle := sum_mul_div_le f l total (l.map f).sum
  have hlt := lt_sum_mul_div f hne total hpos
  rw [Nat.mul_div_cancel_left _ hpos] at hle
  rw [Nat.mul_comm] at hlt
  exact ⟨hle, Nat.lt_of_mul_lt_mul_right hlt⟩

theorem sharesOf_equal {l : List α} (total : ℕ) (hne : l ≠ []) : SharesOf l (fun _ => total / l.length) total := by
  have hmod := Nat.div_add_mod total l.length
  have hlt := Nat.mod_lt total (length_pos_iff.mpr hne)
  rw [SharesOf, map_const', sum_replicate_nat]
  omega

/-- Amounts of which some give up a part and the others get a share: the sum changes by the shares less the parts. -/
theorem sum_redistribute (p : α → Bool) (u d s : α → ℕ) {l : List α} (hd : ∀ a ∈ l, p a = true → d a ≤ u a) :
    (l.map fun a => if p a then u a - d a else u a + s a).sum + ((l.filter p).map d).sum =
      (l.map u).sum + ((l.filter fun a => !p a).map s).sum := by
  induction l with
  | nil => rfl
  | cons a l ih =>
    have hrest := ih fun b hb => hd b (mem_cons_of_mem _ hb)
    have hhead := hd a mem_cons_self
    cases hp : p a with
    | true =>
      have hle := hhead hp
      simp only [map_cons, sum_cons, filter_cons, hp, if_true, Bool.not_true, Bool.false_eq_true, if_false]
      omega
    | false =>
      simp only [map_cons, sum_cons, filter_cons, hp, if_true, Bool.not_false, Bool.false_eq_true, if_false]
      omega

/-- When a pool of `S` coins takes in `s` more, its shares cover those before and those that the new rate gives for `s` coins.
-/
theorem issue_le {P S s : ℕ} (hS : 0 < S) : P + P * (S + s) / S * s / (S + s) ≤ P * (S + s) / S := by
  have hsplit : P * (S + s) / S = P + P * s / S := by
    rw [Nat.mul_add, Nat.add_comm, Nat.add_mul_div_right _ _ hS, Nat.add_comm]
  have hround : P * (S + s) / S * S ≤ P * (S + s) := Nat.div_mul_le_self _ _
  have hle : P * (S + s) / S * s / (S + s) ≤ P * s / S := by
    generalize P * (S + s) / S = P' at hround
    rw [Nat.le_div_iff_mul_le hS]
    have hq : P' * s / (S + s) * (S + s) ≤ P' * s := Nat.div_mul_le_self _ _
    generalize P' * s / (S + s) = q at hq
    refine Nat.le_of_mul_le_mul_right ?_ (show 0 < S + s by omega)
    calc q * S * (S + s) = q * (S + s) * S := by ring
      _ ≤ P' * s * S := Nat.mul_le_mul_right _ hq
      _ = P' * S * s := by ring
      _ ≤ P * (S + s) * s := Nat.mul_le_mul_right _ hround
      _ = P * s * (S + s) := by ring
  omega

/-- The share `v` of `T` in the two parts of an amount that was converted from `T` shares is worth at most the coins of `v`
shares. -/
theorem redeem_le {S P T v m r : ℕ} (hP : 0 < P) (hT : 0 < T) (h : m + r = S * T / P) : v * m / T + v * r / T ≤ S * v / P := by
  have hround : (m + r) * P ≤ S * T := by rw [h]; exact Nat.div_mul_le_self _ _
  refine le_trans Nat.div_add_div_le_add_div ?_
  rw [← Nat.mul_add, Nat.le_div_iff_mul_le hP]
  have hq : v * (m + r) / T * T ≤ v * (m + r) := Nat.div_mul_le_self _ _
  generalize v * (m + r) / T = q at hq
  refine Nat.le_of_mul_le_mul_right ?_ hT
  calc q * P * T = q * T * P := by ring
    _ ≤ v * (m + r) * P := Nat.mul_le_mul_right _ hq
    _ = v * ((m + r) * P) := by ring
    _ ≤ v * (S * T) := Nat.mul_le_mul_left _ hround
    _ = S * v * T := by ring

/-- The three roundings lose at most two coins together. -/
theorem le_redeem {S P T v m r : ℕ} (hP : 0 < P) (hT : 0 < T) (hv : v ≤ T) (h : m + r = S * T / P) :
    S * v / P ≤ v * m / T + v * r / T + 2 := by
  have hround : S * T ≤ (m + r + 1) * P := by
    rw [h, Nat.mul_comm _ P]
    exact (Nat.lt_mul_div_succ _ hP).le
  have hm : v * m < T * (v * m / T + 1) := Nat.lt_mul_div_succ _ hT
  have hr : v * r < T * (v * r / T + 1) := Nat.lt_mul_div_succ _ hT
  generalize v * m / T = a at hm ⊢
  generalize v * r / T = b at hr ⊢
  rw [← Nat.lt_succ_iff, Nat.div_lt_iff_lt_mul hP]
  refine Nat.lt_of_mul_lt_mul_right (a := T) ?_
  calc S * v * T = v * (S * T) := by ring
    _ ≤ v * ((m + r + 1) * P) := Nat.mul_le_mul_left _ hround
    _ = (v * m + v * r + v) * P := by ring
    _ < (T * (a + 1) + T * (b + 1) + T) * P := Nat.mul_lt_mul_of_pos_right (by omega) hP
    _ = (a + b + 2).succ * P * T := by rw [Nat.succ_eq_add_one]; ring

/-- A share of an amount is at most the amount. -/
theorem share_le {v m T : ℕ} (h : v ≤ T) : v * m / T ≤ m := Nat.div_le_of_le_mul (Nat.mul_le_mul_right _ h)

/-- A proper share of a positive amount leaves something. -/
theorem share_lt {v m T : ℕ} (h : v < T) (hm : 0 < m) : v * m / T < m := by
  rw [Nat.div_lt_iff_lt_mul (by omega), Nat.mul_comm]
  exact Nat.mul_lt_mul_of_pos_left h hm

end Sui.Library

import Mathlib

/-!
# Weighted quorums

Members with weights, and sets of members that are heavy enough. Two sets whose weights add up to more than the whole weight
and the weight of the faulty members share a member that is not faulty: the only fact about numbers that agreement rests on.
-/

namespace Sui.Library

open Finset

namespace Quorum

variable {ι : Type}

/-- The weight of a set of members. -/
def weight (w : ι → ℕ) (s : Finset ι) : ℕ := ∑ a ∈ s, w a

@[simp] theorem weight_empty (w : ι → ℕ) : weight w ∅ = 0 := by
  simp [weight]

variable {w : ι → ℕ}

theorem weight_insert [DecidableEq ι] {s : Finset ι} {a : ι} (h : a ∉ s) : weight w (insert a s) = w a + weight w s :=
  sum_insert h

/-- A larger set weighs at least as much. -/
theorem weight_mono {s t : Finset ι} (h : s ⊆ t) : weight w s ≤ weight w t :=
  sum_le_sum_of_subset h

variable [DecidableEq ι]

/-- Two sets of members weigh at most the whole and what they share. -/
theorem weight_add_le {U s t : Finset ι} (hs : s ⊆ U) (ht : t ⊆ U) :
    weight w s + weight w t ≤ weight w U + weight w (s ∩ t) := by
  have h : weight w (s ∪ t) + weight w (s ∩ t) = weight w s + weight w t := sum_union_inter
  have hu : weight w (s ∪ t) ≤ weight w U := weight_mono (union_subset hs ht)
  omega

/-- What is left of a set after its faulty members are taken out. -/
theorem weight_le_sdiff_add (w : ι → ℕ) (s B : Finset ι) : weight w s ≤ weight w (s \ B) + weight w B := by
  have h : weight w (s \ B) + weight w (s ∩ B) = weight w s := by
    rw [weight, weight, weight, add_comm]
    exact sum_inter_add_sum_sdiff s B w
  have hB : weight w (s ∩ B) ≤ weight w B := weight_mono inter_subset_right
  omega

omit [DecidableEq ι] in
/-- A set that weighs something has a member. -/
theorem exists_mem_of_pos {s : Finset ι} (h : 0 < weight w s) : ∃ a, a ∈ s := by
  by_contra hne
  rw [not_exists] at hne
  rw [eq_empty_of_forall_notMem hne, weight_empty] at h
  exact absurd h (lt_irrefl 0)

/-- What two sets share outside the faulty members weighs at least what their weights exceed the whole and the faults by. -/
theorem weight_honest_inter {U s t B : Finset ι} {f : ℕ} (hs : s ⊆ U) (ht : t ⊆ U) (hB : weight w B ≤ f) :
    weight w s + weight w t ≤ weight w U + f + weight w ((s ∩ t) \ B) := by
  have h1 := weight_add_le (w := w) hs ht
  have h2 := weight_le_sdiff_add w (s ∩ t) B
  omega

/-- Quorum intersection: two sets heavy enough share a member that is not faulty. -/
theorem exists_honest_inter {U s t B : Finset ι} {f : ℕ} (hs : s ⊆ U) (ht : t ⊆ U) (hB : weight w B ≤ f)
    (h : weight w U + f < weight w s + weight w t) : ∃ a ∈ s, a ∈ t ∧ a ∉ B := by
  have hle := weight_honest_inter hs ht hB
  obtain ⟨a, ha⟩ := exists_mem_of_pos (w := w) (s := (s ∩ t) \ B) (by omega)
  rw [mem_sdiff, mem_inter] at ha
  exact ⟨a, ha.1.1, ha.1.2, ha.2⟩

end Quorum

end Sui.Library

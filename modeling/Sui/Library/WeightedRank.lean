import Sui.Library.Quorum

/-!
# Weighted ranks

The key of a sorted list at which the weight reaches a threshold: what does not come after it reaches the threshold, and what
comes before it does not. Members that weigh enough have some on both sides of it.
-/

namespace Sui.Library

open List Quorum

variable {α κ : Type} {w : α → Nat} {key : α → κ} {r : κ → κ → Prop} [DecidableRel r] {t : Nat} {l : List α}
  {s : List (κ × Nat)} {x : κ} {U p : Finset α}

/-- The first key at which the weight reaches a threshold. -/
def crossing (t : Nat) : Nat → List (κ × Nat) → Option κ
  | _, [] => none
  | acc, (x, v) :: s => if t ≤ acc + v then some x else crossing t (acc + v) s

theorem crossing_eq {acc : Nat} (hacc : acc < t) (ht : t ≤ acc + (s.map Prod.snd).sum) : ∃ pre x v post,
    s = pre ++ (x, v) :: post ∧ crossing t acc s = some x ∧ acc + (pre.map Prod.snd).sum < t ∧
      t ≤ acc + (pre.map Prod.snd).sum + v := by
  induction s generalizing acc with
  | nil =>
    rw [map_nil, sum_nil] at ht
    omega
  | cons a s ih =>
    rw [map_cons, sum_cons] at ht
    unfold crossing
    split
    · rename_i hreached
      exact ⟨[], a.1, a.2, s, rfl, rfl, hacc, hreached⟩
    · rename_i hnot
      obtain ⟨pre, x, v, post, rfl, heq, hlt, hle⟩ := ih (Nat.lt_of_not_le hnot) (by omega)
      refine ⟨a :: pre, x, v, post, rfl, heq, ?_⟩
      rw [map_cons, sum_cons]
      omega

/-- The key of a member at which the weight along `r` reaches a threshold. -/
structure IsRank (w : α → Nat) (key : α → κ) (r : κ → κ → Prop) [DecidableRel r] (t : Nat) (U : Finset α) (x : κ) : Prop where
  mem : ∃ a ∈ U, key a = x
  reached : t ≤ weight w {a ∈ U | r (key a) x}
  rest : weight w U < weight w {a ∈ U | r x (key a)} + t

/-- The key of the sorted pairs at which their weight reaches the threshold. -/
theorem exists_crossing (hr : ∀ y, r y y) (hs : s.Pairwise fun a b => r a.1 b.1) (hperm : s.Perm (l.map fun a => (key a, w a)))
    (hU : U.val = l) (hpos : 0 < t) (ht : t ≤ weight w U) : ∃ x, crossing t 0 s = some x ∧ IsRank w key r t U x := by
  have hsum : weight w U = (s.map Prod.snd).sum := by
    rw [(hperm.map _).sum_eq, map_map, weight, Finset.sum_eq_multiset_sum, hU]
    rfl
  have hweight : ∀ (f : κ → Prop) [DecidablePred f],
      weight w {a ∈ U | f (key a)} = (s.map fun a => if f a.1 then a.2 else 0).sum := by
    intro f _
    rw [(hperm.map _).sum_eq, map_map, weight, Finset.sum_filter, Finset.sum_eq_multiset_sum, hU]
    rfl
  obtain ⟨pre, x, v, post, rfl, heq, hlt, hle⟩ := crossing_eq hpos (by rwa [Nat.zero_add, ← hsum])
  obtain ⟨-, hpost, hcross⟩ := pairwise_append.mp hs
  obtain ⟨a, ha, hax⟩ := mem_map.mp (hperm.mem_iff.mp (mem_append_right pre mem_cons_self))
  have hbefore : (pre.map fun a => if r a.1 x then a.2 else 0) = pre.map Prod.snd :=
    map_congr_left fun a ha => if_pos (hcross a ha _ mem_cons_self)
  have hafter : (post.map fun a => if r x a.1 then a.2 else 0) = post.map Prod.snd :=
    map_congr_left fun a ha => if_pos ((pairwise_cons.mp hpost).1 a ha)
  simp only [map_append, map_cons, sum_append, sum_cons] at hsum hweight
  refine ⟨x, heq, ⟨a, Finset.mem_val.mp (hU ▸ ha), congrArg Prod.fst hax⟩, ?_, ?_⟩
  · rw [hweight (r · x), hbefore, if_pos (hr x)]
    omega
  · rw [hweight (r x ·), hafter, if_pos (hr x)]
    omega

namespace IsRank

variable [DecidableEq α] (h : IsRank w key r t U x) (hp : p ⊆ U)

include h hp

/-- Members that weigh more than the whole without the threshold have one up to the rank. -/
theorem exists_reached (hw : weight w U < weight w p + t) : ∃ a ∈ p, r (key a) x := by
  obtain ⟨a, ha, hr, -⟩ := exists_honest_inter hp (Finset.filter_subset _ _) (le_of_eq (weight_empty w))
    (Nat.lt_of_lt_of_le hw (Nat.add_le_add_left h.reached _))
  exact ⟨a, ha, (Finset.mem_filter.mp hr).2⟩

/-- Members that weigh the threshold have one from the rank on. -/
theorem exists_rest (hw : t ≤ weight w p) : ∃ a ∈ p, r x (key a) := by
  obtain ⟨a, ha, hr, -⟩ := exists_honest_inter (Finset.filter_subset _ _) hp (le_of_eq (weight_empty w))
    (Nat.lt_of_lt_of_le h.rest (Nat.add_le_add_left hw _))
  exact ⟨a, hr, (Finset.mem_filter.mp ha).2⟩

end IsRank

end Sui.Library

import Mathlib.Data.List.Nodup
import Mathlib.Data.List.Lemmas

/-!
# Maps in the order of insertion

A map as the list of its entries: a new key goes to the end, a known key keeps its place. The keys are distinct by construction.
-/

namespace Sui.Library

open List

/-- A map that iterates in the order in which its keys were first inserted. -/
structure IndexMap (K V : Type) where
  entries : List (K × V)
  nodup : (entries.map Prod.fst).Nodup

namespace IndexMap

variable {K V : Type}

/-- The map with no entries. -/
def empty : IndexMap K V := ⟨[], nodup_nil⟩

variable (m : IndexMap K V)

/-- The entries for which the predicate holds. -/
def retain (p : K → V → Bool) : IndexMap K V :=
  ⟨m.entries.filter fun e => p e.1 e.2, m.nodup.sublist (filter_sublist.map _)⟩

/-- The entries whose values are replaced by a function of the key. -/
def mapValues (f : K → V → V) : IndexMap K V :=
  ⟨m.entries.map fun e => (e.1, f e.1 e.2), by
    have h : (m.entries.map fun e => (e.1, f e.1 e.2)).map Prod.fst = m.entries.map Prod.fst := by simp [Function.comp_def]
    exact h ▸ m.nodup⟩

variable [DecidableEq K]

def get (m : IndexMap K V) (k : K) : Option V := m.entries.lookup k

theorem get_eq_some {m : IndexMap K V} {k : K} {v : V} : m.get k = some v ↔ (k, v) ∈ m.entries := by
  obtain ⟨l, hl⟩ := m
  simp only [get]
  induction l with
  | nil => simp
  | cons e l ih =>
    obtain ⟨k', v'⟩ := e
    simp only [map_cons, nodup_cons, mem_map, Prod.exists, exists_and_right, exists_eq_right, not_exists] at hl
    by_cases hk : k = k'
    · subst hk
      simp only [lookup_cons_self, Option.some.injEq, mem_cons, Prod.mk.injEq, true_and]
      exact ⟨fun h => Or.inl h.symm, fun h => h.elim Eq.symm fun h => absurd h (hl.1 v)⟩
    · have hne : (k == k') = false := beq_false_of_ne hk
      simp only [lookup_cons, hne, mem_cons, Prod.mk.injEq, hk, false_and, false_or]
      exact ih hl.2

theorem get_eq_none {m : IndexMap K V} {k : K} : m.get k = none ↔ ∀ v, (k, v) ∉ m.entries := by
  rw [Option.eq_none_iff_forall_ne_some]
  exact forall_congr' fun v => not_congr get_eq_some

/-- An entry appended for a key that has none. -/
def push (m : IndexMap K V) (k : K) (v : V) (h : m.get k = none) : IndexMap K V :=
  ⟨m.entries ++ [(k, v)], by
    rw [map_append, nodup_append]
    refine ⟨m.nodup, by simp, ?_⟩
    intro a ha b hb hab
    obtain ⟨⟨a', v'⟩, hmem, rfl⟩ := mem_map.mp ha
    simp only [map_cons, map_nil, mem_singleton] at hb
    exact get_eq_none.mp h v' (hb ▸ hab ▸ hmem)⟩

/-- `insert`: the value of a known key is replaced in its place. -/
def insert (m : IndexMap K V) (k : K) (v : V) : IndexMap K V :=
  if h : m.get k = none then m.push k v h else m.mapValues fun k' v' => if k' = k then v else v'

theorem get_insert (k k' : K) (v : V) : (m.insert k v).get k' = if k = k' then some v else m.get k' := by
  ext w
  rw [get_eq_some, insert]
  split
  · rename_i h
    simp only [push, mem_append, mem_singleton, Prod.mk.injEq]
    split
    · rename_i hk
      subst hk
      simp only [get_eq_none.mp h w, true_and, false_or, Option.some.injEq]
      exact eq_comm
    · rename_i hk
      rw [get_eq_some]
      exact ⟨fun h' => h'.elim id fun h' => absurd h'.1.symm hk, Or.inl⟩
  · rename_i h
    simp only [mapValues, mem_map, Prod.mk.injEq, Prod.exists]
    obtain ⟨u, hu⟩ := Option.ne_none_iff_exists'.mp h
    split
    · rename_i hk
      subst hk
      simp only [Option.some.injEq]
      constructor
      · rintro ⟨_, _, _, rfl, hv⟩
        simpa using hv
      · rintro rfl
        exact ⟨k, u, get_eq_some.mp hu, rfl, if_pos rfl⟩
    · rename_i hk
      rw [get_eq_some]
      constructor
      · rintro ⟨_, x, hmem, rfl, hv⟩
        rw [if_neg (Ne.symm hk)] at hv
        exact hv ▸ hmem
      · intro hmem
        exact ⟨k', w, hmem, rfl, if_neg (Ne.symm hk)⟩

theorem get_retain (p : K → V → Bool) (k : K) : (m.retain p).get k = (m.get k).filter (p k) := by
  ext v
  rw [get_eq_some, Option.filter_eq_some_iff, get_eq_some]
  simp [retain]

end IndexMap

end Sui.Library

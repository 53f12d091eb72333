import Mathlib.Data.List.Basic
import Mathlib.Data.List.Sort
import Mathlib.Order.Basic

/-!
# Scans

Rows sorted by a key, of which some hold an item that a query asks for. A query from one key to another is answered in pages: the
items between two rows, and where to go on.
-/

namespace Sui.Library

/-- What is in order by a number, cut at a number. -/
theorem filter_append_filter {α : Type} {f : α → ℕ} {l : List α} (sorted : l.Pairwise fun a b => f a ≤ f b) (k : ℕ) :
    (l.filter fun a => f a < k) ++ (l.filter fun a => k ≤ f a) = l := by
  induction l with
  | nil => rfl
  | cons a l ih =>
    obtain ⟨ha, hl⟩ := List.pairwise_cons.mp sorted
    by_cases hlt : f a < k
    · rw [List.filter_cons_of_pos (by simpa using hlt), List.filter_cons_of_neg (by simpa using hlt), List.cons_append, ih hl]
    · have hall : ∀ b ∈ a :: l, k ≤ f b := by
        intro b hb
        rcases List.mem_cons.mp hb with rfl | hb
        · exact Nat.le_of_not_lt hlt
        · exact (Nat.le_of_not_lt hlt).trans (ha b hb)
      rw [List.filter_eq_nil_iff.mpr (by simpa using hall), List.filter_eq_self.mpr (by simpa using hall), List.nil_append]

/-- Rows with their keys, and the items in them. -/
structure Scan (α : Type) where
  rows : List (ℕ × Option α)
  sorted : rows.Pairwise fun a b => a.1 ≤ b.1

namespace Scan

variable {α : Type} (s : Scan α)

/-- The items of the rows from `a` up to `b`. -/
def between (a b : ℕ) : List α := ((s.rows.take b).drop a).filterMap Prod.snd

/-- The first row with the key or a greater one. -/
def rowOf (key : ℕ) : ℕ := s.rows.countP fun row => row.1 < key

def items : List α := s.rows.filterMap Prod.snd

variable {s}

theorem rowOf_le_length (key : ℕ) : s.rowOf key ≤ s.rows.length := List.countP_le_length

theorem rowOf_mono {key key' : ℕ} (h : key ≤ key') : s.rowOf key ≤ s.rowOf key' := by
  refine List.countP_mono_left ?_
  intro row _ hlt
  exact decide_eq_true ((of_decide_eq_true hlt).trans_le h)

@[simp] theorem between_self (a : ℕ) : s.between a a = [] := by
  rw [between, List.drop_eq_nil_of_le (by simp), List.filterMap_nil]

theorem between_append {a b c : ℕ} (hab : a ≤ b) (hbc : b ≤ c) : s.between a b ++ s.between b c = s.between a c := by
  rw [between, between, between, ← List.filterMap_append]
  congr 1
  -- the rows up to `c` are those up to `b` and those from `b` on
  have hc : s.rows.take c = s.rows.take b ++ (s.rows.take c).drop b := by
    conv_lhs => rw [← List.take_append_drop b (s.rows.take c)]
    rw [List.take_take, Nat.min_eq_left hbc]
  by_cases ha : a ≤ s.rows.length
  · conv_rhs => rw [hc]
    exact (List.drop_append_of_le_length (by rw [List.length_take]; omega)).symm
  · have hnil : ∀ m n, a ≤ m → (s.rows.take n).drop m = [] := by
      intro m n hm
      exact List.drop_eq_nil_of_le (by rw [List.length_take]; omega)
    rw [hnil a b le_rfl, hnil b c hab, hnil a c le_rfl]
    rfl

theorem between_zero_length : s.between 0 s.rows.length = s.items := by
  rw [between, List.take_length, List.drop_zero]
  rfl

variable {rows : List (ℕ × Option α)}

section

variable (sorted : rows.Pairwise fun a b => a.1 ≤ b.1) (key : ℕ)

include sorted

/-- The rows before a key. -/
theorem take_countP : rows.take (rows.countP fun row => row.1 < key) = rows.filter fun row => row.1 < key := by
  rw [List.countP_eq_length_filter]
  exact (congrArg _ (filter_append_filter sorted key).symm).trans List.take_left

/-- The rows from a key on. -/
theorem drop_countP : rows.drop (rows.countP fun row => row.1 < key) = rows.filter fun row => key ≤ row.1 := by
  rw [List.countP_eq_length_filter]
  exact (congrArg _ (filter_append_filter sorted key).symm).trans List.drop_left

end

variable {key : α → ℕ}

/-- Items whose own key is that of their row, filtered by it. -/
theorem filterMap_filter (hkey : ∀ row ∈ rows, ∀ a ∈ row.2, key a = row.1) (p : ℕ → Bool) :
    (rows.filter fun row => p row.1).filterMap Prod.snd = (rows.filterMap Prod.snd).filter fun a => p (key a) := by
  rw [List.filterMap_filter, List.filter_filterMap]
  refine List.filterMap_congr ?_
  intro row hrow
  obtain ⟨k, _ | a⟩ := row
  · simp
  · obtain rfl : key a = k := hkey _ hrow a rfl
    simp [Option.filter_some]

section

variable (hkey : ∀ row ∈ s.rows, ∀ a ∈ row.2, key a = row.1)

include hkey

theorem pairwise_items : s.items.Pairwise fun a b => key a ≤ key b := by
  rw [items, List.pairwise_filterMap]
  refine s.sorted.imp_of_mem ?_
  intro row row' hrow hrow' hle a ha b hb
  rw [hkey row hrow a ha, hkey row' hrow' b hb]
  exact hle

/-- The items from one key on. -/
theorem between_rowOf_length (lo : ℕ) : s.between (s.rowOf lo) s.rows.length = s.items.filter fun a => lo ≤ key a := by
  rw [between, List.take_length, rowOf, drop_countP s.sorted]
  exact filterMap_filter hkey fun k => lo ≤ k

/-- The items from one key up to another. -/
theorem between_rowOf {lo hi : ℕ} (hle : lo ≤ hi) :
    s.between (s.rowOf lo) (s.rowOf hi) = s.items.filter fun a => lo ≤ key a && key a < hi := by
  have hcount : s.rowOf lo = (s.rows.filter fun row => row.1 < hi).countP fun row => row.1 < lo := by
    rw [rowOf, List.countP_filter]
    refine List.countP_congr ?_
    intro row _
    simp only [decide_eq_true_eq, Bool.and_eq_true]
    omega
  rw [between, hcount, rowOf, take_countP s.sorted, drop_countP (s.sorted.filter _), List.filter_filter]
  exact filterMap_filter hkey fun k => lo ≤ k && k < hi

end

end Scan

end Sui.Library

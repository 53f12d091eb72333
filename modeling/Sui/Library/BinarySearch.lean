import Mathlib.Order.Lattice
import Mathlib.Data.List.Basic

/-!
# Binary search

Binary search by key: the part that can hold the key is halved until one position is left. A position that is found has the key;
in a sorted list a key that is there is found.
-/

namespace Sui.Library

variable {α K : Type} [LinearOrder K] (key : α → K) (k : K) (l : List α)

/-- The position that is left of `size` positions from `base`. -/
def searchBase (base size : ℕ) : ℕ :=
  if 1 < size then
    let mid := base + size / 2
    searchBase (if l[mid]?.any (fun a => k < key a) then base else mid) (size - size / 2)
  else base
termination_by size

/-- A position of `l` with the key `k`. -/
def binarySearchByKey : Option ℕ :=
  let base := searchBase key k l 0 l.length
  if l[base]?.any (fun a => key a = k) then some base else none

variable {key k l}

theorem getElem?_of_binarySearchByKey {i : ℕ} (h : binarySearchByKey key k l = some i) : ∃ a, l[i]? = some a ∧ key a = k := by
  simp only [binarySearchByKey] at h
  split at h
  · rename_i hfound
    obtain rfl := Option.some.inj h
    obtain ⟨a, ha, hk⟩ := (Option.any_eq_true _ _).mp hfound
    exact ⟨a, ha, of_decide_eq_true hk⟩
  · exact absurd h nofun

/-- The part that is left keeps a position with the key. -/
theorem key_searchBase (hl : l.Pairwise fun a b => key a ≤ key b) (base size : ℕ) {j : ℕ} (hj : base ≤ j ∧ j < base + size)
    (hsize : base + size ≤ l.length) (hk : ∃ a, l[j]? = some a ∧ key a = k) :
    ∃ a, l[searchBase key k l base size]? = some a ∧ key a = k := by
  induction size using Nat.strong_induction_on generalizing base j with
  | _ size ih =>
    rw [searchBase]
    split_ifs with hlt
    · have hmid : base + size / 2 < l.length := by omega
      obtain ⟨a, ha, rfl⟩ := hk
      obtain ⟨hjlt, rfl⟩ := List.getElem?_eq_some_iff.mp ha
      simp only [List.getElem?_eq_getElem hmid, Option.any_some, decide_eq_true_eq]
      split
      · rename_i hgt
        -- the key at `mid` is larger, so `j` is before `mid`
        have hjmid : j < base + size / 2 := by
          by_contra hle
          rcases Nat.lt_or_eq_of_le (Nat.le_of_not_lt hle) with hlt' | heq
          · exact absurd (List.pairwise_iff_getElem.mp hl _ _ hmid hjlt hlt') (not_le.mpr hgt)
          · subst heq
            exact lt_irrefl _ hgt
        exact ih (size - size / 2) (by omega) base (by omega) (by omega) ⟨_, ha, rfl⟩
      · rename_i hle
        rw [not_lt] at hle
        rcases Nat.lt_or_ge j (base + size / 2) with hjmid | hjmid
        · -- then `mid` has the key as well
          have hle' := List.pairwise_iff_getElem.mp hl _ _ hjlt hmid hjmid
          exact ih (size - size / 2) (by omega) (base + size / 2) (j := base + size / 2) (by omega) (by omega)
            ⟨_, List.getElem?_eq_getElem hmid, le_antisymm hle hle'⟩
        · exact ih (size - size / 2) (by omega) (base + size / 2) (by omega) (by omega) ⟨_, ha, rfl⟩
    · have heq : j = base := by omega
      rwa [heq] at hk

theorem binarySearchByKey_isSome (hl : l.Pairwise fun a b => key a ≤ key b) :
    (binarySearchByKey key k l).isSome ↔ ∃ a ∈ l, key a = k := by
  constructor
  · intro h
    obtain ⟨i, hi⟩ := Option.isSome_iff_exists.mp h
    obtain ⟨a, ha, hk⟩ := getElem?_of_binarySearchByKey hi
    exact ⟨a, List.mem_of_getElem? ha, hk⟩
  · rintro ⟨a, ha, hk⟩
    obtain ⟨j, hj⟩ := List.mem_iff_getElem?.mp ha
    have hlt := (List.getElem?_eq_some_iff.mp hj).1
    obtain ⟨b, hb, hkb⟩ := key_searchBase hl 0 l.length ⟨Nat.zero_le j, by omega⟩ (by omega) ⟨a, hj, hk⟩
    simp [binarySearchByKey, hb, hkb]

end Sui.Library

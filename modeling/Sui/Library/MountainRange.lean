import Mathlib.Data.List.Induction
import Mathlib.Data.Nat.Bitwise
import Mathlib.Logic.Function.Basic

/-!
# Merkle mountain ranges

A list in which the slot `i` is the root of a tree of `2 ^ i` values, or `zero` if it is empty. A new value is carried upwards
like a bit that is added to a number. If no value is `zero`, the range determines the values that were added, unless two of the
pairs that were hashed collide or one has the hash `zero`.
-/

namespace Sui.Library.MountainRange

variable {V : Type} [DecidableEq V]

/-- Add a value: fill the first empty slot with the hash of what is carried there. -/
def add (zero : V) (hash : V → V → V) : List V → V → List V
  | [], v => [v]
  | r :: range, v => if r = zero then v :: range else zero :: add zero hash range (hash r v)

/-- Add values one after another. -/
def addAll (zero : V) (hash : V → V → V) (range vs : List V) : List V := vs.foldl (add zero hash) range

/-- The pairs that are hashed when a value is added. -/
def hashed (zero : V) (hash : V → V → V) : List V → V → List (V × V)
  | [], _ => []
  | r :: range, v => if r = zero then [] else (r, v) :: hashed zero hash range (hash r v)

/-- The pairs that are hashed when values are added one after another. -/
def hashedAll (zero : V) (hash : V → V → V) : List V → List V → List (V × V)
  | _, [] => []
  | range, v :: vs => hashed zero hash range v ++ hashedAll zero hash (add zero hash range v) vs

/-- No pair of the first list has the hash of another pair of the second one, and none has the hash `zero`. -/
structure NoCollision (zero : V) (hash : V → V → V) (pairs pairs' : List (V × V)) : Prop where
  eq : ∀ p ∈ pairs, ∀ q ∈ pairs', hash p.1 p.2 = hash q.1 q.2 → p = q
  left : ∀ p ∈ pairs, hash p.1 p.2 ≠ zero
  right : ∀ p ∈ pairs', hash p.1 p.2 ≠ zero

/-- The two ranges have the same values, up to empty slots at the end. -/
def Same (zero : V) (range range' : List V) : Prop := ∀ i : ℕ, range[i]?.getD zero = range'[i]?.getD zero

section

variable {zero : V} {range range' : List V}

omit [DecidableEq V] in
theorem same_cons {r r' : V} : Same zero (r :: range) (r' :: range') ↔ r = r' ∧ Same zero range range' := by
  constructor
  · intro h
    exact ⟨h 0, fun i => h (i + 1)⟩
  · rintro ⟨rfl, h⟩ (_ | i)
    · rfl
    · exact h i

omit [DecidableEq V] in
theorem same_nil_cons {r : V} : Same zero [] (r :: range) ↔ r = zero ∧ Same zero [] range := by
  constructor
  · intro h
    exact ⟨(h 0).symm, fun i => h (i + 1)⟩
  · rintro ⟨rfl, h⟩ (_ | i)
    · rfl
    · exact h i

omit [DecidableEq V] in
theorem Same.symm (h : Same zero range range') : Same zero range' range := fun i => (h i).symm

end

variable {zero : V} {hash : V → V → V}

omit [DecidableEq V] in
theorem NoCollision.mono {pairs pairs' l l' : List (V × V)} (h : NoCollision zero hash pairs pairs') (hl : l ⊆ pairs)
    (hl' : l' ⊆ pairs') : NoCollision zero hash l l' :=
  ⟨fun p hp q hq => h.eq p (hl hp) q (hl' hq), fun p hp => h.left p (hl hp), fun p hp => h.right p (hl' hp)⟩

omit [DecidableEq V] in
theorem NoCollision.of_injective (hinj : Function.Injective2 hash) (hne : ∀ a b, hash a b ≠ zero) {pairs pairs' : List (V × V)} :
    NoCollision zero hash pairs pairs' :=
  ⟨fun _ _ _ _ h => Prod.ext_iff.mpr (hinj h), fun _ _ => hne _ _, fun _ _ => hne _ _⟩

omit [DecidableEq V] in
theorem NoCollision.symm {pairs pairs' : List (V × V)} (h : NoCollision zero hash pairs pairs') : NoCollision zero hash pairs' pairs :=
  ⟨fun p hp q hq hpq => (h.eq q hq p hp hpq.symm).symm, h.right, h.left⟩

theorem hashedAll_concat {range vs : List V} {v : V} : hashedAll zero hash range (vs ++ [v]) =
    hashedAll zero hash range vs ++ hashed zero hash (addAll zero hash range vs) v := by
  induction vs generalizing range with
  | nil => simp [hashedAll, addAll]
  | cons w vs ih =>
    rw [List.cons_append, hashedAll, ih, hashedAll, List.append_assoc]
    rfl

/-- A range with a value is not empty. -/
theorem not_same_nil_add {range : List V} {v : V} (hne : ∀ p ∈ hashed zero hash range v, hash p.1 p.2 ≠ zero) (hv : v ≠ zero) :
    ¬ Same zero [] (add zero hash range v) := by
  induction range generalizing v with
  | nil =>
    intro h
    exact hv (same_nil_cons.mp h).1
  | cons r _ ih =>
    intro h
    rw [add] at h
    rw [hashed] at hne
    split_ifs at h hne
    · exact hv (same_nil_cons.mp h).1
    · exact ih (fun p hp => hne p (List.mem_cons_of_mem _ hp)) (hne _ List.mem_cons_self) (same_nil_cons.mp h).2

/-- A value that goes into the first slot, against a range whose first slot is empty or not. -/
theorem same_cons_add {range range' : List V} {v v' : V} (hv : v ≠ zero)
    (h : Same zero (v :: range) (add zero hash range' v')) : v = v' ∧ Same zero (zero :: range) range' := by
  cases range' with
  | nil =>
    obtain ⟨rfl, hrest⟩ := same_cons.mp h
    exact ⟨rfl, (same_nil_cons.mpr ⟨rfl, hrest.symm⟩).symm⟩
  | cons =>
    rw [add] at h
    split_ifs at h with hr
    · obtain ⟨rfl, hrest⟩ := same_cons.mp h
      exact ⟨rfl, same_cons.mpr ⟨hr.symm, hrest⟩⟩
    · exact absurd (same_cons.mp h).1 hv

/-- The range after an addition determines the value and the range before it. -/
theorem same_of_same_add {range range' : List V} {v v' : V}
    (hpairs : NoCollision zero hash (hashed zero hash range v) (hashed zero hash range' v'))
    (hv : v ≠ zero) (hv' : v' ≠ zero) (h : Same zero (add zero hash range v) (add zero hash range' v')) :
    v = v' ∧ Same zero range range' := by
  induction range generalizing range' v v' with
  | nil =>
    obtain ⟨rfl, hrange⟩ := same_cons_add hv h
    refine ⟨rfl, ?_⟩
    intro i
    rw [← hrange i]
    cases i <;> rfl
  | cons r _ ih =>
    rw [add] at h
    rw [hashed] at hpairs
    split_ifs at h hpairs with hr
    · obtain ⟨rfl, hrange⟩ := same_cons_add hv h
      exact ⟨rfl, hr ▸ hrange⟩
    · cases range' with
      | nil => exact absurd (same_cons.mp h).1.symm hv'
      | cons r' =>
        rw [add] at h
        rw [hashed] at hpairs
        split_ifs at h hpairs
        · exact absurd (same_cons.mp h).1.symm hv'
        · -- both values are carried over the slot, and their hashes are the same
          obtain ⟨heq, hrange⟩ := ih (hpairs.mono (List.subset_cons_self _ _) (List.subset_cons_self _ _))
            (hpairs.left _ List.mem_cons_self) (hpairs.right _ List.mem_cons_self) (same_cons.mp h).2
          obtain ⟨rfl, rfl⟩ := Prod.mk.inj (hpairs.eq _ List.mem_cons_self _ List.mem_cons_self heq)
          exact ⟨rfl, same_cons.mpr ⟨rfl, hrange⟩⟩

/-- What was added last to any range is what was added last to the empty one, if the results are the same. -/
theorem suffix_of_same_addAll {range vs history : List V}
    (hpairs : NoCollision zero hash (hashedAll zero hash [] history) (hashedAll zero hash range vs))
    (hvs : ∀ v ∈ vs, v ≠ zero) (hhistory : ∀ v ∈ history, v ≠ zero)
    (h : Same zero (addAll zero hash [] history) (addAll zero hash range vs)) : vs <:+ history := by
  induction vs using List.reverseRecOn generalizing history with
  | nil => exact List.nil_suffix
  | append_singleton _ v ih =>
    have hv : v ≠ zero := hvs v (by simp)
    rw [addAll, addAll, List.foldl_append, List.foldl_cons, List.foldl_nil] at h
    rw [hashedAll_concat] at hpairs
    rcases List.eq_nil_or_concat history with rfl | ⟨history, v', rfl⟩
    · exact absurd h (not_same_nil_add (fun p hp => hpairs.right p (List.mem_append_right _ hp)) hv)
    · rw [List.concat_eq_append] at h hhistory hpairs ⊢
      rw [List.foldl_append, List.foldl_cons, List.foldl_nil] at h
      rw [hashedAll_concat] at hpairs
      obtain ⟨rfl, hrest⟩ := same_of_same_add (hpairs.mono (List.subset_append_right _ _) (List.subset_append_right _ _))
        (hhistory _ (by simp)) hv h
      obtain ⟨pre, hpre⟩ := ih (hpairs.mono (List.subset_append_left _ _) (List.subset_append_left _ _))
        (fun w hw => hvs w (by simp [hw])) (fun w hw => hhistory w (by simp [hw])) hrest
      exact ⟨pre, by rw [← hpre, List.append_assoc]⟩

/-! ## The trees of a range -/

/-- The root of a perfect tree over `2 ^ h` values. -/
inductive IsRoot (hash : V → V → V) : ℕ → List V → V → Prop
  | leaf (v : V) : IsRoot hash 0 [v] v
  | node {h : ℕ} {l r : List V} {a b : V} : IsRoot hash h l a → IsRoot hash h r b → IsRoot hash (h + 1) (l ++ r) (hash a b)

omit [DecidableEq V] in
theorem IsRoot.length_eq {h : ℕ} {block : List V} {r : V} (hr : IsRoot hash h block r) : block.length = 2 ^ h := by
  induction hr with
  | leaf => rfl
  | node _ _ hl hr =>
    rw [List.length_append, hl, hr, pow_succ]
    omega

/-- The slots from the height `h` on hold the values, in blocks whose last one is in the lowest slot. -/
inductive Mountains (zero : V) (hash : V → V → V) : ℕ → List V → List V → Prop
  | nil {h : ℕ} : Mountains zero hash h [] []
  | cons {h : ℕ} {range vs block : List V} {r : V} : r = zero ∧ block = [] ∨ r ≠ zero ∧ IsRoot hash h block r →
    Mountains zero hash (h + 1) range vs → Mountains zero hash h (r :: range) (vs ++ block)

variable {h : ℕ} {range vs : List V}

/-- Adding the root of a block adds the block at the end. -/
theorem Mountains.add (hne : ∀ a b, hash a b ≠ zero) (hm : Mountains zero hash h range vs) {block : List V} {v : V}
    (hv : v ≠ zero) (hr : IsRoot hash h block v) : Mountains zero hash h (add zero hash range v) (vs ++ block) := by
  induction hm generalizing block v with
  | nil => exact .cons (.inr ⟨hv, hr⟩) .nil
  | cons hslot hm ih =>
    rw [MountainRange.add]
    rcases hslot with ⟨rfl, rfl⟩ | ⟨hslot, hroot⟩
    · rw [if_pos rfl, List.append_nil]
      exact .cons (.inr ⟨hv, hr⟩) hm
    · rw [if_neg hslot, List.append_assoc, ← List.append_nil (_ ++ _)]
      exact .cons (.inl ⟨rfl, rfl⟩) (ih (hne _ _) (.node hroot hr))

omit [DecidableEq V] in
/-- The filled slots are the bits of the number of blocks, and their blocks from the highest to the lowest are the values. -/
theorem Mountains.exists_blocks (hm : Mountains zero hash h range vs) : ∃ (n : ℕ) (blocks : ℕ → List V), vs.length = 2 ^ h * n ∧
    (∀ i, (n.testBit i = true ↔ range[i]?.getD zero ≠ zero) ∧
      (n.testBit i = true → IsRoot hash (h + i) (blocks i) (range[i]?.getD zero))) ∧
    ((List.range range.length).reverse.filter n.testBit).flatMap blocks = vs := by
  classical
  induction hm with
  | nil => exact ⟨0, fun _ => [], rfl, by simp, rfl⟩
  | @cons h range vs block r hslot hm ih =>
    obtain ⟨n, blocks, hlen, hbits, hall⟩ := ih
    refine ⟨Nat.bit (decide (r ≠ zero)) n, Nat.rec block fun i _ => blocks i, ?_, ?_, ?_⟩
    · rw [List.length_append, hlen, Nat.bit_val, pow_succ]
      rcases hslot with ⟨rfl, rfl⟩ | ⟨hr, hroot⟩
      · simp [mul_assoc]
      · simp [hr, hroot.length_eq, mul_add, mul_assoc]
    · rintro (_ | i)
      · rw [Nat.testBit_bit_zero]
        refine ⟨by simp, fun hr => ?_⟩
        rcases hslot with ⟨rfl, -⟩ | ⟨-, hroot⟩
        · simp at hr
        · exact hroot
      · rw [Nat.testBit_bit_succ, show h + (i + 1) = h + 1 + i by omega]
        exact hbits i
    · rw [List.length_cons, List.range_succ_eq_map, List.reverse_cons, List.filter_append, List.flatMap_append, ← List.map_reverse,
        List.filter_map, List.flatMap_map]
      congr 1
      · rw [← hall]
        simp [Function.comp_def, Nat.testBit_bit_succ]
      · rcases hslot with ⟨rfl, rfl⟩ | ⟨hr, -⟩
        · simp
        · simp [hr]

end Sui.Library.MountainRange

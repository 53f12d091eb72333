import Sui.Library.MountainRange

/-!
# Event streams on chain

`add_to_mmr` of `sui-framework/sources/accumulator_settlement.move`, over the hash of two values.
-/

namespace Sui.AccumulatorSettlement

open Library MountainRange

/-- `add_to_mmr`: the loop carries the new value over the filled slots into the first empty one, or into a new slot. -/
def addToMmr (hashTwoToOneU256 : Nat → Nat → Nat) (newVal : Nat) (mmr : List Nat) : List Nat :=
  MountainRange.add 0 hashTwoToOneU256 mmr newVal

variable {hash : Nat → Nat → Nat}

theorem mountains_foldl (hne : ∀ a b, hash a b ≠ 0) {leaves : List Nat} (hleaves : ∀ v ∈ leaves, v ≠ 0) :
    Mountains 0 hash 0 (leaves.foldl (fun mmr v => addToMmr hash v mmr) []) leaves := by
  induction leaves using List.reverseRecOn with
  | nil => exact .nil
  | append_singleton _ v ih =>
    rw [List.foldl_append]
    exact (ih fun w hw => hleaves w (by simp [hw])).add hne (hleaves v (by simp)) (.leaf v)

/-- A range is a binary counter of its leaves: the filled slots are the bits of their number, each the root of a perfect tree,
and the blocks from the highest bit to the lowest are the leaves in the order in which they were added. -/
theorem addToMmr_binary_counter (hne : ∀ a b, hash a b ≠ 0) {leaves : List Nat} (hleaves : ∀ v ∈ leaves, v ≠ 0) {mmr : List Nat}
    (hmmr : leaves.foldl (fun mmr v => addToMmr hash v mmr) [] = mmr) : ∃ blocks : Nat → List Nat,
    (∀ i, (mmr[i]?.getD 0 ≠ 0 ↔ leaves.length.testBit i = true) ∧
      (leaves.length.testBit i = true → (blocks i).length = 2 ^ i ∧ IsRoot hash i (blocks i) (mmr[i]?.getD 0))) ∧
    ((List.range mmr.length).reverse.filter leaves.length.testBit).flatMap blocks = leaves := by
  obtain ⟨n, blocks, hlen, hbits, hall⟩ := (hmmr ▸ mountains_foldl hne hleaves).exists_blocks
  obtain rfl : leaves.length = n := by simpa using hlen
  refine ⟨blocks, fun i => ⟨(hbits i).1.symm, fun hi => ?_⟩, hall⟩
  have hroot := (hbits i).2 hi
  rw [Nat.zero_add] at hroot
  exact ⟨hroot.length_eq, hroot⟩

/-- Three leaves: the root of the first two is in the second slot, and the third is in the first. -/
theorem addToMmr_three_leaves : ∃ blocks : Nat → List Nat,
    IsRoot (fun a b => a + b + 1) 1 (blocks 1) 4 ∧ [1, 0].flatMap blocks = [1, 2, 7] := by
  have hleaves : ∀ v ∈ [1, 2, 7], v ≠ 0 := by decide
  obtain ⟨blocks, hslots, hall⟩ := addToMmr_binary_counter (fun a b => Nat.succ_ne_zero (a + b)) hleaves rfl
  exact ⟨blocks, ((hslots 1).2 rfl).2, hall⟩

/-- The pairs that `add_to_mmr` hashes for the leaves of a stream. -/
def hashedPairs (hash : Nat → Nat → Nat) (leaves : List Nat) : List (Nat × Nat) := hashedAll 0 hash [] leaves

/-- Two streams with the same range had the same leaves in the same order, or two pairs hashed for them collide, or one has the
hash 0 of an empty slot. -/
theorem addToMmr_binding (hash : Nat → Nat → Nat) {leaves leaves' : List Nat} (h : ∀ v ∈ leaves, v ≠ 0) (h' : ∀ v ∈ leaves', v ≠ 0)
    (heq : leaves.foldl (fun mmr v => addToMmr hash v mmr) [] = leaves'.foldl (fun mmr v => addToMmr hash v mmr) []) :
    leaves = leaves' ∨ (∃ p ∈ hashedPairs hash leaves, ∃ q ∈ hashedPairs hash leaves', p ≠ q ∧ hash p.1 p.2 = hash q.1 q.2) ∨
      ∃ p ∈ hashedPairs hash leaves ++ hashedPairs hash leaves', hash p.1 p.2 = 0 := by
  rw [or_iff_not_imp_right]
  intro hnone
  obtain ⟨hcollision, hzero⟩ := not_or.mp hnone
  have hpairs : NoCollision 0 hash (hashedPairs hash leaves) (hashedPairs hash leaves') :=
    ⟨fun p hp q hq hpq => by_contra fun hne => hcollision ⟨p, hp, q, hq, hne, hpq⟩,
      fun p hp hp' => hzero ⟨p, List.mem_append_left _ hp, hp'⟩, fun p hp hp' => hzero ⟨p, List.mem_append_right _ hp, hp'⟩⟩
  have hsame : Same 0 (addAll 0 hash [] leaves) (addAll 0 hash [] leaves') := fun i => by
    rw [show addAll 0 hash [] leaves = addAll 0 hash [] leaves' from heq]
  exact ((suffix_of_same_addAll hpairs h' h hsame).eq_of_length_le
    (suffix_of_same_addAll hpairs.symm h h' hsame.symm).length_le).symm

/-- Different leaves under a hash that adds: the ranges are the same, and the pairs of leaves collide. -/
theorem addToMmr_binding_sum : ∃ p ∈ hashedPairs (fun a b => a + b + 1) [3, 5, 2], ∃ q ∈ hashedPairs (fun a b => a + b + 1) [4, 4, 2],
    p ≠ q ∧ p.1 + p.2 + 1 = q.1 + q.2 + 1 := by
  have hbinding := addToMmr_binding (fun a b => a + b + 1) (show ∀ v ∈ [3, 5, 2], v ≠ 0 by decide)
    (show ∀ v ∈ [4, 4, 2], v ≠ 0 by decide) rfl
  exact (hbinding.resolve_left (by decide)).resolve_right (by decide)

end Sui.AccumulatorSettlement

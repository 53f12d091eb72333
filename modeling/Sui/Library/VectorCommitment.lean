import Mathlib.Data.List.Basic

/-!
# Vector commitments

A commitment to a list of leaves, such as the root of a Merkle tree. A proof shows the leaf at an index. If the leaves are
sorted, another kind of proof shows that a leaf is not among them, by the neighbours between which it would be.
-/

namespace Sui.Library

/-- A scheme of commitments to lists, whose leaves are ordered by `lt`. -/
structure VectorCommitment (Leaf Root Proof Absence : Type) (lt : Leaf → Leaf → Prop) where
  root : List Leaf → Root
  verify : Proof → Root → Leaf → ℕ → Bool
  verifyAbsence : Absence → Root → Leaf → Bool
  leftLeaf : Absence → Option Leaf
  rightLeaf : Absence → Option Leaf
  /-- What verifies is the leaf at the index. -/
  sound {leaves : List Leaf} {proof : Proof} {leaf : Leaf} {i : ℕ} : verify proof (root leaves) leaf i = true → leaves[i]? = some leaf
  /-- What verifies as absent lies between two leaves of the list that are next to each other. -/
  absence_sound {leaves : List Leaf} {proof : Absence} {leaf : Leaf} : verifyAbsence proof (root leaves) leaf = true →
    ∃ pre post, leaves = pre ++ post ∧ pre.getLast? = leftLeaf proof ∧ post.head? = rightLeaf proof ∧
      (∀ left, leftLeaf proof = some left → lt left leaf) ∧ ∀ right, rightLeaf proof = some right → lt leaf right

/-- The scheme in which a root is the code of the list and a proof is the list, with the index at which an absent leaf would be. -/
def VectorCommitment.ofEncoding {Leaf : Type} [DecidableEq Leaf] {lt : Leaf → Leaf → Prop} [DecidableRel lt] (code : List Leaf → ℕ)
    (hcode : Function.Injective code) : VectorCommitment Leaf ℕ (List Leaf) (List Leaf × ℕ) lt where
  root := code
  verify proof root leaf i := code proof = root && proof[i]? = some leaf
  verifyAbsence proof root leaf := code proof.1 = root && (proof.1.take proof.2).getLast?.all (fun left => lt left leaf) &&
    (proof.1.drop proof.2).head?.all (fun right => lt leaf right)
  leftLeaf proof := (proof.1.take proof.2).getLast?
  rightLeaf proof := (proof.1.drop proof.2).head?
  sound := by
    intro leaves proof leaf i h
    simp only [Bool.and_eq_true, decide_eq_true_eq] at h
    rw [← hcode h.1]
    exact h.2
  absence_sound := by
    intro leaves proof leaf h
    simp only [Bool.and_eq_true, decide_eq_true_eq, Option.all_eq_true_iff_get] at h
    obtain ⟨⟨hroot, hleft⟩, hright⟩ := h
    refine ⟨_, _, (List.take_append_drop proof.2 leaves).symm, ?_, ?_, ?_, ?_⟩
    · rw [← hcode hroot]
    · rw [← hcode hroot]
    · intro left h
      simpa [h] using hleft
    · intro right h
      simpa [h] using hright

end Sui.Library

import Sui.Execution.Lemmas.CausalOrder

/-!
# The causal sort is correct

The sort returns a permutation that does not depend on the order of its input, in which each transaction comes after those that
precede it.
-/

namespace Sui.CausalOrder

open Library TransactionEffects List

variable {effects : List TransactionEffects}

/-- No transaction of a list precedes itself through others. -/
def AcyclicEffects (effects : List TransactionEffects) : Prop :=
  ∀ e, ¬ Relation.TransGen (fun a b => a ∈ effects ∧ b ∈ effects ∧ a.Precedes b) e e

section

variable (hnodup : (effects.map transactionDigest).Nodup)

include hnodup

theorem mem_visited {e e' : TransactionEffects} (he : e ∈ effects) (he' : e' ∈ effects) :
    e'.transactionDigest ∈ visited (fromVec effects).notSeen e.transactionDigest ↔ e'.Precedes e := by
  rw [visited, (fromVec_notSeen hnodup).mpr ⟨e, he, rfl, rfl⟩, ← mem_dependencies hnodup he he']
  simp only [mem_reverse, BTreeSet.mem_iter]

theorem isSome_notSeen {k : TransactionDigest} :
    (fromVec effects).notSeen[k]?.isSome ↔ ∃ e ∈ effects, e.transactionDigest = k := by
  rw [Option.isSome_iff_exists]
  constructor
  · rintro ⟨t, ht⟩
    obtain ⟨e, he, hk, -⟩ := (fromVec_notSeen hnodup).mp ht
    exact ⟨e, he, hk⟩
  · rintro ⟨e, he, hk⟩
    exact ⟨_, (fromVec_notSeen hnodup).mpr ⟨e, he, hk, rfl⟩⟩

/-- A circle of the search is a circle of the transactions. -/
theorem AcyclicEffects.acyclic (h : AcyclicEffects effects) :
    DepthFirst.Acyclic (visited (fromVec effects).notSeen) { k | (fromVec effects).notSeen[k]?.isSome } := by
  -- a chain of digests is a chain of the transactions that have them
  have hchain : ∀ {x y : TransactionDigest}, Relation.TransGen
      (DepthFirst.Needed (visited (fromVec effects).notSeen) { k | (fromVec effects).notSeen[k]?.isSome }) x y →
      ∀ a ∈ effects, a.transactionDigest = x → ∀ b ∈ effects, b.transactionDigest = y →
        Relation.TransGen (fun a b => a ∈ effects ∧ b ∈ effects ∧ a.Precedes b) a b := by
    intro x y hxy
    induction hxy with
    | single hstep =>
      rintro a ha rfl b hb rfl
      exact .single ⟨ha, hb, (mem_visited hnodup hb ha).mp hstep.2.2⟩
    | tail _ hstep ih =>
      rintro a ha rfl c hc rfl
      obtain ⟨b, hb, rfl⟩ := (isSome_notSeen hnodup).mp hstep.1
      exact .tail (ih a ha rfl b hb rfl) ⟨hb, hc, (mem_visited hnodup hc hb).mp hstep.2.2⟩
  intro x hx
  have hstart : (fromVec effects).notSeen[x]?.isSome := by
    obtain ⟨y, hy, -⟩ := Relation.TransGen.head'_iff.mp hx
    exact hy.1
  obtain ⟨a, ha, hax⟩ := (isSome_notSeen hnodup).mp hstart
  exact h a (hchain hx a ha hax a ha hax)

/-- The effects of the digests that were put out. -/
theorem sorted_perm {sorted : List TransactionEffects} {output : List TransactionDigest}
    (hout : List.Forall₂ (fun e k => ∃ t, (fromVec effects).notSeen[k]? = some t ∧ t.effects = e) sorted output)
    (houtput : output.Nodup ∧ ∀ k, k ∈ output ↔ (fromVec effects).notSeen[k]?.isSome) :
    sorted.map transactionDigest = output ∧ sorted.Perm effects := by
  have hmem : List.Forall₂ (fun e k => e ∈ effects ∧ e.transactionDigest = k) sorted output := by
    refine hout.imp ?_
    rintro e k ⟨t, ht, rfl⟩
    obtain ⟨e, he, hk, rfl⟩ := (fromVec_notSeen hnodup).mp ht
    exact ⟨he, hk⟩
  have hmap : sorted.map transactionDigest = output := by
    rw [← forall₂_eq_eq_eq, forall₂_map_left_iff]
    exact hmem.imp fun _ _ h => h.2
  refine ⟨hmap, (perm_ext_iff_of_nodup ?_ (List.Nodup.of_map _ hnodup)).mpr fun e => ⟨fun he => ?_, fun he => ?_⟩⟩
  · exact List.Nodup.of_map _ (hmap ▸ houtput.1)
  · obtain ⟨i, hi, rfl⟩ := mem_iff_getElem.mp he
    exact (forall₂_iff_get.mp hmem).2 i hi ((forall₂_iff_get.mp hmem).1 ▸ hi) |>.1
  · have hk : e.transactionDigest ∈ sorted.map transactionDigest := by
      rw [hmap, houtput.2, isSome_notSeen hnodup]
      exact ⟨e, he, rfl⟩
    obtain ⟨e', he', hdigest⟩ := mem_map.mp hk
    obtain ⟨i, hi, rfl⟩ := mem_iff_getElem.mp he'
    have hin := ((forall₂_iff_get.mp hmem).2 i hi ((forall₂_iff_get.mp hmem).1 ▸ hi)).1
    rw [← inj_on_of_nodup_map hnodup hin he hdigest]
    exact getElem_mem hi

end

/-- For effects with distinct digests, the sort returns a permutation, the same for every order of the input; and without a
circle, a transaction that precedes another one comes before it. -/
theorem causalSort_correct (hnodup : (effects.map transactionDigest).Nodup) : ∃ sorted, causalSort effects = .ok sorted ∧
    sorted.Perm effects ∧ (∀ effects', effects'.Perm effects → causalSort effects' = .ok sorted) ∧
    (AcyclicEffects effects → ∀ (i j : Nat) a b, sorted[i]? = some a → sorted[j]? = some b → a.Precedes b → i < j) := by
  obtain ⟨sorted, hsorted, output, hout, hrun⟩ := causalSort_run effects
  have hplaced := (DepthFirst.Placed.initial { k | (fromVec effects).notSeen[k]?.isSome }).run hrun
  obtain ⟨hmap, hperm⟩ := sorted_perm hnodup hout hplaced.output
  refine ⟨sorted, hsorted, hperm, fun effects' hp => ?_, fun hacyclic i j a b hi hj hab => ?_⟩
  · rw [causalSort, fromVec_perm hnodup hp]
    exact hsorted
  · have hordered := DepthFirst.Ordered.initial.run (hacyclic.acyclic hnodup) (DepthFirst.Placed.initial _) hrun
    have hpair := hordered.sorted
    have ha : a ∈ effects := hperm.mem_iff.mp (mem_of_getElem? hi)
    have hb : b ∈ effects := hperm.mem_iff.mp (mem_of_getElem? hj)
    by_contra hle
    rcases Nat.eq_or_lt_of_le (Nat.le_of_not_lt hle) with rfl | hlt
    · rw [hi] at hj
      rw [← Option.some.inj hj] at hab
      exact hacyclic a (.single ⟨ha, ha, hab⟩)
    · -- the one that comes later is no dependency of the one before
      obtain ⟨hi', rfl⟩ := List.getElem?_eq_some_iff.mp hi
      obtain ⟨hj', rfl⟩ := List.getElem?_eq_some_iff.mp hj
      dsimp only at hpair
      rw [← hmap, pairwise_map] at hpair
      exact pairwise_iff_getElem.mp hpair j i hj' hi' hlt ((mem_visited hnodup hb ha).mpr hab)

/-- A transaction that read a version comes before the one that overwrote it, though its digest is larger. -/
theorem causalSort_correct_reader : ∃ sorted,
    causalSort [⟨1, [], [.mutate ⟨7, 5, 0⟩]⟩, ⟨2, [], [.readOnly ⟨7, 5, 0⟩]⟩, ⟨3, [1], []⟩] = .ok sorted ∧
      sorted.map transactionDigest = [2, 1, 3] := by
  have hnodup : ([⟨1, [], [.mutate ⟨7, 5, 0⟩]⟩, ⟨2, [], [.readOnly ⟨7, 5, 0⟩]⟩, ⟨3, [1], []⟩].map transactionDigest).Nodup := by
    decide
  obtain ⟨sorted, hsorted, -⟩ := causalSort_correct hnodup
  refine ⟨sorted, hsorted, ?_⟩
  have hrun : (causalSort [⟨1, [], [.mutate ⟨7, 5, 0⟩]⟩, ⟨2, [], [.readOnly ⟨7, 5, 0⟩]⟩, ⟨3, [1], []⟩]).toOption.map
      (List.map transactionDigest) = some [2, 1, 3] := by decide +kernel
  rw [hsorted] at hrun
  exact Option.some.inj hrun

end Sui.CausalOrder

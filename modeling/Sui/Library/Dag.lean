import Sui.Library.Quorum

/-!
# Round-based DAGs of weighted members

Nodes, each of a round and by an author, with links to parents of lower rounds. Members that are not faulty have at most one
node in a round. A view is a part of the nodes closed under parents above some round. Here: what is reachable inside a view, and
that two heavy sets of nodes of one round share a node.
-/

namespace Sui.Library

open Quorum

/-- Nodes with links to parents of lower rounds. Only nodes have parents, but a parent need not be a node. -/
structure Dag (ρ ι : Type) where
  nodes : Set ρ
  round : ρ → ℕ
  author : ρ → ι
  parents : ρ → Set ρ
  node_of_parent : ∀ {n p}, p ∈ parents n → n ∈ nodes
  round_lt : ∀ {n p}, p ∈ parents n → round p < round n

variable {k : ℕ}

namespace Dag

variable {ρ ι : Type} (D : Dag ρ ι)

/-- `D.Reach n m`: a path of links leads from `n` to `m`. -/
def Reach : ρ → ρ → Prop := Relation.ReflTransGen fun n p => p ∈ D.parents n

variable {D}

theorem Reach.round_le {n m : ρ} (h : D.Reach n m) : D.round m ≤ D.round n := by
  induction h with
  | refl => exact le_refl _
  | tail _ hp ih => exact (D.round_lt hp).le.trans ih

/-- A path that goes somewhere starts with a link. -/
theorem Reach.exists_parent {n m : ρ} (h : D.Reach n m) (hne : n ≠ m) : ∃ p ∈ D.parents n, D.Reach p m := by
  rcases Relation.ReflTransGen.cases_head h with rfl | ⟨p, hp, hm⟩
  · exact absurd rfl hne
  · exact ⟨p, hp, hm⟩

/-- A set that is closed under parents above a round has what its elements reach above that round. -/
theorem mem_of_reach {S : Set ρ} (hS : ∀ n ∈ S, ∀ p ∈ D.parents n, k < D.round p → p ∈ S) {n m : ρ} (hn : n ∈ S)
    (h : D.Reach n m) (hm : k < D.round m) : m ∈ S := by
  induction h with
  | refl => exact hn
  | tail _ hp ih => exact hS _ (ih (hm.trans (D.round_lt hp))) _ hp hm

variable (D)

/-- A part of the nodes that is closed under parents above round `g`. -/
structure View (g : ℕ) where
  carrier : Set ρ
  node : ∀ {n}, n ∈ carrier → n ∈ D.nodes
  closed : ∀ {n p}, n ∈ carrier → p ∈ D.parents n → g < D.round p → p ∈ carrier

variable {D}

/-- What a node of a view reaches above the round of the view is in the view. -/
theorem View.mem_of_reach {g : ℕ} (V : D.View g) {n m : ρ} (hn : n ∈ V.carrier) (h : D.Reach n m) (hm : g < D.round m) :
    m ∈ V.carrier :=
  Dag.mem_of_reach (fun _ hn _ hp hg => V.closed hn hp hg) hn h hm

end Dag

/-- The members behind the nodes of a DAG, their weights, and which of them may be faulty. -/
structure Members (ι : Type) where
  all : Finset ι
  weight : ι → ℕ
  faulty : Finset ι
  /-- The bound on the weight of the faulty members. -/
  faults : ℕ
  faulty_le : Quorum.weight weight faulty ≤ faults

namespace Members

variable {ρ ι : Type} (M : Members ι) (D : Dag ρ ι)

open Classical in
/-- The members that author a node with a property. -/
noncomputable def authors (P : ρ → Prop) : Finset ι := M.all.filter fun a => ∃ n, P n ∧ D.author n = a

/-- The authors of the nodes with a property weigh at least `t`. -/
def Heavy (t : ℕ) (P : ρ → Prop) : Prop := t ≤ Quorum.weight M.weight (M.authors D P)

variable {M D}

theorem mem_authors {P : ρ → Prop} {a : ι} : a ∈ M.authors D P ↔ a ∈ M.all ∧ ∃ n, P n ∧ D.author n = a := by
  simp [authors]

theorem authors_subset (P : ρ → Prop) : M.authors D P ⊆ M.all := fun _ h => (mem_authors.mp h).1

variable {P P' : ρ → Prop}

theorem authors_mono (h : ∀ n, P n → P' n) : M.authors D P ⊆ M.authors D P' := by
  intro a ha
  obtain ⟨hm, n, hn, rfl⟩ := mem_authors.mp ha
  exact mem_authors.mpr ⟨hm, n, h n hn, rfl⟩

theorem Heavy.mono {t : ℕ} (h : ∀ n, P n → P' n) (hP : M.Heavy D t P) : M.Heavy D t P' :=
  le_trans hP (weight_mono (authors_mono h))

theorem Heavy.le {t t' : ℕ} {P : ρ → Prop} (ht : t' ≤ t) (hP : M.Heavy D t P) : M.Heavy D t' P := le_trans ht hP

theorem Heavy.exists {t : ℕ} (hP : M.Heavy D t P) (ht : 0 < t) : ∃ n, P n := by
  obtain ⟨a, ha⟩ := exists_mem_of_pos (lt_of_lt_of_le ht hP)
  obtain ⟨-, n, hn, -⟩ := mem_authors.mp ha
  exact ⟨n, hn⟩

variable (M D)

/-- Every member that is not faulty has at most one node in a round. -/
def Single : Prop :=
  ∀ n ∈ D.nodes, ∀ m ∈ D.nodes, D.author n ∉ M.faulty → D.author n = D.author m → D.round n = D.round m → n = m

variable {M D}

section

variable (hs : M.Single D) (hP : ∀ n, P n → n ∈ D.nodes ∧ D.round n = k) (hP' : ∀ n, P' n → n ∈ D.nodes ∧ D.round n = k)

include hs hP hP'

/-- The honest authors of two properties of the nodes of a round author nodes with both properties. -/
theorem honest_inter_subset : ∀ a ∈ M.authors D P, a ∈ M.authors D P' → a ∉ M.faulty → a ∈ M.authors D fun n => P n ∧ P' n := by
  intro a ha ha' hh
  obtain ⟨hm, n, hn, rfl⟩ := mem_authors.mp ha
  obtain ⟨-, n', hn', he⟩ := mem_authors.mp ha'
  have hnn : n = n' :=
    hs n (hP n hn).1 n' (hP' n' hn').1 hh he.symm ((hP n hn).2.trans (hP' n' hn').2.symm)
  subst hnn
  exact mem_authors.mpr ⟨hm, n, ⟨hn, hn'⟩, rfl⟩

/-- Two heavy sets of nodes of one round share a node. -/
theorem exists_common {t t' : ℕ} (h : M.Heavy D t P) (h' : M.Heavy D t' P')
    (ht : Quorum.weight M.weight M.all + M.faults < t + t') : ∃ n, P n ∧ P' n := by
  classical
  obtain ⟨a, ha, ha', hh⟩ := exists_honest_inter (authors_subset P) (authors_subset (D := D) P') M.faulty_le
    (lt_of_lt_of_le ht (add_le_add h h'))
  obtain ⟨-, n, hn, -⟩ := mem_authors.mp (honest_inter_subset hs hP hP' a ha ha' hh)
  exact ⟨n, hn⟩

/-- What two heavy sets of nodes of one round share is still heavy. -/
theorem heavy_common {t t' c : ℕ} (h : M.Heavy D t P) (h' : M.Heavy D t' P')
    (ht : Quorum.weight M.weight M.all + M.faults + c ≤ t + t') : M.Heavy D c fun n => P n ∧ P' n := by
  classical
  have hw := weight_honest_inter (authors_subset (M := M) (D := D) P) (authors_subset (D := D) P') M.faulty_le
  have hsub : (M.authors D P ∩ M.authors D P') \ M.faulty ⊆ M.authors D fun n => P n ∧ P' n := by
    intro a ha
    rw [Finset.mem_sdiff, Finset.mem_inter] at ha
    exact honest_inter_subset hs hP hP' a ha.1.1 ha.1.2 ha.2
  have hle := weight_mono (w := M.weight) hsub
  unfold Heavy at h h' ⊢
  omega

end


end Members

/-- A DAG in which every node has a quorum of parents of the round before, no two of them by one author. -/
structure QuorumDag (ρ ι : Type) where
  dag : Dag ρ ι
  members : Members ι
  quorum : ℕ
  single : members.Single dag
  one_parent : ∀ {n p p'}, p ∈ dag.parents n → p' ∈ dag.parents n → dag.author p = dag.author p' → p = p'
  parents_heavy : ∀ {n}, n ∈ dag.nodes → members.Heavy dag quorum fun p => p ∈ dag.parents n ∧ dag.round p + 1 = dag.round n
  quorum_pos : 0 < quorum

/-- A node reaches nodes of a quorum in every lower round above the round of its view. -/
theorem QuorumDag.reach_heavy {ρ ι : Type} (R : QuorumDag ρ ι) {g : ℕ} (V : R.dag.View g) {A : ρ} (hA : A ∈ V.carrier)
    (hg : g < k) (hk : k < R.dag.round A) :
    R.members.Heavy R.dag R.quorum fun c => R.dag.Reach A c ∧ c ∈ V.carrier ∧ R.dag.round c = k := by
  -- the induction is on the number of rounds between: a quorum of parents has a node, which is one round closer
  obtain ⟨j, hj⟩ : ∃ j, R.dag.round A = k + 1 + j := ⟨R.dag.round A - (k + 1), by omega⟩
  induction j generalizing A with
  | zero =>
    refine Members.Heavy.mono ?_ (R.parents_heavy (V.node hA))
    rintro p ⟨hp, hr⟩
    have hpk : R.dag.round p = k := by omega
    exact ⟨Relation.ReflTransGen.single hp, V.closed hA hp (by omega), hpk⟩
  | succ j ih =>
    obtain ⟨p, hp, hr⟩ := Members.Heavy.exists (R.parents_heavy (V.node hA)) R.quorum_pos
    refine Members.Heavy.mono ?_ (ih (V.closed hA hp (by omega)) (by omega) (by omega))
    rintro c ⟨hc, hv, hrc⟩
    exact ⟨Relation.ReflTransGen.head hp hc, hv, hrc⟩

end Sui.Library

import Mathlib.Data.List.Nodup
import Mathlib.Data.Set.Insert
import Mathlib.Logic.Relation

/-!
# Depth-first search with an explicit stack

A node is put out once its dependencies are done, and the stack has the nodes in progress, each with the dependencies that are
left. Every node is put out once, and without a circle after its dependencies.
-/

namespace Sui.Library.DepthFirst

open List

variable {K : Type}

/-- The nodes in progress with what is left of their dependencies, the nodes that were not seen, and the nodes that are done. -/
structure State (K : Type) where
  stack : List (K × List K)
  unseen : Set K
  output : List K

/-- A step of the search. -/
inductive Step (deps : K → List K) : State K → State K → Prop
  | root {x : K} {unseen : Set K} {output : List K} (hx : x ∈ unseen) :
      Step deps ⟨[], unseen, output⟩ ⟨[(x, deps x)], unseen \ {x}, output⟩
  | visit {x d : K} {ds : List K} {stack : List (K × List K)} {unseen : Set K} {output : List K} (hd : d ∈ unseen) :
      Step deps ⟨(x, d :: ds) :: stack, unseen, output⟩ ⟨(d, deps d) :: (x, ds) :: stack, unseen \ {d}, output⟩
  | skip {x d : K} {ds : List K} {stack : List (K × List K)} {unseen : Set K} {output : List K} (hd : d ∉ unseen) :
      Step deps ⟨(x, d :: ds) :: stack, unseen, output⟩ ⟨(x, ds) :: stack, unseen, output⟩
  | finish {x : K} {stack : List (K × List K)} {unseen : Set K} {output : List K} :
      Step deps ⟨(x, []) :: stack, unseen, output⟩ ⟨stack, unseen, output ++ [x]⟩

variable {deps : K → List K} {nodes : Set K} {s s' : State K}

/-! ## Every node is in one place -/

/-- The nodes are those that are done, in progress or not seen, each of them once. -/
structure Placed (nodes : Set K) (s : State K) : Prop where
  nodup : (s.output ++ s.stack.map Prod.fst).Nodup
  disjoint : ∀ k ∈ s.unseen, k ∉ s.output ++ s.stack.map Prod.fst
  mem : ∀ k, k ∈ nodes ↔ k ∈ s.output ++ s.stack.map Prod.fst ∨ k ∈ s.unseen

theorem Placed.initial (nodes : Set K) : Placed nodes ⟨[], nodes, []⟩ := ⟨nodup_nil, by simp, by simp⟩

/-- A node that was not seen is put on the stack. -/
theorem Placed.push {x : K} {ds : List K} {stack stack' : List (K × List K)} {unseen : Set K} {output : List K}
    (h : Placed nodes ⟨stack, unseen, output⟩) (hx : x ∈ unseen) (hstack : stack'.map Prod.fst = stack.map Prod.fst) :
    Placed nodes ⟨(x, ds) :: stack', unseen \ {x}, output⟩ := by
  have hperm : (output ++ x :: stack.map Prod.fst).Perm (x :: (output ++ stack.map Prod.fst)) := perm_middle
  have hnew := h.disjoint x hx
  refine ⟨?_, fun k hk => ?_, fun k => ?_⟩
  · rw [map_cons, hstack, hperm.nodup_iff, nodup_cons]
    exact ⟨hnew, h.nodup⟩
  · rw [Set.mem_sdiff, Set.mem_singleton_iff] at hk
    rw [map_cons, hstack, hperm.mem_iff, mem_cons, not_or]
    exact ⟨hk.2, h.disjoint k hk.1⟩
  · rw [h.mem k, map_cons, hstack, hperm.mem_iff, mem_cons, Set.mem_sdiff, Set.mem_singleton_iff]
    by_cases hkx : k = x
    · subst hkx
      simp [hx]
    · simp [hkx]

theorem Placed.step (h : Placed nodes s) (hstep : Step deps s s') : Placed nodes s' := by
  cases hstep with
  | root hx => exact h.push hx rfl
  | visit hd => exact h.push hd rfl
  | skip => exact ⟨h.nodup, h.disjoint, h.mem⟩
  | finish =>
    obtain ⟨hnodup, hdisjoint, hmem⟩ := h
    simp only [map_cons] at hnodup hdisjoint hmem
    refine ⟨?_, ?_, ?_⟩ <;> simpa only [append_assoc, singleton_append]

theorem Placed.run (h : Placed nodes s) (hrun : Relation.ReflTransGen (Step deps) s s') : Placed nodes s' := by
  induction hrun with
  | refl => exact h
  | tail _ hstep ih => exact ih.step hstep

/-- When nothing is left, every node is done, once. -/
theorem Placed.output {output : List K} (h : Placed nodes ⟨[], ∅, output⟩) : output.Nodup ∧ ∀ k, k ∈ output ↔ k ∈ nodes := by
  have hnodup := h.nodup
  have hmem := h.mem
  simp only [map_nil, append_nil, Set.mem_empty_iff_false, or_false] at hnodup hmem
  exact ⟨hnodup, fun k => (hmem k).symm⟩

/-! ## Dependencies come first -/

/-- A node is a dependency of another one. -/
def Needed (deps : K → List K) (nodes : Set K) (d x : K) : Prop := d ∈ nodes ∧ x ∈ nodes ∧ d ∈ deps x

/-- No node depends on itself through others. -/
def Acyclic (deps : K → List K) (nodes : Set K) : Prop := ∀ x, ¬ Relation.TransGen (Needed deps nodes) x x

/-- The dependencies of the nodes in progress are left, done or, below the top of the stack, the node above. -/
def Frames (deps : K → List K) (nodes : Set K) (output : List K) : Option K → List (K × List K) → Prop
  | _, [] => True
  | child, (x, ds) :: rest =>
    (∀ d ∈ deps x, d ∈ nodes → d ∈ ds ∨ d ∈ output ∨ child = some d) ∧ (∀ c, child = some c → c ∈ deps x) ∧ ds ⊆ deps x ∧
      Frames deps nodes output (some x) rest

/-- The invariant of a search without cycles. -/
structure Ordered (deps : K → List K) (nodes : Set K) (s : State K) : Prop where
  closed : ∀ x ∈ s.output, ∀ d ∈ deps x, d ∈ nodes → d ∈ s.output
  sorted : s.output.Pairwise fun a b => b ∉ deps a
  frames : Frames deps nodes s.output none s.stack

theorem Ordered.initial : Ordered deps nodes ⟨[], nodes, []⟩ := ⟨nofun, List.Pairwise.nil, trivial⟩

theorem Frames.append {output : List K} {child : Option K} {stack : List (K × List K)} (h : Frames deps nodes output child stack)
    (x : K) : Frames deps nodes (output ++ [x]) child stack := by
  induction stack generalizing child with
  | nil => trivial
  | cons _ _ ih =>
    obtain ⟨hdeps, hchild, hsub, hrest⟩ := h
    refine ⟨fun d hd hn => ?_, hchild, hsub, ih hrest⟩
    rcases hdeps d hd hn with hd | hd | hd
    · exact .inl hd
    · exact .inr (.inl (mem_append_left _ hd))
    · exact .inr (.inr hd)

/-- The node above is done. -/
theorem Frames.finish {output : List K} {x : K} {stack : List (K × List K)} (h : Frames deps nodes output (some x) stack) :
    Frames deps nodes (output ++ [x]) none stack := by
  cases stack with
  | nil => trivial
  | cons =>
    obtain ⟨hdeps, -, hsub, hrest⟩ := h
    refine ⟨fun d hd hn => ?_, nofun, hsub, hrest.append x⟩
    rcases hdeps d hd hn with hd | hd | hd
    · exact .inl hd
    · exact .inr (.inl (mem_append_left _ hd))
    · rw [Option.some.inj hd]
      exact .inr (.inl (mem_append_right _ mem_cons_self))

/-- The nodes on the stack need the one above them, through those between. -/
theorem Frames.needed {output : List K} {x : K} {stack : List (K × List K)} (h : Frames deps nodes output (some x) stack)
    (hx : x ∈ nodes) (hnodes : ∀ k ∈ stack.map Prod.fst, k ∈ nodes) {y : K} (hy : y ∈ stack.map Prod.fst) :
    Relation.TransGen (Needed deps nodes) x y := by
  induction stack generalizing x with
  | nil => cases hy
  | cons frame _ ih =>
    obtain ⟨-, hchild, -, hrest⟩ := h
    have hframe := hnodes frame.1 mem_cons_self
    have hstep : Needed deps nodes x frame.1 := ⟨hx, hframe, hchild x rfl⟩
    rcases mem_cons.mp hy with rfl | hy
    · exact .single hstep
    · exact .head hstep (ih hrest hframe (fun k hk => hnodes k (mem_cons_of_mem _ hk)) hy)

theorem Ordered.step (hacyclic : Acyclic deps nodes) (hplaced : Placed nodes s) (h : Ordered deps nodes s) (hstep : Step deps s s') :
    Ordered deps nodes s' := by
  obtain ⟨hclosed, hsorted, hframes⟩ := h
  cases hstep with
  | root => exact ⟨hclosed, hsorted, fun d hd _ => .inl hd, nofun, List.Subset.refl _, trivial⟩
  | visit =>
    rename_i x d ds stack unseen output
    obtain ⟨hdeps, -, hsub, hrest⟩ := hframes
    refine ⟨hclosed, hsorted, ⟨fun e he _ => .inl he, nofun, List.Subset.refl _, ?_, ?_, ?_, hrest⟩⟩
    · intro e he hn
      rcases hdeps e he hn with he | he | he
      · rcases mem_cons.mp he with rfl | he
        · exact .inr (.inr rfl)
        · exact .inl he
      · exact .inr (.inl he)
      · cases he
    · intro c hc
      rw [← Option.some.inj hc]
      exact hsub mem_cons_self
    · exact fun e he => hsub (mem_cons_of_mem _ he)
  | skip hd =>
    rename_i x d ds stack unseen output
    obtain ⟨hdeps, -, hsub, hrest⟩ := hframes
    refine ⟨hclosed, hsorted, ⟨fun e he hn => ?_, nofun, fun e he => hsub (mem_cons_of_mem _ he), hrest⟩⟩
    rcases hdeps e he hn with hmem | hmem | hmem
    · rcases mem_cons.mp hmem with rfl | hmem
      · -- a dependency on the stack would need itself
        refine .inr (.inl ?_)
        have hplace := (hplaced.mem e).mp hn
        rw [or_iff_left hd, mem_append] at hplace
        refine hplace.resolve_right fun hstack => ?_
        have hnodes : ∀ k ∈ x :: stack.map Prod.fst, k ∈ nodes :=
          fun k hk => (hplaced.mem k).mpr (.inl (mem_append_right _ hk))
        have hx := hnodes x mem_cons_self
        have hfirst : Needed deps nodes e x := ⟨hn, hx, he⟩
        rcases mem_cons.mp hstack with rfl | hstack
        · exact hacyclic _ (.single hfirst)
        · exact hacyclic e (.head hfirst (hrest.needed hx (fun k hk => hnodes k (mem_cons_of_mem _ hk)) hstack))
      · exact .inl hmem
    · exact .inr (.inl hmem)
    · cases hmem
  | finish =>
    rename_i x stack unseen output
    obtain ⟨hdeps, -, -, hrest⟩ := hframes
    have hdone : ∀ d ∈ deps x, d ∈ nodes → d ∈ output := by
      intro d hd hn
      rcases hdeps d hd hn with hd | hd | hd
      · cases hd
      · exact hd
      · cases hd
    have hmem : x ∈ nodes := (hplaced.mem x).mpr (.inl (mem_append_right _ mem_cons_self))
    have hnew : x ∉ output := by
      intro hx
      have hnodup := hplaced.nodup
      rw [nodup_append] at hnodup
      exact hnodup.2.2 x hx x mem_cons_self rfl
    refine ⟨fun y hy d hd hn => ?_, ?_, hrest.finish⟩
    · rcases mem_append.mp hy with hy | hy
      · exact mem_append_left _ (hclosed y hy d hd hn)
      · rw [mem_singleton.mp hy] at hd
        exact mem_append_left _ (hdone d hd hn)
    · refine pairwise_append.mpr ⟨hsorted, pairwise_singleton _ _, fun a ha b hb hba => ?_⟩
      rw [mem_singleton.mp hb] at hba
      exact hnew (hclosed a ha x hba hmem)

theorem Ordered.run (hacyclic : Acyclic deps nodes) (hplaced : Placed nodes s) (h : Ordered deps nodes s)
    (hrun : Relation.ReflTransGen (Step deps) s s') : Ordered deps nodes s' := by
  induction hrun with
  | refl => exact h
  | tail hprev hstep ih => exact ih.step hacyclic (hplaced.run hprev) hstep

end Sui.Library.DepthFirst

import Sui.Library.AccessPath
import Sui.Move.BorrowGraph
import Sui.Move.Lemmas.Regex

/-!
# What the operations of the borrow graph do

For every operation the nodes and edges of its result: which references it adds or renames, that it keeps the edges between the
others, and which words its new edges match.
-/

namespace Sui.BorrowGraph

open Library Checked BTreeMap List GraphMap AccessPath.Sound Option Std.ExtTreeMap

variable {Loc Lbl μ ε : Type} [LinearOrder Lbl]

@[simp] theorem orViolation_ok {α : Type} {x : Except Unit α} {v : InvariantViolation} {a : α} :
    (orViolation x v : Except (MeterError ε) α) = .ok a ↔ x = .ok a := by
  cases x <;> simp [orViolation, Except.mapError]

@[simp] theorem ensure_ok {c : Bool} {v : InvariantViolation} {u : Unit} :
    (ensure c v : Except (MeterError ε) Unit) = .ok u ↔ c = true := assert_ok

/-! ## Words of an edge -/

variable {w : List Lbl}

namespace Edge

/-- Inserting a regex adds this one only. -/
theorem isSome_insert (e : Edge Loc Lbl) (loc : Loc) (regex r : Regex Lbl) :
    ((e.insert loc regex).1.regexes[r]?.isSome : Prop) ↔ e.regexes[r]?.isSome ∨ regex = r := by
  unfold insert
  split_ifs with h
  · constructor
    · exact Or.inl
    · rintro (h' | rfl)
      · exact h'
      · exact h
  · simp only [get_insert]
    split
    · rename_i h
      simp [h]
    · rename_i h
      simp [h]

theorem isSome_foldl_insert (loc : Loc) (rs : List (Regex Lbl)) (e : Edge Loc Lbl) (r : Regex Lbl) :
    ((rs.foldl (fun e r => (e.insert loc r).1) e).regexes[r]?.isSome : Prop) ↔ e.regexes[r]?.isSome ∨ r ∈ rs := by
  have h := foldl_iff (fun e : Edge Loc Lbl => (e.regexes[r]?.isSome : Prop)) (fun regex => regex = r)
    (fun e regex => isSome_insert e loc regex r) rs e
  simpa using h

/-- A joined edge has the regexes of both. -/
theorem isSome_join (e other : Edge Loc Lbl) (r : Regex Lbl) :
    ((e.join other).1.regexes[r]?.isSome : Prop) ↔ e.regexes[r]?.isSome ∨ other.regexes[r]?.isSome := by
  have hstep : ∀ (acc : Edge Loc Lbl × Nat) (x : Regex Lbl × Loc),
      (((acc.1.insert x.2 x.1).1, saturate (acc.2 + (acc.1.insert x.2 x.1).2)).1.regexes[r]?.isSome : Prop) ↔
        acc.1.regexes[r]?.isSome ∨ x.1 = r := fun acc x => isSome_insert acc.1 x.2 x.1 r
  refine (foldl_iff (fun acc : Edge Loc Lbl × Nat => (acc.1.regexes[r]?.isSome : Prop)) _ hstep other.regexes.toList
    (e, 0)).trans (or_congr_right ?_)
  constructor
  · rintro ⟨x, hx, rfl⟩
    rw [mem_toList.mp hx]
    rfl
  · intro hr
    obtain ⟨loc, hloc⟩ := isSome_iff_exists.mp hr
    exact ⟨(r, loc), mem_toList.mpr hloc, rfl⟩

theorem Matches.join_left {e other : Edge Loc Lbl} (h : e.Matches w) : (e.join other).1.Matches w := by
  obtain ⟨r, hr, hw⟩ := h
  exact ⟨r, (isSome_join e other r).mpr (.inl hr), hw⟩

theorem Matches.join_right {e other : Edge Loc Lbl} (h : other.Matches w) : (e.join other).1.Matches w := by
  obtain ⟨r, hr, hw⟩ := h
  exact ⟨r, (isSome_join e other r).mpr (.inr hr), hw⟩

end Edge

variable {source : NodeIndex}

namespace GraphMap

variable {N E : Type} {g g' : GraphMap N E}

/-- A new node has an unused index. -/
theorem addNode_ok {weight : N} {index : NodeIndex} (h : g.addNode weight = .ok (g', index)) :
    g.nodeWeights[index]? = none ∧ g'.nodeWeights = g.nodeWeights.insert index weight ∧ g'.edgeWeights = g.edgeWeights := by
  simp only [addNode, bind_ok, assert_ok, Bool.not_eq_true', containsNode, isSome_eq_false_iff,
    isNone_iff_eq_none, pure_ok, Prod.mk.injEq] at h
  obtain ⟨next, -, -, hnone, rfl, rfl⟩ := h
  exact ⟨hnone, rfl, rfl⟩

/-- A new edge replaces none. -/
theorem addEdge_ok {target : NodeIndex} {weight : E} (h : g.addEdge source weight target = .ok g') :
    g'.nodeWeights = g.nodeWeights ∧ g'.edgeWeight source target = some weight ∧
      ∀ i j e, g.edgeWeight i j = some e → g'.edgeWeight i j = some e := by
  simp only [addEdge, bind_ok, assert_ok, isNone_iff_eq_none, pure_ok] at h
  obtain ⟨-, -, -, -, -, hnone, rfl⟩ := h
  refine ⟨rfl, by rw [edgeWeight, IndexMap.get_insert, if_pos rfl], fun i j e he => ?_⟩
  rw [edgeWeight, IndexMap.get_insert, if_neg (fun heq => by rw [edgeWeight, ← heq, hnone] at he; cases he)]
  exact he

/-- Removing a node removes the edges at it. -/
theorem removeNode_ok {index : NodeIndex} (h : g.removeNode index = .ok g') : g' = { g with
      nodeWeights := g.nodeWeights.erase index
      edgeWeights := g.edgeWeights.retain fun k _ => k.1 ≠ index && k.2 ≠ index } := by
  simp only [removeNode, bind_ok, assert_ok, pure_ok] at h
  obtain ⟨-, -, rfl⟩ := h
  rfl

theorem minimize_ok (h : g.minimize = .ok g') : g'.nodeWeights = g.nodeWeights ∧ g'.edgeWeights = g.edgeWeights := by
  simp only [minimize, bind_ok, pure_ok] at h
  obtain ⟨generation, -, rfl⟩ := h
  exact ⟨rfl, rfl⟩

theorem mem_incomingEdgesIdx {i j : NodeIndex} {e : E} (h : g.edgeWeight i j = some e) : (i, e) ∈ g.incomingEdgesIdx j :=
  mem_filterMap.mpr ⟨((i, j), e), IndexMap.get_eq_some.mp h, if_pos rfl⟩

theorem mem_outgoingEdgesIdx {i j : NodeIndex} {e : E} (h : g.edgeWeight i j = some e) : (e, j) ∈ g.outgoingEdgesIdx i :=
  mem_filterMap.mpr ⟨((i, j), e), IndexMap.get_eq_some.mp h, if_pos rfl⟩

end GraphMap

/-! ## References, words and soundness -/

namespace Graph

/-- A reference of the graph. -/
def Live (g : Graph Loc Lbl) (r : Ref) : Prop := ∃ n, g.nodes[r]? = some n

/-- A word that the edge between two indices matches. -/
def CoversIdx (g : Graph Loc Lbl) (i j : NodeIndex) (w : List Lbl) : Prop :=
  ∃ e, g.graph.edgeWeight i j = some e ∧ e.Matches w

/-- A word that the edge between two references matches. -/
def Covers (g : Graph Loc Lbl) (p q : Ref) (w : List Lbl) : Prop :=
  ∃ n m, g.nodes[p]? = some n ∧ g.nodes[q]? = some m ∧ g.CoversIdx n.nodeIndex m.nodeIndex w

/-- The index of every reference has the reference as its weight; in particular no two references share an index. -/
def WellFormed (g : Graph Loc Lbl) : Prop :=
  ∀ (r : Ref) (n : Node), g.nodes[r]? = some n → g.graph.nodeWeights[n.nodeIndex]? = some r

/-- The edges of the graph are sound for the paths of its references. -/
def Sound (g : Graph Loc Lbl) (path : Ref → List Lbl) : Prop := AccessPath.Sound g.Live path g.Covers

variable {g g1 g2 g' other : Graph Loc Lbl} {path path' : Ref → List Lbl} {s : Ref}

/-- References are determined by their indices. -/
theorem WellFormed.nodeIndex_inj (hg : g.WellFormed) {r : Ref} {n m : Node} (hr : g.nodes[r]? = some n)
    (hs : g.nodes[s]? = some m) (h : n.nodeIndex = m.nodeIndex) : r = s := by
  have h1 := hg r n hr
  rw [h, hg s m hs] at h1
  exact (some.inj h1).symm

variable {r : Ref} {n : Node}

theorem node_ok : (g.node r : Except (MeterError ε) Node) = .ok n ↔ g.nodes[r]? = some n :=
  expect_ok

/-! ## New references -/

/-- What the new references of an extension add to the graph before their edges: they are nodes with an edge to themselves. -/
structure Adds (g g' : Graph Loc Lbl) (refs : List (Ref × NodeIndex × Bool)) : Prop where
  kept : ∀ (r : Ref) (n : Node), g.nodes[r]? = some n → g'.nodes[r]? = some n
  new : ∀ x ∈ refs, g.nodes[x.1]? = none ∧ g'.nodes[x.1]? = some ⟨x.2.2, x.2.1⟩
  only : ∀ (r : Ref) (n : Node), g'.nodes[r]? = some n → g.nodes[r]? = some n ∨ (r, n.nodeIndex, n.isMutable) ∈ refs
  edges : ∀ i j e, g.graph.edgeWeight i j = some e → g'.graph.edgeWeight i j = some e
  self : ∀ x ∈ refs, g'.CoversIdx x.2.1 x.2.1 []
  wellFormed : g.WellFormed → g'.WellFormed

theorem Adds.refl (g : Graph Loc Lbl) : Adds g g [] where
  kept _ _ h := h
  new := nofun
  only _ _ h := .inl h
  edges _ _ _ h := h
  self := nofun
  wellFormed h := h

variable {refs : List (Ref × NodeIndex × Bool)}

theorem Adds.coversIdx (h : Adds g g' refs) {i j : NodeIndex} (hc : g.CoversIdx i j w) : g'.CoversIdx i j w := by
  obtain ⟨e, he, hw⟩ := hc
  exact ⟨e, h.edges i j e he, hw⟩

/-- Additions one after the other are one addition. -/
theorem Adds.trans {refs' : List (Ref × NodeIndex × Bool)} (h : Adds g g1 refs) (h' : Adds g1 g' refs') :
    Adds g g' (refs ++ refs') where
  kept r n hr := h'.kept r n (h.kept r n hr)
  new x hx := by
    rcases mem_append.mp hx with hx | hx
    · obtain ⟨hnone, hsome⟩ := h.new x hx
      exact ⟨hnone, h'.kept _ _ hsome⟩
    · obtain ⟨hnone, hsome⟩ := h'.new x hx
      refine ⟨eq_none_iff_forall_ne_some.mpr fun n hn => ?_, hsome⟩
      exact absurd (hnone.symm.trans (h.kept _ _ hn)) nofun
  only r n hr := by
    rcases h'.only r n hr with hr | hr
    · rcases h.only r n hr with hr | hr
      · exact .inl hr
      · exact .inr (mem_append_left _ hr)
    · exact .inr (mem_append_right _ hr)
  edges i j e he := h'.edges i j e (h.edges i j e he)
  self x hx := by
    rcases mem_append.mp hx with hx | hx
    · exact h'.coversIdx (h.self x hx)
    · exact h'.self x hx
  wellFormed hg := h'.wellFormed (h.wellFormed hg)

variable {x : Ref × NodeIndex × Bool}

/-- Two new references, or a new and an old one, have different indices. -/
theorem Adds.nodeIndex_ne (h : Adds g g' refs) (hg : g.WellFormed)
    (hx : x ∈ refs) (hr : g.nodes[r]? = some n) : n.nodeIndex ≠ x.2.1 := by
  intro heq
  obtain ⟨hnone, hsome⟩ := h.new x hx
  have hrx := (h.wellFormed hg).nodeIndex_inj (h.kept r n hr) hsome heq
  subst hrx
  exact absurd (hnone.symm.trans hr) nofun

variable {loc : Loc} {isMut : Bool}

theorem addRef_adds {idx : NodeIndex}
    (h : (g.addRef loc isMut : Except (MeterError ε) _) = .ok (g', r, idx)) : Adds g g' [(r, idx, isMut)] := by
  simp only [addRef, bind_ok, orViolation_ok, ensure_ok, isNone_iff_eq_none, Prod.exists, pure_ok, Prod.mk.injEq] at h
  obtain ⟨freshId, -, graph, idx', hnode, graph', hedge, -, hnone, rfl, rfl, rfl⟩ := h
  obtain ⟨hidx, hadded, hsame⟩ := addNode_ok hnode
  obtain ⟨hweights, hself, hkept⟩ := addEdge_ok hedge
  rw [hadded] at hweights
  refine ⟨?_, ?_, ?_, ?_, ?_, ?_⟩
  · intro s n hs
    rw [get_insert, if_neg (fun heq => by subst heq; exact absurd (hnone.symm.trans hs) (by simp))]
    exact hs
  · intro x hx
    obtain rfl := mem_singleton.mp hx
    exact ⟨hnone, by rw [get_insert, if_pos rfl]⟩
  · exact forall_insert (fun _ _ => Or.inl) (Or.inr (mem_singleton_self _))
  · intro i j e he
    exact hkept i j e (by rw [edgeWeight, hsame]; exact he)
  · intro x hx
    obtain rfl := mem_singleton.mp hx
    exact ⟨_, hself, .epsilon, (Edge.isSome_insert _ _ _ _).mpr (Or.inr rfl), Regex.matches_epsilon.mpr rfl⟩
  · intro hg
    refine forall_insert (fun s n hs => ?_) ?_
    · have hne : idx' ≠ n.nodeIndex := by
        intro heq
        rw [heq, hg s n hs] at hidx
        exact absurd hidx (by simp)
      rw [hweights, get_insert, if_neg hne]
      exact hg s n hs
    · rw [hweights, get_insert, if_pos rfl]

variable {mutabilities : List Bool}

/-- The run lemma of adding references. -/
theorem addRefs_adds (h : (g.addRefs loc mutabilities : Except (MeterError ε) _) = .ok (g', refs)) : Adds g g' refs := by
  refine foldlM_invariant (fun _ (st : Graph Loc Lbl × List (Ref × NodeIndex × Bool)) => Adds g st.1 st.2) h (.refl g) ?_
  rintro pre isMut post ⟨g1, refs1⟩ st' - hadds hstep
  simp only [bind_ok, Prod.exists, pure_ok] at hstep
  obtain ⟨g2, r, idx, hadd, rfl⟩ := hstep
  exact hadds.trans (addRef_adds hadd)

theorem new_adds {K : Type} [LinearOrder K] {initialRefs : List (K × Loc × Bool)} {map : BTreeMap K Ref}
    (h : (new initialRefs : Except (MeterError ε) _) = .ok (g, map)) :
    ∃ refs, Adds (⟨0, ∅, GraphMap.new⟩ : Graph Loc Lbl) g refs := by
  refine foldlM_invariant (fun _ (st : Graph Loc Lbl × BTreeMap K Ref) =>
    ∃ refs, Adds (⟨0, ∅, GraphMap.new⟩ : Graph Loc Lbl) st.1 refs) h ⟨[], .refl _⟩ ?_
  rintro pre ⟨k, loc, isMut⟩ post ⟨g1, map1⟩ st' - ⟨refs, hadds⟩ hstep
  simp only [bind_ok, Prod.exists, pure_ok] at hstep
  obtain ⟨g2, r, idx, hadd, -, -, rfl⟩ := hstep
  exact ⟨_, hadds.trans (addRef_adds hadd)⟩

theorem wellFormed_empty (freshId : Nat) (graph : GraphMap Ref (Edge Loc Lbl)) : WellFormed ⟨freshId, ∅, graph⟩ := by
  intro r n hr
  exact absurd hr (by simp)

/-! ## New edges -/

omit [LinearOrder Lbl] in
/-- One more edge to be added. -/
theorem has_edgeToAdd (acc : EdgesToAdd Lbl) (e : NodeIndex × Regex Lbl × NodeIndex) (p s : NodeIndex) (r : Regex Lbl) :
    Has (edgeToAdd acc e) p r s ↔ Has acc p r s ∨ e = (p, r, s) := by
  obtain ⟨p', r', s'⟩ := e
  simp only [Has, edgeToAdd, get_insert, EmbeddingLike.apply_eq_iff_eq, Prod.mk.injEq]
  split_ifs with h
  · obtain ⟨rfl, rfl⟩ := h
    simp only [some.injEq, exists_eq_left', mem_append, mem_singleton, true_and, and_true]
    refine or_congr ?_ eq_comm
    cases acc[toLex (p', s')]? <;> simp
  · constructor
    · exact Or.inl
    · rintro (h' | ⟨rfl, rfl, rfl⟩)
      · exact h'
      · exact absurd ⟨rfl, rfl⟩ h

variable {meter meter' : μ} {newRefs : List NodeIndex} {ext : Extension Lbl} {acc acc' : EdgesToAdd Lbl}

/-- The edges to be added are those of the sources. -/
theorem determineAllNewEdges_ok [Meter μ ε] {sources : BTreeSet NodeIndex}
    (h : g.determineAllNewEdges acc sources ext newRefs meter = .ok (acc', meter')) (p s : NodeIndex) (r : Regex Lbl) :
    Has acc' p r s ↔ Has acc p r s ∨ ∃ source ∈ sources, (p, r, s) ∈ g.newEdgesOfSource ext newRefs source := by
  simp only [determineAllNewEdges, bind_ok, pure_ok, Prod.mk.injEq] at h
  obtain ⟨_, -, _, -, rfl, -⟩ := h
  have h := foldl_iff (fun acc : EdgesToAdd Lbl => Has acc p r s) (fun e => e = (p, r, s))
    (fun acc e => has_edgeToAdd acc e p s r) (sources.iter.flatMap (g.newEdgesOfSource ext newRefs)) acc
  simpa [mem_flatMap] using h

variable {e : Edge Loc Lbl}

/-- The edges that one source gives to a new reference hold the words of `AccessPath.Extends`. -/
theorem mem_newEdgesOfSource_concat {x n : NodeIndex}
    {r : Regex Lbl} (hn : n ∈ newRefs) (he : g.graph.edgeWeight x source = some e) (hr : e.regexes[r]?.isSome) :
    (x, r.extend ext, n) ∈ g.newEdgesOfSource ext newRefs source := by
  refine mem_append_left _ (mem_flatMap.mpr ⟨(x, e), mem_incomingEdgesIdx he, ?_⟩)
  refine mem_flatMap.mpr ⟨r, mem_keys.mpr (mem_iff_isSome_getElem?.mpr hr), ?_⟩
  exact mem_map.mpr ⟨n, hn, rfl⟩

/-- An edge from the source gives the quotients in both directions. -/
theorem mem_newEdgesOfSource_quotient {x n : NodeIndex}
    {r r' : Regex Lbl} (hn : n ∈ newRefs) (he : g.graph.edgeWeight source x = some e) (hr : e.regexes[r]?.isSome) :
    (r' ∈ r.removePrefix ext → (n, r', x) ∈ g.newEdgesOfSource ext newRefs source) ∧
      (r' ∈ ext.removePrefix r → (x, r', n) ∈ g.newEdgesOfSource ext newRefs source) := by
  have hout : ∀ y ∈ newEdgesOfOutgoing ext newRefs e x, y ∈ g.newEdgesOfSource ext newRefs source :=
    fun y hy => mem_append_right _ (mem_flatMap.mpr ⟨(e, x), mem_outgoingEdgesIdx he, hy⟩)
  have hkey : r ∈ e.regexes.keys := mem_keys.mpr (mem_iff_isSome_getElem?.mpr hr)
  refine ⟨fun hr' => hout _ (mem_flatMap.mpr ⟨r, hkey, ?_⟩), fun hr' => hout _ (mem_flatMap.mpr ⟨r, hkey, ?_⟩)⟩
  · exact mem_append_left _ (mem_flatMap.mpr ⟨r', hr', mem_map.mpr ⟨n, hn, rfl⟩⟩)
  · exact mem_append_right _ (mem_flatMap.mpr ⟨r', hr', mem_map.mpr ⟨n, hn, rfl⟩⟩)

/-- Edges are added to a graph: the nodes stay, every word stays matched. -/
structure Covered (g g' : Graph Loc Lbl) : Prop where
  nodes : g'.nodes = g.nodes
  weights : g'.graph.nodeWeights = g.graph.nodeWeights
  covers : ∀ i j w, g.CoversIdx i j w → g'.CoversIdx i j w

theorem Covered.refl (g : Graph Loc Lbl) : Covered g g := ⟨rfl, rfl, fun _ _ _ h => h⟩

theorem Covered.trans (h : Covered g g1) (h' : Covered g1 g') : Covered g g' :=
  ⟨h'.nodes.trans h.nodes, h'.weights.trans h.weights, fun i j w hc => h'.covers i j w (h.covers i j w hc)⟩

/-- Edges do not matter to the indices. -/
theorem Covered.wellFormed (h : Covered g g') (hg : g.WellFormed) : g'.WellFormed := by
  intro r n hr
  rw [h.weights]
  exact hg r n (h.nodes ▸ hr)

theorem Covered.live (h : Covered g g') : g'.Live r ↔ g.Live r := by
  unfold Live
  rw [h.nodes]

theorem addEdge_ok {target : NodeIndex} {regexes : List (Regex Lbl)}
    (h : (g.addEdge source loc regexes target : Except (MeterError ε) _) = .ok g') :
    Covered g g' ∧ (source ≠ target → ∀ r ∈ regexes, ∀ w, r.Matches w → g'.CoversIdx source target w) := by
  simp only [addEdge, bind_ok] at h
  obtain ⟨-, -, h⟩ := h
  split_ifs at h with heq
  · simp only [bind_ok, pure_ok] at h
    obtain ⟨-, -, rfl⟩ := h
    exact ⟨.refl _, fun hne => absurd heq hne⟩
  · simp only [bind_ok, orViolation_ok, pure_ok] at h
    obtain ⟨graph, hedge, rfl⟩ := h
    obtain ⟨hweights, hnew, hkept⟩ := addEdge_ok hedge
    refine ⟨⟨rfl, hweights, ?_⟩, ?_⟩
    · rintro i j w ⟨e, he, hw⟩
      exact ⟨e, hkept i j e he, hw⟩
    · intro _ r hr w hw
      exact ⟨_, hnew, r, (Edge.isSome_foldl_insert loc regexes Edge.new r).mpr (.inr hr), hw⟩

/-- All edges to be added are in the graph after it. -/
theorem addNewEdges_ok (h : (g.addNewEdges loc newRefs acc : Except (MeterError ε) _) = .ok g') :
    Covered g g' ∧ ∀ p r s, Has acc p r s → p ≠ s → ∀ w, r.Matches w → g'.CoversIdx p s w := by
  obtain ⟨hcov, hall⟩ := foldlM_each (I := Covered g) (Q := fun (x : (NodeIndex ×ₗ NodeIndex) × List (Regex Lbl)) g1 =>
    (ofLex x.1).1 ≠ (ofLex x.1).2 → ∀ r ∈ x.2, ∀ w, r.Matches w → g1.CoversIdx (ofLex x.1).1 (ofLex x.1).2 w) h (.refl g) <| by
      rintro ⟨key, rs⟩ g1 g2 hcov hstep
      simp only [bind_ok] at hstep
      obtain ⟨-, -, hstep⟩ := hstep
      obtain ⟨hcov', hnew⟩ := addEdge_ok hstep
      exact ⟨hcov.trans hcov', hnew, fun x hx hne r hr w hw => hcov'.covers _ _ _ (hx hne r hr w hw)⟩
  refine ⟨hcov, ?_⟩
  rintro p r s ⟨rs, hrs, hr⟩ hne w hw
  exact hall (toLex (p, s), rs) (mem_toList.mpr hrs) hne r hr w hw

omit [LinearOrder Lbl] in
/-- New immutable references may be aliases of each other. -/
theorem addImmEdges_ok {immNewRefs : List NodeIndex} (h : (addImmEdges immNewRefs acc : Except (MeterError ε) _) = .ok acc') :
    (∀ p r s, Has acc p r s → Has acc' p r s) ∧ ∀ x ∈ immNewRefs, ∀ y ∈ immNewRefs, x ≠ y → Has acc' x .dotStar y := by
  obtain ⟨hkept, hall⟩ := foldlM_each (I := fun acc1 => ∀ p r s, Has acc p r s → Has acc1 p r s)
    (Q := fun (x : NodeIndex × NodeIndex) acc1 => Has acc1 x.1 .dotStar x.2) h (fun _ _ _ h => h) <| by
      rintro ⟨x, y⟩ acc1 acc2 hkept hstep
      simp only [bind_ok, ensure_ok, isNone_iff_eq_none, pure_ok] at hstep
      obtain ⟨-, hnone, rfl⟩ := hstep
      have hmono : ∀ p r s, Has acc1 p r s → Has (acc1.insert (toLex (x, y)) [.dotStar]) p r s := by
        rintro p r s ⟨rs, hrs, hr⟩
        refine ⟨rs, ?_, hr⟩
        rw [get_insert, if_neg (fun heq => by rw [← heq, hnone] at hrs; exact absurd hrs nofun)]
        exact hrs
      exact ⟨fun p r s hh => hmono p r s (hkept p r s hh), ⟨_, by rw [get_insert, if_pos rfl], mem_singleton_self _⟩,
        fun _ => hmono _ _ _⟩
  refine ⟨hkept, fun x hx y hy hne => hall (x, y) ?_⟩
  exact mem_flatMap.mpr ⟨x, hx, mem_map.mpr ⟨y, mem_filter.mpr ⟨hy, by simpa using hne⟩, rfl⟩⟩

/-! ## Soundness of an extension -/

/-- A new reference gets the edges of `AccessPath.Extends` from a source of its extension. -/
theorem Adds.extends [Meter μ ε] (hadds : Adds g g1 refs) (hg : g.WellFormed) {acc1 : EdgesToAdd Lbl}
    {sources : BTreeSet NodeIndex} (hdet : g1.determineAllNewEdges acc sources ext newRefs meter = .ok (acc1, meter'))
    (hacc : ∀ p r s, Has acc1 p r s → Has acc' p r s) {all : List NodeIndex}
    (hadd : (g1.addNewEdges loc all acc' : Except (MeterError ε) _) = .ok g') (hx : x ∈ refs) (hxn : x.2.1 ∈ newRefs)
    (hs : g.nodes[s]? = some n) (hns : n.nodeIndex ∈ sources) {e : List Lbl} (he : ext.Matches e) :
    AccessPath.Extends g.Live g.Covers g'.Covers s x.1 e := by
  obtain ⟨hcov, hedges⟩ := addNewEdges_ok hadd
  have hnew : g'.nodes[x.1]? = some ⟨x.2.2, x.2.1⟩ := hcov.nodes ▸ (hadds.new x hx).2
  have hold : ∀ (r : Ref) (m : Node), g.nodes[r]? = some m → g'.nodes[r]? = some m :=
    fun r m hr => hcov.nodes ▸ hadds.kept r m hr
  have hhas : ∀ p r t, (p, r, t) ∈ g1.newEdgesOfSource ext newRefs n.nodeIndex → Has acc' p r t := by
    intro p r t hmem
    exact hacc p r t ((determineAllNewEdges_ok hdet p t r).mpr (.inr ⟨n.nodeIndex, hns, hmem⟩))
  refine ⟨?_, ?_, ?_⟩
  · rintro y u - ⟨m, n', hy, hs', edge, hedge, r, hr, hu⟩
    obtain rfl := some.inj (hs.symm.trans hs')
    have hmem : (m.nodeIndex, r.extend ext, x.2.1) ∈ g1.newEdgesOfSource ext newRefs n.nodeIndex :=
      mem_newEdgesOfSource_concat hxn (hadds.edges _ _ _ hedge) hr
    exact ⟨m, _, hold y m hy, hnew, hedges _ _ _ (hhas _ _ _ hmem) (hadds.nodeIndex_ne hg hx hy) _ (Regex.matches_extend hu he)⟩
  · rintro y v w - ⟨n', m, hs', hy, edge, hedge, r, hr, hv⟩ rfl
    obtain rfl := some.inj (hs.symm.trans hs')
    obtain ⟨r', hr', hw⟩ := Extension.exists_mem_removePrefix.mpr ⟨_, hv, he⟩
    have hmem := (mem_newEdgesOfSource_quotient hxn (hadds.edges _ _ _ hedge) hr).2 hr'
    exact ⟨m, _, hold y m hy, hnew, hedges _ _ _ (hhas _ _ _ hmem) (hadds.nodeIndex_ne hg hx hy) w hw⟩
  · rintro y w - ⟨n', m, hs', hy, edge, hedge, r, hr, hw⟩
    obtain rfl := some.inj (hs.symm.trans hs')
    obtain ⟨r', hr', hw⟩ := Regex.exists_mem_removePrefix.mpr ⟨_, he, hw⟩
    have hmem := (mem_newEdgesOfSource_quotient hxn (hadds.edges _ _ _ hedge) hr).1 hr'
    exact ⟨_, m, hnew, hold y m hy, hedges _ _ _ (hhas _ _ _ hmem) (hadds.nodeIndex_ne hg hx hy).symm w hw⟩

/-- Adding references keeps the graph sound, if each has the edges of its extension and they are covered among themselves. -/
theorem Adds.sound (hadds : Adds g g1 refs) (hcov : Covered g1 g')
    (hsound : g.Sound path) (hpath : ∀ r, g.Live r → path' r = path r)
    (hnew : ∀ x ∈ refs, ∃ s e, g.Live s ∧ path' x.1 = path s ++ e ∧ AccessPath.Extends g.Live g.Covers g'.Covers s x.1 e)
    (hself : ∀ x ∈ refs, ∀ y ∈ refs, ∀ w, path' y.1 = path' x.1 ++ w → g'.CoversIdx x.2.1 y.2.1 w) : g'.Sound path' := by
  have hnode : ∀ x ∈ refs, g'.nodes[x.1]? = some ⟨x.2.2, x.2.1⟩ := fun x hx => hcov.nodes ▸ (hadds.new x hx).2
  refine extend hsound (fun r => ∃ x ∈ refs, x.1 = r) ?_ hpath ?_ ?_ ?_
  · rintro r ⟨n, hr⟩
    rcases hadds.only r n (hcov.nodes ▸ hr) with hr | hr
    · exact .inl ⟨n, hr⟩
    · exact .inr ⟨_, hr, rfl⟩
  · rintro p q w - - ⟨n, m, hp, hq, hc⟩
    exact ⟨n, m, hcov.nodes ▸ hadds.kept p n hp, hcov.nodes ▸ hadds.kept q m hq, hcov.covers _ _ _ (hadds.coversIdx hc)⟩
  · rintro _ ⟨x, hx, rfl⟩
    exact hnew x hx
  · rintro _ _ ⟨x, hx, rfl⟩ ⟨y, hy, rfl⟩ w hw
    exact ⟨_, _, hnode x hx, hnode y hy, hself x hx y hy w hw⟩

variable {idxs : BTreeSet NodeIndex}

/-- The indices are those of live references. -/
theorem nodeIndices_ok {refs : List Ref} (h : (g.nodeIndices refs : Except (MeterError ε) _) = .ok idxs) (hr : r ∈ refs) :
    ∃ n, g.nodes[r]? = some n ∧ n.nodeIndex ∈ idxs := by
  simp only [nodeIndices, bind_ok, pure_ok] at h
  obtain ⟨l, hl, rfl⟩ := h
  obtain ⟨i, hi, hmap⟩ := exists_of_mapM hl hr
  cases hn : (g.node r : Except (MeterError ε) Node) with
  | error => simp [hn, Except.map] at hmap
  | ok n =>
    rw [hn] at hmap
    obtain rfl := Except.ok.inj hmap
    exact ⟨n, node_ok.mp hn, mem_toFinset.mpr hi⟩

theorem nodeIndices_mem {refs : List Ref} (h : (g.nodeIndices refs : Except (MeterError ε) _) = .ok idxs) (hr : r ∈ refs)
    (hn : g.nodes[r]? = some n) : n.nodeIndex ∈ idxs := by
  obtain ⟨m, hm, hmem⟩ := nodeIndices_ok h hr
  exact some.inj (hm.symm.trans hn) ▸ hmem

/-- A new graph is sound for unrelated paths. -/
theorem new_sound {K : Type} [LinearOrder K] {initialRefs : List (K × Loc × Bool)} {map : BTreeMap K Ref}
    (h : (new initialRefs : Except (MeterError ε) _) = .ok (g, map))
    (hun : ∀ p q, g.Live p → g.Live q → p ≠ q → ¬ path p <+: path q) : g.Sound path := by
  obtain ⟨refs, hadds⟩ := new_adds h
  rintro p q hp hq w hw
  obtain rfl : p = q := Classical.byContradiction fun hne => hun p q hp hq hne ⟨w, hw.symm⟩
  obtain rfl : w = [] := by simpa using hw
  obtain ⟨n, hn⟩ := hp
  rcases hadds.only p n hn with hold | hmem
  · exact absurd hold (by simp)
  · exact ⟨n, n, hn, hn, hadds.self _ hmem⟩

theorem extendBy_wellFormed [Meter μ ε] {sources : List Ref}
    (hg : g.WellFormed) (h : g.extendBy loc sources isMut ext meter = .ok (g', r, meter')) : g'.WellFormed := by
  simp only [extendBy, bind_ok, Prod.exists, pure_ok, Prod.mk.injEq] at h
  obtain ⟨g1, r', idx, hadd, sourceIdxs, hidxs, acc, meter1, hdet, g2, hedges, rfl, -⟩ := h
  exact (addNewEdges_ok hedges).1.wellFormed ((addRef_adds hadd).wellFormed hg)

/-- `extend_by_epsilon` and `extend_by_label`. -/
theorem extendBy_sound [Meter μ ε] {sources : List Ref} (hg : g.WellFormed) (hsound : g.Sound path)
    (h : g.extendBy loc sources isMut ext meter = .ok (g', r, meter')) (hpath : ∀ x, g.Live x → path' x = path x) {e : List Lbl}
    (hs : s ∈ sources) (hlive : g.Live s) (he : ext.Matches e) (hr : path' r = path s ++ e) : g'.Sound path' := by
  simp only [extendBy, bind_ok, Prod.exists, pure_ok, Prod.mk.injEq] at h
  obtain ⟨g1, r', idx, hadd, sourceIdxs, hidxs, acc, meter1, hdet, g2, hedges, rfl, rfl, rfl⟩ := h
  obtain ⟨n, hn⟩ := hlive
  have hadds := addRef_adds hadd
  obtain ⟨hcov, -⟩ := addNewEdges_ok hedges
  refine hadds.sound hcov hsound hpath ?_ ?_
  · intro x hx
    obtain rfl := mem_singleton.mp hx
    refine ⟨s, e, ⟨n, hn⟩, hr, ?_⟩
    exact hadds.extends hg hdet (fun _ _ _ hh => hh) hedges hx (mem_singleton_self _) hn
      (nodeIndices_mem hidxs hs (hadds.kept s n hn)) he
  · intro x hx y hy w hw
    obtain rfl := mem_singleton.mp hx
    obtain rfl := mem_singleton.mp hy
    obtain rfl : w = [] := by simpa using hw
    exact hcov.covers _ _ _ (hadds.self _ hx)

/-- A mutable reference of the graph. -/
def Mutable (g : Graph Loc Lbl) (r : Ref) : Prop := ∃ n, g.nodes[r]? = some n ∧ n.isMutable = true

/-- The filter by mutability keeps every mutable source. -/
theorem mem_mutSources {l mutSources : List Ref} (hidxs : (g.nodeIndices l : Except (MeterError ε) _) = .ok idxs)
    (h : (l.filterM g.isMutable : Except (MeterError ε) _) = .ok mutSources) (hr : r ∈ l) (hm : g.Mutable r) :
    r ∈ mutSources := by
  have hp : ∀ a ∈ l, (g.isMutable a : Except (MeterError ε) Bool) = .ok (g.nodes[a]?.any Node.isMutable) := by
    intro a ha
    obtain ⟨n, hn, -⟩ := nodeIndices_ok hidxs ha
    rw [isMutable, node_ok.mpr hn, hn]
    rfl
  rw [filterM_eq hp] at h
  obtain rfl := Except.ok.inj h
  obtain ⟨n, hn, hmut⟩ := hm
  exact mem_filter.mpr ⟨hr, by simp [hn, hmut]⟩

/-- Two new references are covered: they are the same, both immutable, or unrelated. -/
theorem Adds.covers_new (hadds : Adds g g1 refs) (hg : g.WellFormed) {all : List NodeIndex}
    (himm : (addImmEdges ((refs.filter fun r => !r.2.2).map fun r => r.2.1) acc : Except (MeterError ε) _) = .ok acc')
    (hadd : (g1.addNewEdges loc all acc' : Except (MeterError ε) _) = .ok g') {y : Ref × NodeIndex × Bool} (hx : x ∈ refs)
    (hy : y ∈ refs) (hw : path' y.1 = path' x.1 ++ w)
    (hun : x.1 ≠ y.1 → x.2.2 = true ∨ y.2.2 = true → ¬ path' x.1 <+: path' y.1) : g'.CoversIdx x.2.1 y.2.1 w := by
  obtain ⟨hcov, hedges⟩ := addNewEdges_ok hadd
  obtain ⟨-, hall⟩ := addImmEdges_ok himm
  obtain ⟨-, hxn⟩ := hadds.new x hx
  obtain ⟨-, hyn⟩ := hadds.new y hy
  by_cases hxy : x.1 = y.1
  · obtain rfl : w = [] := by simpa [hxy] using hw
    have heq := some.inj (hxn.symm.trans (hxy ▸ hyn))
    obtain ⟨-, hidx⟩ := Node.mk.inj heq
    exact hidx ▸ hcov.covers _ _ _ (hadds.self x hx)
  · have hmut : x.2.2 = false ∧ y.2.2 = false := by
      have hno := mt (hun hxy) (not_not_intro ⟨w, hw.symm⟩)
      simpa using hno
    have hne : x.2.1 ≠ y.2.1 := fun hidx => hxy ((hadds.wellFormed hg).nodeIndex_inj hxn hyn hidx)
    have hmem : ∀ z ∈ refs, z.2.2 = false → z.2.1 ∈ (refs.filter fun r => !r.2.2).map fun r => r.2.1 := by
      intro z hz hm
      exact mem_map.mpr ⟨z, mem_filter.mpr ⟨hz, by simp [hm]⟩, rfl⟩
    exact hedges _ _ _ (hall _ (hmem x hx hmut.1) _ (hmem y hy hmut.2) hne) hne w (Regex.matches_dotStar w)

theorem extendByDotStarForCall_wellFormed [Meter μ ε] {allSources : BTreeSet Ref} {rs : List Ref} (hg : g.WellFormed)
    (h : g.extendByDotStarForCall loc allSources mutabilities meter = .ok (g', rs, meter')) : g'.WellFormed := by
  simp only [extendByDotStarForCall, bind_ok, Prod.exists, pure_ok, Prod.mk.injEq] at h
  obtain ⟨_, -, _, -, _, -, g1, refs, hrefs, _, _, -, _, _, -, _, -, g2, hedges, rfl, -⟩ := h
  exact (addNewEdges_ok hedges).1.wellFormed ((addRefs_adds hrefs).wellFormed hg)

/-- `extend_by_dot_star_for_call`. -/
theorem extendByDotStarForCall_sound [Meter μ ε] {allSources : BTreeSet Ref}
    {rs : List Ref} (hg : g.WellFormed) (hsound : g.Sound path)
    (h : g.extendByDotStarForCall loc allSources mutabilities meter = .ok (g', rs, meter'))
    (hpath : ∀ x, g.Live x → path' x = path x)
    (hsource : ∀ r ∈ rs, ∃ s ∈ allSources, (g'.Mutable r → g.Mutable s) ∧ ∃ e, path' r = path s ++ e)
    (hun : ∀ r ∈ rs, ∀ q ∈ rs, r ≠ q → g'.Mutable r ∨ g'.Mutable q → ¬ path' r <+: path' q) :
    g'.Sound path' := by
  simp only [extendByDotStarForCall, bind_ok, Prod.exists, pure_ok, Prod.mk.injEq] at h
  obtain ⟨allIdxs, hidxs, mutSources, hfilter, mutIdxs, hmutIdxs, g1, refs, hrefs, acc1, meter1, hdet1, acc2, meter2, hdet2,
    acc3, himm, g2, hedges, rfl, rfl, rfl⟩ := h
  have hadds := addRefs_adds hrefs
  obtain ⟨hcov, -⟩ := addNewEdges_ok hedges
  obtain ⟨hkept, -⟩ := addImmEdges_ok himm
  have hmutable : ∀ x ∈ refs, g2.Mutable x.1 ↔ x.2.2 = true := by
    intro x hx
    have hn : g2.nodes[x.1]? = some ⟨x.2.2, x.2.1⟩ := hcov.nodes ▸ (hadds.new x hx).2
    simp [Mutable, hn]
  refine hadds.sound hcov hsound hpath ?_ ?_
  · intro x hx
    obtain ⟨s, hs, hmut, e, he⟩ := hsource x.1 (mem_map_of_mem hx)
    have hs := BTreeSet.mem_iter.mpr hs
    obtain ⟨n, hn, hns⟩ := nodeIndices_ok hidxs hs
    refine ⟨s, e, ⟨n, hn⟩, he, ?_⟩
    cases hm : x.2.2 with
    | true =>
      have hacc : ∀ p r t, Has acc1 p r t → Has acc3 p r t :=
        fun p r t hh => hkept p r t ((determineAllNewEdges_ok hdet2 p t r).mpr (.inl hh))
      exact hadds.extends hg hdet1 hacc hedges hx (mem_map.mpr ⟨x, mem_filter.mpr ⟨hx, hm⟩, rfl⟩) hn
        (nodeIndices_mem hmutIdxs (mem_mutSources hidxs hfilter hs (hmut ((hmutable x hx).mpr hm))) hn) trivial
    | false =>
      exact hadds.extends hg hdet2 hkept hedges hx (mem_map.mpr ⟨x, mem_filter.mpr ⟨hx, by simp [hm]⟩, rfl⟩) hn hns trivial
  · intro x hx y hy w hw
    refine hadds.covers_new hg himm hedges hx hy hw fun hne hm => ?_
    refine hun x.1 (mem_map_of_mem hx) y.1 (mem_map_of_mem hy) hne ?_
    exact hm.imp (hmutable x hx).mpr (hmutable y hy).mpr

/-! ## Release and join -/

/-- A release removes the reference with the edges at it. -/
theorem release_ok [Meter μ ε] (h : g.release r meter = .ok (g', meter')) :
    ∃ n, g.nodes[r]? = some n ∧ g'.nodes = g.nodes.erase r ∧ g'.graph.nodeWeights = g.graph.nodeWeights.erase n.nodeIndex ∧
      g'.graph.edgeWeights = g.graph.edgeWeights.retain fun k _ => k.1 ≠ n.nodeIndex && k.2 ≠ n.nodeIndex := by
  simp only [release, bind_ok, orViolation_ok, pure_ok, Prod.mk.injEq] at h
  obtain ⟨_, -, n, hn, graph, hremove, rfl, -⟩ := h
  obtain rfl := removeNode_ok hremove
  exact ⟨n, node_ok.mp hn, rfl, rfl, rfl⟩

/-- The references that are left after `release` are old ones at other indices. -/
theorem release_nodes [Meter μ ε] (hg : g.WellFormed) (h : g.release r meter = .ok (g', meter'))
    (hn : g.nodes[r]? = some n) {m : Node} (hs : g'.nodes[s]? = some m) :
    g.nodes[s]? = some m ∧ m.nodeIndex ≠ n.nodeIndex := by
  obtain ⟨_, -, hnodes, -⟩ := release_ok h
  rw [hnodes, get_erase] at hs
  split at hs
  · exact absurd hs nofun
  · rename_i hne
    exact ⟨hs, fun hidx => hne (hg.nodeIndex_inj hs hn hidx).symm⟩

theorem release_wellFormed [Meter μ ε] (hg : g.WellFormed) (h : g.release r meter = .ok (g', meter')) : g'.WellFormed := by
  obtain ⟨n, hn, -, hweights, -⟩ := release_ok h
  intro s m hs
  obtain ⟨hs, hne⟩ := release_nodes hg h hn hs
  rw [hweights, get_erase, if_neg (Ne.symm hne)]
  exact hg s m hs

/-- Nothing that is left loses an edge. -/
theorem release_sound [Meter μ ε] (hg : g.WellFormed) (hsound : g.Sound path)
    (h : g.release r meter = .ok (g', meter')) : g'.Sound path := by
  obtain ⟨n, hn, -, -, hedges⟩ := release_ok h
  refine mono hsound (fun s ⟨m, hs⟩ => ⟨m, (release_nodes hg h hn hs).1⟩) ?_
  rintro p q w ⟨a, ha⟩ ⟨b, hb⟩ ⟨a', b', ha', hb', e, he, hw⟩
  obtain ⟨hp, hane⟩ := release_nodes hg h hn ha
  obtain ⟨hq, hbne⟩ := release_nodes hg h hn hb
  obtain rfl := some.inj (hp.symm.trans ha')
  obtain rfl := some.inj (hq.symm.trans hb')
  refine ⟨a, b, ha, hb, e, ?_, hw⟩
  rw [edgeWeight] at he ⊢
  rw [hedges, IndexMap.get_retain, he]
  simp [hane, hbne]

/-- One edge of the other graph is covered after it. -/
theorem joinEdge_ok {p : Ref} {increase : Nat} (h : (g.joinEdge p e s : Except (MeterError ε) _) = .ok (g', increase)) :
    Covered g g' ∧ ∀ (n m : Node), g.nodes[p]? = some n → g.nodes[s]? = some m → ∀ w, e.Matches w →
      g'.CoversIdx n.nodeIndex m.nodeIndex w := by
  unfold joinEdge at h
  split_ifs at h with hnone
  · obtain ⟨rfl, -⟩ := Prod.mk.inj (Except.ok.inj h)
    refine ⟨.refl _, ?_⟩
    intro n m hn hm
    simp [hn, hm] at hnone
  · simp only [bind_ok, node_ok, pure_ok, Prod.mk.injEq] at h
    obtain ⟨n, hn, m, hm, rfl, -⟩ := h
    refine ⟨⟨rfl, rfl, ?_⟩, ?_⟩
    · rintro i j w ⟨e', he', hw⟩
      simp only [CoversIdx, edgeWeight, IndexMap.get_insert] at he' ⊢
      split
      · rename_i heq
        rw [← heq] at he'
        refine ⟨_, rfl, ?_⟩
        simpa only [edgeWeight, he'] using hw.join_left
      · exact ⟨e', he', hw⟩
    · intro n' m' hn' hm' w hw
      obtain rfl := some.inj (hn.symm.trans hn')
      obtain rfl := some.inj (hm.symm.trans hm')
      simp only [CoversIdx, edgeWeight, IndexMap.get_insert, if_pos]
      refine ⟨_, rfl, ?_⟩
      cases hget : g.graph.edgeWeights.get (n.nodeIndex, m.nodeIndex) with
      | none => simpa only [edgeWeight, hget] using hw
      | some => simpa only [edgeWeight, hget] using hw.join_right

variable {changed : Bool}

/-- The edges of both graphs are covered after a join. -/
theorem join_ok [Meter μ ε] (h : g.join other meter = .ok (g', changed, meter')) :
    Covered g g' ∧ ∀ (i j : NodeIndex) (p s : Ref) (n m : Node) (w : List Lbl), other.graph.nodeWeights[i]? = some p →
      other.graph.nodeWeights[j]? = some s → other.CoversIdx i j w → g.nodes[p]? = some n → g.nodes[s]? = some m →
        g'.CoversIdx n.nodeIndex m.nodeIndex w := by
  simp only [join, bind_ok, orViolation_ok, Prod.exists, pure_ok, Prod.mk.injEq] at h
  obtain ⟨otherEdges, hall, g1, increase, hloop, _, -, _, -, rfl, -, -⟩ := h
  obtain ⟨hcov, hdone⟩ := foldlM_each (I := fun st : Graph Loc Lbl × Nat => Covered g st.1)
    (Q := fun (x : Ref × Edge Loc Lbl × Ref) st => ∀ (n m : Node), g.nodes[x.1]? = some n → g.nodes[x.2.2]? = some m →
      ∀ w, x.2.1.Matches w → st.1.CoversIdx n.nodeIndex m.nodeIndex w) hloop (.refl g) <| by
      rintro ⟨p, e, s⟩ ⟨g2, n2⟩ st' hcov hstep
      simp only [bind_ok, Prod.exists, pure_ok] at hstep
      obtain ⟨g3, n3, hedge, rfl⟩ := hstep
      obtain ⟨hcov', hnew⟩ := joinEdge_ok hedge
      exact ⟨hcov.trans hcov', fun n m hn hm => hnew n m (hcov.nodes ▸ hn) (hcov.nodes ▸ hm),
        fun x hx n m hn hm w hw => hcov'.covers _ _ _ (hx n m hn hm w hw)⟩
  refine ⟨hcov, ?_⟩
  rintro i j p s n m w hi hj ⟨e, he, hw⟩ hn hm
  obtain ⟨x, hx, hxe⟩ := exists_of_mapM hall (IndexMap.get_eq_some.mp he)
  simp only [hi, hj, expect_some, ok_bind, pure_ok] at hxe
  subst hxe
  exact hdone _ hx n m hn hm w hw

/-- A joined graph is sound for the paths of the graph itself. -/
theorem join_sound_left [Meter μ ε] (h : g.join other meter = .ok (g', changed, meter'))
    (hsound : g.Sound path) : g'.Sound path := by
  obtain ⟨hcov, -⟩ := join_ok h
  refine mono hsound (fun r hr => hcov.live.mp hr) ?_
  rintro p q w - - ⟨n, m, hp, hq, hc⟩
  exact ⟨n, m, hcov.nodes ▸ hp, hcov.nodes ▸ hq, hcov.covers _ _ _ hc⟩

/-- A joined graph is sound for the paths of the other graph. -/
theorem join_sound_right [Meter μ ε] (ho : other.WellFormed)
    (hlive : ∀ r, g.Live r → other.Live r) (h : g.join other meter = .ok (g', changed, meter')) (hsound : other.Sound path) :
    g'.Sound path := by
  obtain ⟨hcov, hother⟩ := join_ok h
  refine mono hsound (fun r hr => hlive r (hcov.live.mp hr)) ?_
  rintro p q w hp hq ⟨a, b, ha, hb, hc⟩
  obtain ⟨n, hn⟩ := hcov.live.mp hp
  obtain ⟨m, hm⟩ := hcov.live.mp hq
  exact ⟨n, m, hcov.nodes ▸ hn, hcov.nodes ▸ hm, hother _ _ p q n m w (ho p a ha) (ho q b hb) hc hn hm⟩

/-! ## Renaming -/

/-- The references of the list have been given their new names. -/
structure Renamed (rename : Ref → Except (MeterError ε) Ref) (g : Graph Loc Lbl) (done : List (Ref × Node)) (g' : Graph Loc Lbl) :
    Prop where
  edges : g'.graph.edgeWeights = g.graph.edgeWeights
  nodes : ∀ (r' : Ref) (n : Node), g'.nodes[r']? = some n → ∃ r, (r, n) ∈ done ∧ rename r = .ok r'
  weights : ∀ r n, (r, n) ∈ done → ∃ r', rename r = .ok r' ∧ g'.graph.nodeWeights[n.nodeIndex]? = some r'

variable {rename : Ref → Except (MeterError ε) Ref}

/-- The step lemma of both renaming loops. -/
theorem Renamed.step (hg : g.WellFormed) {pre : List (Ref × Node)} (h : Renamed rename g pre g1) {r' : Ref}
    (hall : ∀ x ∈ pre ++ [(r, n)], g.nodes[x.1]? = some x.2) {graph : GraphMap Ref (Edge Loc Lbl)}
    {nodes : BTreeMap Ref Node} (hstep : renameNode rename g1.graph g1.nodes r n = .ok (graph, nodes, r')) (freshId : Nat) :
    Renamed rename g (pre ++ [(r, n)]) ⟨freshId, nodes, graph⟩ := by
  simp only [renameNode, bind_ok, pure_ok, Prod.mk.injEq] at hstep
  obtain ⟨-, -, r'', hname, rfl, rfl, rfl⟩ := hstep
  refine ⟨h.edges, ?_, ?_⟩
  · refine forall_insert (fun s m hs => ?_) ⟨r, by simp, hname⟩
    obtain ⟨q, hq, hqs⟩ := h.nodes s m hs
    exact ⟨q, mem_append_left _ hq, hqs⟩
  · intro q m hq
    simp only [get_insert]
    split_ifs with hidx
    · obtain rfl := hg.nodeIndex_inj (hall (r, n) (by simp)) (hall _ hq) hidx
      exact ⟨_, hname, rfl⟩
    · rcases mem_concat.mp hq with hq | hq
      · exact h.weights q m hq
      · obtain ⟨rfl, rfl⟩ := Prod.mk.inj hq
        exact absurd rfl hidx

/-- A loop whose steps rename the references of the graph, one after the other. -/
theorem renamed_of_foldlM (hg : g.WellFormed) {f : Graph Loc Lbl → Ref × Node → Except (MeterError ε) (Graph Loc Lbl)}
    (hf : ∀ g1 r n g2, f g1 (r, n) = .ok g2 → ∃ graph nodes r' freshId,
      renameNode rename g1.graph g1.nodes r n = .ok (graph, nodes, r') ∧ g2 = ⟨freshId, nodes, graph⟩)
    (h : g.nodes.toList.foldlM f ⟨0, ∅, g.graph⟩ = .ok g') : Renamed rename g g.nodes.toList g' := by
  refine foldlM_invariant (Renamed rename g) h ⟨rfl, fun r' n hr' => absurd hr' (by simp), nofun⟩ ?_
  rintro pre ⟨r, n⟩ post g1 g2 hsplit hren hstep
  obtain ⟨graph, nodes, r', freshId, hname, rfl⟩ := hf g1 r n g2 hstep
  refine hren.step hg (fun y hy => BTreeMap.mem_toList.mp ?_) hname freshId
  rw [hsplit, append_cons]
  exact mem_append_left _ hy

/-- Distinct names keep distinct indices. -/
theorem Renamed.wellFormed (h : Renamed rename g g.nodes.toList g') : g'.WellFormed := by
  intro r' n hr'
  obtain ⟨r, hr, hname⟩ := h.nodes r' n hr'
  obtain ⟨r'', hname', hw⟩ := h.weights r n hr
  rw [hw, ok_unique hname hname']

/-- A graph all of whose references are renamed is sound for the paths under the new names. -/
theorem Renamed.sound (h : Renamed rename g g.nodes.toList g') (hsound : g.Sound path)
    (hpath : ∀ r r', g.Live r → rename r = .ok r' → path' r' = path r) : g'.Sound path' := by
  refine AccessPath.Sound.rename hsound (fun r' r => ∃ n, g.nodes[r]? = some n ∧ g'.nodes[r']? = some n ∧ rename r = .ok r')
    ?_ ?_ ?_
  · rintro r' ⟨n, hr'⟩
    obtain ⟨r, hr, hname⟩ := h.nodes r' n hr'
    have hr := mem_toList.mp hr
    exact ⟨r, ⟨n, hr⟩, n, hr, hr', hname⟩
  · rintro r' r ⟨n, hr, -, hname⟩
    exact hpath r r' ⟨n, hr⟩ hname
  · rintro s t p q w - - ⟨n, hp, hs, -⟩ ⟨m, hq, ht, -⟩ ⟨n', m', hp', hq', e, he, hw⟩
    obtain rfl := some.inj (hp.symm.trans hp')
    obtain rfl := some.inj (hq.symm.trans hq')
    exact ⟨n, m, hs, ht, e, by rw [edgeWeight, h.edges]; exact he, hw⟩

/-- Canonical references become fresh ones. -/
theorem refreshRefs_renamed (hg : g.WellFormed) (h : (g.refreshRefs : Except (MeterError ε) _) = .ok g') :
    Renamed (Ref.refresh : Ref → Except (MeterError ε) Ref) g g.nodes.toList g' := by
  refine renamed_of_foldlM hg (fun g1 r n g2 hstep => ?_) h
  simp only [bind_ok, Prod.exists, pure_ok] at hstep
  obtain ⟨graph, nodes, r', hname, _, -, _, -, hstep⟩ := hstep
  exact ⟨graph, nodes, r', _, hname, hstep.symm⟩

/-- Fresh references become canonical ones. -/
theorem canonicalize_renamed (hg : g.WellFormed) {remapping : BTreeMap Ref Nat}
    (h : (g.canonicalize remapping : Except (MeterError ε) _) = .ok g') :
    Renamed (Ref.canonicalize remapping : Ref → Except (MeterError ε) Ref) g g.nodes.toList g' := by
  simp only [canonicalize, bind_ok, orViolation_ok, pure_ok] at h
  obtain ⟨g3, hloop, graph', hmin, rfl⟩ := h
  obtain ⟨hweights, hedges⟩ := minimize_ok hmin
  have hren : Renamed (Ref.canonicalize remapping : Ref → Except (MeterError ε) Ref) g g.nodes.toList g3 := by
    refine renamed_of_foldlM hg (fun g1 r n g2 hstep => ?_) hloop
    simp only [bind_ok, Prod.exists, pure_ok] at hstep
    obtain ⟨graph, nodes, r', hname, hstep⟩ := hstep
    exact ⟨graph, nodes, r', _, hname, hstep.symm⟩
  exact ⟨hedges.trans hren.edges, hren.nodes, fun r n hr => by simpa only [hweights] using hren.weights r n hr⟩

end Graph

end Sui.BorrowGraph

import Sui.Move.Lemmas.BorrowGraph

/-!
# Reference safety of the borrow graph

References stand for access paths. Every operation of the graph keeps an edge, with a regex that matches, wherever the path of one
reference extends the path of another.
-/

namespace Sui.BorrowGraph

open Library Checked

namespace Graph

variable {Loc Lbl : Type} [LinearOrder Lbl] {μ ε : Type} [Meter μ ε]

/-- The graphs that the operations build. -/
inductive Built (μ : Type) {ε : Type} [Meter μ ε] : Graph Loc Lbl → Prop
  | new {K : Type} [LinearOrder K] {initialRefs : List (K × Loc × Bool)} {g : Graph Loc Lbl} {map : BTreeMap K Ref} :
    (Graph.new initialRefs : Except (MeterError ε) _) = .ok (g, map) → Built μ g
  | extendByEpsilon {g g' : Graph Loc Lbl} {loc : Loc} {sources : List Ref} {isMut : Bool} {meter meter' : μ} {r : Ref} :
    Built μ g → g.extendByEpsilon loc sources isMut meter = .ok (g', r, meter') → Built μ g'
  | extendByLabel {g g' : Graph Loc Lbl} {loc : Loc} {sources : List Ref} {isMut : Bool} {l : Lbl} {meter meter' : μ} {r : Ref} :
    Built μ g → g.extendByLabel loc sources isMut l meter = .ok (g', r, meter') → Built μ g'
  | extendByDotStarForCall {g g' : Graph Loc Lbl} {loc : Loc} {allSources : BTreeSet Ref} {mutabilities : List Bool}
    {meter meter' : μ} {rs : List Ref} :
    Built μ g → g.extendByDotStarForCall loc allSources mutabilities meter = .ok (g', rs, meter') → Built μ g'
  | release {g g' : Graph Loc Lbl} {r : Ref} {meter meter' : μ} : Built μ g → g.release r meter = .ok (g', meter') → Built μ g'
  | releaseAll {g g' : Graph Loc Lbl} : Built μ g → (g.releaseAll : Except (MeterError ε) _) = .ok g' → Built μ g'
  | join {g other g' : Graph Loc Lbl} {meter meter' : μ} {changed : Bool} :
    Built μ g → Built μ other → g.join other meter = .ok (g', changed, meter') → Built μ g'
  | refreshRefs {g g' : Graph Loc Lbl} : Built μ g → (g.refreshRefs : Except (MeterError ε) _) = .ok g' → Built μ g'
  | canonicalize {g g' : Graph Loc Lbl} {remapping : BTreeMap Ref Nat} :
    Built μ g → (g.canonicalize remapping : Except (MeterError ε) _) = .ok g' → Built μ g'

variable {g : Graph Loc Lbl}

theorem Built.wellFormed (h : g.Built μ) : g.WellFormed := by
  induction h with
  | new hnew =>
    obtain ⟨refs, hadds⟩ := new_adds hnew
    exact hadds.wellFormed (wellFormed_empty _ _)
  | extendByEpsilon _ h ih => exact extendBy_wellFormed ih h
  | extendByLabel _ h ih => exact extendBy_wellFormed ih h
  | extendByDotStarForCall _ h ih => exact extendByDotStarForCall_wellFormed ih h
  | release _ h ih => exact release_wellFormed ih h
  | releaseAll _ h =>
    simp only [Graph.releaseAll, bind_ok] at h
    obtain ⟨graph, -, h⟩ := h
    obtain rfl := Except.ok.inj h
    exact wellFormed_empty _ _
  | join _ _ h ih => exact (join_ok h).1.wellFormed ih
  | refreshRefs _ h ih => exact (refreshRefs_renamed ih h).wellFormed
  | canonicalize _ h ih => exact (canonicalize_renamed ih h).wellFormed

/-- An operation on one graph, with the paths of the references. A new reference has the path of a source extended by a word of
the extension. A mutable result of a call extends a mutable source and is unrelated to every other result. -/
inductive Step (μ : Type) {ε : Type} [Meter μ ε] : Graph Loc Lbl → (Ref → List Lbl) → Graph Loc Lbl → (Ref → List Lbl) → Prop
  | extendByEpsilon {g g' : Graph Loc Lbl} {path path' : Ref → List Lbl} {loc : Loc} {sources : List Ref} {isMut : Bool}
    {meter meter' : μ} {r s : Ref} :
    g.extendByEpsilon loc sources isMut meter = .ok (g', r, meter') → (∀ x, g.Live x → path' x = path x) →
    s ∈ sources → g.Live s → path' r = path s → Step μ g path g' path'
  | extendByLabel {g g' : Graph Loc Lbl} {path path' : Ref → List Lbl} {loc : Loc} {sources : List Ref} {isMut : Bool} {l : Lbl}
    {meter meter' : μ} {r s : Ref} :
    g.extendByLabel loc sources isMut l meter = .ok (g', r, meter') → (∀ x, g.Live x → path' x = path x) →
    s ∈ sources → g.Live s → path' r = path s ++ [l] → Step μ g path g' path'
  | extendByDotStarForCall {g g' : Graph Loc Lbl} {path path' : Ref → List Lbl} {loc : Loc} {allSources : BTreeSet Ref}
    {mutabilities : List Bool} {meter meter' : μ} {rs : List Ref} :
    g.extendByDotStarForCall loc allSources mutabilities meter = .ok (g', rs, meter') → (∀ x, g.Live x → path' x = path x) →
    (∀ r ∈ rs, ∃ s ∈ allSources, (g'.Mutable r → g.Mutable s) ∧ ∃ w, path' r = path s ++ w) →
    (∀ r ∈ rs, ∀ q ∈ rs, r ≠ q → g'.Mutable r ∨ g'.Mutable q → ¬ path' r <+: path' q) → Step μ g path g' path'
  | release {g g' : Graph Loc Lbl} {path : Ref → List Lbl} {r : Ref} {meter meter' : μ} :
    g.release r meter = .ok (g', meter') → Step μ g path g' path
  | refreshRefs {g g' : Graph Loc Lbl} {path path' : Ref → List Lbl} : (g.refreshRefs : Except (MeterError ε) _) = .ok g' →
    (∀ r r', g.Live r → (r.refresh : Except (MeterError ε) Ref) = .ok r' → path' r' = path r) → Step μ g path g' path'
  | canonicalize {g g' : Graph Loc Lbl} {path path' : Ref → List Lbl} {remapping : BTreeMap Ref Nat} :
    (g.canonicalize remapping : Except (MeterError ε) _) = .ok g' →
    (∀ r r', g.Live r → (r.canonicalize remapping : Except (MeterError ε) Ref) = .ok r' → path' r' = path r) →
    Step μ g path g' path'

theorem Step.wellFormed {g g' : Graph Loc Lbl} {path path' : Ref → List Lbl} (h : Step μ g path g' path') (hg : g.WellFormed) :
    g'.WellFormed := by
  cases h with
  | extendByEpsilon h => exact extendBy_wellFormed hg h
  | extendByLabel h => exact extendBy_wellFormed hg h
  | extendByDotStarForCall h => exact extendByDotStarForCall_wellFormed hg h
  | release h => exact release_wellFormed hg h
  | refreshRefs h => exact (refreshRefs_renamed hg h).wellFormed
  | canonicalize h => exact (canonicalize_renamed hg h).wellFormed

theorem Step.preserves {g g' : Graph Loc Lbl} {path path' : Ref → List Lbl} (h : Step μ g path g' path') (hg : g.WellFormed)
    (hsound : g.Sound path) : g'.Sound path' := by
  cases h with
  | extendByEpsilon h hpath hs hlive hr => exact extendBy_sound hg hsound h hpath hs hlive rfl (hr.trans (List.append_nil _).symm)
  | extendByLabel h hpath hs hlive hr => exact extendBy_sound hg hsound h hpath hs hlive rfl hr
  | extendByDotStarForCall h hpath hsource hun => exact extendByDotStarForCall_sound hg hsound h hpath hsource hun
  | release h => exact release_sound hg hsound h
  | refreshRefs h hpath => exact (refreshRefs_renamed hg h).sound hsound hpath
  | canonicalize h hpath => exact (canonicalize_renamed hg h).sound hsound hpath

/-- The graphs that a program builds, each with the paths of its references on one way through the program. -/
inductive Tracks (μ : Type) {ε : Type} [Meter μ ε] : Graph Loc Lbl → (Ref → List Lbl) → Prop
  | new {K : Type} [LinearOrder K] {initialRefs : List (K × Loc × Bool)} {g : Graph Loc Lbl} {map : BTreeMap K Ref}
    {path : Ref → List Lbl} :
    (Graph.new initialRefs : Except (MeterError ε) _) = .ok (g, map) →
    (∀ p q, g.Live p → g.Live q → p ≠ q → ¬ path p <+: path q) → Tracks μ g path
  | step {g g' : Graph Loc Lbl} {path path' : Ref → List Lbl} : Tracks μ g path → Step μ g path g' path' → Tracks μ g' path'
  | joinLeft {g other g' : Graph Loc Lbl} {path : Ref → List Lbl} {meter meter' : μ} {changed : Bool} :
    Tracks μ g path → g.join other meter = .ok (g', changed, meter') → Tracks μ g' path
  | joinRight {g other g' : Graph Loc Lbl} {path path' : Ref → List Lbl} {meter meter' : μ} {changed : Bool} :
    Tracks μ g path → Tracks μ other path' → (∀ r, g.Live r → other.Live r) →
    g.join other meter = .ok (g', changed, meter') → Tracks μ g' path'

/-- Along every way through a program the graph is sound for the paths of that way. -/
theorem Tracks.sound {path : Ref → List Lbl} (h : Tracks μ g path) : g.WellFormed ∧ g.Sound path := by
  induction h with
  | new h hun =>
    obtain ⟨refs, hadds⟩ := new_adds h
    exact ⟨hadds.wellFormed (wellFormed_empty _ _), new_sound h hun⟩
  | step _ hstep ih => exact ⟨hstep.wellFormed ih.1, hstep.preserves ih.1 ih.2⟩
  | joinLeft _ h ih => exact ⟨(join_ok h).1.wellFormed ih.1, join_sound_left h ih.2⟩
  | joinRight _ _ hlive h ih ih' => exact ⟨(join_ok h).1.wellFormed ih.1, join_sound_right ih'.1 hlive h ih'.2⟩

/-- Every operation keeps a graph sound, and the join of two graphs over the same references is sound for the paths of both. -/
theorem operations_sound {g : Graph Loc Lbl} (hg : g.Built μ) :
    (∀ g' path path', Step μ g path g' path' → g.Sound path → g'.Sound path') ∧
      ∀ other g' (meter meter' : μ) changed path1 path2, other.Built μ → (∀ r, g.Live r ↔ other.Live r) →
        g.join other meter = .ok (g', changed, meter') → g.Sound path1 → other.Sound path2 →
          g'.Sound path1 ∧ g'.Sound path2 := by
  refine ⟨fun g' path path' h hsound => h.preserves hg.wellFormed hsound, ?_⟩
  intro other g' meter meter' changed path1 path2 ho hlive h h1 h2
  exact ⟨join_sound_left h h1, join_sound_right ho.wellFormed (fun r => (hlive r).mp) h h2⟩

/-- The references of a graph, with their mutabilities. -/
def refs (g : Graph Unit Nat) : List (Ref × Bool) := g.nodes.toList.map fun p => (p.1, p.2.isMutable)

theorem mutable_iff {g : Graph Unit Nat} {r : Ref} : g.Mutable r ↔ (r, true) ∈ refs g := by
  simp [Mutable, refs]

theorem live_iff {g : Graph Unit Nat} {r : Ref} : g.Live r ↔ r ∈ (refs g).map Prod.fst := by
  simp [Live, refs]

/-- The only reference of a new graph is related to no other one. -/
theorem sound_of_refs {g : Graph Unit Nat} {K : Type} [LinearOrder K] {initialRefs : List (K × Unit × Bool)} {map : BTreeMap K Ref}
    {path : Ref → List Nat} {isMut : Bool} (hnew : (Graph.new initialRefs : Except (MeterError Unit) _) = .ok (g, map))
    (hrefs : refs g = [(.fresh 0, isMut)]) : g.Sound path := by
  refine new_sound hnew fun p q hp hq hne => absurd ?_ hne
  rw [live_iff, hrefs, List.map_singleton, List.mem_singleton] at hp hq
  exact hp.trans hq.symm

/-- A field of the first reference. -/
theorem operations_sound_field : ∃ (g g' : Graph Unit Nat) (path : Ref → List Nat), g.Built Unit ∧ g.Sound path ∧
    g.extendByLabel () [.fresh 0] true 7 () = .ok (g', .fresh 1, ()) ∧ path (.fresh 1) = [7] ∧ g'.Sound path := by
  obtain ⟨⟨g, map, g', r⟩, h, ht⟩ := exists_ok (x := do
      let (g, map) ← (Graph.new [(0, (), true)] : Except (MeterError Unit) (Graph Unit Nat × BTreeMap Nat Ref))
      let (g', r, _) ← g.extendByLabel () [.fresh 0] true 7 ()
      return (g, map, g', r))
    (fun t => decide (refs t.1 = [(.fresh 0, true)] ∧ t.2.2.2 = .fresh 1)) (by decide +kernel)
  simp only [bind_ok, Prod.exists, pure_ok, Prod.mk.injEq] at h
  obtain ⟨_, _, hnew, _, _, _, hext, rfl, rfl, rfl, rfl⟩ := h
  obtain ⟨hrefs, hr⟩ := of_decide_eq_true ht
  subst hr
  let path : Ref → List Nat := fun r => if r = .fresh 1 then [7] else []
  have hsound : Graph.Sound _ path := sound_of_refs hnew hrefs
  have hlabel : path (.fresh 1) = path (.fresh 0) ++ [7] := by decide +kernel
  refine ⟨_, _, path, .new hnew, hsound, hext, by decide +kernel, ?_⟩
  exact (operations_sound (.new hnew)).1 _ path path
    (.extendByLabel hext (fun _ _ => rfl) (List.mem_singleton_self _) (live_iff.mpr (by rw [hrefs]; decide)) hlabel) hsound

/-- A call on the only reference of a graph. -/
def soleCall (isMut : Bool) (mutabilities : List Bool) :
    Except (MeterError Unit) (Graph Unit Nat × BTreeMap Nat Ref × Graph Unit Nat × List Ref) := do
  let (g, map) ← Graph.new [(0, (), isMut)]
  let (g', rs, _) ← g.extendByDotStarForCall () {.fresh 0} mutabilities ()
  return (g, map, g', rs)

/-- There is no edge from one reference to another. -/
def apart (g : Graph Unit Nat) (p q : Ref) : Bool :=
  match g.nodes[p]?, g.nodes[q]? with
  | some n, some m => (g.graph.edgeWeight n.nodeIndex m.nodeIndex).isNone
  | _, _ => false

theorem not_sound_of_apart {g : Graph Unit Nat} {p q : Ref} {path : Ref → List Nat} {w : List Nat} (h : apart g p q)
    (hpath : path q = path p ++ w) : ¬ g.Sound path := by
  intro hsound
  unfold apart at h
  split at h
  · rename_i n m hn hm
    obtain ⟨n', m', hn', hm', e, he, -⟩ := hsound p q ⟨n, hn⟩ ⟨m, hm⟩ w hpath
    obtain rfl := Option.some.inj (hn.symm.trans hn')
    obtain rfl := Option.some.inj (hm.symm.trans hm')
    rw [he] at h
    cases h
  · cases h

/-- A call after which two references have no edge, although the path of one extends the path of the other. -/
theorem soleCall_not_sound (path : Ref → List Nat) {isMut : Bool} {mutabilities : List Bool} (after : List (Ref × Bool))
    (rs : List Ref) (p q : Ref) (w : List Nat)
    (h : ((soleCall isMut mutabilities).map fun t => (refs t.1, refs t.2.2.1, t.2.2.2, apart t.2.2.1 p q)) =
      .ok ([(.fresh 0, isMut)], after, rs, true))
    (hpath : path q = path p ++ w) :
    ∃ g g' : Graph Unit Nat, g.Built Unit ∧ g.Sound path ∧ g.extendByDotStarForCall () {.fresh 0} mutabilities () = .ok (g', rs, ()) ∧
      refs g = [(.fresh 0, isMut)] ∧ refs g' = after ∧ ¬ g'.Sound path := by
  cases hrun : soleCall isMut mutabilities with
  | error =>
    rw [hrun] at h
    cases h
  | ok t =>
    rw [hrun] at h
    simp only [Except.map, Except.ok.injEq, Prod.mk.injEq] at h
    obtain ⟨hrefs, hafter, hrs, hapart⟩ := h
    simp only [soleCall, bind_ok, Prod.exists, pure_ok] at hrun
    obtain ⟨g, map, hnew, g', rs, _, hcall, rfl⟩ := hrun
    subst hrs
    exact ⟨g, g', .new hnew, sound_of_refs hnew hrefs, hcall, hrefs, hafter, not_sound_of_apart hapart hpath⟩

/-- A mutable and an immutable result of a call have no edge between them, even if they have the same path. An immutable source
has none to a mutable result, even if its path extends that of the source. -/
theorem extendByDotStarForCall_aliased : (∃ (g g' : Graph Unit Nat) (path : Ref → List Nat) (r q : Ref), g.Built Unit ∧
    g.Sound path ∧ g.extendByDotStarForCall () {.fresh 0} [true, false] () = .ok (g', [r, q], ()) ∧ g.Mutable (.fresh 0) ∧
    (∀ x, g.Live x ↔ x = .fresh 0) ∧ g'.Mutable r ∧ ¬ g'.Mutable q ∧ path r = path (.fresh 0) ++ [7] ∧
    path q = path (.fresh 0) ++ [7] ∧ ¬ g'.Sound path) ∧
    ∃ (g g' : Graph Unit Nat) (path : Ref → List Nat) (r : Ref), g.Built Unit ∧ g.Sound path ∧
      g.extendByDotStarForCall () {.fresh 0} [true] () = .ok (g', [r], ()) ∧ ¬ g.Mutable (.fresh 0) ∧ g'.Mutable r ∧
      path r = path (.fresh 0) ++ [7] ∧ ¬ g'.Sound path := by
  let path : Ref → List Nat := fun r => if r = .fresh 0 then [] else [7]
  constructor
  · obtain ⟨g, g', hg, hsound, hcall, hrefs, hafter, hnot⟩ := @soleCall_not_sound path true [true, false]
      [(.fresh 0, true), (.fresh 1, true), (.fresh 2, false)] [.fresh 1, .fresh 2] (.fresh 1) (.fresh 2) []
      (by decide +kernel) (by decide +kernel)
    refine ⟨g, g', path, .fresh 1, .fresh 2, hg, hsound, hcall, ?_, fun x => ?_, ?_, ?_, by decide +kernel, by decide +kernel, hnot⟩
    · rw [mutable_iff, hrefs]
      decide
    · rw [live_iff, hrefs, List.map_singleton, List.mem_singleton]
    all_goals
      rw [mutable_iff, hafter]
      decide
  · obtain ⟨g, g', hg, hsound, hcall, hrefs, hafter, hnot⟩ := @soleCall_not_sound path false [true]
      [(.fresh 0, false), (.fresh 1, true)] [.fresh 1] (.fresh 0) (.fresh 1) [7] (by decide +kernel) (by decide +kernel)
    refine ⟨g, g', path, .fresh 1, hg, hsound, hcall, ?_, ?_, by decide +kernel, hnot⟩
    · rw [mutable_iff, hrefs]
      decide
    · rw [mutable_iff, hafter]
      decide

end Graph

/-- The left quotients are exact, and an extension is the concatenation unless the regex ends in a dot-star already. -/
theorem quotients_exact {Lbl : Type} [DecidableEq Lbl] (s p : Regex Lbl) (ext : Extension Lbl) :
    (∀ q, (∃ r ∈ s.removePrefix ext, r.Matches q) ↔ ∃ w, ext.Matches w ∧ s.Matches (w ++ q)) ∧
    (∀ q, (∃ r ∈ ext.removePrefix p, r.Matches q) ↔ ∃ w, p.Matches w ∧ ext.Matches (w ++ q)) ∧
    (∀ u e, s.Matches u → ext.Matches e → (s.extend ext).Matches (u ++ e)) ∧
    (s.endsInDotStar = false → ∀ w, (s.extend ext).Matches w → ∃ u e, w = u ++ e ∧ s.Matches u ∧ ext.Matches e) := by
  refine ⟨fun q => Regex.exists_mem_removePrefix, fun q => Extension.exists_mem_removePrefix,
    fun u e hu he => Regex.matches_extend hu he, fun hs w hw => ?_⟩
  obtain ⟨l, d⟩ := s
  obtain rfl : d = false := hs
  cases ext with
  | epsilon => exact ⟨w, [], (List.append_nil w).symm, hw, rfl⟩
  | label a => exact ⟨l, [a], (Regex.matches_mk_false.mp hw).symm, rfl, rfl⟩
  | dotStar =>
    obtain ⟨e, rfl⟩ := Regex.matches_mk_true.mp hw
    exact ⟨l, e, rfl, rfl, trivial⟩

end Sui.BorrowGraph

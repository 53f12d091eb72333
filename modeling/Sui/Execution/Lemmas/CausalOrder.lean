import Sui.Execution.CausalOrder
import Sui.Library.DepthFirst

/-!
# The causal sort as a depth-first search

What the map of transactions that were not seen is at the start, and that each pass of the loops is a run of steps of the search.
-/

namespace Sui

open Library Checked BTreeMap List TransactionDependencies RWLockDependencyBuilder Std.ExtTreeMap InsertState
open CausalOrder DepthFirst Relation

namespace TransactionEffects

/-- A transaction read an object at a version. -/
def Reads (e : TransactionEffects) (k : ObjectKey) : Prop :=
  (∃ ref, .readOnly ref ∈ e.inputConsensusObjects ∧ ObjectKey.ofRef ref = k) ∨
    .readConsensusStreamEnded k.id k.version ∈ e.inputConsensusObjects

/-- A transaction overwrote an object at a version. -/
def Overwrites (e : TransactionEffects) (k : ObjectKey) : Prop :=
  (∃ ref, .mutate ref ∈ e.inputConsensusObjects ∧ ObjectKey.ofRef ref = k) ∨
    .mutateConsensusStreamEnded k.id k.version ∈ e.inputConsensusObjects

/-- A transaction is to come before another one: it is a dependency of it, or it read a version that the other one overwrote. -/
def Precedes (e e' : TransactionEffects) : Prop :=
  e.transactionDigest ∈ e'.dependencies ∨ ∃ k, e.Reads k ∧ e'.Overwrites k

end TransactionEffects

open TransactionEffects

/-! ## Reads before overwrites -/

namespace RWLockDependencyBuilder

theorem mem_pushEntry {K V : Type} [LinearOrder K] (m : BTreeMap K (List V)) (key k : K) (value v : V) :
    v ∈ (pushEntry m key value)[k]?.getD [] ↔ v ∈ m[k]?.getD [] ∨ (key = k ∧ value = v) := by
  rw [pushEntry, get_insert]
  by_cases h : key = k
  · subst h
    simp [eq_comm]
  · simp [h]

section

variable (digest d : TransactionDigest) (k : ObjectKey) (b : RWLockDependencyBuilder) (o : InputConsensusObject)

include digest d k b o

theorem mem_readVersion_addObject : d ∈ (addObject digest b o).readVersion[k]?.getD [] ↔ d ∈ b.readVersion[k]?.getD [] ∨
      ((∃ ref, .readOnly ref = o ∧ ObjectKey.ofRef ref = k) ∨ .readConsensusStreamEnded k.id k.version = o) ∧ digest = d := by
  obtain ⟨id, version⟩ := k
  cases o with
  | readOnly => simp [addObject, mem_pushEntry]
  | readConsensusStreamEnded =>
    simp only [addObject, mem_pushEntry, ObjectKey.mk.injEq]
    simp only [reduceCtorEq, false_and, exists_false, false_or, InputConsensusObject.readConsensusStreamEnded.injEq]
    tauto
  | mutate => simp [addObject]
  | mutateConsensusStreamEnded => simp [addObject]
  | cancelled => simp [addObject]

theorem mem_overwriteVersions_addObject :
    k ∈ (addObject digest b o).overwriteVersions[d]?.getD [] ↔ k ∈ b.overwriteVersions[d]?.getD [] ∨
      ((∃ ref, .mutate ref = o ∧ ObjectKey.ofRef ref = k) ∨ .mutateConsensusStreamEnded k.id k.version = o) ∧ digest = d := by
  obtain ⟨id, version⟩ := k
  cases o with
  | mutate => simp [addObject, mem_pushEntry, and_comm]
  | mutateConsensusStreamEnded =>
    simp only [addObject, mem_pushEntry, ObjectKey.mk.injEq]
    simp only [reduceCtorEq, false_and, exists_false, false_or, InputConsensusObject.mutateConsensusStreamEnded.injEq]
    tauto
  | readOnly => simp [addObject]
  | readConsensusStreamEnded => simp [addObject]
  | cancelled => simp [addObject]

end


variable {effects : List TransactionEffects} {d : TransactionDigest} {k : ObjectKey}

/-- What the objects of the transactions set in the builder. -/
theorem of_fromEffects {P : RWLockDependencyBuilder → Prop} {Q : TransactionDigest → InputConsensusObject → Prop}
    (hempty : ¬ P ⟨∅, ∅⟩) (hadd : ∀ digest b o, P (addObject digest b o) ↔ P b ∨ Q digest o) :
    P (fromEffects effects) ↔ ∃ e ∈ effects, ∃ o ∈ e.inputConsensusObjects, Q e.transactionDigest o := by
  rw [fromEffects, foldl_iff P _ fun b e => foldl_iff P _ (hadd e.transactionDigest) _ b]
  exact or_iff_right hempty

/-- The readers of a version. -/
theorem mem_readVersion :
    d ∈ (fromEffects effects).readVersion[k]?.getD [] ↔ ∃ e ∈ effects, e.Reads k ∧ e.transactionDigest = d := by
  rw [of_fromEffects (P := fun b => d ∈ b.readVersion[k]?.getD []) (by simp) fun digest => mem_readVersion_addObject digest d k]
  simp only [Reads]
  grind

/-- The versions that a transaction overwrote. -/
theorem mem_overwriteVersions :
    k ∈ (fromEffects effects).overwriteVersions[d]?.getD [] ↔ ∃ e ∈ effects, e.Overwrites k ∧ e.transactionDigest = d := by
  rw [of_fromEffects (P := fun b => k ∈ b.overwriteVersions[d]?.getD []) (by simp)
    fun digest => mem_overwriteVersions_addObject digest d k]
  simp only [Overwrites]
  grind

theorem mem_addDependenciesFor (b : RWLockDependencyBuilder) (digest d : TransactionDigest) (v : BTreeSet TransactionDigest) :
    d ∈ b.addDependenciesFor digest v ↔ d ∈ v ∨ ∃ k ∈ b.overwriteVersions[digest]?.getD [], d ∈ b.readVersion[k]?.getD [] := by
  unfold addDependenciesFor
  split
  · rename_i hnone
    simp [hnone]
  · rename_i overwrites hsome
    rw [hsome, Option.getD_some, foldl_iff (fun v : BTreeSet TransactionDigest => d ∈ v) (fun k => d ∈ b.readVersion[k]?.getD [])]
    intro v k
    split
    · rename_i hnone
      simp [hnone]
    · rename_i reads hreads
      rw [hreads, Option.getD_some, foldl_iff (fun v : BTreeSet TransactionDigest => d ∈ v) (fun dep => d = dep)]
      · simp
      · intro v dep
        rw [Finset.mem_insert, or_comm]

end RWLockDependencyBuilder

/-! ## The transactions at the start -/

namespace CausalOrder

variable {effects : List TransactionEffects}

/-- The dependencies of a transaction are those that precede it. -/
theorem mem_dependencies (hnodup : (effects.map transactionDigest).Nodup) {e : TransactionEffects}
    (he : e ∈ effects) {e' : TransactionEffects} (he' : e' ∈ effects) :
    e'.transactionDigest ∈ (TransactionDependencies.fromEffects e (.fromEffects effects)).dependencies ↔ e'.Precedes e := by
  rw [TransactionDependencies.fromEffects, RWLockDependencyBuilder.mem_addDependenciesFor, mem_toFinset, Precedes]
  refine or_congr_right ⟨?_, ?_⟩
  · rintro ⟨k, hk, hd⟩
    obtain ⟨a, ha, hover, hdigest⟩ := mem_overwriteVersions.mp hk
    obtain ⟨c, hc, hread, hdigest'⟩ := mem_readVersion.mp hd
    obtain rfl := inj_on_of_nodup_map hnodup ha he hdigest
    obtain rfl := inj_on_of_nodup_map hnodup hc he' hdigest'
    exact ⟨k, hread, hover⟩
  · rintro ⟨k, hread, hover⟩
    exact ⟨k, mem_overwriteVersions.mpr ⟨e, he, hover, rfl⟩, mem_readVersion.mpr ⟨e', he', hread, rfl⟩⟩

variable {t : TransactionDependencies} {k : TransactionDigest}

/-- What was not seen at the start: the transactions with their dependencies, by digest. -/
theorem fromVec_notSeen (hnodup : (effects.map transactionDigest).Nodup) : (fromVec effects).notSeen[k]? = some t ↔
      ∃ e ∈ effects, e.transactionDigest = k ∧ fromEffects e (.fromEffects effects) = t := by
  rw [fromVec, foldl_map]
  constructor
  · intro h
    rcases get_foldl_insert_some h with h | ⟨e, he, hk, ht⟩
    · rw [get_empty] at h
      cases h
    · exact ⟨e, he, hk, ht⟩
  · rintro ⟨e, he, rfl, rfl⟩
    have hsome := (isSome_foldl_insert (fun e : TransactionEffects => e.transactionDigest)
      (fun e => fromEffects e (.fromEffects effects)) effects ∅ e.transactionDigest).mpr (.inr ⟨e, he, rfl⟩)
    obtain ⟨t, ht⟩ := Option.isSome_iff_exists.mp hsome
    rcases get_foldl_insert_some ht with h | ⟨e', he', hk, rfl⟩
    · rw [get_empty] at h
      cases h
    · rw [inj_on_of_nodup_map hnodup he' he hk] at ht
      exact ht

/-- The order of the effects does not matter. -/
theorem fromVec_perm {effects' : List TransactionEffects} (hnodup : (effects.map transactionDigest).Nodup)
    (hperm : effects'.Perm effects) : fromVec effects' = fromVec effects := by
  have hdeps : ∀ e : TransactionEffects, fromEffects e (.fromEffects effects') = fromEffects e (.fromEffects effects) := by
    intro e
    simp only [TransactionDependencies.fromEffects, TransactionDependencies.mk.injEq, and_true, true_and]
    ext d
    simp only [mem_addDependenciesFor, mem_overwriteVersions, mem_readVersion, hperm.mem_iff]
  have hnodup' : (effects'.map transactionDigest).Nodup := (hperm.map _).nodup_iff.mpr hnodup
  have hmap : (fromVec effects').notSeen = (fromVec effects).notSeen := by
    refine ext_getElem? fun k => Option.ext fun t => ?_
    rw [fromVec_notSeen hnodup, fromVec_notSeen hnodup']
    simp only [hperm.mem_iff, hdeps]
  simp only [fromVec, CausalOrder.mk.injEq, and_true] at hmap ⊢
  exact hmap

/-! ## The loops as a search -/

/-- The dependencies of a transaction in the order in which they are visited. -/
def visited (init : BTreeMap TransactionDigest TransactionDependencies) (k : TransactionDigest) : List TransactionDigest :=
  match init[k]? with
  | some t => (BTreeSet.iter t.dependencies).reverse
  | none => []

/-- The states of `insert` and the order as a state of the search. -/
structure Abstracts (init : BTreeMap TransactionDigest TransactionDependencies) (states : List InsertState) (c : CausalOrder)
    (d : State TransactionDigest) : Prop where
  stack : List.Forall₂ (fun s f => ∃ t, s.transaction = some t ∧ init[f.1]? = some t ∧ s.dependencies = f.2) states d.stack
  unseen : ∀ k, k ∈ d.unseen ↔ c.notSeen[k]?.isSome
  notSeen : ∀ (k : TransactionDigest) t, c.notSeen[k]? = some t → init[k]? = some t
  output : List.Forall₂ (fun e k => ∃ t, init[k]? = some t ∧ t.effects = e) c.output d.output

variable {init : BTreeMap TransactionDigest TransactionDependencies} {s : InsertState} {states : List InsertState} {c : CausalOrder}
  {d : State TransactionDigest}

namespace Abstracts

theorem unseen_erase {unseen : Set TransactionDigest} (h : ∀ k, k ∈ unseen ↔ c.notSeen[k]?.isSome)
    (j : TransactionDigest) : j ∈ unseen \ {k} ↔ (c.notSeen.erase k)[j]?.isSome := by
  rw [Set.mem_sdiff, Set.mem_singleton_iff, h j, get_erase]
  by_cases hj : k = j
  · simp [hj]
  · simp [hj, Ne.symm hj]

/-- A state of a transaction that is inserted is what is visited of it. -/
theorem frame_new (h : init[k]? = some t) :
    ∃ t', (InsertState.new t).transaction = some t' ∧ init[k]? = some t' ∧ (InsertState.new t).dependencies = visited init k := by
  refine ⟨t, rfl, h, ?_⟩
  rw [visited, h]
  rfl

/-- The dependencies that were seen are skipped. -/
theorem skip (init : BTreeMap TransactionDigest TransactionDependencies) (x : TransactionDigest)
    (stack : List (TransactionDigest × List TransactionDigest)) {unseen : Set TransactionDigest} (output ds : List TransactionDigest)
    (h : ∀ k, k ∈ unseen ↔ c.notSeen[k]?.isSome) :
    match nextUnseen c.notSeen ds with
    | some (dep, t, rest) => c.notSeen[dep]? = some t ∧ ReflTransGen (Step (visited init)) ⟨(x, ds) :: stack, unseen, output⟩
          ⟨(dep, visited init dep) :: (x, rest) :: stack, unseen \ {dep}, output⟩
    | none => ReflTransGen (Step (visited init)) ⟨(x, ds) :: stack, unseen, output⟩ ⟨stack, unseen, output ++ [x]⟩ := by
  induction ds with
  | nil => exact .single .finish
  | cons dep rest ih =>
    rw [nextUnseen]
    cases ht : c.notSeen[dep]? with
    | some => exact ⟨ht, .single (.visit ((h dep).mpr (by rw [ht]; rfl)))⟩
    | none =>
      have hskip : Step (visited init) ⟨(x, dep :: rest) :: stack, unseen, output⟩ ⟨(x, rest) :: stack, unseen, output⟩ :=
        .skip fun hmem => by
          have hsome := (h dep).mp hmem
          rw [ht] at hsome
          cases hsome
      dsimp only
      cases hnext : nextUnseen c.notSeen rest with
      | some =>
        rw [hnext] at ih
        exact ⟨ih.1, .head hskip ih.2⟩
      | none =>
        rw [hnext] at ih
        exact .head hskip ih

/-- A pass of `insert` is a run of the search. -/
theorem insertPass (h : Abstracts init (s :: states) c d) : ∃ states' c' d',
    insertPass (s :: states, c) = .ok (.next (states', c')) ∧ Abstracts init states' c' d' ∧
      ReflTransGen (Step (visited init)) d d' ∧ c'.notSeen.size ≤ c.notSeen.size ∧
      2 * c'.notSeen.size + states'.length < 2 * c.notSeen.size + (s :: states).length := by
  obtain ⟨hstack, hunseen, hnot, hout⟩ := h
  obtain ⟨stack, unseen, output⟩ := d
  obtain ⟨⟨x, ds⟩, stack, ⟨t, ht, hx, hds⟩, hrest, rfl⟩ := forall₂_cons_left_iff.mp hstack
  dsimp only at hx hds hunseen hout
  have hskip := skip init x stack output ds hunseen
  rw [insertPass, process, hds]
  cases hnext : nextUnseen c.notSeen ds with
  | some p =>
    obtain ⟨dep, t', rest⟩ := p
    rw [hnext] at hskip
    obtain ⟨hdep, hrun⟩ := hskip
    have hsize := size_erase hdep
    refine ⟨_, _, _, rfl, ⟨?_, unseen_erase hunseen, forall_erase hnot dep, hout⟩, hrun, ?_, ?_⟩
    · exact .cons (frame_new (hnot dep t' hdep)) (.cons ⟨t, ht, hx, rfl⟩ hrest)
    · dsimp only
      omega
    · simp only [length_cons]
      omega
  | none =>
    rw [hnext] at hskip
    rw [ht]
    refine ⟨states, _, _, rfl, ⟨hrest, hunseen, hnot, ?_⟩, hskip, le_refl _, ?_⟩
    · exact rel_append hout (.cons ⟨t, hx, rfl⟩ .nil)
    · simp only [length_cons]
      omega

/-- `insert` returns, at the end of a run of the search. -/
theorem insert (h : Abstracts init [.new t] c d) : ∃ c' d', c.insert t = .ok c' ∧ Abstracts init [] c' d' ∧
    ReflTransGen (Step (visited init)) d d' ∧ c'.notSeen.size ≤ c.notSeen.size := by
  have hloop : ∃ c', c.insert t = .ok c' ∧ ∃ d', Abstracts init [] c' d' ∧
      ReflTransGen (Step (visited init)) d d' ∧ c'.notSeen.size ≤ c.notSeen.size := Loop.run_total
    (fun p => ∃ d', Abstracts init p.1 p.2 d' ∧ ReflTransGen (Step (visited init)) d d' ∧ p.2.notSeen.size ≤ c.notSeen.size)
    _ (fun p => 2 * p.2.notSeen.size + p.1.length) ⟨d, h, .refl, le_refl _⟩ (by simp) (by
      rintro ⟨states, c1⟩ ⟨d1, h1, hrun1, hsize1⟩
      cases states with
      | nil => exact .inr ⟨c1, rfl, d1, h1, hrun1, hsize1⟩
      | cons =>
        obtain ⟨states', c2, d2, hpass, h2, hrun2, hsize2, hlt⟩ := h1.insertPass
        exact .inl ⟨(states', c2), hpass, ⟨d2, h2, hrun1.trans hrun2, le_trans hsize2 hsize1⟩, hlt⟩)
  obtain ⟨c', hc', d', hd', hrun, hsize⟩ := hloop
  exact ⟨c', d', hc', hd', hrun, hsize⟩

/-- A pass of `causal_sort` inserts a transaction, or everything was seen. -/
theorem sortPass (h : Abstracts init [] c d) : (∃ c' d', sortPass c = .ok (.next c') ∧ Abstracts init [] c' d' ∧
      ReflTransGen (Step (visited init)) d d' ∧ c'.notSeen.size < c.notSeen.size) ∨
    sortPass c = .ok (.done c.output) ∧ d.unseen = ∅ := by
  obtain ⟨hstack, hunseen, hnot, hout⟩ := h
  obtain ⟨stack, unseen, output⟩ := d
  obtain rfl : stack = [] := forall₂_nil_left_iff.mp hstack
  dsimp only at hunseen hout
  rw [sortPass, popFirst]
  cases hkeys : c.notSeen.keys.head? with
  | none =>
    refine .inr ⟨rfl, Set.eq_empty_iff_forall_notMem.mpr fun k hk => ?_⟩
    have hempty : c.notSeen = ∅ := keys_eq_nil_iff.mp (List.head?_eq_none_iff.mp hkeys)
    have hsome := (hunseen k).mp hk
    rw [hempty, get_empty] at hsome
    cases hsome
  | some key =>
    have hmem : key ∈ c.notSeen := mem_keys.mp (mem_of_mem_head? hkeys)
    obtain ⟨t, ht⟩ := Option.isSome_iff_exists.mp (mem_iff_isSome_getElem?.mp hmem)
    have hroot : Abstracts init [.new t] { c with notSeen := c.notSeen.erase key } ⟨[(key, visited init key)], unseen \ {key}, output⟩ :=
      ⟨.cons (frame_new (hnot key t ht)) .nil, unseen_erase hunseen, forall_erase hnot key, hout⟩
    obtain ⟨c', d', hinsert, hd', hrun, hsize⟩ := hroot.insert
    have herase := size_erase ht
    refine .inl ⟨c', d', ?_, hd', .head (.root ((hunseen key).mpr (by rw [ht]; rfl))) hrun, ?_⟩
    · dsimp only
      rw [ht, expect_some, ok_bind, pure_eq_ok, ok_bind]
      dsimp only
      rw [hinsert]
      rfl
    · dsimp only at hsize
      omega

end Abstracts

/-- `causal_sort` returns, at the end of a search that saw all transactions. -/
theorem causalSort_run (effects : List TransactionEffects) : ∃ sorted, causalSort effects = .ok sorted ∧ ∃ output,
    List.Forall₂ (fun e k => ∃ t, (fromVec effects).notSeen[k]? = some t ∧ t.effects = e) sorted output ∧
    ReflTransGen (Step (visited (fromVec effects).notSeen))
      ⟨[], { k | (fromVec effects).notSeen[k]?.isSome }, []⟩ ⟨[], ∅, output⟩ := by
  have hstart : Abstracts (fromVec effects).notSeen [] (fromVec effects) ⟨[], { k | (fromVec effects).notSeen[k]?.isSome }, []⟩ :=
    ⟨.nil, fun _ => Iff.rfl, fun _ _ h => h, .nil⟩
  refine Loop.run_total (fun c => ∃ d, Abstracts (fromVec effects).notSeen [] c d ∧
      ReflTransGen (Step (visited (fromVec effects).notSeen))
        ⟨[], { k | (fromVec effects).notSeen[k]?.isSome }, []⟩ d)
    _ (fun c => c.notSeen.size) ⟨_, hstart, .refl⟩ (Nat.lt_succ_self _) ?_
  rintro c ⟨d, hd, hrun⟩
  rcases hd.sortPass with ⟨c', d', hpass, hd', hrun', hlt⟩ | ⟨hpass, hempty⟩
  · exact .inl ⟨c', hpass, ⟨d', hd', hrun.trans hrun'⟩, hlt⟩
  · obtain ⟨stack, unseen, output⟩ := d
    obtain rfl : stack = [] := forall₂_nil_left_iff.mp hd.stack
    dsimp only at hempty
    subst hempty
    exact .inr ⟨c.output, hpass, output, hd.output, hrun⟩

end CausalOrder

end Sui

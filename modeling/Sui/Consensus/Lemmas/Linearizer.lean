import Sui.Consensus.Linearizer
import Sui.Consensus.Universe

/-!
# The traversal of the linearizer

`linearize_sub_dag` on a DAG state closed under ancestors above the GC round: it returns the uncommitted blocks of the leader's
history above the GC round, each once, no assertion fires, and DAG states with the same committed blocks return the same list.
-/

namespace Sui

open Library Checked BTreeMap List VerifiedBlock BlockInfo DagState

def BlockInfo.markCommitted (info : BlockInfo) : BlockInfo := { info with committed := true }

namespace DagState

/-- Whether a block is cached and marked as committed. -/
def committedMark (d : DagState) (r : BlockRef) : Bool := d.recentBlocks[r]?.any BlockInfo.committed

/-- Marking a block that is not committed yet. -/
theorem setCommitted_first {d : DagState} {r : BlockRef} {info : BlockInfo} (hi : d.recentBlocks[r]? = some info)
    (hc : info.committed = false) :
    d.setCommitted r = .ok ({ d with recentBlocks := d.recentBlocks.insert r info.markCommitted }, true) := by
  rw [setCommitted, hi, expect_some, ok_bind, hc]
  rfl

end DagState

namespace Linearizer

/-- Marking blocks that are not committed and putting them on the stack, one after the other. -/
theorem foldlM_pushAncestor {l : List VerifiedBlock} {s : Traversal} (hnd : (l.map reference).Nodup)
    (hun : ∀ a ∈ l, ∃ info, s.dag.recentBlocks[a.reference]? = some info ∧ info.committed = false) :
    ∃ m, l.foldlM pushAncestor s =
        .ok { dag := { s.dag with recentBlocks := m }, buffer := l.reverse ++ s.buffer, toCommit := s.toCommit } ∧
      ∀ r : BlockRef, m[r]? = if r ∈ l.map reference then s.dag.recentBlocks[r]?.map markCommitted
        else s.dag.recentBlocks[r]? := by
  induction l generalizing s with
  | nil => exact ⟨s.dag.recentBlocks, rfl, fun r => by simp⟩
  | cons a l ih =>
    obtain ⟨info, hi, hc⟩ := hun a mem_cons_self
    rw [map_cons, nodup_cons] at hnd
    let s1 : Traversal :=
      { dag := { s.dag with recentBlocks := s.dag.recentBlocks.insert a.reference info.markCommitted }
        buffer := a :: s.buffer
        toCommit := s.toCommit }
    have hpush : pushAncestor s a = .ok s1 := by
      rw [pushAncestor, setCommitted_first hi hc]
      rfl
    have hget := fun r => get_insert s.dag.recentBlocks a.reference r info.markCommitted
    obtain ⟨m, hrun, hm⟩ := ih (s := s1) hnd.2 (by
      intro x hx
      obtain ⟨xinfo, hxi, hxc⟩ := hun x (mem_cons_of_mem _ hx)
      have hne : a.reference ≠ x.reference := fun hax => hnd.1 (hax ▸ mem_map.mpr ⟨x, hx, rfl⟩)
      exact ⟨xinfo, (hget _).trans ((if_neg hne).trans hxi), hxc⟩)
    refine ⟨m, ?_, fun r => ?_⟩
    · rw [foldlM_cons, hpush, ok_bind, hrun, reverse_cons, append_assoc]
      rfl
    · rw [hm r, hget r, map_cons]
      by_cases hr : a.reference = r
      · subst hr
        rw [if_neg hnd.1, if_pos rfl, if_pos mem_cons_self, hi]
        rfl
      · simp only [hr, if_false, mem_cons, Ne.symm hr, false_or]

variable {ctx : Context} {G : BlockUniverse ctx} {d : DagState} {C : Finset BlockRef} {leader : VerifiedBlock} {s : Traversal}

variable (G d C) in
/-- The committed blocks of a DAG state above its GC round are those of `C`, and what they link to above the GC round is
committed too. -/
structure CommittedIs : Prop where
  holds : Holds ctx G.blocks d
  marks : ∀ {r : BlockRef}, d.gcRound ctx < r.round → (d.committedMark r = true ↔ r ∈ C)
  history : ∀ b ∈ G.blocks, b.reference ∈ C → ∀ p ∈ b.ancestors, d.gcRound ctx < p.round → p ∈ C

/-- The ancestors of a block above the GC round that are neither committed nor found. -/
def newAncestors (gcRound : Nat) (C : Finset BlockRef) (found : List BlockRef) (x : VerifiedBlock) : List BlockRef :=
  x.ancestors.filter fun a => decide (gcRound < a.round ∧ a ∉ C ∧ a ∉ found)

variable {x : VerifiedBlock} {p : BlockRef}

theorem mem_newAncestors {gcRound : Nat} {found : List BlockRef} :
    p ∈ newAncestors gcRound C found x ↔ p ∈ x.ancestors ∧ gcRound < p.round ∧ p ∉ C ∧ p ∉ found := by
  rw [newAncestors, mem_filter, decide_eq_true_eq]

/-- The references found by the traversal so far. -/
def Traversal.found (s : Traversal) : List BlockRef := (s.toCommit ++ s.buffer).map reference

/-- The DAG state with other marks of committed blocks. -/
def SameButMarks (d d' : DagState) : Prop := ∃ m, d' = { d with recentBlocks := m } ∧
  ∀ r : BlockRef, m[r]?.map BlockInfo.markCommitted = d.recentBlocks[r]?.map BlockInfo.markCommitted

namespace SameButMarks

variable {d' : DagState}

section

variable (h : SameButMarks d d')

include h

theorem block (r : BlockRef) : d'.recentBlocks[r]?.map block = d.recentBlocks[r]?.map block := by
  obtain ⟨m, rfl, hm⟩ := h
  have hr := congrArg (Option.map block) (hm r)
  rw [Option.map_map, Option.map_map] at hr
  exact hr

theorem inView {b : VerifiedBlock} (hb : d.InView b) : d'.InView b := by
  obtain ⟨info, hi, hbi⟩ := hb
  have hr := h.block b.reference
  rw [hi, Option.map_some, Option.map_eq_some_iff] at hr
  obtain ⟨info', hi', hb'⟩ := hr
  exact ⟨info', hi', hb'.trans hbi⟩

theorem getBlock (r : BlockRef) : d'.getBlock r = d.getBlock r := by
  have hr := h.block r
  obtain ⟨m, rfl, -⟩ := h
  unfold getBlock
  cases hm : m[r]? with
  | none =>
    rw [hm, Option.map_none] at hr
    rw [Option.map_eq_none_iff.mp hr.symm]
  | some =>
    rw [hm, Option.map_some] at hr
    obtain ⟨info', hi', hb⟩ := Option.map_eq_some_iff.mp hr.symm
    simp only [hi', hb]

theorem holds (hd : Holds ctx G.blocks d) : Holds ctx G.blocks d' := by
  have hblock := h.block
  obtain ⟨m, rfl, -⟩ := h
  exact hd.of_core hblock

theorem lastCommit : d'.lastCommit = d.lastCommit := by
  obtain ⟨m, rfl, -⟩ := h
  rfl

end

end SameButMarks

variable (G d C leader s) in
/-- The state of the traversal from a leader. -/
structure Visiting : Prop where
  frame : SameButMarks d s.dag
  marks : ∀ {r : BlockRef}, d.gcRound ctx < r.round → (s.dag.committedMark r = true ↔ r ∈ C ∨ r ∈ s.found)
  nodup : s.found.Nodup
  reached : ∀ b ∈ s.toCommit ++ s.buffer, d.InView b ∧ G.dag.Reach leader.reference b.reference ∧ d.gcRound ctx < b.round ∧
    b.reference ∉ C
  closed : ∀ b ∈ s.toCommit, ∀ p ∈ b.ancestors, d.gcRound ctx < p.round → p ∈ C ∨ p ∈ s.found
  root : leader.reference ∈ s.found

theorem Visiting.committed_iff (h : Visiting G d C leader s) {info : BlockInfo} (hi : s.dag.recentBlocks[p]? = some info)
    (hg : d.gcRound ctx < p.round) : info.committed = true ↔ p ∈ C ∨ p ∈ s.found := by
  have hmark := h.marks hg
  rwa [committedMark, hi] at hmark

/-- An ancestor above the GC round of a cached block is cached. -/
theorem ancestor_inView (hd : Holds ctx G.blocks d) (hc : d.AncestorClosed ctx) (hx : d.InView x)
    (hp : p ∈ x.ancestors) (hg : d.gcRound ctx < p.round) : ∃ b, d.InView b ∧ b.reference = p := by
  have hxw := G.wellFormed (hd.mem_of_inView hx)
  have hxget : d.getBlock x.reference = some x := hx.getBlock (by have := hxw.round_pos; omega)
  obtain ⟨b, hb⟩ := Option.isSome_iff_exists.mp (hc _ x hxget p hp hg)
  obtain ⟨info, hi, rfl⟩ := hd.recent_of_getBlock hb hg
  exact ⟨info.block, hd.inView_of_recent hi, (hd.recent hi).2⟩

/-- The ancestors a pass puts on the stack are the new ones. -/
theorem uncommittedAncestors_eq (hd : CommittedIs G d C) (hc : d.AncestorClosed ctx) (h : Visiting G d C leader s)
    (hx : d.InView x) :
    uncommittedAncestors (d.gcRound ctx) s.dag x = .ok (newAncestors (d.gcRound ctx) C s.found x) := by
  refine filterM_eq fun p hp => ?_
  by_cases hg : p.round > d.gcRound ctx
  · obtain ⟨b, hb, rfl⟩ := ancestor_inView hd.holds hc hx hp hg
    obtain ⟨info, hi, -⟩ := h.frame.inView hb
    have hnew : (!info.committed) = decide (d.gcRound ctx < b.reference.round ∧ b.reference ∉ C ∧ b.reference ∉ s.found) := by
      rw [Bool.eq_iff_iff, decide_eq_true_eq, Bool.not_eq_true', ← Bool.not_eq_true, h.committed_iff hi hg]
      tauto
    rw [if_pos hg, isCommitted, hi, expect_some, ok_bind, ← hnew]
    rfl
  · rw [if_neg hg, decide_eq_false fun hn => hg hn.1]
    rfl

/-- The step lemma: the top of the stack is taken, and its new ancestors are put on it. -/
theorem linearizeBody_step (hd : CommittedIs G d C) (hc : d.AncestorClosed ctx) (h : Visiting G d C leader s)
    {rest : List VerifiedBlock} (hx : s.buffer = x :: rest) :
    ∃ (s' : Traversal) (l : List VerifiedBlock), linearizeBody (d.gcRound ctx) s = .ok (.next s') ∧
      Visiting G d C leader s' ∧ l.map reference = newAncestors (d.gcRound ctx) C s.found x ∧
      (∀ b ∈ l, b ∈ G.blocks) ∧ s'.toCommit = s.toCommit ++ [x] ∧ s'.buffer = l.reverse ++ rest := by
  have hxs : x ∈ s.toCommit ++ s.buffer := by simp [hx]
  obtain ⟨hxv, hxr, -, -⟩ := h.reached x hxs
  have hxG := hd.holds.mem_of_inView hxv
  have hrefs := uncommittedAncestors_eq hd hc h hxv
  -- the blocks of the new ancestors
  obtain ⟨l, hl, hlrefs, hlview⟩ := mapM_getBlock (d := s.dag) (newAncestors (d.gcRound ctx) C s.found x) id
    Panic.uncommittedBlockMissing (by
      intro r hr
      rw [map_id, mem_newAncestors] at hr
      obtain ⟨b, hb, hbr⟩ := ancestor_inView hd.holds hc hxv hr.1 hr.2.1
      exact ⟨b, h.frame.inView hb, hbr⟩) (by
      intro r hr
      rw [map_id, mem_newAncestors] at hr
      omega)
  rw [map_id] at hlrefs
  have hlmem : ∀ b ∈ l, b.reference ∈ x.ancestors ∧ d.gcRound ctx < b.round ∧ b.reference ∉ C ∧ b.reference ∉ s.found := by
    intro b hb
    exact mem_newAncestors.mp (hlrefs ▸ mem_map.mpr ⟨b, hb, rfl⟩)
  have hlG : ∀ b ∈ l, b ∈ G.blocks := fun b hb => (h.frame.holds hd.holds).mem_of_inView (hlview b hb)
  have hlnd : (l.map reference).Nodup := by
    rw [hlrefs]
    exact (List.Nodup.of_map _ (G.wellFormed hxG).authors_nodup).filter _
  have hlun : ∀ b ∈ l, ∃ info, s.dag.recentBlocks[b.reference]? = some info ∧ info.committed = false := by
    intro b hb
    obtain ⟨info, hi, -⟩ := hlview b hb
    obtain ⟨-, hg, hC, hf⟩ := hlmem b hb
    exact ⟨info, hi, eq_false_of_ne_true fun hcm => ((h.committed_iff hi hg).mp hcm).elim hC hf⟩
  obtain ⟨m, hfold, hm⟩ := foldlM_pushAncestor (s := { s with buffer := rest, toCommit := s.toCommit ++ [x] }) hlnd hlun
  let s' : Traversal :=
    { dag := { s.dag with recentBlocks := m }, buffer := l.reverse ++ rest, toCommit := s.toCommit ++ [x] }
  have hfound : List.Perm s'.found (l.map reference ++ s.found) := by
    rw [Traversal.found, Traversal.found, ← map_append, hx]
    refine List.Perm.map _ (perm_iff_count.mpr fun a => ?_)
    simp only [s', count_append, count_cons, count_reverse, count_nil]
    omega
  have hmem : ∀ r, r ∈ s'.found ↔ r ∈ l.map reference ∨ r ∈ s.found := fun r => by
    rw [hfound.mem_iff, mem_append]
  refine ⟨s', l, ?_, ⟨?_, ?_, ?_, ?_, ?_, ?_⟩, hlrefs, hlG, rfl, rfl⟩
  · rw [linearizeBody, hx]
    simp only [hrefs, ok_bind]
    rw [show (newAncestors (d.gcRound ctx) C s.found x).mapM (fun r => expect (s.dag.getBlock r)
      (Panic.uncommittedBlockMissing r)) = .ok l from hl, ok_bind, hfold]
    rfl
  · obtain ⟨m0, hs, hm0⟩ := h.frame
    refine ⟨m, by simp only [s', hs], fun r => ?_⟩
    rw [hm, ← hm0]
    simp only [hs]
    split
    · rw [Option.map_map]
      rfl
    · rfl
  · intro r hg
    have hmark := h.marks hg
    rw [hmem]
    show (m[r]?.any committed = true ↔ _)
    rw [hm]
    split_ifs with hr
    · obtain ⟨b, hb, rfl⟩ := mem_map.mp hr
      obtain ⟨info, hi, -⟩ := hlun b hb
      simp only [hi, Option.map_some, Option.any_some, hr, true_or, or_true, iff_true]
      rfl
    · simp only [hr, false_or]
      exact hmark
  · rw [hfound.nodup_iff, nodup_append]
    refine ⟨hlnd, h.nodup, ?_⟩
    rintro r hr _ hr' rfl
    obtain ⟨b, hb, rfl⟩ := mem_map.mp hr
    exact (hlmem b hb).2.2.2 hr'
  · intro b hb
    have hb' : b ∈ l ∨ b ∈ s.toCommit ++ s.buffer := by
      simp only [s', hx, mem_append, mem_reverse, mem_cons, not_mem_nil, or_false] at hb ⊢
      tauto
    rcases hb' with hb' | hb'
    · obtain ⟨hbx, hbg, hbC, -⟩ := hlmem b hb'
      obtain ⟨c, hcv, hcr⟩ := ancestor_inView hd.holds hc hxv hbx hbg
      obtain rfl := G.reference_injective c (hd.holds.mem_of_inView hcv) b (hlG b hb') hcr
      exact ⟨hcv, hxr.tail ((BlockUniverse.mem_parents hxG).mpr hbx), hbg, hbC⟩
    · exact h.reached b hb'
  · intro b hb p hp hg
    rw [hmem]
    rcases mem_concat.mp hb with hb | rfl
    · rcases h.closed b hb p hp hg with hpc | hpf
      · exact .inl hpc
      · exact .inr (.inr hpf)
    · by_cases hnew : p ∈ C ∨ p ∈ s.found
      · tauto
      · rw [not_or] at hnew
        exact .inr (.inl (hlrefs ▸ mem_newAncestors.mpr ⟨hp, hg, hnew⟩))
  · exact (hmem _).mpr (.inr h.root)

variable (G d C leader) in
/-- What `linearize_sub_dag` returns: the uncommitted blocks of the leader's history above the GC round, each once, now marked.
-/
structure Linearized (d' : DagState) (blocks : List VerifiedBlock) : Prop where
  frame : SameButMarks d d'
  marks : ∀ {r : BlockRef}, d.gcRound ctx < r.round → (d'.committedMark r = true ↔ r ∈ C ∨ r ∈ blocks.map reference)
  nodup : (blocks.map reference).Nodup
  mem : ∀ b, b ∈ blocks ↔ b ∈ G.blocks ∧ G.dag.Reach leader.reference b.reference ∧ d.gcRound ctx < b.round ∧ b.reference ∉ C
  closed : ∀ b ∈ blocks, ∀ p ∈ b.ancestors, d.gcRound ctx < p.round → p ∈ C ∨ p ∈ blocks.map reference

variable {d' : DagState}

theorem Linearized.perm {l l' : List VerifiedBlock} (h : Linearized G d C leader d' l) (hp : List.Perm l l') :
    Linearized G d C leader d' l' := by
  refine ⟨h.frame, fun hg => ?_, (hp.map _).nodup_iff.mp h.nodup, fun b => ?_, fun b hb p hpb hg => ?_⟩
  · rw [h.marks hg, (hp.map _).mem_iff]
  · rw [← hp.mem_iff, h.mem]
  · rw [← (hp.map _).mem_iff]
    exact h.closed b (hp.mem_iff.mpr hb) p hpb hg

/-- With an empty stack the traversal has found the whole history. -/
theorem Visiting.linearized (hd : CommittedIs G d C) (h : Visiting G d C leader s) (hs : s.buffer = []) :
    Linearized G d C leader s.dag s.toCommit := by
  have hfound : s.found = s.toCommit.map reference := by rw [Traversal.found, hs, append_nil]
  refine ⟨h.frame, fun hg => by rw [h.marks hg, hfound], hfound ▸ h.nodup, fun b => ?_, hfound ▸ h.closed⟩
  constructor
  · intro hb
    obtain ⟨hv, hr, hg, hC⟩ := h.reached b (mem_append_left _ hb)
    exact ⟨hd.holds.mem_of_inView hv, hr, hg, hC⟩
  · rintro ⟨hb, hr, hg, hC⟩
    -- what is found or committed is closed under ancestors above the GC round
    have hmem : b.reference ∈ { r | r ∈ C ∨ r ∈ s.found } := by
      refine Dag.mem_of_reach (k := d.gcRound ctx) ?_ (.inr h.root) hr hg
      rintro n hn p ⟨x, hx, rfl, hp⟩ hpg
      rcases hn with hn | hn
      · exact .inl (hd.history x hx hn p hp hpg)
      · rw [hfound] at hn
        obtain ⟨y, hy, hyx⟩ := mem_map.mp hn
        obtain rfl := G.reference_injective y (hd.holds.mem_of_inView (h.reached y (mem_append_left _ hy)).1) x hx hyx
        exact h.closed y hy p hp hpg
    rcases hmem with hmem | hmem
    · exact absurd hmem hC
    · rw [hfound] at hmem
      obtain ⟨y, hy, hyb⟩ := mem_map.mp hmem
      obtain rfl := G.reference_injective y (hd.holds.mem_of_inView (h.reached y (mem_append_left _ hy)).1) b hb hyb
      exact hy

/-- The blocks taken from the stack are cached, so that there are fewer than the cached blocks while the stack is not empty. -/
theorem Visiting.length_lt (h : Visiting G d C leader s) (hs : s.buffer ≠ []) :
    s.toCommit.length < (keySet d.recentBlocks).card := by
  have hlen : s.found.length = s.toCommit.length + s.buffer.length := by
    rw [Traversal.found, length_map, length_append]
  have hsub : s.found.toFinset ⊆ keySet d.recentBlocks := by
    intro r hr
    obtain ⟨b, hb, rfl⟩ := mem_map.mp (mem_toFinset.mp hr)
    obtain ⟨info, hi, -⟩ := (h.reached b hb).1
    rw [mem_keySet, hi]
    rfl
  have hcard := Finset.card_le_card hsub
  rw [toFinset_card_of_nodup h.nodup] at hcard
  have hpos := length_pos_iff.mpr hs
  omega

variable (ctx d C leader) in
/-- A leader that can be committed: it is cached, above the GC round and not committed yet. -/
structure Committable : Prop where
  inView : d.InView leader
  above : d.gcRound ctx < leader.round
  fresh : leader.reference ∉ C

/-- The traversal starts with the leader on the stack. -/
theorem visiting_start (hd : CommittedIs G d C) (hl : Committable ctx d C leader) :
    ∃ dag, d.setCommitted leader.reference = .ok (dag, true) ∧ Visiting G d C leader ⟨dag, [leader], []⟩ := by
  obtain ⟨info, hi, -⟩ := hl.inView
  have hc : info.committed = false := by
    have hmark := hd.marks (r := leader.reference) hl.above
    rw [committedMark, hi] at hmark
    rw [← Bool.not_eq_true]
    exact fun hcm => hl.fresh (hmark.mp hcm)
  refine ⟨_, setCommitted_first hi hc, ⟨⟨_, rfl, fun r => ?_⟩, fun {r} hg => ?_, ?_, ?_, nofun, ?_⟩⟩
  · rw [get_insert]
    split_ifs with hr
    · rw [← hr, hi]
      rfl
    · rfl
  · have hmark := hd.marks hg
    rw [committedMark, get_insert]
    by_cases hr : leader.reference = r
    · rw [if_pos hr, ← hr]
      simp [Traversal.found, markCommitted]
    · rw [if_neg hr]
      simp only [Traversal.found, nil_append, map_cons, map_nil, mem_singleton, Ne.symm hr, or_false]
      exact hmark
  · exact nodup_singleton _
  · intro b hb
    obtain rfl := mem_singleton.mp hb
    exact ⟨hl.inView, .refl, hl.above, hl.fresh⟩
  · exact mem_singleton.mpr rfl

/-- `linearize_sub_dag` returns the uncommitted history of the leader. -/
theorem linearizeSubDag_spec (hd : CommittedIs G d C) (hc : d.AncestorClosed ctx) (hl : Committable ctx d C leader) :
    ∃ d' blocks, linearizeSubDag ctx d leader = .ok (d', blocks) ∧ Linearized G d C leader d' blocks := by
  obtain ⟨dag, hset, hstart⟩ := visiting_start hd hl
  have hloop : ∃ p : DagState × List VerifiedBlock, Loop.run Panic.outOfFuel (linearizeBody (d.gcRound ctx)) ((keySet d.recentBlocks).card + 2)
      ⟨dag, [leader], []⟩ = .ok p ∧ Linearized G d C leader p.1 p.2 := by
    refine Loop.run_total (Visiting G d C leader) (fun p : DagState × List VerifiedBlock => Linearized G d C leader p.1 p.2)
      (fun s : Traversal => (keySet d.recentBlocks).card - s.toCommit.length) hstart (by simp) fun s h => ?_
    cases hs : s.buffer with
    | nil =>
      refine .inr ⟨(s.dag, s.toCommit), ?_, h.linearized hd hs⟩
      rw [linearizeBody, hs]
      rfl
    | cons =>
      obtain ⟨s', l, hb, hs', -, -, hto, -⟩ := linearizeBody_step hd hc h hs
      have hlt := h.length_lt (by rw [hs]; exact cons_ne_nil _ _)
      refine .inl ⟨s', hb, hs', ?_⟩
      rw [hto, length_append, length_singleton]
      omega
  obtain ⟨⟨d', blocks⟩, hrun, hspec⟩ := hloop
  have habove : (blocks.all fun b => b.round > d.gcRound ctx) = true := by
    rw [all_eq_true]
    intro b hb
    exact decide_eq_true ((hspec.mem b).mp hb).2.2.1
  refine ⟨d', sortSubDagBlocks blocks, ?_, hspec.perm (perm_insertionSort _ _).symm⟩
  simp only [linearizeSubDag, hset, ok_bind, assert_true, hrun, habove, pure_eq_ok]

/-- The sub-dag of a leader depends on the committed blocks and the GC round only. -/
theorem linearizeSubDag_unique {own1 own2 : AuthorityIndex} {params1 params2 : Parameters} {d1 d2 : DagState}
    (hd1 : CommittedIs (G.forNode own1 params1) d1 C) (hd2 : CommittedIs (G.forNode own2 params2) d2 C)
    (hc1 : d1.AncestorClosed (ctx.forNode own1 params1)) (hc2 : d2.AncestorClosed (ctx.forNode own2 params2))
    (hl1 : Committable (ctx.forNode own1 params1) d1 C leader) (hl2 : Committable (ctx.forNode own2 params2) d2 C leader)
    (hgc : d1.gcRound (ctx.forNode own1 params1) = d2.gcRound (ctx.forNode own2 params2)) {d1' d2' : DagState}
    {blocks1 blocks2 : List VerifiedBlock} (h1 : linearizeSubDag (ctx.forNode own1 params1) d1 leader = .ok (d1', blocks1))
    (h2 : linearizeSubDag (ctx.forNode own2 params2) d2 leader = .ok (d2', blocks2)) : blocks1 = blocks2 := by
  obtain ⟨dag1, hset1, hstart1⟩ := visiting_start hd1 hl1
  obtain ⟨dag2, hset2, hstart2⟩ := visiting_start hd2 hl2
  simp only [linearizeSubDag, hset1, ok_bind, assert_true, bind_ok, pure_eq_ok, Except.ok.injEq, Prod.mk.injEq] at h1
  simp only [linearizeSubDag, hset2, ok_bind, assert_true, bind_ok, pure_eq_ok, Except.ok.injEq, Prod.mk.injEq] at h2
  obtain ⟨⟨e1, l1⟩, hrun1, -, -, -, rfl⟩ := h1
  obtain ⟨⟨e2, l2⟩, hrun2, -, -, -, rfl⟩ := h2
  -- both traversals have the same stack and the same result at every pass
  have hl : l1 = l2 := by
    refine Loop.run_related
      (fun s s' : Traversal => Visiting (G.forNode own1 params1) d1 C leader s ∧ Visiting (G.forNode own2 params2) d2 C leader s' ∧
        s.buffer = s'.buffer ∧ s.toCommit = s'.toCommit)
      (fun p p' : DagState × List VerifiedBlock => p.2 = p'.2) ?_ ⟨hstart1, hstart2, rfl, rfl⟩ hrun1 hrun2
    rintro s s' ⟨hv, hv', hbuffer, hto⟩
    cases hs : s.buffer with
    | nil =>
      have hs' : s'.buffer = [] := hbuffer ▸ hs
      refine .inr ⟨(s.dag, s.toCommit), (s'.dag, s'.toCommit), ?_, ?_, hto⟩
      · rw [linearizeBody, hs]
        rfl
      · rw [linearizeBody, hs']
        rfl
    | cons x rest =>
      have hs' : s'.buffer = x :: rest := hbuffer ▸ hs
      obtain ⟨t, l, hb, ht, hl, hlG, htc, htb⟩ := linearizeBody_step hd1 hc1 hv hs
      obtain ⟨t', l', hb', ht', hl', hlG', htc', htb'⟩ := linearizeBody_step hd2 hc2 hv' hs'
      have hfound : s.found = s'.found := by rw [Traversal.found, Traversal.found, hbuffer, hto]
      have hll : l = l' := by
        refine BlockUniverse.eq_of_references (G := G) hlG hlG' ?_
        rw [hl, hl', hgc, hfound]
      refine .inl ⟨t, t', hb, hb', ht, ht', ?_, ?_⟩
      · rw [htb, htb', hll]
      · rw [htc, htc', hto]
  rw [hl]

/-! ## The timestamp -/

/-- A parent of a leader that cannot be read is no genesis block and not above the GC round. -/
theorem round_of_unreadable (hd : Holds ctx G.blocks d) (hc : d.AncestorClosed ctx) (hl : d.InView leader)
    (hp : p ∈ leader.ancestors) (hnone : d.getBlock p = none) : 0 < p.round ∧ p.round ≤ d.gcRound ctx := by
  constructor
  · rw [Nat.pos_iff_ne_zero]
    intro hp0
    obtain ⟨b, hb, hbp⟩ := mem_map.mp ((G.wellFormed (hd.mem_of_inView hl)).genesis p hp hp0)
    unfold getBlock at hnone
    rw [if_pos (by simp [hp0, genesisRound]), hd.genesis] at hnone
    have hsome := (isSome_foldl_insert reference id (genesisBlocks ctx) ∅ p).mpr (.inr ⟨b, hb, hbp⟩)
    rw [show List.foldl (fun m a => m.insert a.reference (id a)) ∅ (genesisBlocks ctx) = genesisMap ctx from rfl, hnone] at hsome
    cases hsome
  · by_contra hgt
    obtain ⟨b, hb, rfl⟩ := ancestor_inView hd hc hl hp (Nat.lt_of_not_le hgt)
    rw [hb.getBlock (by rw [reference_round] at hgt; omega)] at hnone
    cases hnone

variable {blocks : List VerifiedBlock}

/-- The references of the blocks that are looked up. -/
theorem references_of_mapM (hd : Holds ctx G.blocks d) {refs : List BlockRef} {e : BlockRef → Panic}
    (h : (refs.mapM fun r => expect (d.getBlock r) (e r)) = .ok blocks) : blocks.map reference = refs := by
  have hall := mapM_ok.mp h
  clear h
  induction hall with
  | nil => rfl
  | cons hb _ ih =>
    rw [expect_ok] at hb
    rw [map_cons, ih, (hd.getBlock_some hb).1]

/-- Blocks with a quorum have a median. -/
theorem medianTimestampByStake_eq (hq : 0 < ctx.committee.quorumThreshold)
    (hstake : ctx.committee.quorumThreshold ≤ (blocks.map fun b => ctx.committee.stake b.author).sum) :
    medianTimestampByStake ctx blocks = .ok (medianTimestampsByStakeInner
      (blocks.map fun b => (b.timestampMs, ctx.committee.stake b.author)) (blocks.map fun b => ctx.committee.stake b.author).sum) := by
  have hne : blocks ≠ [] := by
    rintro rfl
    exact absurd (le_trans hq hstake) (Nat.not_succ_le_zero 0)
  have hsnd : (blocks.map fun b => (b.timestampMs, ctx.committee.stake b.author)).map Prod.snd =
      blocks.map fun b => ctx.committee.stake b.author := map_map
  rw [medianTimestampByStake, hsnd, List.isEmpty_eq_false_iff.mpr (by simpa using hne), decide_eq_false (Nat.not_lt.mpr hstake)]
  rfl

section

variable (hq : 0 < ctx.committee.quorumThreshold) (hleader : leader ∈ G.blocks) (hd : Holds ctx G.blocks d)

include hq hleader hd

/-- The parents of a verified leader have a quorum, so that the median exists. -/
theorem medianTimestampByStake_ok {e : BlockRef → Panic}
    (hblocks : ((leader.ancestors.filter fun r => r.round == leader.round - 1).mapM fun r =>
      expect (d.getBlock r) (e r)) = .ok blocks) : ∃ ts, medianTimestampByStake ctx blocks = .ok ts := by
  refine ⟨_, medianTimestampByStake_eq hq ?_⟩
  have hsum := le_trans (G.wellFormed hleader).parents (ctx.committee.stakeOf_toFinset_le _)
  rw [← references_of_mapM hd hblocks] at hsum
  simpa only [map_map, Function.comp_def, reference_author] using hsum

/-- The timestamp is computed, or a parent of the leader cannot be read. -/
theorem calculateCommitTimestamp_errors (last : Nat) :
    ErrorsIn (fun e => ∃ p ∈ leader.ancestors, p.round + 1 = leader.round ∧ d.getBlock p = none ∧ e = .parentBlockMissing p)
      (calculateCommitTimestamp ctx d leader last) := by
  refine .bind (.mapM fun p hp => .expect fun hnone => ?_) fun blocks hblocks => ?_
  · obtain ⟨hp, hround⟩ := mem_filter.mp hp
    have hpos := (G.wellFormed hleader).round_pos
    rw [beq_iff_eq] at hround
    exact ⟨p, hp, by omega, hnone, rfl⟩
  · obtain ⟨ts, hts⟩ := medianTimestampByStake_ok hq hleader hd hblocks
    rw [hts]
    exact .ok _

end


theorem le_calculateCommitTimestamp {last ts : Nat} (h : calculateCommitTimestamp ctx d leader last = .ok ts) : last ≤ ts := by
  unfold calculateCommitTimestamp at h
  rw [bind_ok] at h
  obtain ⟨blocks, -, h⟩ := h
  split at h
  · rw [pure_ok] at h
    rw [← h]
    exact le_max_right _ _
  · cases h

/-- The timestamp depends on the leader and the last commit only. -/
theorem calculateCommitTimestamp_unique {own1 own2 : AuthorityIndex} {params1 params2 : Parameters} {d1 d2 : DagState}
    (hd1 : Holds (ctx.forNode own1 params1) G.blocks d1) (hd2 : Holds (ctx.forNode own2 params2) G.blocks d2) {last ts1 ts2 : Nat}
    (h1 : calculateCommitTimestamp (ctx.forNode own1 params1) d1 leader last = .ok ts1)
    (h2 : calculateCommitTimestamp (ctx.forNode own2 params2) d2 leader last = .ok ts2) : ts1 = ts2 := by
  unfold calculateCommitTimestamp at h1 h2
  rw [bind_ok] at h1 h2
  obtain ⟨blocks1, hb1, h1⟩ := h1
  obtain ⟨blocks2, hb2, h2⟩ := h2
  have hblocks : blocks1 = blocks2 := by
    have hall1 := mapM_ok.mp hb1
    have hall2 := mapM_ok.mp hb2
    clear hb1 hb2 h1 h2
    generalize (leader.ancestors.filter fun r => r.round == leader.round - 1) = refs at hall1 hall2
    induction hall1 generalizing blocks2 with
    | nil => exact (forall₂_nil_left_iff.mp hall2).symm
    | cons hb _ ih =>
      obtain ⟨b2, rest2, hb2, hrest, rfl⟩ := forall₂_cons_left_iff.mp hall2
      rw [expect_ok] at hb hb2
      rw [ih _ hrest, BlockUniverse.getBlock_unique hd1 hd2 hb hb2]
  rw [hblocks] at h1
  exact ok_unique h1 h2

/-! ## The commit of a leader -/

variable (ctx d leader blocks) in
/-- The commit of a leader with the blocks of its sub-dag and a timestamp. -/
def commitOf (timestampMs : Nat) : TrustedCommit :=
  TrustedCommit.newTrusted ctx
    { index := d.lastCommitIndex + 1
      previousDigest := d.lastCommitDigest
      timestampMs
      leader := leader.reference
      blocks := blocks.map reference }

variable (ctx d leader blocks) in
def subDagOf (timestampMs : Nat) : CommittedSubDag :=
  CommittedSubDag.new leader.reference blocks timestampMs (commitOf ctx d leader blocks timestampMs).reference

def withCommit (d : DagState) (c : TrustedCommit) : DagState :=
  { d with
    lastCommit := some c
    lastCommittedRounds := DagState.raiseCommittedRounds d.lastCommittedRounds c.blocks
    pendingCommitVotes := d.pendingCommitVotes ++ [c.reference]
    commitsToWrite := d.commitsToWrite ++ [c] }

variable {c : TrustedCommit}

/-- A commit of the next index that is not older than the last one is added. -/
theorem addCommit_eq (hindex : c.index = d.lastCommitIndex + 1) (hts : d.lastCommitTimestampMs ≤ c.timestampMs) :
    d.addCommit c = .ok (withCommit d c) := by
  have hnew : (d.lastCommit.any fun last => decide (c.index ≤ last.index)) = false := by
    cases hlast : d.lastCommit with
    | none => rfl
    | some =>
      rw [lastCommitIndex, hlast, Option.elim_some] at hindex
      rw [Option.any_some, decide_eq_false]
      omega
  rw [addCommit, hnew, hindex, decide_eq_false (Nat.not_lt.mpr hts)]
  simp [withCommit]

/-- The commit of a leader whose sub-dag is known: only the timestamp can fail. -/
theorem commitLeader_eq {dag : DagState} (hlin : linearizeSubDag ctx d leader = .ok (dag, blocks))
    (hlast : dag.lastCommit = d.lastCommit) (ss : List CommittedSubDag) :
    commitLeader ctx (d, ss) leader = (do
      let ts ← calculateCommitTimestamp ctx dag leader d.lastCommitTimestampMs
      return (withCommit dag (commitOf ctx d leader blocks ts), ss ++ [subDagOf ctx d leader blocks ts])) := by
  simp only [commitLeader, collectSubDagAndCommit, hlin, ok_bind]
  cases hts : calculateCommitTimestamp ctx dag leader d.lastCommitTimestampMs with
  | error => rfl
  | ok ts =>
    have hadd : dag.addCommit (commitOf ctx d leader blocks ts) = .ok (withCommit dag (commitOf ctx d leader blocks ts)) := by
      refine addCommit_eq ?_ ?_
      · simp only [commitOf, TrustedCommit.newTrusted, lastCommitIndex, hlast]
      · simp only [commitOf, TrustedCommit.newTrusted, lastCommitTimestampMs, hlast]
        exact le_calculateCommitTimestamp hts
    rw [ok_bind, pure_eq_ok, ok_bind]
    rw [show TrustedCommit.newTrusted ctx _ = commitOf ctx d leader blocks ts from rfl, hadd]
    rfl

/-- What the commit of a leader returns. -/
theorem commitLeader_spec (hd : CommittedIs G d C) (hc : d.AncestorClosed ctx) (hl : Committable ctx d C leader)
    {ss ss' : List CommittedSubDag} (h : commitLeader ctx (d, ss) leader = .ok (d', ss')) :
    ∃ dag blocks ts, linearizeSubDag ctx d leader = .ok (dag, blocks) ∧ Linearized G d C leader dag blocks ∧
      calculateCommitTimestamp ctx dag leader d.lastCommitTimestampMs = .ok ts ∧
      d' = withCommit dag (commitOf ctx d leader blocks ts) ∧ ss' = ss ++ [subDagOf ctx d leader blocks ts] := by
  obtain ⟨dag, blocks, hlin, hspec⟩ := linearizeSubDag_spec hd hc hl
  simp only [commitLeader_eq hlin hspec.frame.lastCommit, bind_ok, pure_ok, Prod.mk.injEq] at h
  obtain ⟨ts, hts, rfl, rfl⟩ := h
  exact ⟨dag, blocks, ts, hlin, hspec, hts, rfl, rfl⟩

/-- The commit of a leader panics only when a parent of the leader cannot be read. -/
theorem commitLeader_errors (hq : 0 < ctx.committee.quorumThreshold) (hd : CommittedIs G d C) (hc : d.AncestorClosed ctx)
    (hl : Committable ctx d C leader) (ss : List CommittedSubDag) :
    ErrorsIn (fun e => ∃ p ∈ leader.ancestors, p.round + 1 = leader.round ∧ d.getBlock p = none ∧ e = .parentBlockMissing p)
      (commitLeader ctx (d, ss) leader) := by
  obtain ⟨dag, blocks, hlin, hspec⟩ := linearizeSubDag_spec hd hc hl
  have hts := calculateCommitTimestamp_errors hq (hd.holds.mem_of_inView hl.inView) (hspec.frame.holds hd.holds)
    d.lastCommitTimestampMs
  simp only [hspec.frame.getBlock] at hts
  rw [commitLeader_eq hlin hspec.frame.lastCommit]
  exact .bind hts fun _ _ => .ok _

/-- After the commit of a leader the committed blocks are those before and those of its sub-dag. -/
theorem CommittedIs.commit (hd : CommittedIs G d C)
    (h : Linearized G d C leader d' blocks) (hround : d.lastCommitRound ≤ c.leader.round) :
    CommittedIs G (withCommit d' c) (C ∪ (blocks.map reference).toFinset) := by
  have hgc : d.gcRound ctx ≤ (withCommit d' c).gcRound ctx := ctx.calculateGcRound_mono hround
  have hh := h.frame.holds hd.holds
  have hgc' : d'.gcRound ctx = d.gcRound ctx := by simp only [gcRound, lastCommitRound, h.frame.lastCommit]
  refine ⟨⟨hh.genesis, hh.recent, hh.stored, hh.refs, hh.buffered, ?_⟩, ?_, ?_⟩
  · intro r hs hr
    exact hh.cached hs (by omega)
  · intro r hr
    rw [Finset.mem_union, mem_toFinset]
    exact h.marks (by omega)
  · intro b hb hbC p hp hg
    rw [Finset.mem_union, mem_toFinset] at hbC ⊢
    rcases hbC with hbC | hbC
    · exact .inl (hd.history b hb hbC p hp (by omega))
    · obtain ⟨y, hy, hyb⟩ := mem_map.mp hbC
      obtain rfl := G.reference_injective y ((h.mem y).mp hy).1 b hb hyb
      exact h.closed y hy p hp (by omega)

/-- Reading blocks does not depend on the last commit, and the GC round only grows. -/
theorem ancestorClosed_commit (hc : d.AncestorClosed ctx) (h : SameButMarks d d')
    (hround : d.lastCommitRound ≤ c.leader.round) : (withCommit d' c).AncestorClosed ctx := by
  have hgc : d.gcRound ctx ≤ (withCommit d' c).gcRound ctx := ctx.calculateGcRound_mono hround
  intro r b hb p hp hg
  have hget : ∀ r, (withCommit d' c).getBlock r = d.getBlock r := h.getBlock
  rw [hget] at hb ⊢
  exact hc r b hb p hp (by omega)

end Linearizer

end Sui

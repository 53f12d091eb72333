import Sui.Consensus.Lemmas.Linearizer

/-!
# Runs of the linearizer

A run of a DAG state in which leaders are committed through `handle_commit`, with other operations before, between and after. A
block above the GC round is marked as committed exactly when a sub-dag of the run has it.
-/

namespace Sui

open Library Checked DagState List BlockInfo

/-- The leaders of commits in order: none comes twice, the rounds do not decrease, and each is above the GC round before it. -/
structure LeaderSequence (ctx : Context) (leaders : List VerifiedBlock) : Prop where
  nodup : leaders.Nodup
  chain : leaders.IsChain fun a b => a.round ≤ b.round ∧ ctx.calculateGcRound a.round < b.round

def lastLeaderRound (leaders : List VerifiedBlock) : Nat := leaders.getLast?.elim 0 fun l => l.round

variable {ctx : Context} {leaders : List VerifiedBlock}

theorem LeaderSequence.of_append {rest : List VerifiedBlock} (h : LeaderSequence ctx (leaders ++ rest)) :
    LeaderSequence ctx leaders :=
  ⟨(nodup_append.mp h.nodup).1, (List.isChain_append.mp h.chain).1⟩

variable {l : VerifiedBlock}

/-- The next leader of a sequence against the last one. -/
theorem LeaderSequence.last {ctx : Context} {leaders : List VerifiedBlock}
    (h : LeaderSequence ctx (leaders ++ [l])) (hl : 0 < l.round) :
    lastLeaderRound leaders ≤ l.round ∧ ctx.calculateGcRound (lastLeaderRound leaders) < l.round ∧ l ∉ leaders := by
  have hchain := (List.isChain_append.mp h.chain).2.2
  have hnodup := (nodup_append.mp h.nodup).2.2
  refine ⟨?_, ?_, fun hl => hnodup l hl l (mem_singleton.mpr rfl) rfl⟩
  · cases hlast : leaders.getLast? with
    | none => simp [lastLeaderRound, hlast]
    | some x =>
      simp only [lastLeaderRound, hlast, Option.elim_some]
      exact (hchain x hlast l rfl).1
  · cases hlast : leaders.getLast? with
    | none => simp [lastLeaderRound, hlast, Context.calculateGcRound, hl]
    | some x =>
      simp only [lastLeaderRound, hlast, Option.elim_some]
      exact (hchain x hlast l rfl).2

/-- A run of a node from an empty store on. A commit is made on a state closed under ancestors that has the leaders. -/
inductive CommitRun (ctx : Context) (G : BlockUniverse ctx) : List VerifiedBlock → List CommittedSubDag → DagState → Prop
  | start {d : DagState} : DagState.new ctx Store.new = .ok d → CommitRun ctx G [] [] d
  | idle {leaders : List VerifiedBlock} {subDags : List CommittedSubDag} {d d' : DagState} :
      CommitRun ctx G leaders subDags d → DagIdle ctx G.blocks d d' → CommitRun ctx G leaders subDags d'
  | handleCommit {leaders committed : List VerifiedBlock} {subDags subDags' : List CommittedSubDag} {d d' : DagState} :
      CommitRun ctx G leaders subDags d → d.AncestorClosed ctx → (∀ l ∈ committed, d.InView l) →
      LeaderSequence ctx (leaders ++ committed) → Linearizer.handleCommit ctx d committed = .ok (d', subDags') →
      CommitRun ctx G (leaders ++ committed) (subDags ++ subDags') d'

namespace Linearizer

variable {ctx : Context} {G : BlockUniverse ctx} {d d' : DagState} {leaders : List VerifiedBlock}
  {subDags : List CommittedSubDag}

/-! ## Operations between commits -/

/-- The operations apart from those of a commit do not change which blocks above the GC round are marked. -/
theorem committedMark_idle (hd : Holds ctx G.blocks d) (h : DagIdle ctx G.blocks d d') {r : BlockRef}
    (hr : d.gcRound ctx < r.round) : d'.committedMark r = d.committedMark r := by
  have hany : ∀ o : Option BlockInfo, o.any committed = ((o.map core).any fun c => c.2.1) := fun o => by
    cases o <;> rfl
  rcases h.cases with ⟨b, -, h⟩ | rfl | ⟨m, _, _, _, _, rfl, hm⟩
  · obtain ⟨-, ⟨-, rfl⟩ | ⟨hn, -, d1, h1, rfl⟩⟩ := acceptBlock_cases h
    · rfl
    · obtain ⟨m, infos, rfl, hm⟩ := updateBlockMetadata_spec h1
      show m[r]?.any _ = d.recentBlocks[r]?.any _
      rw [hany, hm r, hany]
      split
      · -- a new block is not marked, and it was not cached before
        rename_i hbr
        have hnone : d.recentBlocks[r]? = none := by
          by_contra hsome
          have hin := hd.refs.mpr ⟨rfl, Option.isSome_iff_ne_none.mpr hsome⟩
          rw [hbr, containsBlock, if_pos (.inl hin)] at hn
          cases hn
        rw [hnone]
        rfl
      · rfl
  · rw [committedMark, (flush_recent ctx d).2 r hr, committedMark]
  · have hinc : ∀ o : Option BlockInfo, o.any committed = (o.map markIncluded).any committed :=
      fun o => by cases o <;> rfl
    show m[r]?.any _ = d.recentBlocks[r]?.any _
    rw [hinc, hm r, ← hinc]

theorem CommittedIs.idle {C : Finset BlockRef} (hd : CommittedIs G d C) (h : DagIdle ctx G.blocks d d') : CommittedIs G d' C := by
  have hgc : d'.gcRound ctx = d.gcRound ctx := by simp only [gcRound, lastCommitRound, h.lastCommit]
  refine ⟨hd.holds.idle h, fun {r} hr => ?_, ?_⟩
  · rw [hgc] at hr
    rw [committedMark_idle hd.holds h hr]
    exact hd.marks hr
  · rw [hgc]
    exact hd.history

/-! ## One leader at a time -/

def blocksOf (subDags : List CommittedSubDag) : List VerifiedBlock := subDags.flatMap CommittedSubDag.blocks

def committedRefs (subDags : List CommittedSubDag) : Finset BlockRef := ((blocksOf subDags).map VerifiedBlock.reference).toFinset

/-- The GC round when the leader of an index is committed: the one of the leader before. -/
def gcRoundBefore (ctx : Context) (leaders : List VerifiedBlock) (i : Nat) : Nat :=
  ctx.calculateGcRound (lastLeaderRound (leaders.take i))

variable (G leaders subDags) in
/-- The sub-dags of a run are what the leaders reach above the GC round and no earlier sub-dag has. -/
def SubDagsExact : Prop :=
  subDags.length = leaders.length ∧
    ∀ (i : Nat) (l : VerifiedBlock) (s : CommittedSubDag), leaders[i]? = some l → subDags[i]? = some s →
      s.leader = l.reference ∧ s.commitRef.index = i + 1 ∧
        ∀ b, b ∈ s.blocks ↔ b ∈ G.blocks ∧ G.dag.Reach l.reference b.reference ∧ gcRoundBefore ctx leaders i < b.round ∧
          b ∉ blocksOf (subDags.take i)

/-- A run in which the leaders are committed one at a time. -/
inductive LeaderRun (ctx : Context) (G : BlockUniverse ctx) : List VerifiedBlock → List CommittedSubDag → DagState → Prop
  | start {d : DagState} : DagState.new ctx Store.new = .ok d → LeaderRun ctx G [] [] d
  | idle {leaders : List VerifiedBlock} {subDags : List CommittedSubDag} {d d' : DagState} :
      LeaderRun ctx G leaders subDags d → DagIdle ctx G.blocks d d' → LeaderRun ctx G leaders subDags d'
  | commitLeader {leaders : List VerifiedBlock} {l : VerifiedBlock} {subDags subDags' : List CommittedSubDag} {d d' : DagState} :
      LeaderRun ctx G leaders subDags d → d.AncestorClosed ctx → d.InView l → LeaderSequence ctx (leaders ++ [l]) →
      commitLeader ctx (d, subDags) l = .ok (d', subDags') → LeaderRun ctx G (leaders ++ [l]) subDags' d'

/-- The invariant of a run: the marks are those of the sub-dags, and a block that is not below the last leader is a leader. -/
structure RunInvariant (G : BlockUniverse ctx) (leaders : List VerifiedBlock) (subDags : List CommittedSubDag) (d : DagState) :
    Prop where
  committed : CommittedIs G d (committedRefs subDags)
  round : d.lastCommitRound = lastLeaderRound leaders
  index : d.lastCommitIndex = leaders.length
  top : ∀ b ∈ blocksOf subDags, b ∈ G.blocks ∧ (b ∈ leaders ∨ b.round < lastLeaderRound leaders)
  nodup : ((blocksOf subDags).map VerifiedBlock.reference).Nodup
  exact : SubDagsExact G leaders subDags

theorem mem_committedRefs {b : VerifiedBlock} (hs : ∀ x ∈ blocksOf subDags, x ∈ G.blocks) (hb : b ∈ G.blocks) :
    b.reference ∈ committedRefs subDags ↔ b ∈ blocksOf subDags := by
  rw [committedRefs, mem_toFinset, mem_map]
  constructor
  · rintro ⟨x, hx, hxb⟩
    rwa [← G.reference_injective x (hs x hx) b hb hxb]
  · exact fun h => ⟨b, h, rfl⟩

variable {subDags' : List CommittedSubDag}

namespace RunInvariant

theorem start (h : DagState.new ctx Store.new = .ok d) : RunInvariant G [] [] d := by
  rw [new_empty, Except.ok.injEq] at h
  subst h
  have hlast : (genesisState ctx).lastCommit = none := by
    simp [genesisState, initial, Store.readLastCommit, Store.new]
  refine ⟨⟨Holds.genesisState ctx G.blocks, fun {r} _ => ?_, ?_⟩, ?_, ?_, by simp [blocksOf], nodup_nil, rfl, by simp [blocksOf]⟩
  · simp [committedMark, genesisState, initial, committedRefs, blocksOf]
  · simp [committedRefs, blocksOf]
  · simp [lastCommitRound, hlast, lastLeaderRound]
  · simp [lastCommitIndex, hlast]

section

variable (hd : RunInvariant G leaders subDags d)

include hd

theorem idle (h : DagIdle ctx G.blocks d d') : RunInvariant G leaders subDags d' := by
  refine ⟨hd.committed.idle h, ?_, ?_, hd.top, hd.nodup, hd.exact⟩
  · rw [← hd.round, lastCommitRound, lastCommitRound, h.lastCommit]
  · rw [← hd.index, lastCommitIndex, lastCommitIndex, h.lastCommit]

/-- The next leader of a sequence can be committed. -/
theorem committable (hl : d.InView l)
    (hseq : LeaderSequence ctx (leaders ++ [l])) : Committable ctx d (committedRefs subDags) l := by
  have hlG := hd.committed.holds.mem_of_inView hl
  obtain ⟨hround, hgc, hnew⟩ := hseq.last (G.wellFormed hlG).round_pos
  refine ⟨hl, ?_, fun hmem => ?_⟩
  · rw [gcRound, hd.round]
    exact hgc
  · rw [mem_committedRefs (fun x hx => (hd.top x hx).1) hlG] at hmem
    rcases (hd.top l hmem).2 with hin | hlt
    · exact hnew hin
    · omega

/-- The step lemma: the commit of the next leader keeps the invariant. -/
theorem commitLeader (hc : d.AncestorClosed ctx) (hl : d.InView l) (hseq : LeaderSequence ctx (leaders ++ [l]))
    (h : Linearizer.commitLeader ctx (d, subDags) l = .ok (d', subDags')) :
    RunInvariant G (leaders ++ [l]) subDags' d' ∧ d'.AncestorClosed ctx ∧ (∀ b, d.InView b → d'.InView b) ∧
      ∀ r, d'.getBlock r = d.getBlock r := by
  have hlG := hd.committed.holds.mem_of_inView hl
  obtain ⟨hround, hgc, hnew⟩ := hseq.last (G.wellFormed hlG).round_pos
  obtain ⟨dag, blocks, ts, -, hspec, hts, rfl, rfl⟩ := commitLeader_spec hd.committed hc (hd.committable hl hseq) h
  have hle : d.lastCommitRound ≤ (commitOf ctx d l blocks ts).leader.round := hd.round.symm ▸ hround
  have hblocks : blocksOf (subDags ++ [subDagOf ctx d l blocks ts]) = blocksOf subDags ++ blocks := by
    simp [blocksOf, subDagOf, CommittedSubDag.new]
  have hrefs : committedRefs (subDags ++ [subDagOf ctx d l blocks ts]) =
      committedRefs subDags ∪ (blocks.map VerifiedBlock.reference).toFinset := by
    rw [committedRefs, hblocks, map_append, toFinset_append]
    rfl
  have hlast : lastLeaderRound (leaders ++ [l]) = l.round := by
    rw [lastLeaderRound, List.getLast?_append_of_ne_nil _ (cons_ne_nil _ _)]
    rfl
  have hold : ∀ x ∈ blocksOf subDags, x ∈ G.blocks := fun x hx => (hd.top x hx).1
  refine ⟨⟨hrefs ▸ hd.committed.commit hspec hle, hlast.symm, ?_, ?_, ?_, ?_⟩, ancestorClosed_commit hc hspec.frame hle,
    fun b hb => hspec.frame.inView hb, hspec.frame.getBlock⟩
  · show d.lastCommitIndex + 1 = _
    rw [hd.index, length_append, length_singleton]
  · intro b hb
    rw [hblocks] at hb
    rw [hlast]
    rcases mem_append.mp hb with hb | hb
    · obtain ⟨hbG, hb⟩ := hd.top b hb
      refine ⟨hbG, ?_⟩
      rcases hb with hb | hb
      · exact .inl (mem_append_left _ hb)
      · exact .inr (by omega)
    · obtain ⟨hbG, hreach, -, -⟩ := (hspec.mem b).mp hb
      refine ⟨hbG, ?_⟩
      by_cases hbl : l.reference = b.reference
      · obtain rfl := G.reference_injective l hlG b hbG hbl
        exact .inl (mem_append_right _ (mem_singleton.mpr rfl))
      · obtain ⟨p, hp, hpb⟩ := hreach.exists_parent hbl
        have hlt := G.dag.round_lt hp
        have hle := hpb.round_le
        exact .inr (lt_of_le_of_lt hle hlt)
  · rw [hblocks, map_append, nodup_append]
    refine ⟨hd.nodup, hspec.nodup, ?_⟩
    rintro r hr _ hr' rfl
    obtain ⟨b, hb, rfl⟩ := mem_map.mp hr'
    exact ((hspec.mem b).mp hb).2.2.2 (mem_toFinset.mpr hr)
  · obtain ⟨hlen, hexact⟩ := hd.exact
    refine ⟨by rw [length_append, length_append, hlen, length_singleton, length_singleton], ?_⟩
    intro i x s hx hs
    have hi : i < leaders.length + 1 := by
      have := (List.getElem?_eq_some_iff.mp hx).1
      rwa [length_append, length_singleton] at this
    have htake : subDags.length = leaders.length := hlen
    by_cases hlt : i < leaders.length
    · rw [List.getElem?_append_left hlt] at hx
      rw [List.getElem?_append_left (by omega)] at hs
      obtain ⟨hsl, hsi, hmem⟩ := hexact i x s hx hs
      refine ⟨hsl, hsi, fun b => ?_⟩
      rw [hmem, gcRoundBefore, gcRoundBefore, take_append_of_le_length (by omega), take_append_of_le_length (by omega)]
    · obtain rfl : i = leaders.length := by omega
      rw [List.getElem?_append_right (le_refl _), Nat.sub_self] at hx
      rw [← hlen, List.getElem?_append_right (le_refl _), Nat.sub_self] at hs
      obtain rfl := Option.some.inj hx
      obtain rfl := Option.some.inj hs
      refine ⟨rfl, ?_, fun b => ?_⟩
      · show d.lastCommitIndex + 1 = _
        rw [hd.index]
      · rw [gcRoundBefore, take_left, ← hlen, take_left, ← hd.round]
        show b ∈ blocks ↔ _
        rw [hspec.mem]
        constructor
        · rintro ⟨hbG, hr, hg, hC⟩
          exact ⟨hbG, hr, hg, fun hmem => hC ((mem_committedRefs hold hbG).mpr hmem)⟩
        · rintro ⟨hbG, hr, hg, hC⟩
          exact ⟨hbG, hr, hg, fun hmem => hC ((mem_committedRefs hold hbG).mp hmem)⟩

end

end RunInvariant

/-- The run lemma. -/
theorem LeaderRun.invariant (h : LeaderRun ctx G leaders subDags d) : RunInvariant G leaders subDags d := by
  induction h with
  | start h => exact .start h
  | idle _ h ih => exact ih.idle h
  | commitLeader _ hc hl hseq h ih => exact (ih.commitLeader hc hl hseq h).1

/-! ## Several leaders at once -/

/-- The sub-dags of earlier commits are kept in front. -/
theorem foldlM_commitLeader (ctx : Context) (a b : List CommittedSubDag) (committed : List VerifiedBlock) (d : DagState) :
    committed.foldlM (commitLeader ctx) (d, a ++ b) =
      (fun p => (p.1, a ++ p.2)) <$> committed.foldlM (commitLeader ctx) (d, b) := by
  induction committed generalizing d b with
  | nil => rfl
  | cons l _ ih =>
    rw [foldlM_cons, foldlM_cons]
    unfold commitLeader
    cases collectSubDagAndCommit ctx d l with
    | error => rfl
    | ok p =>
      simp only [ok_bind]
      cases hadd : addCommit p.1 p.2.2 with
      | error => rfl
      | ok =>
        simp only [ok_bind, pure_eq_ok, append_assoc]
        exact ih _ _

theorem foldlM_commitLeader_handleCommit {committed : List VerifiedBlock}
    (h : handleCommit ctx d committed = .ok (d', subDags')) (subDags : List CommittedSubDag) :
    committed.foldlM (commitLeader ctx) (d, subDags) = .ok (d', subDags ++ subDags') := by
  have hfold := foldlM_commitLeader ctx subDags [] committed d
  rw [append_nil] at hfold
  rw [hfold, show committed.foldlM (commitLeader ctx) (d, []) = .ok (d', subDags') from h]
  rfl

/-- Several leaders are committed one at a time. -/
theorem LeaderRun.handleCommit (h : LeaderRun ctx G leaders subDags d) (hc : d.AncestorClosed ctx)
    {committed : List VerifiedBlock} (hview : ∀ l ∈ committed, d.InView l) (hseq : LeaderSequence ctx (leaders ++ committed))
    (hrun : committed.foldlM (Linearizer.commitLeader ctx) (d, subDags) = .ok (d', subDags')) :
    LeaderRun ctx G (leaders ++ committed) subDags' d' := by
  induction committed generalizing leaders subDags d with
  | nil =>
    obtain ⟨rfl, rfl⟩ := Prod.mk.inj (Except.ok.inj hrun)
    rwa [append_nil]
  | cons l committed ih =>
    rw [foldlM_cons, bind_ok] at hrun
    obtain ⟨⟨e, es⟩, hl, hrun⟩ := hrun
    have hsplit : leaders ++ l :: committed = leaders ++ [l] ++ committed := by simp
    rw [hsplit] at hseq ⊢
    have hfirst := hseq.of_append
    have hlv := hview l mem_cons_self
    obtain ⟨-, hc', hview', -⟩ := h.invariant.commitLeader hc hlv hfirst hl
    exact ih (h.commitLeader hc hlv hfirst hl) hc' (fun x hx => hview' x (hview x (mem_cons_of_mem _ hx))) hseq hrun

end Linearizer

/-- Blocks of the epoch may be accepted at any time. -/
theorem CommitRun.acceptBlocks {G : BlockUniverse ctx}
    {subDags : List CommittedSubDag} {d d' : DagState} (h : CommitRun ctx G leaders subDags d) {blocks : List VerifiedBlock}
    (hb : ∀ b ∈ blocks, b ∈ G.blocks) (hd : d.acceptBlocks ctx blocks = .ok d') : CommitRun ctx G leaders subDags d' := by
  refine foldlM_invariant (fun _ d => CommitRun ctx G leaders subDags d) hd h ?_
  rintro pre b post c c' rfl hc hstep
  exact hc.idle (.acceptBlock (hb b (by simp)) hstep)

theorem CommitRun.leaderRun {G : BlockUniverse ctx}
    {subDags : List CommittedSubDag} {d : DagState} (h : CommitRun ctx G leaders subDags d) :
    Linearizer.LeaderRun ctx G leaders subDags d := by
  induction h with
  | start h => exact .start h
  | idle _ h ih => exact .idle ih h
  | handleCommit _ hc hview hseq h ih =>
    exact ih.handleCommit hc hview hseq (Linearizer.foldlM_commitLeader_handleCommit h _)

namespace Linearizer

variable {ctx : Context} {G : BlockUniverse ctx} {d : DagState} {leaders committed : List VerifiedBlock}
  {subDags : List CommittedSubDag}

/-- Committing returns, or with a small GC depth a parent of a leader cannot be read. -/
theorem handleCommit_cases (hq : 0 < ctx.committee.quorumThreshold) (hd : RunInvariant G leaders subDags d)
    (hc : d.AncestorClosed ctx) (hview : ∀ l ∈ committed, d.InView l) (hseq : LeaderSequence ctx (leaders ++ committed)) :
    (∃ p, committed.foldlM (commitLeader ctx) (d, subDags) = .ok p) ∨
      ctx.protocolConfig.gcDepth ≤ 1 ∧ ∃ l ∈ committed, ∃ p ∈ l.ancestors, p.round + 1 = l.round ∧ d.getBlock p = none ∧
        committed.foldlM (commitLeader ctx) (d, subDags) = .error (Panic.parentBlockMissing p) := by
  induction committed generalizing leaders subDags d with
  | nil => exact .inl ⟨_, rfl⟩
  | cons l committed ih =>
    have hsplit : leaders ++ l :: committed = leaders ++ [l] ++ committed := by simp
    rw [hsplit] at hseq
    have hlv := hview l mem_cons_self
    have hfirst := hseq.of_append
    rw [foldlM_cons]
    cases hl : commitLeader ctx (d, subDags) l with
    | error =>
      obtain ⟨p, hp, hround, hnone, rfl⟩ := commitLeader_errors hq hd.committed hc (hd.committable hlv hfirst) _ _ hl
      obtain ⟨hpos, hgc⟩ := round_of_unreadable hd.committed.holds hc hlv hp hnone
      obtain ⟨hlast, -, -⟩ := hfirst.last (by omega)
      rw [← hd.round] at hlast
      rw [gcRound, Context.calculateGcRound] at hgc
      exact .inr ⟨by omega, l, mem_cons_self, p, hp, hround, hnone, rfl⟩
    | ok s =>
      obtain ⟨d', subDags'⟩ := s
      obtain ⟨hd', hc', hview', hget⟩ := hd.commitLeader hc hlv hfirst hl
      rcases ih hd' hc' (fun x hx => hview' x (hview x (mem_cons_of_mem _ hx))) hseq with hok | ⟨hdepth, x, hx, p, hp, hround, hnone, herr⟩
      · exact .inl hok
      · exact .inr ⟨hdepth, x, mem_cons_of_mem _ hx, p, hp, hround, hget p ▸ hnone, herr⟩

/-! ## Two nodes -/

/-- A run ends with the commit of its last leader and operations after it. -/
theorem LeaderRun.last_commit (h : LeaderRun ctx G leaders subDags d) : (leaders = [] ∧ subDags = [] ∧ d.lastCommit = none) ∨
      ∃ (leaders0 : List VerifiedBlock) (l : VerifiedBlock) (subDags0 : List CommittedSubDag) (e e' : DagState),
        leaders = leaders0 ++ [l] ∧ LeaderRun ctx G leaders0 subDags0 e ∧ e.AncestorClosed ctx ∧
        e.InView l ∧ LeaderSequence ctx (leaders0 ++ [l]) ∧ Linearizer.commitLeader ctx (e, subDags0) l = .ok (e', subDags) ∧
        d.lastCommit = e'.lastCommit := by
  induction h with
  | start h =>
    rw [new_empty, Except.ok.injEq] at h
    subst h
    refine .inl ⟨rfl, rfl, ?_⟩
    simp [genesisState, initial, Store.readLastCommit, Store.new]
  | idle _ h => rwa [h.lastCommit]
  | commitLeader hrun hc hl hseq h => exact .inr ⟨_, _, _, _, _, rfl, hrun, hc, hl, hseq, h, rfl⟩

/-- Two nodes that commit the same leaders have the same sub-dags and the same last commit. -/
theorem LeaderRun.unique {own1 own2 : AuthorityIndex} {params1 params2 : Parameters} {d1 d2 : DagState}
    {subDags1 subDags2 : List CommittedSubDag}
    (h1 : LeaderRun (ctx.forNode own1 params1) (G.forNode own1 params1) leaders subDags1 d1)
    (h2 : LeaderRun (ctx.forNode own2 params2) (G.forNode own2 params2) leaders subDags2 d2) :
    subDags1 = subDags2 ∧ d1.lastCommit = d2.lastCommit := by
  induction leaders using List.reverseRecOn generalizing subDags1 subDags2 d1 d2 with
  | nil =>
    obtain ⟨-, rfl, hlast1⟩ | ⟨_, _, _, _, _, hnil, -⟩ := h1.last_commit
    · obtain ⟨-, rfl, hlast2⟩ | ⟨_, _, _, _, _, hnil, -⟩ := h2.last_commit
      · exact ⟨rfl, hlast1.trans hlast2.symm⟩
      · simp at hnil
    · simp at hnil
  | append_singleton _ l ih =>
    obtain ⟨hnil, -⟩ | ⟨ls1, l1, ss1, e1, e1', hsplit1, hrun1, hc1, hl1, hseq1, hcommit1, hlast1⟩ := h1.last_commit
    · simp at hnil
    obtain ⟨hnil, -⟩ | ⟨ls2, l2, ss2, e2, e2', hsplit2, hrun2, hc2, hl2, hseq2, hcommit2, hlast2⟩ := h2.last_commit
    · simp at hnil
    obtain ⟨rfl, hl⟩ := append_inj' hsplit1 rfl
    obtain ⟨rfl, hl'⟩ := append_inj' hsplit2 rfl
    obtain rfl := (List.cons.inj hl).1
    obtain rfl := (List.cons.inj hl').1
    obtain ⟨rfl, hlast⟩ := ih hrun1 hrun2
    have hi1 := hrun1.invariant
    have hi2 := hrun2.invariant
    obtain ⟨dag1, blocks1, ts1, hlin1, hspec1, hts1, rfl, rfl⟩ :=
      commitLeader_spec hi1.committed hc1 (hi1.committable hl1 hseq1) hcommit1
    obtain ⟨dag2, blocks2, ts2, hlin2, hspec2, hts2, rfl, rfl⟩ :=
      commitLeader_spec hi2.committed hc2 (hi2.committable hl2 hseq2) hcommit2
    have hgc : e1.gcRound (ctx.forNode own1 params1) = e2.gcRound (ctx.forNode own2 params2) := by
      simp only [gcRound, lastCommitRound, hlast]
      rfl
    obtain rfl := linearizeSubDag_unique hi1.committed hi2.committed hc1 hc2 (hi1.committable hl1 hseq1)
      (hi2.committable hl2 hseq2) hgc hlin1 hlin2
    have hlastTs : e1.lastCommitTimestampMs = e2.lastCommitTimestampMs := by simp only [lastCommitTimestampMs, hlast]
    rw [hlastTs] at hts1
    have hholds1 : Holds (ctx.forNode own1 params1) G.blocks dag1 :=
      SameButMarks.holds (G := G.forNode own1 params1) hspec1.frame hi1.committed.holds
    have hholds2 : Holds (ctx.forNode own2 params2) G.blocks dag2 :=
      SameButMarks.holds (G := G.forNode own2 params2) hspec2.frame hi2.committed.holds
    obtain rfl := calculateCommitTimestamp_unique hholds1 hholds2 hts1 hts2
    have hcommit : commitOf (ctx.forNode own1 params1) e1 l blocks1 ts1 = commitOf (ctx.forNode own2 params2) e2 l blocks1 ts1 := by
      simp only [commitOf, lastCommitIndex, lastCommitDigest, hlast]
      rfl
    refine ⟨?_, ?_⟩
    · rw [subDagOf, subDagOf, hcommit]
    · rw [hlast1, hlast2, hcommit]
      rfl

end Linearizer

end Sui

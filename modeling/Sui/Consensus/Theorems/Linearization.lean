import Sui.Consensus.Lemmas.CommitRun

/-!
# Linearization depends on the leaders only

Two nodes that commit the same leaders, on DAG states with different other blocks, produce the same sub-dags.
-/

namespace Sui

open Library CommittedSubDag

namespace Linearizer

/-- Two nodes commit the same leaders. Their sub-dags and last commits are the same, a sub-dag is what its leader reaches above
the GC round and no earlier sub-dag has, no block is in two, and the next leaders are committed without a panic: the traversal
returns, and so does `handle_commit` unless the GC depth is at most one and a parent of a leader cannot be read for the
timestamp. -/
theorem linearization_deterministic {ctx : Context} (hq : 0 < ctx.committee.quorumThreshold) (G : BlockUniverse ctx)
    {own1 own2 : AuthorityIndex} {params1 params2 : Parameters} {leaders : List VerifiedBlock}
    {subDags1 subDags2 : List CommittedSubDag} {d1 d2 : DagState}
    (h1 : CommitRun (ctx.forNode own1 params1) (G.forNode own1 params1) leaders subDags1 d1)
    (h2 : CommitRun (ctx.forNode own2 params2) (G.forNode own2 params2) leaders subDags2 d2) :
    subDags1 = subDags2 ∧ d1.lastCommit = d2.lastCommit ∧ SubDagsExact G leaders subDags1 ∧ (blocksOf subDags1).Nodup ∧
      ∀ committed : List VerifiedBlock, d1.AncestorClosed (ctx.forNode own1 params1) → (∀ l ∈ committed, d1.InView l) →
        LeaderSequence ctx (leaders ++ committed) →
          (∀ l ∈ committed.head?, ∃ p, linearizeSubDag (ctx.forNode own1 params1) d1 l = .ok p) ∧
            ((∃ p, handleCommit (ctx.forNode own1 params1) d1 committed = .ok p) ∨
              ctx.protocolConfig.gcDepth ≤ 1 ∧ ∃ l ∈ committed, ∃ p ∈ l.ancestors, p.round + 1 = l.round ∧
                d1.getBlock p = none ∧
                handleCommit (ctx.forNode own1 params1) d1 committed = .error (Panic.parentBlockMissing p)) := by
  have hrun1 := h1.leaderRun
  have hinv := hrun1.invariant
  obtain ⟨hsub, hlast⟩ := hrun1.unique h2.leaderRun
  refine ⟨hsub, hlast, hinv.exact, hinv.nodup.of_map _, fun committed hc hview hseq => ?_⟩
  replace hseq : LeaderSequence (ctx.forNode own1 params1) (leaders ++ committed) := ⟨hseq.nodup, hseq.chain⟩
  refine ⟨fun l hl => ?_, ?_⟩
  · have hmem : l ∈ committed := List.mem_of_mem_head? hl
    obtain ⟨rest, rfl⟩ : ∃ rest, committed = l :: rest := by
      cases committed with
      | nil => cases hl
      | cons x rest =>
        obtain rfl := Option.some.inj hl
        exact ⟨rest, rfl⟩
    have hfirst : LeaderSequence (ctx.forNode own1 params1) (leaders ++ [l]) := by
      rw [show leaders ++ l :: rest = leaders ++ [l] ++ rest by simp] at hseq
      exact hseq.of_append
    obtain ⟨d', blocks, hlin, -⟩ := linearizeSubDag_spec hinv.committed hc (hinv.committable (hview l hmem) hfirst)
    exact ⟨_, hlin⟩
  · -- the earlier sub-dags stand in front of those of the call
    have hfold := foldlM_commitLeader (ctx.forNode own1 params1) subDags1 [] committed d1
    rw [List.append_nil] at hfold
    have hcases := handleCommit_cases (G := G.forNode own1 params1) hq hinv hc hview hseq
    rw [hfold] at hcases
    unfold handleCommit
    rcases hcases with ⟨p, hp⟩ | ⟨hdepth, l, hl, p, hp, hround, hnone, herr⟩
    · cases hrun : committed.foldlM (commitLeader (ctx.forNode own1 params1)) (d1, []) with
      | ok r => exact Or.inl ⟨r, rfl⟩
      | error =>
        rw [hrun] at hp
        cases hp
    · refine Or.inr ⟨hdepth, l, hl, p, hp, hround, hnone, ?_⟩
      cases hrun : committed.foldlM (commitLeader (ctx.forNode own1 params1)) (d1, []) with
      | ok =>
        rw [hrun] at herr
        cases herr
      | error =>
        rw [hrun] at herr
        exact congrArg Except.error (Except.error.inj herr)

/-- A node has three rounds and another one four: both place the one block of the faulty authority that the second leader brings
alike. -/
theorem linearization_deterministic_four :
    ∃ d1 d2 d1' d2' s1 s2, fourState false threeRounds = .ok d1 ∧ fourState false fourRounds = .ok d2 ∧
      handleCommit (fourContext false) d1 [honestBlock 1 0, honestBlock 2 0] = .ok (d1', s1) ∧
      handleCommit (fourContext false) d2 [honestBlock 1 0, honestBlock 2 0] = .ok (d2', s2) ∧
      s1.map blocks = [[honestBlock 1 0], [honestBlock 1 1, honestBlock 1 2, faultyBlock 1, honestBlock 2 0]] ∧ s1 = s2 := by
  have hrun1 : (fourState false threeRounds >>= fun d => (handleCommit (fourContext false) d [honestBlock 1 0, honestBlock 2 0]).map
      fun p => p.2.map blocks) = .ok [[honestBlock 1 0], [honestBlock 1 1, honestBlock 1 2, faultyBlock 1, honestBlock 2 0]] := by
    decide +kernel
  have hrun2 : (fourState false fourRounds >>= fun d => (handleCommit (fourContext false) d [honestBlock 1 0, honestBlock 2 0]).map
      fun p => p.2.map blocks) = .ok [[honestBlock 1 0], [honestBlock 1 1, honestBlock 1 2, faultyBlock 1, honestBlock 2 0]] := by
    decide +kernel
  obtain ⟨d1, h1, hl1⟩ := Checked.bind_ok.mp hrun1
  obtain ⟨d2, h2, hl2⟩ := Checked.bind_ok.mp hrun2
  have hseq : LeaderSequence (fourContext false) ([] ++ [honestBlock 1 0, honestBlock 2 0]) := ⟨by decide, by decide⟩
  -- a node that has accepted the two leaders commits them
  have hcommit : ∀ {bs refs d sub}, (∀ b ∈ bs, b ∈ fourRounds) → fourState false bs = .ok d →
      Accepted (fourContext false) (fourUniverse false) refs d → (∀ l ∈ [honestBlock 1 0, honestBlock 2 0], l.reference ∈ refs) →
      ((handleCommit (fourContext false) d [honestBlock 1 0, honestBlock 2 0]).map fun p => p.2.map blocks) = .ok sub →
      ∃ d' s, handleCommit (fourContext false) d [honestBlock 1 0, honestBlock 2 0] = .ok (d', s) ∧ s.map blocks = sub ∧
        CommitRun (fourContext false) (fourUniverse false) ([] ++ [honestBlock 1 0, honestBlock 2 0]) ([] ++ s) d' := by
    intro bs refs d sub hG haccept h hrefs hmap
    have hstart := (CommitRun.start (DagState.new_empty _)).acceptBlocks (G := fourUniverse false) hG haccept
    have hleaders : ∀ l ∈ [honestBlock 1 0, honestBlock 2 0], l ∈ fourRounds := by decide +kernel
    have hview : ∀ l ∈ [honestBlock 1 0, honestBlock 2 0], d.InView l := fun l hl => h.inView (hleaders l hl) (hrefs l hl)
    cases hrun : handleCommit (fourContext false) d [honestBlock 1 0, honestBlock 2 0] with
    | error =>
      rw [hrun] at hmap
      cases hmap
    | ok p =>
      rw [hrun] at hmap
      exact ⟨p.1, p.2, rfl, Except.ok.inj hmap, hstart.handleCommit h.closed hview hseq hrun⟩
  obtain ⟨d1', s1, hc1, hb1, hr1⟩ := hcommit (by decide +kernel) h1 (accepted_threeRounds h1) (by decide +kernel) hl1
  obtain ⟨d2', s2, hc2, -, hr2⟩ := hcommit (fun _ hb => hb) h2 (accepted_fourRounds h2) (by decide +kernel) hl2
  have hq : 0 < (fourContext false).committee.quorumThreshold := by decide
  have hsame := (linearization_deterministic hq (fourUniverse false) hr1 hr2).1
  exact ⟨d1, d2, d1', d2', s1, s2, h1, h2, hc1, hc2, hb1, hsame⟩

end Linearizer

end Sui

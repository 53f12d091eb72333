import Sui.Consensus.Universe

/-!
# What a DAG state keeps

Accepted blocks go through the buffer to the store and leave the cache when they are old. None of them is lost on the way.
-/

namespace Sui

open Library BTreeMap DagState

variable {ctx : Context} {d d' : DagState} {r : BlockRef}

/-- A block is in the store, or will be with the next write. -/
def DagState.Kept (d : DagState) (r : BlockRef) : Prop := d.store.blocks[r]?.isSome ∨ ∃ b ∈ d.blocksToWrite, b.reference = r

theorem kept_flush (h : d.Kept r) : (d.flush ctx).store.blocks[r]?.isSome := by
  unfold flush
  split
  · rename_i hnothing
    simp only [nothingToWrite, Bool.and_eq_true, List.isEmpty_iff] at hnothing
    simpa [Kept, hnothing] using h
  · obtain ⟨m, refs, rounds, heq⟩ := foldl_evict ctx ctx.authorities d.writeBuffered
    rw [heq]
    exact (isSome_foldl_insert VerifiedBlock.reference id _ _ _).mpr h

/-- The step lemma: what is kept stays so, and what enters the cache is kept. -/
theorem kept_step {G : Set VerifiedBlock} (h : DagStep ctx G d d') :
    (d.Kept r → d'.Kept r) ∧ (d'.recentBlocks[r]?.isSome → d.recentBlocks[r]?.isSome ∨ d'.Kept r) := by
  cases h with
  | idle h =>
    rcases h.cases with ⟨b, -, h⟩ | rfl | ⟨m, _, _, _, _, rfl, hm⟩
    · obtain ⟨-, ⟨-, rfl⟩ | ⟨-, -, d1, h1, rfl⟩⟩ := acceptBlock_cases h
      · exact ⟨id, .inl⟩
      · obtain ⟨m, _, rfl, hm⟩ := updateBlockMetadata_spec h1
        refine ⟨fun hk => hk.imp_right fun ⟨x, hx, hr⟩ => ⟨x, List.mem_append_left _ hx, hr⟩, fun hs => ?_⟩
        have hblock := congrArg Option.isSome (hm r)
        rw [Option.isSome_map, hs] at hblock
        split_ifs at hblock with hr
        · exact .inr (.inr ⟨b, List.mem_append_right _ (List.mem_singleton_self _), hr⟩)
        · exact .inl (by simpa using hblock.symm)
    · refine ⟨fun hk => .inl (kept_flush hk), fun hs => .inl ?_⟩
      obtain ⟨info, hi⟩ := Option.isSome_iff_exists.mp hs
      rw [(flush_recent ctx d).1 r info hi]
      rfl
    · have hsome := congrArg Option.isSome (hm r)
      rw [Option.isSome_map, Option.isSome_map] at hsome
      exact ⟨id, fun hs => .inl (hsome ▸ hs)⟩
  | setCommitted h =>
    obtain ⟨info, hi, -, rfl⟩ := setCommitted_spec h
    refine ⟨id, fun hs => .inl ?_⟩
    dsimp only at hs
    split at hs
    · exact hs
    · rw [get_insert] at hs
      split_ifs at hs with hr
      · rw [← hr, hi]
        rfl
      · exact hs
  | addCommit _ h =>
    rcases addCommit_cases h with rfl | ⟨-, -, rfl⟩
    · exact ⟨id, .inl⟩
    · exact ⟨id, .inl⟩

theorem kept_of_reachable {G : Set VerifiedBlock} (h : DagReachable ctx G d) (hr : d.recentBlocks[r]?.isSome) : d.Kept r := by
  obtain ⟨d0, h0, hrun⟩ := h
  induction hrun with
  | refl =>
    rw [new_empty, Except.ok.injEq] at h0
    subst h0
    simp [genesisState, initial] at hr
  | tail _ hstep ih =>
    rcases (kept_step hstep).2 hr with hr | hk
    · exact (kept_step hstep).1 (ih hr)
    · exact hk

theorem isSome_getBlock_iff_kept {G : Set VerifiedBlock} (h : DagReachable ctx G d) (hr : r.round ≠ 0) :
    (d.getBlock r).isSome ↔ d.Kept r := by
  have hread : (d.getBlock r).isSome ↔ d.recentBlocks[r]?.isSome ∨ d.store.blocks[r]?.isSome := by
    unfold getBlock Store.readBlock
    rw [if_neg (by simpa [genesisRound] using hr)]
    cases d.recentBlocks[r]? <;> simp
  rw [hread]
  constructor
  · rintro (hs | hs)
    · exact kept_of_reachable h hs
    · exact .inl hs
  · rintro (hs | ⟨b, hb, rfl⟩)
    · exact .inr hs
    · exact .inl ((Holds.of_reachable h).buffered b hb).2

/-- No accepted block is lost: one that can be read is read after all further operations, and is in the store after the next
write. -/
theorem accepted_never_lost {G : BlockUniverse ctx} (hd : DagReachable ctx G.blocks d) {b : VerifiedBlock}
    (hb : d.getBlock r = some b) (hr : r.round ≠ 0) (hrun : Relation.ReflTransGen (DagStep ctx G.blocks) d d') :
    d'.getBlock r = some b ∧ (d'.flush ctx).store.containsBlock r = true := by
  have hkept : d'.Kept r := by
    induction hrun with
    | refl => exact (isSome_getBlock_iff_kept hd hr).mp (hb ▸ rfl)
    | tail _ hstep ih => exact (kept_step hstep).1 ih
  obtain ⟨d0, h0, hrun0⟩ := hd
  have hd' : DagReachable ctx G.blocks d' := ⟨d0, h0, hrun0.trans hrun⟩
  obtain ⟨b', hb'⟩ := Option.isSome_iff_exists.mp ((isSome_getBlock_iff_kept hd' hr).mpr hkept)
  rw [BlockUniverse.getBlock_unique (Holds.of_reachable ⟨d0, h0, hrun0⟩) (Holds.of_reachable hd') hb hb']
  exact ⟨hb', kept_flush hkept⟩

/-- A block of the faulty authority is still read after a flush. -/
theorem accepted_never_lost_four : ∃ d, fourState false threeRounds = .ok d ∧
      (d.flush (fourContext false)).getBlock (faultyBlock 1).reference = some (faultyBlock 1) := by
  obtain ⟨d, h, -⟩ := Checked.exists_ok (x := fourState false threeRounds) (fun _ => true) (by decide +kernel)
  have haccepted := accepted_threeRounds h
  have hmem : faultyBlock 1 ∈ fourRounds := by decide +kernel
  have hb := (haccepted.inView hmem (by decide +kernel)).getBlock (by decide)
  exact ⟨d, h, (accepted_never_lost haccepted.reachable hb (by decide) (.single (.idle .flush))).1⟩

end Sui

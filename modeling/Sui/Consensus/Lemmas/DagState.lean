import Sui.Consensus.DagState
import Sui.Consensus.BlockVerifier

/-!
# What the operations of the DAG state do

One lemma for each operation of `DagState` that says all of what it changes, the steps a DAG state takes, and their invariant:
cache, store and buffer hold blocks under their own references, and every accepted block above the GC round is in the cache.
-/

namespace Sui

open Library Checked BTreeMap BlockInfo List DagState

/-- What is kept about a block apart from the votes for it. -/
def BlockInfo.core (info : BlockInfo) : VerifiedBlock × Bool × Bool := (info.block, info.committed, info.included)

def BlockInfo.markIncluded (info : BlockInfo) : BlockInfo := { info with included := true }

variable {r : BlockRef}

namespace DagState

variable {ctx : Context} {d d' : DagState}

/-! ## One lemma for each operation -/

/-- The votes of a block change neither the blocks nor their marks. -/
theorem addChild_spec {b a : BlockRef} (h : d.addChild ctx b a = .ok d') : ∃ m, d' = { d with recentBlocks := m } ∧
      ∀ r : BlockRef, m[r]?.map core = d.recentBlocks[r]?.map core := by
  unfold addChild at h
  split at h
  · rw [pure_ok] at h
    exact ⟨d.recentBlocks, h.symm, fun _ => rfl⟩
  · simp only [bind_ok, assert_ok, pure_ok, exists_and_left, exists_const] at h
    refine ⟨_, h.2.symm, fun r => ?_⟩
    rw [get_modify]
    split
    · rw [Option.map_map]
      rfl
    · rfl

theorem addCommitInfo_spec {scores : ReputationScores} (h : d.addCommitInfo scores = .ok d') :
    ∃ infos, d' = { d with commitInfoToWrite := infos } := by
  simp only [addCommitInfo, bind_ok, pure_ok] at h
  obtain ⟨-, -, c, -, h⟩ := h
  exact ⟨_, h.symm⟩

theorem addScoringSubdags_spec {subdags : List CommittedSubDag} (h : d.addScoringSubdags ctx subdags = .ok d') :
    ∃ scoring, d' = { d with scoringSubdag := scoring } := by
  simp only [addScoringSubdags, bind_ok, pure_ok] at h
  obtain ⟨s, -, h⟩ := h
  exact ⟨s, h.symm⟩

variable {b : VerifiedBlock}

theorem updateRoundInfo_spec (h : d.updateRoundInfo ctx b = .ok d') : ∃ infos, d' = { d with roundInfo := infos } := by
  unfold updateRoundInfo at h
  split at h
  · rw [pure_ok] at h
    exact ⟨d.roundInfo, h.symm⟩
  · simp only [bind_ok, assert_ok, pure_ok, exists_and_left, exists_const] at h
    obtain ⟨-, front, -, -, h⟩ := h
    exact ⟨_, h.symm⟩

theorem updateVotes_spec (h : d.updateVotes ctx b = .ok d') : ∃ m infos, d' = { d with recentBlocks := m, roundInfo := infos } ∧
      ∀ r : BlockRef, m[r]?.map core = d.recentBlocks[r]?.map core := by
  unfold updateVotes at h
  split at h
  · rw [bind_ok] at h
    obtain ⟨d1, h1, h⟩ := h
    have hfold : ∃ m, d1 = { d with recentBlocks := m } ∧ ∀ r : BlockRef, m[r]?.map core = d.recentBlocks[r]?.map core := by
      refine foldlM_invariant (fun _ c => ∃ m, c = { d with recentBlocks := m } ∧
        ∀ r : BlockRef, m[r]?.map core = d.recentBlocks[r]?.map core) h1 ⟨d.recentBlocks, rfl, fun _ => rfl⟩ ?_
      rintro pre a post c c' - ⟨m, rfl, hm⟩ hstep
      obtain ⟨m', rfl, hm'⟩ := addChild_spec hstep
      exact ⟨m', rfl, fun r => (hm' r).trans (hm r)⟩
    obtain ⟨m, rfl, hm⟩ := hfold
    obtain ⟨infos, rfl⟩ := updateRoundInfo_spec h
    exact ⟨m, infos, rfl, hm⟩
  · rw [pure_ok] at h
    exact ⟨d.recentBlocks, d.roundInfo, h.symm, fun _ => rfl⟩

/-- The cache after a block is put into it. -/
def InsertedCore (d : DagState) (b : VerifiedBlock) (m : BTreeMap BlockRef BlockInfo) : Prop :=
  ∀ r : BlockRef, m[r]?.map core =
    if b.reference = r then some (b, false, false) else d.recentBlocks[r]?.map core

/-- The cached blocks after a block is put into the cache. -/
theorem InsertedCore.block {m : BTreeMap BlockRef BlockInfo} (h : InsertedCore d b m) (r : BlockRef) :
    m[r]?.map BlockInfo.block = if b.reference = r then some b else d.recentBlocks[r]?.map BlockInfo.block := by
  have hr := congrArg (Option.map Prod.fst) (h r)
  rw [Option.map_map] at hr
  rw [show BlockInfo.block = Prod.fst ∘ core from rfl, hr]
  split
  · rfl
  · rw [Option.map_map]

theorem updateBlockMetadata_spec (h : d.updateBlockMetadata ctx b = .ok d') : ∃ m infos, d' = { d.insertBlock b with
        recentBlocks := m
        roundInfo := infos
        thresholdClock := (d.thresholdClock.addBlock ctx b.reference).1
        highestAcceptedRound := max d.highestAcceptedRound b.round } ∧ InsertedCore d b m := by
  unfold updateBlockMetadata at h
  simp only [bind_ok, pure_ok] at h
  obtain ⟨d1, h1, rfl⟩ := h
  obtain ⟨m, infos, rfl, hm⟩ := updateVotes_spec h1
  refine ⟨m, infos, rfl, fun r => ?_⟩
  rw [hm r, insertBlock, get_insert]
  split <;> rfl

/-- `accept_block` returns the state as it is when the block is known, and otherwise puts the block into the cache and the
buffer. -/
theorem acceptBlock_cases (h : d.acceptBlock ctx b = .ok d') : b.round ≠ 0 ∧ ((d.containsBlock b.reference = true ∧ d' = d) ∨
      (d.containsBlock b.reference = false ∧ d.checkOwnSlot ctx b = .ok () ∧
        ∃ d1, d.updateBlockMetadata ctx b = .ok d1 ∧ d' = { d1 with blocksToWrite := d1.blocksToWrite ++ [b] })) := by
  unfold acceptBlock at h
  rw [bind_ok] at h
  obtain ⟨u, hround, h⟩ := h
  refine ⟨by simpa using hround, ?_⟩
  split_ifs at h with hc
  · rw [pure_ok] at h
    exact .inl ⟨hc, h.symm⟩
  · simp only [bind_ok, pure_ok] at h
    obtain ⟨⟨⟩, hown, d1, h1, h⟩ := h
    exact .inr ⟨by simpa using hc, hown, d1, h1, h.symm⟩

theorem lastCommit_acceptBlock (h : d.acceptBlock ctx b = .ok d') : d'.lastCommit = d.lastCommit := by
  obtain ⟨-, ⟨-, rfl⟩ | ⟨-, -, d1, h1, rfl⟩⟩ := acceptBlock_cases h
  · rfl
  · obtain ⟨m, infos, rfl, -⟩ := updateBlockMetadata_spec h1
    rfl

theorem setCommitted_spec {first : Bool} (h : d.setCommitted r = .ok (d', first)) :
    ∃ info, d.recentBlocks[r]? = some info ∧ first = !info.committed ∧
      d' = { d with recentBlocks := if info.committed then d.recentBlocks
                                    else d.recentBlocks.insert r { info with committed := true } } := by
  unfold setCommitted at h
  rw [bind_ok] at h
  obtain ⟨info, hi, h⟩ := h
  rw [expect_ok] at hi
  refine ⟨info, hi, ?_⟩
  split_ifs at h with hc
  · simp only [pure_ok, Prod.mk.injEq] at h
    simp [hc, ← h.1, ← h.2]
  · simp only [pure_ok, Prod.mk.injEq] at h
    simp [hc, ← h.1, ← h.2]

/-- The DAG state with other marks of linked blocks. -/
def SameButIncluded (d e : DagState) : Prop := ∃ m, e = { d with recentBlocks := m } ∧
  ∀ r : BlockRef, m[r]?.map markIncluded = d.recentBlocks[r]?.map markIncluded

/-- Linking changes the mark `included` of cached blocks only. -/
theorem linkCausalHistory_spec {root : BlockRef} {refs : List BlockRef} (h : d.linkCausalHistory ctx root = .ok (d', refs)) :
    SameButIncluded d d' := by
  refine (Loop.run_meets (P := fun _ => True) (fun s : Linking => SameButIncluded d s.dag) (fun p => SameButIncluded d p.1)
    trivial ⟨d.recentBlocks, rfl, fun _ => rfl⟩ ?_).2 (d', refs) h
  rintro s ⟨m, hs, hm⟩
  refine ⟨fun _ _ => trivial, fun p hb => ?_⟩
  unfold linkBody at hb
  split at hb
  · obtain rfl := pure_ok.mp hb
    refine ⟨fun s' h => (by cases h), fun a ha => ?_⟩
    obtain rfl := Loop.Pass.done.inj ha
    exact ⟨m, hs, hm⟩
  · suffices h : ∃ s', p = .next s' ∧ SameButIncluded d s'.dag by
      obtain ⟨s', rfl, hs'⟩ := h
      exact ⟨fun _ h => Loop.Pass.next.inj h ▸ hs', fun a ha => by cases ha⟩
    split at hb
    · exact ⟨_, (pure_ok.mp hb).symm, m, hs, hm⟩
    · rw [bind_ok] at hb
      obtain ⟨info, hi, hb⟩ := hb
      rw [expect_ok, hs] at hi
      split at hb
      · exact ⟨_, (pure_ok.mp hb).symm, m, hs, hm⟩
      · refine ⟨_, (pure_ok.mp hb).symm, _, by rw [hs], fun x => ?_⟩
        rw [← hm x, get_insert]
        split_ifs with hx
        · subst hx
          rw [hi]
          rfl
        · rfl

/-- `add_commit` ignores a commit that is not new, and otherwise makes it the last one. -/
theorem addCommit_cases {c : TrustedCommit} (h : d.addCommit c = .ok d') :
    d' = d ∨ (c.index = d.lastCommitIndex + 1 ∧ d.lastCommitTimestampMs ≤ c.timestampMs ∧ d' = { d with
        lastCommit := some c
        lastCommittedRounds := raiseCommittedRounds d.lastCommittedRounds c.blocks
        pendingCommitVotes := d.pendingCommitVotes ++ [c.reference]
        commitsToWrite := d.commitsToWrite ++ [c] }) := by
  unfold addCommit at h
  split at h
  · rw [pure_ok] at h
    exact .inl h.symm
  · simp only [bind_ok, assert_ok, pure_ok, exists_and_left, exists_const] at h
    obtain ⟨hidx, hts, h⟩ := h
    exact .inr ⟨by simpa using hidx, by simpa using hts, h.symm⟩

/-! ## Eviction -/

/-- The references of an author that a clean up of the cache removes. -/
theorem mem_evicted {a : AuthorityIndex} {k : Nat} :
    r ∈ ((BTreeSet.iter (d.recentRefsByAuthority a)).takeWhile fun r => r.round ≤ k) ↔
      r ∈ d.recentRefsByAuthority a ∧ r.round ≤ k := by
  rw [BTreeSet.mem_takeWhile_iter, decide_eq_true_eq]
  intro x y hxy hy
  have := BlockRef.round_le_of_le hxy
  rw [decide_eq_true_eq] at hy ⊢
  omega

theorem calculateAuthorityEvictionRound_le (ctx : Context) (d : DagState) (a : AuthorityIndex) :
    d.calculateAuthorityEvictionRound ctx a ≤ d.gcRound ctx := by
  unfold calculateAuthorityEvictionRound evictionRound
  exact min_le_left _ _

theorem evict_get (a : AuthorityIndex) (r : BlockRef) : (d.evict ctx a).recentBlocks[r]? =
      if r ∈ d.recentRefsByAuthority a ∧ r.round ≤ d.calculateAuthorityEvictionRound ctx a then none
      else d.recentBlocks[r]? := by
  simp only [evict, get_foldl_erase, mem_evicted]

/-- A clean up changes the cache and the evicted rounds only. -/
theorem foldl_evict (ctx : Context) (l : List AuthorityIndex) (d : DagState) : ∃ m refs rounds, l.foldl (evict ctx) d =
      { d with recentBlocks := m, recentRefsByAuthority := refs, evictedRounds := rounds } := by
  induction l generalizing d with
  | nil => exact ⟨_, _, _, rfl⟩
  | cons a l ih =>
    obtain ⟨m, refs, rounds, h⟩ := ih (d.evict ctx a)
    exact ⟨m, refs, rounds, h⟩

theorem mem_evict_refs {a x : AuthorityIndex} : r ∈ (d.evict ctx a).recentRefsByAuthority x ↔
      r ∈ d.recentRefsByAuthority x ∧ (x = a → d.calculateAuthorityEvictionRound ctx a < r.round) := by
  simp only [evict, Function.update_apply]
  split_ifs with hx
  · subst hx
    rw [Finset.mem_sdiff, mem_toFinset, mem_evicted, not_and, not_le]
    exact ⟨fun h => ⟨h.1, fun _ => h.2 h.1⟩, fun h => ⟨h.1, fun _ => h.2 rfl⟩⟩
  · exact ⟨fun h => ⟨h, fun he => absurd he hx⟩, fun h => h.1⟩

theorem lastCommit_flush (ctx : Context) (d : DagState) : (d.flush ctx).lastCommit = d.lastCommit := by
  unfold flush
  split
  · rfl
  · obtain ⟨m, refs, rounds, he⟩ := foldl_evict ctx ctx.authorities d.writeBuffered
    rw [he]
    rfl

/-- A clean up of the cache removes blocks at or below the GC round only. -/
theorem flush_recent (ctx : Context) (d : DagState) :
    (∀ (r : BlockRef) info, (d.flush ctx).recentBlocks[r]? = some info → d.recentBlocks[r]? = some info) ∧
      ∀ r : BlockRef, d.gcRound ctx < r.round → (d.flush ctx).recentBlocks[r]? = d.recentBlocks[r]? := by
  unfold flush
  split
  · exact ⟨fun _ _ hi => hi, fun _ _ => rfl⟩
  · have hall : ∀ (l : List AuthorityIndex) (c : DagState), c.gcRound ctx = d.gcRound ctx →
        (∀ (r : BlockRef) info, (l.foldl (evict ctx) c).recentBlocks[r]? = some info → c.recentBlocks[r]? = some info) ∧
        ∀ r : BlockRef, d.gcRound ctx < r.round → (l.foldl (evict ctx) c).recentBlocks[r]? = c.recentBlocks[r]? := by
      intro l
      induction l with
      | nil => exact fun c _ => ⟨fun _ _ hi => hi, fun _ _ => rfl⟩
      | cons a l ih =>
        intro c hc
        obtain ⟨ih1, ih2⟩ := ih (c.evict ctx a) hc
        refine ⟨fun r info hi => ?_, fun r hr => ?_⟩
        · have hi' := ih1 r info hi
          rw [evict_get] at hi'
          split at hi'
          · cases hi'
          · exact hi'
        · rw [foldl_cons, ih2 r hr, evict_get, if_neg]
          rintro ⟨-, hle⟩
          have := calculateAuthorityEvictionRound_le ctx c a
          omega
    exact hall ctx.authorities d.writeBuffered rfl

end DagState

/-! ## The steps of a DAG state -/

/-- An operation apart from those of a commit. Blocks are accepted in any order out of a given set. -/
inductive DagIdle (ctx : Context) (G : Set VerifiedBlock) (d : DagState) : DagState → Prop
  | acceptBlock {b : VerifiedBlock} {d' : DagState} : b ∈ G → d.acceptBlock ctx b = .ok d' → DagIdle ctx G d d'
  | linkCausalHistory {r : BlockRef} {refs : List BlockRef} {d' : DagState} :
      d.linkCausalHistory ctx r = .ok (d', refs) → DagIdle ctx G d d'
  | addCommitInfo {scores : ReputationScores} {d' : DagState} : d.addCommitInfo scores = .ok d' → DagIdle ctx G d d'
  | addScoringSubdags {subdags : List CommittedSubDag} {d' : DagState} : d.addScoringSubdags ctx subdags = .ok d' →
      DagIdle ctx G d d'
  | clearScoringSubdag : DagIdle ctx G d d.clearScoringSubdag
  | addFinalizedCommit (r : CommitRef) (rejected : BTreeMap BlockRef (List TransactionIndex)) :
      DagIdle ctx G d (d.addFinalizedCommit r rejected)
  | takeCommitVotes (limit : Nat) : DagIdle ctx G d (d.takeCommitVotes limit).1
  | flush : DagIdle ctx G d (d.flush ctx)

/-- One operation on a DAG state. The leaders of commits are of rounds that do not decrease. -/
inductive DagStep (ctx : Context) (G : Set VerifiedBlock) (d : DagState) : DagState → Prop
  | idle {d' : DagState} : DagIdle ctx G d d' → DagStep ctx G d d'
  | setCommitted {r : BlockRef} {first : Bool} {d' : DagState} : d.setCommitted r = .ok (d', first) → DagStep ctx G d d'
  | addCommit {c : TrustedCommit} {d' : DagState} : d.lastCommitRound ≤ c.leader.round → d.addCommit c = .ok d' →
      DagStep ctx G d d'

/-- The states a DAG state goes through from an empty store on. -/
def DagReachable (ctx : Context) (G : Set VerifiedBlock) (d : DagState) : Prop :=
  ∃ d0, DagState.new ctx Store.new = .ok d0 ∧ Relation.ReflTransGen (DagStep ctx G) d0 d

variable {ctx : Context} {G : Set VerifiedBlock} {d d' : DagState}

/-- What the operations apart from those of a commit do: accept a block, write to the store, or change what a commit ignores. -/
theorem DagIdle.cases (h : DagIdle ctx G d d') : (∃ b ∈ G, d.acceptBlock ctx b = .ok d') ∨ d' = d.flush ctx ∨
      ∃ m infos scoring finalized votes, d' = { d with
        recentBlocks := m, commitInfoToWrite := infos, scoringSubdag := scoring, finalizedCommitsToWrite := finalized,
        pendingCommitVotes := votes } ∧
        ∀ r : BlockRef, m[r]?.map BlockInfo.markIncluded = d.recentBlocks[r]?.map BlockInfo.markIncluded := by
  cases h with
  | acceptBlock hb h => exact .inl ⟨_, hb, h⟩
  | linkCausalHistory h =>
    obtain ⟨m, rfl, hm⟩ := linkCausalHistory_spec h
    exact .inr (.inr ⟨m, _, _, _, _, rfl, hm⟩)
  | addCommitInfo h =>
    obtain ⟨infos, rfl⟩ := addCommitInfo_spec h
    exact .inr (.inr ⟨_, infos, _, _, _, rfl, fun _ => rfl⟩)
  | addScoringSubdags h =>
    obtain ⟨scoring, rfl⟩ := addScoringSubdags_spec h
    exact .inr (.inr ⟨_, _, scoring, _, _, rfl, fun _ => rfl⟩)
  | clearScoringSubdag | addFinalizedCommit r rejected | takeCommitVotes limit =>
    exact .inr (.inr ⟨_, _, _, _, _, rfl, fun _ => rfl⟩)
  | flush => exact .inr (.inl rfl)

/-- The operations apart from those of a commit do not change the last commit. -/
theorem DagIdle.lastCommit (h : DagIdle ctx G d d') : d'.lastCommit = d.lastCommit := by
  rcases h.cases with ⟨b, -, h⟩ | rfl | ⟨m, _, _, _, _, rfl, -⟩
  · exact lastCommit_acceptBlock h
  · exact lastCommit_flush ctx d
  · rfl

/-- The genesis blocks by their references. -/
def genesisMap (ctx : Context) : BTreeMap BlockRef VerifiedBlock :=
  (genesisBlocks ctx).foldl (fun m b => m.insert b.reference b) ∅

theorem genesisMap_some {b : VerifiedBlock} (h : (genesisMap ctx)[r]? = some b) : b.reference = r ∧ b ∈ genesisBlocks ctx := by
  rcases get_foldl_insert_some (f := VerifiedBlock.reference) (g := id) h with h | ⟨x, hx, hr, rfl⟩
  · simp at h
  · exact ⟨hr, hx⟩

/-- The invariant of a DAG state that holds blocks of `G`. -/
structure Holds (ctx : Context) (G : Set VerifiedBlock) (d : DagState) : Prop where
  genesis : d.genesis = genesisMap ctx
  recent : ∀ {r : BlockRef} {info}, d.recentBlocks[r]? = some info → info.block ∈ G ∧ info.block.reference = r
  stored : ∀ {r : BlockRef} {b}, d.store.blocks[r]? = some b → b ∈ G ∧ b.reference = r
  refs : ∀ {a r}, r ∈ d.recentRefsByAuthority a ↔ r.author = a ∧ d.recentBlocks[r]?.isSome
  buffered : ∀ b ∈ d.blocksToWrite, b ∈ G ∧ d.recentBlocks[b.reference]?.isSome
  cached : ∀ {r : BlockRef}, d.store.blocks[r]?.isSome → d.gcRound ctx < r.round → d.recentBlocks[r]?.isSome

namespace Holds

/-- A change of the marks and votes of the cached blocks keeps the invariant. -/
theorem of_core {m : BTreeMap BlockRef BlockInfo} (h : Holds ctx G d)
    (hm : ∀ r : BlockRef, m[r]?.map BlockInfo.block = d.recentBlocks[r]?.map BlockInfo.block) :
    Holds ctx G { d with recentBlocks := m } := by
  have hsome : ∀ r : BlockRef, m[r]?.isSome = d.recentBlocks[r]?.isSome := fun r => by
    have := congrArg Option.isSome (hm r)
    simpa using this
  refine ⟨h.genesis, ?_, h.stored, ?_, ?_, ?_⟩
  · intro r info hi
    have hr := hm r
    rw [hi, Option.map_some] at hr
    obtain ⟨info', hi', hb⟩ := Option.map_eq_some_iff.mp hr.symm
    rw [← hb]
    exact h.recent hi'
  · intro a r
    rw [hsome]
    exact h.refs
  · intro b hb
    rw [hsome]
    exact h.buffered b hb
  · intro r hs hr
    rw [hsome]
    exact h.cached hs hr

theorem acceptBlock {b : VerifiedBlock} (h : Holds ctx G d) (hb : b ∈ G) (hd : d.acceptBlock ctx b = .ok d') :
    Holds ctx G d' := by
  obtain ⟨-, ⟨-, rfl⟩ | ⟨-, -, d1, h1, rfl⟩⟩ := acceptBlock_cases hd
  · exact h
  · obtain ⟨m, infos, rfl, hm⟩ := updateBlockMetadata_spec h1
    have hblock := hm.block
    have hsome : ∀ r : BlockRef, m[r]?.isSome ↔ b.reference = r ∨ d.recentBlocks[r]?.isSome := by
      intro r
      have := congrArg Option.isSome (hblock r)
      rw [Option.isSome_map] at this
      rw [this]
      split_ifs with hr
      · simp [hr]
      · simp [hr]
    refine ⟨h.genesis, ?_, h.stored, ?_, ?_, ?_⟩
    · intro r info hi
      have hr := hblock r
      rw [hi, Option.map_some] at hr
      split_ifs at hr with hbr
      · rw [Option.some.inj hr]
        exact ⟨hb, hbr⟩
      · obtain ⟨info', hi', hbi⟩ := Option.map_eq_some_iff.mp hr.symm
        rw [← hbi]
        exact h.recent hi'
    · intro a r
      rw [hsome]
      simp only [insertBlock, Function.update_apply]
      split_ifs with ha
      · rw [Finset.mem_insert, h.refs, ha]
        constructor
        · rintro (rfl | ⟨hr, hs⟩)
          · exact ⟨rfl, .inl rfl⟩
          · exact ⟨hr, .inr hs⟩
        · rintro ⟨hr, rfl | hs⟩
          · exact .inl rfl
          · exact .inr ⟨hr, hs⟩
      · rw [h.refs]
        constructor
        · rintro ⟨hr, hs⟩
          exact ⟨hr, .inr hs⟩
        · rintro ⟨hr, rfl | hs⟩
          · exact absurd hr.symm ha
          · exact ⟨hr, hs⟩
    · intro x hx
      rw [hsome]
      rcases mem_concat.mp hx with hx | rfl
      · exact ⟨(h.buffered x hx).1, .inr (h.buffered x hx).2⟩
      · exact ⟨hb, .inl rfl⟩
    · intro r hs hr
      rw [hsome]
      exact .inr (h.cached hs hr)

theorem writeBuffered (h : Holds ctx G d) : Holds ctx G d.writeBuffered := by
  refine ⟨h.genesis, h.recent, ?_, h.refs, by simp [DagState.writeBuffered], ?_⟩
  · intro r b hb
    rcases get_foldl_insert_some (f := VerifiedBlock.reference) (g := id) hb with hb | ⟨x, hx, hr, rfl⟩
    · exact h.stored hb
    · exact ⟨(h.buffered x hx).1, hr⟩
  · intro r hs hr
    rcases (isSome_foldl_insert VerifiedBlock.reference id _ _ _).mp hs with hs | ⟨x, hx, rfl⟩
    · exact h.cached hs hr
    · exact (h.buffered x hx).2

theorem evict (h : Holds ctx G d) (hw : d.blocksToWrite = []) (a : AuthorityIndex) :
    Holds ctx G (d.evict ctx a) ∧ (d.evict ctx a).blocksToWrite = [] := by
  refine ⟨⟨h.genesis, ?_, h.stored, ?_, ?_, ?_⟩, hw⟩
  · intro r info hi
    rw [evict_get] at hi
    split at hi
    · cases hi
    · exact h.recent hi
  · intro x r
    rw [mem_evict_refs, evict_get]
    simp only [h.refs]
    constructor
    · rintro ⟨⟨hx, hs⟩, hlt⟩
      refine ⟨hx, ?_⟩
      rw [if_neg]
      · exact hs
      · rintro ⟨⟨ha, -⟩, hle⟩
        have := hlt (hx.symm.trans ha)
        omega
    · rintro ⟨hx, hs⟩
      split_ifs at hs with hn
      · cases hs
      · refine ⟨⟨hx, hs⟩, fun hxa => ?_⟩
        by_contra hle
        exact hn ⟨⟨hx.trans hxa, hs⟩, by omega⟩
  · intro b hb
    have hb' : b ∈ d.blocksToWrite := hb
    rw [hw] at hb'
    exact absurd hb' not_mem_nil
  · intro r hs hr
    rw [evict_get, if_neg]
    · exact h.cached hs hr
    · rintro ⟨-, hle⟩
      have := calculateAuthorityEvictionRound_le ctx d a
      have hgc : d.gcRound ctx < r.round := hr
      omega

theorem evictAll (l : List AuthorityIndex) (h : Holds ctx G d) (hw : d.blocksToWrite = []) :
    Holds ctx G (l.foldl (DagState.evict ctx) d) := by
  induction l generalizing d with
  | nil => exact h
  | cons a l ih => exact ih (h.evict hw a).1 (h.evict hw a).2

theorem flush (h : Holds ctx G d) : Holds ctx G (d.flush ctx) := by
  unfold DagState.flush
  split
  · exact h
  · have h' := evictAll ctx.authorities h.writeBuffered rfl
    exact ⟨h'.genesis, h'.recent, h'.stored, h'.refs, h'.buffered, h'.cached⟩

theorem addCommit {c : TrustedCommit} (h : Holds ctx G d) (hc : d.lastCommitRound ≤ c.leader.round)
    (hd : d.addCommit c = .ok d') : Holds ctx G d' := by
  rcases addCommit_cases hd with rfl | ⟨-, -, rfl⟩
  · exact h
  · refine ⟨h.genesis, h.recent, h.stored, h.refs, h.buffered, ?_⟩
    intro r hs hr
    exact h.cached hs (lt_of_le_of_lt (ctx.calculateGcRound_mono hc) hr)

theorem idle (h : Holds ctx G d) (hd : DagIdle ctx G d d') : Holds ctx G d' := by
  rcases hd.cases with ⟨b, hb, hd⟩ | rfl | ⟨m, _, _, _, _, rfl, hm⟩
  · exact h.acceptBlock hb hd
  · exact h.flush
  · have hcore : Holds ctx G { d with recentBlocks := m } := h.of_core fun r => by
      have := congrArg (Option.map BlockInfo.block) (hm r)
      rw [Option.map_map, Option.map_map] at this
      exact this
    exact ⟨hcore.genesis, hcore.recent, hcore.stored, hcore.refs, hcore.buffered, hcore.cached⟩

/-- The step lemma: every operation keeps the invariant. -/
theorem step (h : Holds ctx G d) (hd : DagStep ctx G d d') : Holds ctx G d' := by
  cases hd with
  | idle hd => exact h.idle hd
  | setCommitted hd =>
    obtain ⟨info, hi, -, rfl⟩ := setCommitted_spec hd
    refine h.of_core fun r => ?_
    split
    · rfl
    · rw [get_insert]
      split_ifs with hr
      · rw [← hr, hi]
        rfl
      · rfl
  | addCommit hc hd => exact h.addCommit hc hd

end Holds

namespace DagState

/-- The state an empty store recovers to. -/
def genesisState (ctx : Context) : DagState := initial ctx Store.new (fun _ => 0) ScoringSubdag.new

theorem recoverAuthority_genesisState (ctx : Context) (a : AuthorityIndex) :
    (genesisState ctx).recoverAuthority ctx a = (0, []) := by
  have hscan : ∀ k, (genesisState ctx).store.scanBlocksByAuthor a k = [] := by
    intro k
    simp [genesisState, initial, Store.scanBlocksByAuthor, Store.new]
  simp [recoverAuthority, Store.scanLastBlocksByAuthor, hscan, evictionRound, genesisRound]

theorem recoverBlocks_genesisState (ctx : Context) : (genesisState ctx).recoverBlocks ctx = .ok (genesisState ctx) := by
  have hevict : ∀ l : List AuthorityIndex, (l.map fun a => (a, (0, ([] : List VerifiedBlock)))).foldl
      (fun d p => { d with evictedRounds := Function.update d.evictedRounds p.1 p.2.1 }) (genesisState ctx) =
        genesisState ctx := by
    intro l
    induction l with
    | nil => rfl
    | cons a l ih =>
      have hu : Function.update (genesisState ctx).evictedRounds a 0 = (genesisState ctx).evictedRounds :=
        Function.update_eq_self a _
      rw [map_cons, foldl_cons]
      simp only [hu]
      exact ih
  unfold recoverBlocks
  simp only [recoverAuthority_genesisState, hevict, flatMap_map]
  rw [flatMap_eq_nil_iff.mpr fun _ _ => rfl]
  rfl

/-- An empty store recovers to the genesis state. -/
theorem new_empty (ctx : Context) : DagState.new ctx Store.new = .ok (genesisState ctx) := by
  have hinfo : Store.new.readLastCommitInfo = none := by simp [Store.readLastCommitInfo, Store.new]
  have hcommit : Store.new.readLastCommit = none := by simp [Store.readLastCommit, Store.new]
  have hlast : (genesisState ctx).lastCommit = none := hcommit
  have hlinks : (genesisState ctx).recoverLinks ctx = .ok (genesisState ctx) := by
    have hscan : ∀ k, (genesisState ctx).store.scanBlocksByAuthor ctx.ownIndex k = [] := by
      intro k
      simp [genesisState, initial, Store.scanBlocksByAuthor, Store.new]
    rw [recoverLinks, hscan, foldlM_nil, pure_eq_ok]
  unfold new
  simp only [hinfo, hcommit, pure_eq_ok, ok_bind, ScoringSubdag.addSubdags, foldlM_nil]
  rw [show initial ctx Store.new (fun _ => 0) ScoringSubdag.new = genesisState ctx from rfl,
    recoverBlocks_genesisState, ok_bind, recoverCommitted, hlast, pure_eq_ok, ok_bind, hlinks]

end DagState

namespace Holds

theorem genesisState (ctx : Context) (G : Set VerifiedBlock) : Holds ctx G (DagState.genesisState ctx) := by
  refine ⟨rfl, ?_, ?_, ?_, ?_, ?_⟩
  · intro r info h
    simp [DagState.genesisState, DagState.initial] at h
  · intro r b h
    simp [DagState.genesisState, DagState.initial, Store.new] at h
  · intro a r
    simp [DagState.genesisState, DagState.initial]
  · intro b h
    simp [DagState.genesisState, DagState.initial] at h
  · intro r h
    simp [DagState.genesisState, DagState.initial, Store.new] at h

/-- The run lemma: the invariant holds in every reachable state. -/
theorem of_reachable (h : DagReachable ctx G d) : Holds ctx G d := by
  obtain ⟨d0, h0, hrun⟩ := h
  rw [new_empty, Except.ok.injEq] at h0
  subst h0
  induction hrun with
  | refl => exact genesisState ctx G
  | tail _ hstep ih => exact ih.step hstep

end Holds

end Sui

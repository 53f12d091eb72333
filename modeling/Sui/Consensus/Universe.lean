import Sui.Library.CommitRule
import Sui.Consensus.Lemmas.DagState

/-!
# The blocks of all validators

The verified blocks of an epoch, some of them by faulty authorities that equivocate. They are a DAG in the sense of the library,
over references, and a DAG state closed under ancestors above its GC round is a view of it.
-/

namespace Sui

open Library Checked BTreeMap List VerifiedBlock DagState

/-- The verified blocks of an epoch. No two blocks have the same reference, and an authority that is not faulty has at most
one block in each round. -/
structure BlockUniverse (ctx : Context) where
  blocks : Set VerifiedBlock
  faulty : Finset AuthorityIndex
  verified : ∀ b ∈ blocks, verifyBlock ctx b.toSignedBlock = .ok ()
  reference_injective : ∀ b ∈ blocks, ∀ b' ∈ blocks, b.reference = b'.reference → b = b'
  honest : ∀ b ∈ blocks, ∀ b' ∈ blocks, b.author ∉ faulty → b.author = b'.author → b.round = b'.round → b = b'

namespace BlockUniverse

variable {ctx : Context} (G : BlockUniverse ctx) {b : VerifiedBlock}

theorem wellFormed (hb : b ∈ G.blocks) : WellFormed ctx b.toBlock :=
  wellFormed_of_verifyBlock (G.verified b hb)

/-- The same blocks for another node of the epoch: verification does not depend on the node. -/
def forNode (ownIndex : AuthorityIndex) (parameters : Parameters) : BlockUniverse (ctx.forNode ownIndex parameters) :=
  ⟨G.blocks, G.faulty, G.verified, G.reference_injective, G.honest⟩

/-- The blocks as a DAG over their references. -/
def dag : Dag BlockRef AuthorityIndex where
  nodes := { r | ∃ b ∈ G.blocks, b.reference = r }
  round := BlockRef.round
  author := BlockRef.author
  parents r := { p | ∃ b ∈ G.blocks, b.reference = r ∧ p ∈ b.ancestors }
  node_of_parent := by
    rintro n p ⟨b, hb, hr, -⟩
    exact ⟨b, hb, hr⟩
  round_lt := by
    rintro n p ⟨b, hb, rfl, hp⟩
    exact (G.wellFormed hb).rounds p hp

variable {G}

theorem mem_nodes (hb : b ∈ G.blocks) : b.reference ∈ G.dag.nodes := ⟨b, hb, rfl⟩

/-- The parents of a block are its ancestors. -/
theorem mem_parents (hb : b ∈ G.blocks) {p : BlockRef} : p ∈ G.dag.parents b.reference ↔ p ∈ b.ancestors := by
  constructor
  · rintro ⟨b', hb', hr, hp⟩
    rwa [← G.reference_injective b' hb' b hb hr]
  · intro hp
    exact ⟨b, hb, rfl, hp⟩

/-- Blocks are determined by their references. -/
theorem eq_of_references {l l' : List VerifiedBlock} (hl : ∀ b ∈ l, b ∈ G.blocks) (hl' : ∀ b ∈ l', b ∈ G.blocks)
    (h : l.map reference = l'.map reference) : l = l' := by
  induction l generalizing l' with
  | nil => exact (map_eq_nil_iff.mp h.symm).symm
  | cons b l ih =>
    cases l' with
    | nil => cases h
    | cons b' =>
      rw [map_cons, map_cons, List.cons.injEq] at h
      rw [G.reference_injective b (hl b mem_cons_self) b' (hl' b' mem_cons_self) h.1,
        ih (fun c hc => hl c (mem_cons_of_mem _ hc)) (fun c hc => hl' c (mem_cons_of_mem _ hc)) h.2]

/-- A bound on the stake of the faulty authorities. -/
structure FaultBound (G : BlockUniverse ctx) where
  faults : Nat
  faulty_le : ctx.committee.stakeOf G.faulty ≤ faults

/-- The authorities behind the blocks. -/
def members (F : G.FaultBound) : Members AuthorityIndex where
  all := ctx.committee.members
  weight := ctx.committee.stake
  faulty := G.faulty
  faults := F.faults
  faulty_le := F.faulty_le

variable {F : G.FaultBound}

theorem single : (members F).Single G.dag := by
  rintro n ⟨b, hb, rfl⟩ m ⟨b', hb', rfl⟩ hf ha hr
  rw [G.honest b hb b' hb' hf ha hr]

theorem one_parent {n p p' : BlockRef} (hp : p ∈ G.dag.parents n) (hp' : p' ∈ G.dag.parents n)
    (ha : G.dag.author p = G.dag.author p') : p = p' := by
  obtain ⟨b, hb, rfl, hpb⟩ := hp
  exact List.inj_on_of_nodup_map (G.wellFormed hb).authors_nodup hpb ((mem_parents hb).mp hp') ha

/-- The authors of references with a property, as a set of authorities, when the references are listed. -/
theorem authors_eq {P : BlockRef → Prop} {l : List BlockRef} (hl : ∀ r, r ∈ l ↔ P r) (hv : ∀ r ∈ l, r.author < ctx.committee.size) :
    (members F).authors G.dag P = (l.map BlockRef.author).toFinset := by
  ext a
  rw [Members.mem_authors, mem_toFinset, mem_map]
  constructor
  · rintro ⟨-, r, hr, rfl⟩
    exact ⟨r, (hl r).mpr hr, rfl⟩
  · rintro ⟨r, hr, rfl⟩
    exact ⟨by simpa [members, Committee.members] using hv r hr, r, (hl r).mp hr, rfl⟩

/-- Whether listed references are heavy is a matter of the stake of their authors. -/
theorem heavy_iff {P : BlockRef → Prop} {l : List BlockRef} (hl : ∀ r, r ∈ l ↔ P r)
    (hv : ∀ r ∈ l, r.author < ctx.committee.size) {t : Nat} :
    (members F).Heavy G.dag t P ↔ t ≤ ctx.committee.stakeOf (l.map BlockRef.author).toFinset := by
  rw [Members.Heavy, authors_eq hl hv]
  rfl

/-- A quorum of the parents of a block are of the round before. -/
theorem parents_heavy {n : BlockRef} (hn : n ∈ G.dag.nodes) :
    (members F).Heavy G.dag ctx.committee.quorumThreshold fun p => p ∈ G.dag.parents n ∧ G.dag.round p + 1 = G.dag.round n := by
  obtain ⟨b, hb, rfl⟩ := hn
  have hw := G.wellFormed hb
  rw [heavy_iff (l := b.ancestors.filter fun a => a.round == b.round - 1)]
  · exact hw.parents
  · intro r
    have hpos := hw.round_pos
    rw [mem_parents hb, mem_filter, beq_iff_eq]
    simp only [dag, reference_round]
    exact and_congr_right fun _ => by omega
  · intro r hr
    exact hw.authors_valid r (mem_filter.mp hr).1

/-- The blocks as a DAG in which every node has a quorum of parents. -/
def quorumDag (F : G.FaultBound) (hq : 0 < ctx.committee.quorumThreshold) : QuorumDag BlockRef AuthorityIndex where
  dag := G.dag
  members := members F
  quorum := ctx.committee.quorumThreshold
  single := single
  one_parent := one_parent
  parents_heavy := parents_heavy
  quorum_pos := hq

end BlockUniverse

variable {d : DagState} {r : BlockRef}

namespace DagState

theorem getBlock_recent {info : BlockInfo} (hi : d.recentBlocks[r]? = some info)
    (hr : r.round ≠ 0) : d.getBlock r = some info.block := by
  simp [getBlock, hi, genesisRound, hr]

/-- The ancestors of a block above the GC round are in the DAG state. -/
def HasAncestors (ctx : Context) (d : DagState) (b : VerifiedBlock) : Prop :=
  ∀ p ∈ b.ancestors, d.gcRound ctx < p.round → (d.getBlock p).isSome

/-- Every ancestor above the GC round of a block in the DAG state is in the DAG state. -/
def AncestorClosed (ctx : Context) (d : DagState) : Prop :=
  ∀ r b, d.getBlock r = some b → d.HasAncestors ctx b

variable {ctx : Context} {G : Set VerifiedBlock} {d d' : DagState} {b : VerifiedBlock}

/-- A block that is new is read after it is accepted, and the others are read as before. -/
theorem getBlock_acceptBlock (h : d.acceptBlock ctx b = .ok d') (hn : d.containsBlock b.reference = false)
    (r : BlockRef) : d'.getBlock r = if b.reference = r then some b else d.getBlock r := by
  obtain ⟨h0, ⟨hc, -⟩ | ⟨-, -, d1, h1, rfl⟩⟩ := acceptBlock_cases h
  · rw [hn] at hc
    cases hc
  · obtain ⟨m, infos, rfl, hm⟩ := updateBlockMetadata_spec h1
    have hblock := hm.block r
    by_cases hr : b.reference = r
    · rw [if_pos hr] at hblock ⊢
      obtain ⟨info, hi, hb⟩ := Option.map_eq_some_iff.mp hblock
      rw [← hb]
      refine getBlock_recent hi ?_
      rw [← hr, reference_round]
      exact h0
    · rw [if_neg hr] at hblock ⊢
      unfold getBlock
      cases hm' : m[r]? with
      | none =>
        rw [hm', Option.map_none] at hblock
        have hd := Option.map_eq_none_iff.mp hblock.symm
        simp only [insertBlock, hd]
      | some =>
        rw [hm', Option.map_some] at hblock
        obtain ⟨info', hd, hb⟩ := Option.map_eq_some_iff.mp hblock.symm
        simp only [insertBlock, hd, hb]

theorem gcRound_acceptBlock (h : d.acceptBlock ctx b = .ok d') : d'.gcRound ctx = d.gcRound ctx := by
  simp only [gcRound, lastCommitRound, lastCommit_acceptBlock h]

theorem isSome_getBlock_acceptBlock (h : d.acceptBlock ctx b = .ok d') (hr : (d.getBlock r).isSome) : (d'.getBlock r).isSome := by
  cases hc : d.containsBlock b.reference with
  | true =>
    obtain ⟨-, ⟨-, rfl⟩ | ⟨hc', -⟩⟩ := acceptBlock_cases h
    · exact hr
    · rw [hc] at hc'
      cases hc'
  | false =>
    rw [getBlock_acceptBlock h hc]
    split
    · rfl
    · exact hr

/-- Accepting a block whose ancestors are there keeps the DAG state closed under ancestors. -/
theorem AncestorClosed.acceptBlock (hd : d.AncestorClosed ctx) (h : d.acceptBlock ctx b = .ok d')
    (hb : d.HasAncestors ctx b) : d'.AncestorClosed ctx := by
  cases hc : d.containsBlock b.reference with
  | true =>
    obtain ⟨-, ⟨-, rfl⟩ | ⟨hc', -⟩⟩ := acceptBlock_cases h
    · exact hd
    · rw [hc] at hc'
      cases hc'
  | false =>
    intro r x hx p hp hg
    rw [gcRound_acceptBlock h] at hg
    refine isSome_getBlock_acceptBlock h ?_
    rw [getBlock_acceptBlock h hc] at hx
    split at hx
    · obtain rfl := Option.some.inj hx
      exact hb p hp hg
    · exact hd r x hx p hp hg

end DagState

namespace Holds

variable {ctx : Context} {G : Set VerifiedBlock} {d : DagState} {r : BlockRef} {b : VerifiedBlock}

section

variable (h : Holds ctx G d)

include h

/-- A block that is read is a genesis block or one of the set, under its own reference. -/
theorem getBlock_some (hb : d.getBlock r = some b) : b.reference = r ∧ (b ∈ G ∨ b ∈ genesisBlocks ctx) := by
  unfold getBlock at hb
  split at hb
  · rw [h.genesis] at hb
    exact ⟨(genesisMap_some hb).1, .inr (genesisMap_some hb).2⟩
  · split at hb
    · rename_i info hi
      rw [← Option.some.inj hb]
      exact ⟨(h.recent hi).2, .inl (h.recent hi).1⟩
    · exact ⟨(h.stored hb).2, .inl (h.stored hb).1⟩

/-- Above the GC round only cached blocks are read. -/
theorem recent_of_getBlock (hb : d.getBlock r = some b)
    (hr : d.gcRound ctx < r.round) : ∃ info, d.recentBlocks[r]? = some info ∧ info.block = b := by
  unfold getBlock at hb
  split_ifs at hb with h0
  · simp only [genesisRound, beq_iff_eq] at h0
    omega
  · split at hb
    · rename_i info hi
      exact ⟨info, hi, Option.some.inj hb⟩
    · rename_i hn
      have hs := h.cached (by rw [show d.store.blocks[r]? = some b from hb]; rfl) hr
      rw [hn] at hs
      cases hs

/-- A block that the DAG state contains can be read. -/
theorem getBlock_of_containsBlock (hr : r.round ≠ 0) (hc : d.containsBlock r = true) : (d.getBlock r).isSome := by
  unfold getBlock
  rw [if_neg (by simpa [genesisRound] using hr)]
  cases hi : d.recentBlocks[r]? with
  | some => rfl
  | none =>
    have hrefs : r ∉ d.recentRefsByAuthority r.author := by
      intro hm
      have := (h.refs.mp hm).2
      rw [hi] at this
      cases this
    have hgenesis : ¬ d.genesis[r]?.isSome := by
      intro hg
      obtain ⟨b, hb⟩ := Option.isSome_iff_exists.mp hg
      rw [h.genesis] at hb
      obtain ⟨a, -, rfl⟩ := mem_map.mp (genesisMap_some hb).2
      rw [← (genesisMap_some hb).1] at hr
      exact hr rfl
    unfold containsBlock at hc
    rw [if_neg (by tauto)] at hc
    split at hc
    · cases hc
    · split at hc
      · cases hc
      · exact hc

/-- A block can be read once it is accepted. -/
theorem getBlock_accepted {d' : DagState} (hd : d.acceptBlock ctx b = .ok d') : (d'.getBlock b.reference).isSome := by
  cases hc : d.containsBlock b.reference with
  | true =>
    obtain ⟨h0, ⟨-, rfl⟩ | ⟨hc', -⟩⟩ := acceptBlock_cases hd
    · exact h.getBlock_of_containsBlock h0 hc
    · rw [hc] at hc'
      cases hc'
  | false =>
    rw [getBlock_acceptBlock hd hc, if_pos rfl]
    rfl

theorem isSome_getBlock_iff (hr : d.gcRound ctx < r.round) : (d.getBlock r).isSome ↔ d.recentBlocks[r]?.isSome := by
  rw [Option.isSome_iff_exists, Option.isSome_iff_exists]
  constructor
  · rintro ⟨b, hb⟩
    obtain ⟨info, hi, -⟩ := h.recent_of_getBlock hb hr
    exact ⟨info, hi⟩
  · rintro ⟨info, hi⟩
    exact ⟨info.block, getBlock_recent hi (by omega)⟩

end

end Holds

namespace DagState

/-- A block is in the cache, under its reference. -/
def InView (d : DagState) (b : VerifiedBlock) : Prop := ∃ info, d.recentBlocks[b.reference]? = some info ∧ info.block = b

theorem InView.getBlock {b : VerifiedBlock} (h : d.InView b) (hr : b.round ≠ 0) : d.getBlock b.reference = some b := by
  obtain ⟨info, hi, hb⟩ := h
  rw [getBlock_recent hi hr, hb]

/-- Looking up references that are there returns their blocks. -/
theorem mapM_getBlock {α : Type} (l : List α) (f : α → BlockRef) (e : α → Panic)
    (hl : ∀ r ∈ l.map f, ∃ b, d.InView b ∧ b.reference = r) (h0 : ∀ r ∈ l.map f, r.round ≠ 0) :
    ∃ bs : List VerifiedBlock, (l.mapM fun x => expect (d.getBlock (f x)) (e x)) = .ok bs ∧
      bs.map reference = l.map f ∧ ∀ b ∈ bs, d.InView b := by
  induction l with
  | nil => exact ⟨[], rfl, rfl, nofun⟩
  | cons x l ih =>
    obtain ⟨b, hb, hbr⟩ := hl (f x) mem_cons_self
    obtain ⟨bs, hbs, hmap, hin⟩ := ih (fun r hr => hl r (mem_cons_of_mem _ hr)) fun r hr => h0 r (mem_cons_of_mem _ hr)
    have hb0 : b.round ≠ 0 := by
      rw [← reference_round, hbr]
      exact h0 (f x) mem_cons_self
    refine ⟨b :: bs, ?_, by rw [map_cons, map_cons, hbr, hmap], fun c hc => ?_⟩
    · rw [mapM_cons, ← hbr, hb.getBlock hb0, hbs]
      rfl
    · rcases mem_cons.mp hc with rfl | hc
      · exact hb
      · exact hin c hc

end DagState

namespace Holds

variable {ctx : Context} {G : Set VerifiedBlock} {d : DagState}

theorem inView_of_recent (h : Holds ctx G d) {info : BlockInfo} (hi : d.recentBlocks[r]? = some info) :
    d.InView info.block := by
  refine ⟨info, ?_, rfl⟩
  rw [(h.recent hi).2]
  exact hi

theorem exists_recent (h : Holds ctx G d) (hs : d.recentBlocks[r]?.isSome) :
    ∃ info, d.recentBlocks[r]? = some info ∧ info.block ∈ G ∧ info.block.reference = r :=
  (Option.isSome_iff_exists.mp hs).imp fun _ hi => ⟨hi, h.recent hi⟩

variable {b : VerifiedBlock}

theorem mem_of_inView (h : Holds ctx G d) (hb : d.InView b) : b ∈ G := by
  obtain ⟨info, hi, rfl⟩ := hb
  exact (h.recent hi).1

/-- The blocks of a round, from the cache. -/
theorem mem_blocksAtRound (h : Holds ctx G d) {k : Nat} :
    b ∈ (d.recentBlocks.toList.filter fun p => p.1.round == k).map (fun p => p.2.block) ↔ d.InView b ∧ b.round = k := by
  simp only [mem_map, mem_filter, Prod.exists, mem_toList, beq_iff_eq]
  constructor
  · rintro ⟨r, info, ⟨hi, hk⟩, rfl⟩
    refine ⟨h.inView_of_recent hi, ?_⟩
    rw [← reference_round, (h.recent hi).2]
    exact hk
  · rintro ⟨⟨info, hi, rfl⟩, hk⟩
    exact ⟨_, info, ⟨hi, hk⟩, rfl⟩

/-- The blocks of a slot, from the cache. -/
theorem mem_blocksAtSlot (h : Holds ctx G d) {slot : Slot} :
    b ∈ d.getUncommittedBlocksAtSlot slot ↔ d.InView b ∧ b.slot = slot := by
  simp only [getUncommittedBlocksAtSlot, infosAtSlot, mem_map, mem_filter, Prod.exists, mem_toList, beq_iff_eq, exists_eq_right]
  constructor
  · rintro ⟨info, ⟨r, hi, hs⟩, rfl⟩
    refine ⟨h.inView_of_recent hi, ?_⟩
    rw [← reference_slot, (h.recent hi).2]
    exact hs
  · rintro ⟨⟨info, hi, rfl⟩, hs⟩
    exact ⟨info, ⟨_, hi, hs⟩, rfl⟩

/-- A block is listed once in its slot. -/
theorem nodup_blocksAtSlot (h : Holds ctx G d) (slot : Slot) : (d.getUncommittedBlocksAtSlot slot).Nodup := by
  have hkeys : ((d.recentBlocks.toList.filter fun p => p.1.slot == slot).map Prod.fst).Nodup :=
    (nodup_toList d.recentBlocks).sublist (List.filter_sublist.map _)
  -- the references of the listed blocks are the keys
  have hrefs : (d.getUncommittedBlocksAtSlot slot).map reference =
      (d.recentBlocks.toList.filter fun p => p.1.slot == slot).map Prod.fst := by
    simp only [getUncommittedBlocksAtSlot, infosAtSlot, map_map]
    refine map_congr_left ?_
    rintro ⟨r, info⟩ hp
    exact (h.recent (mem_toList.mp (mem_filter.mp hp).1)).2
  exact List.Nodup.of_map _ (hrefs ▸ hkeys)

end Holds

/-- Two nodes read the same block under a reference. -/
theorem BlockUniverse.getBlock_unique {ctx : Context} {G : BlockUniverse ctx} {own1 own2 : AuthorityIndex}
    {params1 params2 : Parameters} {d1 d2 : DagState} (h1 : Holds (ctx.forNode own1 params1) G.blocks d1)
    (h2 : Holds (ctx.forNode own2 params2) G.blocks d2) {b1 b2 : VerifiedBlock} (hb1 : d1.getBlock r = some b1)
    (hb2 : d2.getBlock r = some b2) : b1 = b2 := by
  by_cases hr : r.round = 0
  · have hg : ∀ {d : DagState}, d.getBlock r = d.genesis[r]? := fun {d} => by
      unfold getBlock
      rw [if_pos (by simp [hr, genesisRound])]
    rw [hg, h1.genesis] at hb1
    rw [hg, h2.genesis] at hb2
    exact Option.some.inj (hb1.symm.trans hb2)
  · have hmem : ∀ {own params d b}, Holds (ctx.forNode own params) G.blocks d → d.getBlock r = some b →
        b ∈ G.blocks ∧ b.reference = r := by
      intro own params d b h hb
      obtain ⟨hbr, hb | hb⟩ := h.getBlock_some hb
      · exact ⟨hb, hbr⟩
      · obtain ⟨a, -, rfl⟩ := mem_map.mp hb
        rw [← hbr] at hr
        exact absurd rfl hr
    obtain ⟨hG1, hr1⟩ := hmem h1 hb1
    obtain ⟨hG2, hr2⟩ := hmem h2 hb2
    exact G.reference_injective _ hG1 _ hG2 (hr1.trans hr2.symm)

/-- A DAG state closed under ancestors, as a view of the blocks of the epoch. -/
def DagState.view {ctx : Context} {G : BlockUniverse ctx} {d : DagState} (h : Holds ctx G.blocks d) (hc : d.AncestorClosed ctx) :
    G.dag.View (d.gcRound ctx) where
  carrier := { r | d.recentBlocks[r]?.isSome }
  node := by
    intro r hr
    obtain ⟨info, hi⟩ := Option.isSome_iff_exists.mp hr
    exact ⟨info.block, (h.recent hi).1, (h.recent hi).2⟩
  closed := by
    intro r p hr hp hg
    obtain ⟨info, hi⟩ := Option.isSome_iff_exists.mp hr
    obtain ⟨hb, hbr⟩ := h.recent hi
    have hpos := (G.wellFormed hb).round_pos
    have hr0 : r.round ≠ 0 := by
      rw [← hbr, VerifiedBlock.reference_round]
      omega
    rw [← hbr, BlockUniverse.mem_parents hb] at hp
    exact (h.isSome_getBlock_iff hg).mp (hc r info.block (DagState.getBlock_recent hi hr0) p hp hg)

/-! ## Accepting blocks in a causal order -/

/-- Every ancestor above the genesis round is among the references seen or comes before its block. -/
def causal (seen : List BlockRef) : List VerifiedBlock → Bool
  | [] => true
  | b :: bs => b.ancestors.all (fun p => p.round = 0 || p ∈ seen) && causal (b.reference :: seen) bs

/-- A state without a commit that has accepted blocks in a causal order, and can read their references. -/
structure Accepted (ctx : Context) (G : BlockUniverse ctx) (refs : List BlockRef) (d : DagState) : Prop where
  reachable : DagReachable ctx G.blocks d
  closed : d.AncestorClosed ctx
  lastCommit : d.lastCommit = none
  readable : ∀ r ∈ refs, (d.getBlock r).isSome

namespace Accepted

variable {ctx : Context} {G : BlockUniverse ctx} {refs : List BlockRef} {bs : List VerifiedBlock} {d d' : DagState}

theorem genesis : Accepted ctx G [] (genesisState ctx) := by
  refine ⟨⟨_, new_empty _, .refl⟩, fun r b hb => ?_, by simp [genesisState, initial, Store.readLastCommit, Store.new], nofun⟩
  have hgenesis : b ∈ genesisBlocks ctx := by
    rcases ((Holds.genesisState _ (∅ : Set VerifiedBlock)).getBlock_some hb).2 with hb | hb
    · cases hb
    · exact hb
  obtain ⟨a, -, rfl⟩ := mem_map.mp hgenesis
  exact fun p hp => absurd hp not_mem_nil

theorem acceptBlock {b : VerifiedBlock} (h : Accepted ctx G refs d) (hb : b ∈ G.blocks)
    (hancestors : b.ancestors.all fun p => p.round = 0 || p ∈ refs) (haccept : d.acceptBlock ctx b = .ok d') :
    Accepted ctx G (b.reference :: refs) d' := by
  have hhas : d.HasAncestors ctx b := by
    intro p hp hg
    have hseen := all_eq_true.mp hancestors p hp
    rw [Bool.or_eq_true, decide_eq_true_eq, decide_eq_true_eq] at hseen
    exact h.readable p (hseen.resolve_left (by omega))
  obtain ⟨d0, hd0, hrun⟩ := h.reachable
  refine ⟨⟨d0, hd0, hrun.tail (.idle (.acceptBlock hb haccept))⟩, h.closed.acceptBlock haccept hhas,
    (lastCommit_acceptBlock haccept).trans h.lastCommit, forall_mem_cons.mpr ⟨?_, fun r hr => ?_⟩⟩
  · exact (Holds.of_reachable h.reachable).getBlock_accepted haccept
  · exact isSome_getBlock_acceptBlock haccept (h.readable r hr)

/-- Blocks of the universe that are accepted one after the other, each after its ancestors. -/
theorem acceptBlocks (h : Accepted ctx G refs d) (hG : ∀ b ∈ bs, b ∈ G.blocks) (hcausal : causal refs bs)
    (haccept : d.acceptBlocks ctx bs = .ok d') : Accepted ctx G ((bs.map reference).reverse ++ refs) d' := by
  induction bs generalizing refs d with
  | nil =>
    obtain rfl := Except.ok.inj haccept
    exact h
  | cons b bs ih =>
    rw [DagState.acceptBlocks, foldlM_cons, bind_ok] at haccept
    obtain ⟨d1, hb, haccept⟩ := haccept
    rw [causal, Bool.and_eq_true] at hcausal
    have hrest := ih (h.acceptBlock (hG b mem_cons_self) hcausal.1 hb) (fun x hx => hG x (mem_cons_of_mem _ hx)) hcausal.2 haccept
    rwa [map_cons, reverse_cons, append_assoc, singleton_append]

theorem gcRound_eq (h : Accepted ctx G refs d) : d.gcRound ctx = 0 := by
  simp [gcRound, lastCommitRound, h.lastCommit, Context.calculateGcRound]

theorem inView {b : VerifiedBlock} (h : Accepted ctx G refs d) (hb : b ∈ G.blocks) (hr : b.reference ∈ refs) : d.InView b := by
  have hh := Holds.of_reachable h.reachable
  obtain ⟨b', hb'⟩ := Option.isSome_iff_exists.mp (h.readable _ hr)
  obtain ⟨info, hi, -⟩ := hh.recent_of_getBlock hb' (h.gcRound_eq.symm ▸ (G.wellFormed hb).round_pos)
  obtain ⟨hG, href⟩ := hh.recent hi
  exact ⟨info, hi, G.reference_injective _ hG _ hb href⟩

end Accepted

/-! ## Four authorities, one of them faulty -/

variable (enableV3 : Bool)

/-- A context of four authorities with the stakes 2, 2, 1 and 1, of either commit rule; the one of `new_v3` is for a malicious stake. -/
def fourContext : Context where
  epochStartTimestampMs := 0
  ownIndex := 0
  committee := ⟨0, [⟨2⟩, ⟨2⟩, ⟨1⟩, ⟨1⟩], 6, 5, if enableV3 then 3 else 5, 2⟩
  parameters := { dagStateCachedRounds := 10, skipEquivocationValidation := false }
  protocolConfig :=
    { gcDepth := 5
      enableV3
      transactionVotingEnabled := true
      numLeadersPerRound := some 1
      maxTransactionSizeBytes := 0
      maxNumTransactionsInBlock := 0
      maxTransactionsInBlockBytes := 0
      badNodesStakeThreshold := 0 }
  blockDigest := fun b => b.timestampMs
  commitDigest := fun c => c.index
  signatureIsValid := fun _ => true

/-- A block without transactions and votes, named by its timestamp. -/
def plainBlock (round : Nat) (author : AuthorityIndex) (timestampMs : Nat) (ancestors : List BlockRef) : VerifiedBlock :=
  ⟨⟨⟨0, round, author, timestampMs, ancestors, [], [], []⟩, []⟩, timestampMs⟩

/-- The block of one of the first three authorities, which refers to those of the round before, and once to the faulty one. -/
def honestBlock (round : Nat) (author : AuthorityIndex) : VerifiedBlock :=
  plainBlock round author round ((author :: [0, 1, 2].erase author).map (fun a => ⟨round - 1, a, round - 1⟩) ++
    if round = 2 ∧ author = 0 then [⟨1, 3, 1⟩] else [])

/-- One of the two blocks of authority 3 in round one. -/
def faultyBlock (timestampMs : Nat) : VerifiedBlock :=
  plainBlock 1 3 timestampMs ([3, 0, 1, 2].map fun a => ⟨0, a, 0⟩)

/-- The blocks of three rounds with one of the two blocks of authority 3, and of four rounds with both. -/
def threeRounds : List VerifiedBlock :=
  faultyBlock 1 :: [1, 2, 3].flatMap fun round => [0, 1, 2].map (honestBlock round)

def fourRounds : List VerifiedBlock := faultyBlock 2 :: threeRounds ++ [0, 1, 2].map (honestBlock 4)

def fourUniverse : BlockUniverse (fourContext enableV3) where
  blocks := { b | b ∈ fourRounds }
  faulty := {3}
  verified := by cases enableV3 <;> exact show ∀ b ∈ fourRounds, _ from by decide +kernel
  reference_injective := show ∀ b ∈ fourRounds, ∀ b' ∈ fourRounds, _ from by decide +kernel
  honest := show ∀ b ∈ fourRounds, ∀ b' ∈ fourRounds, _ from by decide +kernel

/-- The state of a node that has accepted blocks after the genesis blocks. -/
def fourState (blocks : List VerifiedBlock) : Except Panic DagState :=
  (genesisState (fourContext enableV3)).acceptBlocks (fourContext enableV3) blocks

variable {enableV3} {d : DagState}

theorem accepted_threeRounds (h : fourState enableV3 threeRounds = .ok d) :
    Accepted (fourContext enableV3) (fourUniverse enableV3) ((threeRounds.map reference).reverse ++ []) d :=
  Accepted.genesis.acceptBlocks (show ∀ b ∈ threeRounds, b ∈ fourRounds from by decide +kernel) (by decide +kernel) h

theorem accepted_fourRounds (h : fourState enableV3 fourRounds = .ok d) :
    Accepted (fourContext enableV3) (fourUniverse enableV3) ((fourRounds.map reference).reverse ++ []) d :=
  Accepted.genesis.acceptBlocks (fun _ hb => hb) (by decide +kernel) h

end Sui

import Sui.Consensus.Lemmas.DagState

/-!
# The votes that the DAG state keeps

With commit rule v3 each cached block carries its children, which are the votes for it, and each round has an info with its
blocks. Here: what accepting a block changes of them, and the invariant that above the GC round they are exact.
-/

namespace Sui

open Library Checked BTreeMap List BlockInfo StakeAggregator DagState

def BlockInfo.withChild (ctx : Context) (child : BlockRef) (info : BlockInfo) : BlockInfo :=
  { info with
    children := insert child info.children
    childrenStake := info.childrenStake.addUnique child.author ctx.committee }

def RoundInfo.withBlock (ctx : Context) (r : BlockRef) (info : RoundInfo) : RoundInfo :=
  { info with blocks := insert r info.blocks, totalStake := info.totalStake.addUnique r.author ctx.committee }

/-- What is kept about a block apart from its marks. -/
def BlockInfo.voted (info : BlockInfo) : VerifiedBlock × BTreeSet BlockRef × StakeAggregator .quorum :=
  (info.block, info.children, info.childrenStake)

theorem StakeAggregator.addUnique_addUnique {t : Threshold} (s : StakeAggregator t) (a : AuthorityIndex) (c : Committee) :
    (s.addUnique a c).addUnique a c = s.addUnique a c := by
  by_cases h : a ∈ s.votes
  · have hs : s.addUnique a c = s := if_pos h
    rw [hs, hs]
  · have hs : s.addUnique a c = ⟨insert a s.votes, s.stake + c.stake a⟩ := if_neg h
    rw [hs]
    exact if_pos (Finset.mem_insert_self _ _)

/-- The child votes for a block of the round before, above the GC round. -/
def VotesFor (gcRound : Nat) (child : BlockRef) (ancestors : List BlockRef) (r : BlockRef) : Prop :=
  r ∈ ancestors ∧ r.round + 1 = child.round ∧ gcRound < r.round

instance (gcRound : Nat) (child : BlockRef) (ancestors : List BlockRef) (r : BlockRef) :
    Decidable (VotesFor gcRound child ancestors r) := inferInstanceAs (Decidable (_ ∧ _ ∧ _))

namespace DagState

variable {ctx : Context} {d d' : DagState}

theorem votesFor_concat {gcRound : Nat} {child a r : BlockRef} {pre : List BlockRef} : VotesFor gcRound child (pre ++ [a]) r ↔
    VotesFor gcRound child pre r ∨ r = a ∧ a.round + 1 = child.round ∧ gcRound < a.round := by
  rw [VotesFor, mem_concat, or_and_right]
  refine or_congr_right (and_congr_right ?_)
  rintro rfl
  rfl

/-- The votes of a block: its parents above the GC round are cached, and each of them gets a child. -/
def CountsVotes (ctx : Context) (d : DagState) (child : BlockRef) (ancestors : List BlockRef) (d' : DagState) : Prop :=
  (∀ r, VotesFor (d.gcRound ctx) child ancestors r → d.recentBlocks[r]?.isSome) ∧
    ∃ m, d' = { d with recentBlocks := m } ∧ ∀ r : BlockRef, m[r]? =
      if VotesFor (d.gcRound ctx) child ancestors r then d.recentBlocks[r]?.map (withChild ctx child) else d.recentBlocks[r]?

theorem foldlM_addChild {child : BlockRef} {ancestors : List BlockRef} (h : ancestors.foldlM (addChild ctx child) d = .ok d') :
    CountsVotes ctx d child ancestors d' := by
  refine foldlM_invariant (CountsVotes ctx d child) h ?_ ?_
  · exact ⟨fun r hr => absurd hr.1 not_mem_nil, d.recentBlocks, rfl, fun r => (if_neg fun hr => absurd hr.1 not_mem_nil).symm⟩
  · rintro pre a post c c' - ⟨hpre, m, rfl, hm⟩ hstep
    have hgc : ({ d with recentBlocks := m } : DagState).gcRound ctx = d.gcRound ctx := rfl
    simp only [addChild, hgc, Bool.or_eq_true, bne_iff_ne, ne_eq, decide_eq_true_eq] at hstep
    by_cases ha : a.round + 1 = child.round ∧ d.gcRound ctx < a.round
    · rw [if_neg (by omega)] at hstep
      simp only [bind_ok, assert_ok, pure_ok, exists_and_left, exists_const] at hstep
      obtain ⟨hcached, rfl⟩ := hstep
      have hvotes : ∀ r, VotesFor (d.gcRound ctx) child (pre ++ [a]) r ↔ VotesFor (d.gcRound ctx) child pre r ∨ r = a := by
        intro r
        rw [votesFor_concat, and_iff_left ha]
      refine ⟨fun r hr => ?_, _, rfl, fun r => ?_⟩
      · rcases (hvotes r).mp hr with hr | rfl
        · exact hpre r hr
        · rw [hm] at hcached
          split at hcached
          · rwa [Option.isSome_map] at hcached
          · exact hcached
      · rw [get_modify, hm r]
        by_cases hra : a = r
        · subst hra
          rw [if_pos rfl, if_pos ((hvotes a).mpr (.inr rfl))]
          split
          · rw [Option.map_map]
            congr 1
            funext info
            simp only [Function.comp_apply, withChild, Finset.insert_idem, addUnique_addUnique]
          · rfl
        · simp only [if_neg hra, hvotes, or_iff_left (Ne.symm hra)]
    · -- not a vote
      rw [if_pos (by omega), pure_ok] at hstep
      have hvotes : ∀ r, VotesFor (d.gcRound ctx) child (pre ++ [a]) r ↔ VotesFor (d.gcRound ctx) child pre r :=
        fun r => votesFor_concat.trans (or_iff_left fun h => ha h.2)
      simp only [CountsVotes, hvotes]
      exact ⟨hpre, m, hstep.symm, hm⟩

end DagState

/-! ## Round infos -/

/-- The infos are of consecutive rounds. -/
def Contiguous (infos : List RoundInfo) : Prop := ∃ first, infos.map RoundInfo.round = range' first infos.length

namespace Contiguous

variable {infos : List RoundInfo}

theorem nil : Contiguous [] := ⟨0, rfl⟩

section

variable (h : Contiguous infos)

include h

variable {info : RoundInfo}

/-- The position of an info is its distance from the first one. -/
theorem round_of_getElem {front : RoundInfo} (hf : infos.head? = some front) {i : Nat}
    (hi : infos[i]? = some info) : info.round = front.round + i := by
  obtain ⟨first, hr⟩ := h
  have hget : ∀ (j : Nat) (x : RoundInfo), infos[j]? = some x → x.round = first + j := by
    intro j x hx
    have hj := congrArg (fun l : List Nat => l[j]?) hr
    simp only [List.getElem?_map, hx, Option.map_some] at hj
    obtain ⟨hlt, -⟩ := List.getElem?_eq_some_iff.mp hx
    rw [List.getElem?_range' hlt, Option.some.injEq] at hj
    omega
  rw [List.head?_eq_getElem?] at hf
  have h0 := hget 0 front hf
  have h1 := hget i info hi
  omega

/-- Changing the info at the position of a round changes the info of that round. -/
theorem modify_eq_map {front : RoundInfo} (hf : infos.head? = some front) {round : Nat}
    (hle : front.round ≤ round) (g : RoundInfo → RoundInfo) :
    infos.modify (round - front.round) g = infos.map fun info => if info.round = round then g info else info := by
  refine ext_getElem? fun i => ?_
  rw [getElem?_modify, getElem?_map]
  cases hi : infos[i]? with
  | none => rfl
  | some =>
    have hround := h.round_of_getElem hf hi
    by_cases heq : round - front.round = i
    · simp only [heq, if_true, Option.map_some]
      rw [if_pos (by omega)]
      rfl
    · simp only [heq, if_false, Option.map_some]
      rw [if_neg (by omega)]
      rfl

/-- A change of the infos that keeps their rounds. -/
theorem map {g : RoundInfo → RoundInfo} (hg : ∀ info, (g info).round = info.round) : Contiguous (infos.map g) := by
  obtain ⟨first, hr⟩ := h
  refine ⟨first, ?_⟩
  rw [map_map, length_map, ← hr]
  exact map_congr_left fun info _ => hg info

/-- One more info, of the round after the last one. -/
theorem concat (hl : ∀ last, infos.getLast? = some last → info.round = last.round + 1) : Contiguous (infos ++ [info]) := by
  cases hn : infos.getLast? with
  | none =>
    rw [getLast?_eq_none_iff] at hn
    subst hn
    exact ⟨info.round, rfl⟩
  | some last =>
    obtain ⟨init, rfl⟩ := getLast?_eq_some_iff.mp hn
    obtain ⟨first, hr⟩ := h
    have hlast := hr
    rw [length_append, length_singleton, range'_1_concat, map_append, map_singleton] at hlast
    have hround : last.round = first + init.length := (cons.inj (append_inj' hlast rfl).2).1
    refine ⟨first, ?_⟩
    rw [map_append, hr, map_singleton, hl last hn, hround, Nat.add_assoc]
    simp only [length_append, length_singleton]
    exact range'_1_concat.symm

/-- The infos that are left after the first ones are dropped. -/
theorem dropWhile (gcRound : Nat) : Contiguous (infos.dropWhile fun info => info.round ≤ gcRound) ∧
      ∀ info, info ∈ infos.dropWhile (fun info => info.round ≤ gcRound) ↔ info ∈ infos ∧ gcRound < info.round := by
  obtain ⟨first, hr⟩ := h
  induction infos generalizing first with
  | nil => exact ⟨nil, by simp⟩
  | cons x infos ih =>
    rw [map_cons, length_cons, range'_succ, cons.injEq] at hr
    obtain ⟨hx, hrest⟩ := hr
    by_cases hle : x.round ≤ gcRound
    · rw [dropWhile_cons_of_pos (by simpa using hle)]
      obtain ⟨hc, hm⟩ := ih (first + 1) hrest
      refine ⟨hc, fun info => ?_⟩
      rw [hm, mem_cons]
      constructor
      · rintro ⟨hi, hlt⟩
        exact ⟨.inr hi, hlt⟩
      · rintro ⟨rfl | hi, hlt⟩
        · omega
        · exact ⟨hi, hlt⟩
    · rw [dropWhile_cons_of_neg (by simpa using hle)]
      refine ⟨⟨first, by rw [map_cons, length_cons, range'_succ, hx, hrest]⟩, fun info => ?_⟩
      refine ⟨fun hi => ⟨hi, ?_⟩, fun hi => hi.1⟩
      rcases mem_cons.mp hi with rfl | hi
      · omega
      · have hmem : info.round ∈ range' (first + 1) infos.length := hrest ▸ mem_map.mpr ⟨info, hi, rfl⟩
        have := mem_range'_1.mp hmem
        omega

/-- No info is of a higher round than the last one. -/
theorem round_le_last {last : RoundInfo} (hi : info ∈ infos) (hl : infos.getLast? = some last) : info.round ≤ last.round := by
  obtain ⟨i, hi⟩ := mem_iff_getElem?.mp hi
  obtain ⟨hlt, -⟩ := List.getElem?_eq_some_iff.mp hi
  rw [List.getLast?_eq_getElem?] at hl
  cases hf : infos.head? with
  | none =>
    rw [List.head?_eq_none_iff] at hf
    subst hf
    simp at hi
  | some =>
    have h1 := h.round_of_getElem hf hi
    have h2 := h.round_of_getElem hf hl
    omega

end

end Contiguous

variable {b : VerifiedBlock}

namespace DagState

variable {ctx : Context} {d d' : DagState}

/-- The block is put into the info of its round, which is a new one if the block is the first one of the round. -/
def PutsBlock (ctx : Context) (b : VerifiedBlock) (before after : List RoundInfo) : Prop :=
  ∃ infos, (infos = before ∨ (infos = before ++ [RoundInfo.new b.round] ∧ ∀ info ∈ before, info.round < b.round)) ∧
    Contiguous infos ∧ (∃ info ∈ infos, info.round = b.round) ∧
    after = infos.map fun info => if info.round = b.round then info.withBlock ctx b.reference else info

/-- `update_round_info` of a block above the GC round. -/
theorem updateRoundInfo_cases (hc : Contiguous d.roundInfo) (hgc : d.gcRound ctx < b.round)
    (h : d.updateRoundInfo ctx b = .ok d') : ∃ after, PutsBlock ctx b d.roundInfo after ∧ d' = { d with roundInfo := after } := by
  unfold updateRoundInfo at h
  rw [if_neg (by omega)] at h
  simp only [bind_ok, assert_ok, expect_ok, pure_ok, exists_and_left, exists_const, decide_eq_true_eq, Bool.and_eq_true] at h
  obtain ⟨hnext, front, hf, ⟨hle, hlt⟩, rfl⟩ := h
  generalize hinfos : (if (b.round == d.roundInfo.getLast?.elim (d.gcRound ctx + 1) fun info => info.round + 1) = true
    then d.roundInfo ++ [RoundInfo.new b.round] else d.roundInfo) = infos at hf hlt ⊢
  have hcases : Contiguous infos ∧ (infos = d.roundInfo ∨
      (infos = d.roundInfo ++ [RoundInfo.new b.round] ∧ ∀ info ∈ d.roundInfo, info.round < b.round)) := by
    subst hinfos
    split_ifs with heq
    · rw [beq_iff_eq] at heq
      have hlast : ∀ last, d.roundInfo.getLast? = some last → b.round = last.round + 1 := by
        intro last hl
        rw [heq, hl]
        rfl
      refine ⟨hc.concat hlast, .inr ⟨rfl, fun info hi => ?_⟩⟩
      cases hl : d.roundInfo.getLast? with
      | none =>
        rw [getLast?_eq_none_iff] at hl
        rw [hl] at hi
        cases hi
      | some last =>
        have := hc.round_le_last hi hl
        have := hlast last hl
        omega
    · exact ⟨hc, .inl rfl⟩
  obtain ⟨hcont, hcases⟩ := hcases
  refine ⟨_, ⟨infos, hcases, hcont, ?_, rfl⟩, ?_⟩
  · obtain ⟨info, hi⟩ : ∃ info, infos[b.round - front.round]? = some info := ⟨_, getElem?_eq_getElem hlt⟩
    refine ⟨info, mem_of_getElem? hi, ?_⟩
    have := hcont.round_of_getElem hf hi
    omega
  · rw [← hcont.modify_eq_map hf hle]
    rfl

/-- The cache after a block is put into it and its votes are counted. -/
def VotedCache (ctx : Context) (d : DagState) (b : VerifiedBlock) (m : BTreeMap BlockRef BlockInfo) : Prop :=
  ∀ r : BlockRef, m[r]? =
    if b.reference = r then some (BlockInfo.new b)
    else if VotesFor (d.gcRound ctx) b.reference b.ancestors r then d.recentBlocks[r]?.map (BlockInfo.withChild ctx b.reference)
    else d.recentBlocks[r]?

namespace VotedCache

variable {b : VerifiedBlock} {m : BTreeMap BlockRef BlockInfo} {r : BlockRef} {info : BlockInfo}

section

variable (h : VotedCache ctx d b m)

include h

theorem new : m[b.reference]? = some (BlockInfo.new b) := by rw [h, if_pos rfl]

/-- An older block has its info, with the new child if that votes for it. -/
theorem old (hr : b.reference ≠ r) (hi : m[r]? = some info) : ∃ info0, d.recentBlocks[r]? = some info0 ∧
      info = if VotesFor (d.gcRound ctx) b.reference b.ancestors r then info0.withChild ctx b.reference else info0 := by
  rw [h, if_neg hr] at hi
  split_ifs at hi with hvote
  · obtain ⟨info0, hi0, rfl⟩ := Option.map_eq_some_iff.mp hi
    exact ⟨info0, hi0, by rw [if_pos hvote]⟩
  · exact ⟨info, hi, by rw [if_neg hvote]⟩

theorem block (hr : b.reference ≠ r) (hi : m[r]? = some info) :
    ∃ info0, d.recentBlocks[r]? = some info0 ∧ info0.block = info.block := by
  obtain ⟨info0, hi0, rfl⟩ := h.old hr hi
  refine ⟨info0, hi0, ?_⟩
  split <;> rfl

theorem isSome (r : BlockRef) : m[r]?.isSome ↔ b.reference = r ∨ d.recentBlocks[r]?.isSome := by
  rw [h]
  by_cases hr : b.reference = r
  · simp [hr]
  · simp only [hr, if_false, false_or]
    split
    · rw [Option.isSome_map]
    · rfl

/-- The cached blocks are the new one and the old ones. -/
theorem exists_block (hn : d.recentBlocks[b.reference]? = none) (c : BlockRef) (P : VerifiedBlock → Prop) :
    (∃ info, m[c]? = some info ∧ P info.block) ↔
      b.reference = c ∧ P b ∨ ∃ info, d.recentBlocks[c]? = some info ∧ P info.block := by
  by_cases hc : b.reference = c
  · subst hc
    simp [h.new, hn, BlockInfo.new]
  · rw [or_iff_right fun hb => hc hb.1]
    constructor
    · rintro ⟨info, hi, hP⟩
      obtain ⟨info0, hi0, hb⟩ := h.block hc hi
      exact ⟨info0, hi0, hb ▸ hP⟩
    · rintro ⟨info0, hi0, hP⟩
      obtain ⟨info, hi⟩ := Option.isSome_iff_exists.mp ((h.isSome c).mpr (.inr (by rw [hi0]; rfl)))
      obtain ⟨info1, hi1, hb⟩ := h.block hc hi
      obtain rfl := Option.some.inj (hi0.symm.trans hi1)
      exact ⟨info, hi, hb ▸ hP⟩

end

end VotedCache

/-- What accepting a new block does with commit rule v3. -/
theorem updateBlockMetadata_v3 (hv3 : ctx.protocolConfig.enableV3 = true) (hc : Contiguous d.roundInfo)
    (h : d.updateBlockMetadata ctx b = .ok d') :
    (∀ r, VotesFor (d.gcRound ctx) b.reference b.ancestors r → r = b.reference ∨ d.recentBlocks[r]?.isSome) ∧
      VotedCache ctx d b d'.recentBlocks ∧ d'.lastCommit = d.lastCommit ∧
      if b.round ≤ d.gcRound ctx then d'.roundInfo = d.roundInfo else PutsBlock ctx b d.roundInfo d'.roundInfo := by
  unfold updateBlockMetadata updateVotes at h
  simp only [hv3, if_true, bind_ok, pure_ok] at h
  obtain ⟨d2, ⟨d1, h₁, h₂⟩, rfl⟩ := h
  obtain ⟨hcached, m, rfl, hm⟩ := foldlM_addChild h₁
  have hgc : (d.insertBlock b).gcRound ctx = d.gcRound ctx := rfl
  rw [hgc] at hcached hm
  have hget : ∀ r : BlockRef, (d.insertBlock b).recentBlocks[r]? =
      if b.reference = r then some (BlockInfo.new b) else d.recentBlocks[r]? := by
    intro r
    rw [insertBlock, get_insert]
    split <;> rfl
  have hrecent : VotedCache ctx d b m := by
    intro r
    rw [hm r, hget r]
    by_cases hr : b.reference = r
    · subst hr
      have hno : ¬ VotesFor (d.gcRound ctx) b.reference b.ancestors b.reference := by
        rintro ⟨-, hr, -⟩
        omega
      simp only [hno, if_true, if_false]
    · simp only [hr, if_false]
  refine ⟨fun r hr => ?_, ?_⟩
  · have := hcached r hr
    rw [hget r] at this
    split_ifs at this with heq
    · exact .inl heq.symm
    · exact .inr this
  · by_cases hle : b.round ≤ d.gcRound ctx
    · rw [if_pos hle]
      unfold updateRoundInfo at h₂
      rw [if_pos (show b.round ≤ ({ d.insertBlock b with recentBlocks := m } : DagState).gcRound ctx from hle), pure_ok] at h₂
      subst h₂
      exact ⟨hrecent, rfl, rfl⟩
    · rw [if_neg hle]
      obtain ⟨after, hafter, rfl⟩ :=
        updateRoundInfo_cases (d := { d.insertBlock b with recentBlocks := m }) hc (Nat.lt_of_not_le hle) h₂
      exact ⟨hrecent, rfl, hafter⟩

end DagState

/-! ## Exact votes -/

/-- Above the GC round parents are cached and the children of a block are the cached blocks that vote for it. -/
structure ChildrenExact (ctx : Context) (d : DagState) : Prop where
  parents : ∀ {x : BlockRef} {info}, d.recentBlocks[x]? = some info → ∀ p ∈ info.block.ancestors, p.round + 1 = x.round →
    d.gcRound ctx < p.round → d.recentBlocks[p]?.isSome
  children : ∀ {r : BlockRef} {info}, d.recentBlocks[r]? = some info → d.gcRound ctx < r.round → ∀ c : BlockRef,
    c ∈ info.children ↔ ∃ child, d.recentBlocks[c]? = some child ∧ r ∈ child.block.ancestors ∧ r.round + 1 = c.round
  childrenStake : ∀ {r : BlockRef} {info}, d.recentBlocks[r]? = some info →
    info.childrenStake = .ofVotes ctx.committee (info.children.image BlockRef.author)

/-- Above the GC round the infos of the rounds have the cached blocks. -/
structure RoundsExact (ctx : Context) (d : DagState) : Prop where
  contiguous : Contiguous d.roundInfo
  blocks : ∀ info ∈ d.roundInfo, d.gcRound ctx < info.round → ∀ r : BlockRef,
    r ∈ info.blocks ↔ d.recentBlocks[r]?.isSome ∧ r.round = info.round
  totalStake : ∀ info ∈ d.roundInfo, info.totalStake = .ofVotes ctx.committee (info.blocks.image BlockRef.author)
  nonempty : ∀ info ∈ d.roundInfo, info.blocks.Nonempty
  covered : ∀ r : BlockRef, d.recentBlocks[r]?.isSome → d.gcRound ctx < r.round → ∃ info ∈ d.roundInfo, info.round = r.round

/-- What commit rule v3 reads of the DAG state is exact. -/
structure VotesExact (ctx : Context) (d : DagState) : Prop extends ChildrenExact ctx d, RoundsExact ctx d

section

variable {ctx : Context} {d d' : DagState}

/-- A new block keeps the children exact. -/
theorem ChildrenExact.updateBlockMetadata (h : ChildrenExact ctx d) (hc : Contiguous d.roundInfo)
    (hv3 : ctx.protocolConfig.enableV3 = true) (hn : d.recentBlocks[b.reference]? = none)
    (hd : d.updateBlockMetadata ctx b = .ok d') : ChildrenExact ctx d' := by
  obtain ⟨hcached, hrecent, hlast, -⟩ := updateBlockMetadata_v3 hv3 hc hd
  have hgc : d'.gcRound ctx = d.gcRound ctx := by simp only [gcRound, lastCommitRound, hlast]
  refine ⟨?_, ?_, ?_⟩
  · intro x info hi p hp hpx hgp
    rw [hgc] at hgp
    rw [hrecent.isSome]
    by_cases hx : b.reference = x
    · subst hx
      obtain rfl := Option.some.inj (hrecent.new.symm.trans hi)
      exact (hcached p ⟨hp, hpx, hgp⟩).imp_left Eq.symm
    · obtain ⟨info0, hi0, hb⟩ := hrecent.block hx hi
      exact .inr (h.parents hi0 p (hb ▸ hp) hpx hgp)
  · intro r info hi hgr c
    rw [hgc] at hgr
    rw [hrecent.exists_block hn c fun block => r ∈ block.ancestors ∧ r.round + 1 = c.round]
    by_cases hr : b.reference = r
    · subst hr
      obtain rfl := Option.some.inj (hrecent.new.symm.trans hi)
      refine ⟨fun hc => absurd hc (Finset.notMem_empty c), ?_⟩
      rintro (⟨rfl, -, hrc⟩ | ⟨child, hchild, hanc, hrc⟩)
      · omega
      · -- a child of the new block would have had it as a parent before
        have := h.parents hchild _ hanc hrc hgr
        rw [hn] at this
        cases this
    · obtain ⟨info0, hi0, rfl⟩ := hrecent.old hr hi
      rw [← h.children hi0 hgr c]
      split_ifs with hvote
      · refine Finset.mem_insert.trans (or_congr_left ⟨?_, fun hc => hc.1.symm⟩)
        rintro rfl
        exact ⟨rfl, hvote.1, hvote.2.1⟩
      · refine (or_iff_right ?_).symm
        rintro ⟨rfl, hanc, hrc⟩
        exact hvote ⟨hanc, hrc, hgr⟩
  · intro r info hi
    by_cases hr : b.reference = r
    · subst hr
      obtain rfl := Option.some.inj (hrecent.new.symm.trans hi)
      exact new_eq_ofVotes ctx.committee
    · obtain ⟨info0, hi0, rfl⟩ := hrecent.old hr hi
      have h₀ := h.childrenStake hi0
      split
      · simp only [withChild, h₀, addUnique_ofVotes, Finset.image_insert]
      · exact h₀

/-- A new block keeps the infos of the rounds exact. -/
theorem RoundsExact.updateBlockMetadata (h : RoundsExact ctx d) (hv3 : ctx.protocolConfig.enableV3 = true)
    (hd : d.updateBlockMetadata ctx b = .ok d') : RoundsExact ctx d' := by
  obtain ⟨-, hrecent, hlast, hround⟩ := updateBlockMetadata_v3 hv3 h.contiguous hd
  have hgc : d'.gcRound ctx = d.gcRound ctx := by simp only [gcRound, lastCommitRound, hlast]
  by_cases hle : b.round ≤ d.gcRound ctx
  · rw [if_pos hle] at hround
    refine ⟨hround ▸ h.contiguous, ?_, hround ▸ h.totalStake, hround ▸ h.nonempty, ?_⟩
    · intro info hi hg r
      rw [hround] at hi
      rw [hgc] at hg
      rw [h.blocks info hi hg, hrecent.isSome]
      refine and_congr_left fun hr => ⟨.inr, fun hs => hs.resolve_left ?_⟩
      rintro rfl
      rw [VerifiedBlock.reference_round] at hr
      omega
    · intro r hs hg
      rw [hgc] at hg
      rw [hround]
      refine h.covered r (((hrecent.isSome r).mp hs).resolve_left ?_) hg
      rintro rfl
      rw [VerifiedBlock.reference_round] at hg
      omega
  · rw [if_neg hle] at hround
    obtain ⟨infos, hcases, hcont, ⟨info1, hi1, hr1⟩, hmap⟩ := hround
    -- what the infos have before the block is put into the one of its round
    have hbefore : ∀ info ∈ infos, (d.gcRound ctx < info.round → ∀ r : BlockRef,
        r ∈ info.blocks ↔ d.recentBlocks[r]?.isSome ∧ r.round = info.round) ∧
          info.totalStake = .ofVotes ctx.committee (info.blocks.image BlockRef.author) ∧
          (info.round = b.round ∨ info.blocks.Nonempty) := by
      intro info hi
      rcases hcases with rfl | ⟨rfl, hbelow⟩
      · exact ⟨h.blocks info hi, h.totalStake info hi, .inr (h.nonempty info hi)⟩
      · rcases mem_concat.mp hi with hi | rfl
        · exact ⟨h.blocks info hi, h.totalStake info hi, .inr (h.nonempty info hi)⟩
        · refine ⟨fun hg r => ⟨fun hr => absurd hr (Finset.notMem_empty r), ?_⟩, new_eq_ofVotes _, .inl rfl⟩
          rintro ⟨hs, hr⟩
          obtain ⟨info, hi, hir⟩ := h.covered r hs (by rw [hr]; exact hg)
          have := hbelow info hi
          have hrb : r.round = b.round := hr
          omega
    have hsub : ∀ info ∈ d.roundInfo, info ∈ infos := by
      intro info hi
      rcases hcases with rfl | ⟨rfl, -⟩
      · exact hi
      · exact mem_append_left _ hi
    refine ⟨?_, ?_, ?_, ?_, ?_⟩
    · rw [hmap]
      exact hcont.map fun info => by split <;> rfl
    · intro info hi hg r
      obtain ⟨info0, hi0, rfl⟩ := mem_map.mp (hmap ▸ hi)
      rw [hgc] at hg
      rw [hrecent.isSome]
      split_ifs at hg ⊢ with heq
      · change r ∈ insert b.reference info0.blocks ↔ _ ∧ r.round = info0.round
        rw [Finset.mem_insert, (hbefore info0 hi0).1 hg r, or_and_right, eq_comm]
        refine or_congr_left (and_iff_left_of_imp ?_).symm
        rintro rfl
        exact heq.symm
      · rw [(hbefore info0 hi0).1 hg r]
        refine and_congr_left fun hr => ⟨.inr, fun hs => hs.resolve_left ?_⟩
        rintro rfl
        exact heq hr.symm
    · intro info hi
      obtain ⟨info0, hi0, rfl⟩ := mem_map.mp (hmap ▸ hi)
      have h₀ := (hbefore info0 hi0).2.1
      split
      · simp only [RoundInfo.withBlock, h₀, addUnique_ofVotes, Finset.image_insert]
      · exact h₀
    · intro info hi
      obtain ⟨info0, hi0, rfl⟩ := mem_map.mp (hmap ▸ hi)
      split_ifs with heq
      · exact Finset.insert_nonempty _ _
      · exact (hbefore info0 hi0).2.2.resolve_left heq
    · intro r hs hg
      rw [hgc] at hg
      have hfind : ∃ info ∈ infos, info.round = r.round := by
        rcases (hrecent.isSome r).mp hs with rfl | hs
        · exact ⟨info1, hi1, hr1⟩
        · obtain ⟨info, hi, hr⟩ := h.covered r hs hg
          exact ⟨info, hsub info hi, hr⟩
      obtain ⟨info, hi, hr⟩ := hfind
      rw [hmap]
      refine ⟨_, mem_map.mpr ⟨info, hi, rfl⟩, ?_⟩
      split
      · exact hr
      · exact hr

/-- A state with less cached at or below the GC round and the same infos of the rounds above it. -/
theorem VotesExact.of_trim (h : VotesExact ctx d) (hgc : d.gcRound ctx ≤ d'.gcRound ctx)
    (hsub : ∀ (r : BlockRef) info, d'.recentBlocks[r]? = some info → ∃ info0, d.recentBlocks[r]? = some info0 ∧ info0.voted = info.voted)
    (habove : ∀ r : BlockRef, d'.gcRound ctx < r.round → d'.recentBlocks[r]?.isSome = d.recentBlocks[r]?.isSome)
    (hcont : Contiguous d'.roundInfo) (hinfos : ∀ info, info ∈ d'.roundInfo → info ∈ d.roundInfo)
    (hkept : ∀ info ∈ d.roundInfo, d'.gcRound ctx < info.round → info ∈ d'.roundInfo) : VotesExact ctx d' := by
  have hvoted : ∀ {info0 info : BlockInfo}, info0.voted = info.voted →
      info0.block = info.block ∧ info0.children = info.children ∧ info0.childrenStake = info.childrenStake := by
    intro info0 info he
    simpa only [voted, Prod.mk.injEq] using he
  have hsup : ∀ (r : BlockRef) info0, d'.gcRound ctx < r.round → d.recentBlocks[r]? = some info0 →
      ∃ info, d'.recentBlocks[r]? = some info ∧ info0.voted = info.voted := by
    intro r info0 hg hi
    have hs := habove r hg
    rw [hi] at hs
    obtain ⟨info, hinfo⟩ := Option.isSome_iff_exists.mp hs
    obtain ⟨info1, hi1, he⟩ := hsub r info hinfo
    obtain rfl := Option.some.inj (hi.symm.trans hi1)
    exact ⟨info, hinfo, he⟩
  refine ⟨⟨?_, ?_, ?_⟩, ⟨hcont, ?_, fun info hi => h.totalStake info (hinfos info hi),
    fun info hi => h.nonempty info (hinfos info hi), ?_⟩⟩
  · intro x info hi p hp hpx hg
    obtain ⟨info0, hi0, he⟩ := hsub x info hi
    rw [habove p hg]
    exact h.parents hi0 p ((hvoted he).1 ▸ hp) hpx (by omega)
  · intro r info hi hg c
    obtain ⟨info0, hi0, he⟩ := hsub r info hi
    rw [← (hvoted he).2.1, h.children hi0 (by omega)]
    constructor
    · rintro ⟨child0, hchild0, hanc, hrc⟩
      obtain ⟨child, hchild, hce⟩ := hsup c child0 (by omega) hchild0
      exact ⟨child, hchild, (hvoted hce).1 ▸ hanc, hrc⟩
    · rintro ⟨child, hchild, hanc, hrc⟩
      obtain ⟨child0, hchild0, hce⟩ := hsub c child hchild
      exact ⟨child0, hchild0, (hvoted hce).1 ▸ hanc, hrc⟩
  · intro r info hi
    obtain ⟨info0, hi0, he⟩ := hsub r info hi
    rw [← (hvoted he).2.1, ← (hvoted he).2.2]
    exact h.childrenStake hi0
  · intro info hi hg r
    rw [h.blocks info (hinfos info hi) (by omega)]
    refine and_congr_left fun hr => ?_
    rw [habove r (by omega)]
  · intro r hs hg
    rw [habove r hg] at hs
    obtain ⟨info, hi, hr⟩ := h.covered r hs (by omega)
    exact ⟨info, hkept info hi (by omega), hr⟩

/-- A change of the marks of the cached blocks keeps the votes exact. -/
theorem VotesExact.of_voted (h : VotesExact ctx d) {m : BTreeMap BlockRef BlockInfo}
    (hm : ∀ r : BlockRef, m[r]?.map voted = d.recentBlocks[r]?.map voted) :
    VotesExact ctx { d with recentBlocks := m } := by
  refine h.of_trim le_rfl (fun r info hi => ?_) (fun r _ => ?_) h.contiguous (fun _ hi => hi) fun _ hi _ => hi
  · have hr := hm r
    rw [show m[r]? = some info from hi, Option.map_some] at hr
    exact Option.map_eq_some_iff.mp hr.symm
  · have := congrArg Option.isSome (hm r)
    simpa using this

theorem VotesExact.flush (h : VotesExact ctx d) : VotesExact ctx (d.flush ctx) := by
  obtain ⟨hsub, habove⟩ := flush_recent ctx d
  have hframe : (d.flush ctx).gcRound ctx = d.gcRound ctx ∧ Contiguous (d.flush ctx).roundInfo ∧
      (∀ info ∈ (d.flush ctx).roundInfo, info ∈ d.roundInfo) ∧
      ∀ info ∈ d.roundInfo, d.gcRound ctx < info.round → info ∈ (d.flush ctx).roundInfo := by
    unfold DagState.flush
    split
    · exact ⟨rfl, h.contiguous, fun _ hi => hi, fun _ hi _ => hi⟩
    · obtain ⟨m, refs, rounds, he⟩ := foldl_evict ctx ctx.authorities d.writeBuffered
      obtain ⟨hcont, hmem⟩ := h.contiguous.dropWhile (d.gcRound ctx)
      rw [he]
      exact ⟨rfl, hcont, fun info hi => ((hmem info).mp hi).1, fun info hi hg => (hmem info).mpr ⟨hi, hg⟩⟩
  obtain ⟨hgc, hcont, hinfos, hkept⟩ := hframe
  exact h.of_trim hgc.ge (fun r info hi => ⟨info, hsub r info hi, rfl⟩) (fun r hr => by rw [habove r (hgc ▸ hr)]) hcont hinfos
    fun info hi hg => hkept info hi (hgc ▸ hg)

/-- A state with the same cache and the same infos, and a GC round that is not lower. -/
theorem VotesExact.of_same (h : VotesExact ctx d) (hm : d'.recentBlocks = d.recentBlocks) (hr : d'.roundInfo = d.roundInfo)
    (hg : d.gcRound ctx ≤ d'.gcRound ctx) : VotesExact ctx d' :=
  h.of_trim hg (fun _ info hi => ⟨info, hm ▸ hi, rfl⟩) (fun _ _ => by rw [hm]) (hr ▸ h.contiguous)
    (fun _ hi => hr ▸ hi) fun _ hi _ => hr ▸ hi

variable {G : Set VerifiedBlock}

theorem VotesExact.idle (h : VotesExact ctx d) (hv3 : ctx.protocolConfig.enableV3 = true)
    (hh : Holds ctx G d) (hd : DagIdle ctx G d d') : VotesExact ctx d' := by
  rcases hd.cases with ⟨b, hb, hd⟩ | rfl | ⟨m, _, _, _, _, rfl, hm⟩
  · obtain ⟨-, ⟨-, rfl⟩ | ⟨hc, -, d1, h₁, rfl⟩⟩ := acceptBlock_cases hd
    · exact h
    · have hn : d.recentBlocks[b.reference]? = none := by
        rw [← Option.not_isSome_iff_eq_none]
        intro hs
        have hm : b.reference ∈ d.recentRefsByAuthority b.reference.author := hh.refs.mpr ⟨rfl, hs⟩
        unfold containsBlock at hc
        rw [if_pos (.inl hm)] at hc
        cases hc
      have h₂ : VotesExact ctx d1 :=
        ⟨h.toChildrenExact.updateBlockMetadata h.contiguous hv3 hn h₁, h.toRoundsExact.updateBlockMetadata hv3 h₁⟩
      exact h₂.of_same rfl rfl le_rfl
  · exact h.flush
  · have hvoted : VotesExact ctx { d with recentBlocks := m } := h.of_voted fun r => by
      have := congrArg (Option.map voted) (hm r)
      rw [Option.map_map, Option.map_map] at this
      exact this
    exact hvoted.of_same rfl rfl le_rfl

/-- The step lemma: every operation keeps the votes exact. -/
theorem VotesExact.step (h : VotesExact ctx d) (hv3 : ctx.protocolConfig.enableV3 = true)
    (hh : Holds ctx G d) (hd : DagStep ctx G d d') : VotesExact ctx d' := by
  cases hd with
  | idle hd => exact h.idle hv3 hh hd
  | setCommitted hd =>
    obtain ⟨info, hi, -, rfl⟩ := setCommitted_spec hd
    refine h.of_voted fun r => ?_
    split
    · rfl
    · rw [get_insert]
      split_ifs with hr
      · rw [← hr, hi]
        rfl
      · rfl
  | addCommit hc hd =>
    rcases addCommit_cases hd with rfl | ⟨-, -, rfl⟩
    · exact h
    · exact h.of_same rfl rfl (ctx.calculateGcRound_mono hc)

theorem VotesExact.genesisState (ctx : Context) : VotesExact ctx (DagState.genesisState ctx) := by
  have hempty : ∀ {r : BlockRef} {info : BlockInfo}, (DagState.genesisState ctx).recentBlocks[r]? ≠ some info := by
    intro r info hi
    simp [DagState.genesisState, DagState.initial] at hi
  refine ⟨⟨fun hi => absurd hi hempty, fun hi => absurd hi hempty, fun hi => absurd hi hempty⟩,
    ⟨Contiguous.nil, fun info hi => absurd hi not_mem_nil, fun info hi => absurd hi not_mem_nil,
      fun info hi => absurd hi not_mem_nil, fun r hs => ?_⟩⟩
  obtain ⟨info, hi⟩ := Option.isSome_iff_exists.mp hs
  exact absurd hi hempty

/-- The run lemma: with commit rule v3 the votes are exact in every reachable state. -/
theorem VotesExact.of_reachable (hv3 : ctx.protocolConfig.enableV3 = true) (h : DagReachable ctx G d) : VotesExact ctx d := by
  obtain ⟨d0, h₀, hrun⟩ := h
  have h0' := h₀
  rw [new_empty, Except.ok.injEq] at h₀
  subst h₀
  induction hrun with
  | refl => exact genesisState ctx
  | tail hrun hstep ih => exact ih.step hv3 (Holds.of_reachable ⟨_, h0', hrun⟩) hstep

end

end Sui

import Sui.Library.SlotRule
import Sui.Consensus.LeaderSlotDecider
import Sui.Consensus.Universe
import Sui.Consensus.Lemmas.Votes

/-!
# What the leader slot decider returns

`LeaderSlotDecider` on a DAG state with exact votes, in terms of the library's rule with two thresholds: a direct decision is
one of the view, and an indirect decision is the one of the anchor's history.
-/

namespace Sui

open Library Checked BTreeMap List DagState StakeAggregator VerifiedBlock BlockRef

/-- The thresholds of `Committee::new_v3` and its scaled budget `f`: a certificate and a quorum share honest stake, and what two
quorums share is still a certificate. -/
theorem Committee.newV3_thresholds {epoch maliciousStake crashStake : Nat} {authorities : List Authority} {c : Committee}
    (h : Committee.newV3 epoch authorities maliciousStake crashStake = .ok c) {f crash : Nat}
    (hf : Committee.scaledBudgets authorities maliciousStake crashStake = .ok (f, crash)) :
    0 < c.certificationThreshold ∧ 0 < c.quorumThreshold ∧
      c.stakeOf c.members + f < c.certificationThreshold + c.quorumThreshold ∧
      c.stakeOf c.members + f + c.certificationThreshold ≤ c.quorumThreshold + c.quorumThreshold := by
  unfold Committee.newV3 at h
  simp only [hf, ok_bind, bind_ok, assert_ok, pure_ok, exists_and_left, exists_const, decide_eq_true_eq] at h
  obtain ⟨-, -, -, hmeets, hsurvives, rfl⟩ := h
  rw [Committee.stakeOf_members]
  refine ⟨Nat.succ_pos _, ?_, ?_, ?_⟩ <;> simp only [] <;> omega

variable {d : DagState}

namespace BlockUniverse

variable {ctx : Context}

/-- So little stake is faulty that a certificate meets every quorum, and survives where two quorums meet. -/
structure TwoThresholds (G : BlockUniverse ctx) extends G.FaultBound where
  quorum_pos : 0 < ctx.committee.quorumThreshold
  certification_pos : 0 < ctx.committee.certificationThreshold
  certificate_meets :
    ctx.committee.stakeOf ctx.committee.members + faults < ctx.committee.certificationThreshold + ctx.committee.quorumThreshold
  certificate_survives : ctx.committee.stakeOf ctx.committee.members + faults + ctx.committee.certificationThreshold ≤
    ctx.committee.quorumThreshold + ctx.committee.quorumThreshold

/-- The bound on the faulty stake is the same for every node of the epoch. -/
def TwoThresholds.forNode {G : BlockUniverse ctx} (T : G.TwoThresholds) (own : AuthorityIndex) (parameters : Parameters) :
    (G.forNode own parameters).TwoThresholds :=
  ⟨⟨T.faults, T.faulty_le⟩, T.quorum_pos, T.certification_pos, T.certificate_meets, T.certificate_survives⟩

variable {G : BlockUniverse ctx}

/-- The rule with two thresholds over the blocks of the epoch. -/
def slotRule (T : G.TwoThresholds) : SlotRule BlockRef AuthorityIndex where
  toQuorumDag := quorumDag T.toFaultBound T.quorum_pos
  certification := ctx.committee.certificationThreshold
  certification_pos := T.certification_pos
  certificate_meets := T.certificate_meets
  certificate_survives := T.certificate_survives

variable {T : G.TwoThresholds}

/-- Whether the references of a set are heavy is a matter of the stake of their authors. -/
theorem heavy_image_iff (h : Holds ctx G.blocks d) {P : BlockRef → Prop} {s : Finset BlockRef}
    (hs : ∀ r, r ∈ s ↔ d.recentBlocks[r]?.isSome ∧ P r) {t : Nat} :
    (slotRule T).members.Heavy (slotRule T).dag t (fun r => d.recentBlocks[r]?.isSome ∧ P r) ↔
      t ≤ ctx.committee.stakeOf (s.image author) := by
  have himage : (s.toList.map author).toFinset = s.image author := by
    ext a
    simp
  rw [← himage]
  refine heavy_iff (fun r => Finset.mem_toList.trans (hs r)) fun r hr => ?_
  obtain ⟨info, -, hb, rfl⟩ := h.exists_recent ((hs r).mp (Finset.mem_toList.mp hr)).1
  exact (G.wellFormed hb).author_valid

theorem slotNode_iff {b : VerifiedBlock} (hb : b ∈ G.blocks) {slot : Slot} :
    (slotRule T).SlotNode slot.round slot.authority b.reference ↔ b.slot = slot := by
  constructor
  · rintro ⟨-, hr, ha⟩
    cases slot
    exact congrArg₂ Slot.mk hr ha
  · rintro rfl
    exact ⟨mem_nodes hb, rfl, rfl⟩

end BlockUniverse

variable {info : BlockInfo}

namespace DagState

/-- What `get_round_info` returns is the info of the round, which is above the GC round. -/
theorem getRoundInfo_spec (ctx : Context) (hc : Contiguous d.roundInfo) (round : Nat) : ∃ o, d.getRoundInfo ctx round = .ok o ∧
      ∀ info, o = some info → info ∈ d.roundInfo ∧ info.round = round ∧ d.gcRound ctx < round := by
  unfold getRoundInfo
  split
  · exact ⟨none, rfl, nofun⟩
  · rename_i front hf
    split_ifs with hr
    · exact ⟨none, rfl, nofun⟩
    · split
      · exact ⟨none, rfl, nofun⟩
      · rename_i info hi
        have hround : info.round = round := by
          have := hc.round_of_getElem hf hi
          omega
        refine ⟨some info, ?_, ?_⟩
        · simp [hround]
        · intro x hx
          obtain rfl := Option.some.inj hx
          exact ⟨mem_of_getElem? hi, hround, by omega⟩

theorem mem_infosAtSlot {slot : Slot} :
    info ∈ d.infosAtSlot slot ↔ ∃ r : BlockRef, d.recentBlocks[r]? = some info ∧ r.slot = slot := by
  simp only [infosAtSlot, mem_map, mem_filter, Prod.exists, mem_toList, beq_iff_eq, exists_eq_right]

end DagState

namespace LeaderSlotDecider

open BlockUniverse

variable {ctx : Context}

/-! ## Direct decision -/

theorem rejectVotes_eq (votingRound : RoundInfo) (info : BlockInfo) :
    rejectVotes ctx votingRound info = .ofVotes ctx.committee ((votingRound.blocks \ info.children).image author) := by
  have hfold := foldl_addUnique (t := .quorum) ctx.committee
    ((BTreeSet.iter (votingRound.blocks \ info.children)).map author) ∅
  have himage : ((BTreeSet.iter (votingRound.blocks \ info.children)).map author).toFinset =
      (votingRound.blocks \ info.children).image author := by
    ext a
    simp
  rw [foldl_map, Finset.empty_union, himage] at hfold
  rw [rejectVotes, new_eq_ofVotes ctx.committee]
  exact hfold

/-- The loop commits a block with a quorum of votes, or counts those with a quorum against them. -/
theorem decideBlocks_eq (votingRound : RoundInfo) (infos : List BlockInfo) (skipped : Nat)
    (hno : ∀ info ∈ infos, info.childrenStake.reachedThreshold ctx.committee = true →
      (rejectVotes ctx votingRound info).reachedThreshold ctx.committee = false) :
    (∃ info ∈ infos, info.childrenStake.reachedThreshold ctx.committee = true ∧
        decideBlocks ctx votingRound infos skipped = .ok (.inl info.block)) ∨
      decideBlocks ctx votingRound infos skipped = .ok (.inr (skipped +
        (infos.filter fun info => (rejectVotes ctx votingRound info).reachedThreshold ctx.committee).length)) := by
  induction infos generalizing skipped with
  | nil => exact .inr rfl
  | cons info _ ih =>
    by_cases hq : info.childrenStake.reachedThreshold ctx.committee = true
    · refine .inl ⟨info, mem_cons_self, hq, ?_⟩
      rw [decideBlocks]
      simp only [hq, if_true, hno info mem_cons_self hq, Bool.not_false, assert_true, ok_bind, pure_eq_ok]
    · rw [decideBlocks]
      simp only [hq]
      rcases ih (if (rejectVotes ctx votingRound info).reachedThreshold ctx.committee = true then skipped + 1 else skipped)
        fun x hx => hno x (mem_cons_of_mem _ hx) with ⟨x, hx, hxq, he⟩ | he
      · exact .inl ⟨x, mem_cons_of_mem _ hx, hxq, he⟩
      · right
        rw [if_neg (by simp), he, filter_cons]
        split
        · rw [length_cons]
          congr 2
          omega
        · rfl

section

variable {G : BlockUniverse ctx} {T : G.TwoThresholds} {d : DagState} (h : Holds ctx G.blocks d) (hc : d.AncestorClosed ctx)
  (hv : VotesExact ctx d)

include hv

/-- The stake of the children of a block is the one of the votes for it. -/
theorem childrenStake_iff {r : BlockRef} (hi : d.recentBlocks[r]? = some info) (hg : d.gcRound ctx < r.round) :
    info.childrenStake.reachedThreshold ctx.committee = true ↔ (slotRule T).members.Heavy (slotRule T).dag (slotRule T).quorum
        fun n => n ∈ (view h hc).carrier ∧ (slotRule T).Vote r n := by
  rw [hv.childrenStake hi, reachedThreshold_ofVotes, decide_eq_true_eq]
  refine (heavy_image_iff h fun n => ?_).symm
  rw [hv.children hi hg]
  constructor
  · rintro ⟨child, hchild, hanc, hr⟩
    obtain ⟨hb, rfl⟩ := h.recent hchild
    exact ⟨Option.isSome_iff_exists.mpr ⟨child, hchild⟩, mem_nodes hb, hr.symm, (mem_parents hb).mpr hanc⟩
  · rintro ⟨hn, -, hr, hp⟩
    obtain ⟨child, hchild, hb, rfl⟩ := h.exists_recent hn
    exact ⟨child, hchild, (mem_parents hb).mp hp, hr.symm⟩

/-- The stake against a block is the one of the other blocks of the voting round. -/
theorem rejectVotes_iff {votingRound : RoundInfo} (hm : votingRound ∈ d.roundInfo) (hg : d.gcRound ctx < votingRound.round)
    {r : BlockRef} (hr : r.round + 1 = votingRound.round) (hi : d.recentBlocks[r]? = some info)
    (hgr : d.gcRound ctx < r.round) :
    (rejectVotes ctx votingRound info).reachedThreshold ctx.committee = true ↔ (slotRule T).Rejects (view h hc) r.round r := by
  rw [rejectVotes_eq, reachedThreshold_ofVotes, decide_eq_true_eq]
  refine (heavy_image_iff h fun n => ?_).symm
  rw [Finset.mem_sdiff, hv.blocks votingRound hm hg, hv.children hi hgr]
  constructor
  · rintro ⟨⟨hs, hnr⟩, hno⟩
    refine ⟨hs, by simp only [slotRule, quorumDag, dag]; omega, fun hp => hno ?_⟩
    obtain ⟨child, hchild, hb, hbr⟩ := h.exists_recent hs
    refine ⟨child, hchild, (mem_parents hb).mp (hbr.symm ▸ hp), by omega⟩
  · rintro ⟨hs, hnr, hno⟩
    have hnr' : n.round = r.round + 1 := hnr
    refine ⟨⟨hs, by omega⟩, ?_⟩
    rintro ⟨child, hchild, hanc, -⟩
    obtain ⟨hb, hbr⟩ := h.recent hchild
    exact hno (hbr ▸ (mem_parents hb).mpr hanc)

/-- The stake of a round is the one of its blocks. -/
theorem totalStake_iff {votingRound : RoundInfo} (hm : votingRound ∈ d.roundInfo) (hg : d.gcRound ctx < votingRound.round)
    {k : Nat} (hk : votingRound.round = k) :
    votingRound.totalStake.reachedThreshold ctx.committee = true ↔
      (slotRule T).members.Heavy (slotRule T).dag (slotRule T).quorum
        fun n => n ∈ (view h hc).carrier ∧ (slotRule T).dag.round n = k := by
  rw [hv.totalStake votingRound hm, reachedThreshold_ofVotes, decide_eq_true_eq]
  refine (heavy_image_iff h fun n => ?_).symm
  rw [hv.blocks votingRound hm hg, hk]
  rfl

omit hv in
/-- A status that is decided is the decision of the view on a slot above the GC round. -/
structure DirectSound (T : G.TwoThresholds) (h : Holds ctx G.blocks d) (hc : d.AncestorClosed ctx) (slot : Slot)
    (status : LeaderStatus) : Prop where
  commit : ∀ B, status = .commit B → d.gcRound ctx < slot.round ∧ B ∈ G.blocks ∧
    (slotRule T).Commits (view h hc) slot.round slot.authority B.reference
  skip : ∀ s, status = .skip s → s = slot ∧ d.gcRound ctx < slot.round ∧
    (slotRule T).Skips (view h hc) slot.round slot.authority

/-- A direct decision is the one of the view. It panics only on a slot that is not above the GC round. -/
theorem tryDirectDecide_spec (T : G.TwoThresholds) (slot : Slot) :
    (∃ status, tryDirectDecide ctx d slot = .ok status ∧ DirectSound T h hc slot status) ∨
      (slot.round ≤ d.gcRound ctx ∧ tryDirectDecide ctx d slot = .error (Panic.slotNotAboveGcRound slot)) := by
  obtain ⟨o, hround, ho⟩ := getRoundInfo_spec ctx hv.contiguous (slot.round + 1)
  unfold tryDirectDecide
  rw [hround, ok_bind]
  cases o with
  | none => exact .inl ⟨.undecided slot, rfl, by simp, by simp⟩
  | some votingRound =>
    obtain ⟨hm, hr, hg⟩ := ho votingRound rfl
    simp only []
    by_cases hq : votingRound.totalStake.reachedThreshold ctx.committee = true
    swap
    · rw [if_pos (by simpa using hq)]
      exact .inl ⟨.undecided slot, rfl, by simp, by simp⟩
    rw [if_neg (by simpa using hq)]
    by_cases hgs : d.gcRound ctx < slot.round
    swap
    · have hassert : d.getBlockInfoAtSlot ctx slot = .error (Panic.slotNotAboveGcRound slot) := by
        simp [getBlockInfoAtSlot, assert, hgs]
      rw [hassert]
      exact .inr ⟨by omega, rfl⟩
    have hinfos : d.getBlockInfoAtSlot ctx slot = .ok (d.infosAtSlot slot) := by
      simp [getBlockInfoAtSlot, assert, hgs]
    rw [hinfos, ok_bind]
    have hslot : ∀ info ∈ d.infosAtSlot slot, ∃ r : BlockRef, d.recentBlocks[r]? = some info ∧ r.slot = slot ∧
        (slotRule T).SlotNode slot.round slot.authority r := by
      intro info hinfo
      obtain ⟨r, hi, hrs⟩ := mem_infosAtSlot.mp hinfo
      obtain ⟨hb, rfl⟩ := h.recent hi
      exact ⟨_, hi, hrs, (slotNode_iff hb).mpr hrs⟩
    have hcommits : ∀ info ∈ d.infosAtSlot slot, info.childrenStake.reachedThreshold ctx.committee = true →
        info.block ∈ G.blocks ∧ (slotRule T).Commits (view h hc) slot.round slot.authority info.block.reference := by
      intro info hinfo hstake
      obtain ⟨r, hi, hrs, hnode⟩ := hslot info hinfo
      obtain ⟨hb, rfl⟩ := h.recent hi
      have hgr : d.gcRound ctx < info.block.reference.round := by
        rw [← hrs] at hgs
        exact hgs
      exact ⟨hb, hnode, (childrenStake_iff h hc hv hi hgr).mp hstake⟩
    have hrejects : ∀ info ∈ d.infosAtSlot slot, (rejectVotes ctx votingRound info).reachedThreshold ctx.committee = true →
        (slotRule T).Rejects (view h hc) slot.round info.block.reference := by
      intro info hinfo hreject
      obtain ⟨r, hi, hrs, -⟩ := hslot info hinfo
      obtain ⟨hb, rfl⟩ := h.recent hi
      have hsr : info.block.reference.round = slot.round := congrArg Slot.round hrs
      have := (rejectVotes_iff (T := T) h hc hv hm (by omega) (by omega) hi (by omega)).mp hreject
      rwa [hsr] at this
    have hno : ∀ info ∈ d.infosAtSlot slot, info.childrenStake.reachedThreshold ctx.committee = true →
        (rejectVotes ctx votingRound info).reachedThreshold ctx.committee = false := by
      intro info hinfo hstake
      rw [← Bool.not_eq_true]
      intro hreject
      exact SlotRule.not_rejects_of_commits (hcommits info hinfo hstake).2 (hrejects info hinfo hreject)
    rcases decideBlocks_eq votingRound (d.infosAtSlot slot) 0 hno with ⟨info, hinfo, hstake, he⟩ | he
    · rw [he, ok_bind]
      refine .inl ⟨.commit info.block, rfl, fun B hB => ?_, by simp⟩
      obtain rfl := LeaderStatus.commit.inj hB
      exact ⟨hgs, hcommits info hinfo hstake⟩
    · rw [he, ok_bind, Nat.zero_add]
      simp only []
      split_ifs with hall
      · refine .inl ⟨.skip slot, rfl, by simp, fun s hs => ?_⟩
        refine ⟨(LeaderStatus.skip.inj hs).symm, hgs, (totalStake_iff h hc hv hm (by omega) hr).mp hq, ?_⟩
        intro L hL hnode
        obtain ⟨info, hi, hb, rfl⟩ := h.exists_recent hL
        have hinfo : info ∈ d.infosAtSlot slot := mem_infosAtSlot.mpr ⟨_, hi, (slotNode_iff hb).mp hnode⟩
        rw [length_filter_eq_length_iff] at hall
        exact hrejects info hinfo (hall info hinfo)
      · exact .inl ⟨.undecided slot, rfl, by simp, by simp⟩

end

/-! ## Indirect decision -/

/-- The votes of the map are those of the given authorities. -/
def Counted (ctx : Context) (votes : CommitVotes) (v : BlockRef → Finset AuthorityIndex) : Prop :=
  ∀ L : BlockRef, votes[L]? = if v L = ∅ then none else some (.ofVotes ctx.committee (v L))

variable {v : BlockRef → Finset AuthorityIndex} {votes : CommitVotes}

theorem Counted.addVote (h : Counted ctx votes v) (r : BlockRef)
    (a : AuthorityIndex) : Counted ctx (addVote ctx votes r a) (Function.update v r (insert a (v r))) := by
  intro L
  rw [LeaderSlotDecider.addVote, get_insert]
  by_cases hr : r = L
  · subst hr
    have hget : votes[r]?.getD .new = .ofVotes ctx.committee (v r) := by
      rw [h r]
      split_ifs with he
      · rw [he]
        exact new_eq_ofVotes ctx.committee
      · rfl
    rw [if_pos rfl, Function.update_self, if_neg (Finset.insert_ne_empty _ _), hget, addUnique_ofVotes]
  · rw [if_neg hr, Function.update_of_ne (Ne.symm hr), h L]

section

variable {G : BlockUniverse ctx} {d : DagState} (h : Holds ctx G.blocks d) (hc : d.AncestorClosed ctx) {A : VerifiedBlock}
  {k : Nat} {decisionBlocks : BTreeSet BlockRef}

variable (G d A k decisionBlocks) in
/-- The state of the traversal. The ancestors that were processed are visited if above the decision round, and their votes are
counted. -/
structure Searching (processed : List (VerifiedBlock × List BlockRef)) (s : Search) : Prop where
  root : A.reference ∈ s.visited
  visited : ∀ r, r ∈ s.visited ↔ ∃ b, (b ∈ processed.map Prod.fst ∨ b ∈ s.toVisit) ∧ b.reference = r
  reached : ∀ b, b ∈ processed.map Prod.fst ∨ b ∈ s.toVisit → d.InView b ∧ G.dag.Reach A.reference b.reference
  closed : ∀ q ∈ processed, ∀ p ∈ q.2, k < p.round → p ∈ s.visited
  votes : ∃ v, Counted ctx s.votes v ∧ ∀ L a, a ∈ v L ↔
    L ∈ decisionBlocks ∧ ∃ q ∈ processed, q.1.author = a ∧ q.1.round = k + 1 ∧ L ∈ q.2

/-- What is left to do: the blocks to visit and those that are not visited. -/
def searchLeft (d : DagState) (s : Search) : Nat := (d.knownRefs \ s.visited).card + s.toVisit.length

variable {processed : List (VerifiedBlock × List BlockRef)} {b : VerifiedBlock}

include h hc in
/-- An ancestor is visited once, and no more is left to do than before. -/
theorem enqueue_step (hk : d.gcRound ctx ≤ k) {pre : List BlockRef} {s : Search}
    (hs : Searching G d A k decisionBlocks ((b, pre) :: processed) s) {a : BlockRef} (ha : a ∈ b.ancestors) :
    ∃ s', enqueue d k s a = .ok s' ∧ Searching G d A k decisionBlocks ((b, pre) :: processed) s' ∧
      (k < a.round → a ∈ s'.visited) ∧ searchLeft d s' ≤ searchLeft d s := by
  unfold enqueue
  by_cases hnew : a.round > k ∧ a ∉ s.visited
  · obtain ⟨⟨info, hi, rfl⟩, hbr⟩ := hs.reached b (.inl (by simp))
    have hbG := (h.recent hi).1
    have hb0 : info.block.reference.round ≠ 0 := by
      have := (G.wellFormed hbG).round_pos
      rw [reference_round]
      omega
    obtain ⟨x, hx⟩ := Option.isSome_iff_exists.mp (hc _ _ (getBlock_recent hi hb0) a ha (by omega))
    obtain ⟨xinfo, hxi, rfl⟩ := h.recent_of_getBlock hx (by omega)
    have hxa : xinfo.block.reference = a := (h.recent hxi).2
    refine ⟨{ s with toVisit := s.toVisit ++ [xinfo.block], visited := insert a s.visited }, ?_, ?_,
      fun _ => Finset.mem_insert_self _ _, ?_⟩
    · rw [if_pos hnew, hx]
      rfl
    · refine ⟨Finset.mem_insert_of_mem hs.root, fun r => ?_, fun y hy => ?_, fun q hq p hp hpk => ?_, hs.votes⟩
      · rw [Finset.mem_insert, hs.visited]
        constructor
        · rintro (rfl | ⟨y, hy, hyr⟩)
          · exact ⟨xinfo.block, .inr (by simp), hxa⟩
          · exact ⟨y, hy.imp_right fun hy => mem_append_left _ hy, hyr⟩
        · rintro ⟨y, hy | hy, hyr⟩
          · exact .inr ⟨y, .inl hy, hyr⟩
          · rcases mem_concat.mp hy with hy | rfl
            · exact .inr ⟨y, .inr hy, hyr⟩
            · exact .inl (hyr.symm.trans hxa)
      · rcases hy with hy | hy
        · exact hs.reached y (.inl hy)
        · rcases mem_concat.mp hy with hy | rfl
          · exact hs.reached y (.inr hy)
          · exact ⟨h.inView_of_recent hxi, hbr.tail ((mem_parents hbG).mpr (hxa ▸ ha))⟩
      · exact Finset.mem_insert_of_mem (hs.closed q hq p hp hpk)
    · have hknown : a ∈ d.knownRefs \ s.visited := by
        rw [Finset.mem_sdiff]
        refine ⟨?_, hnew.2⟩
        unfold knownRefs
        rw [Finset.mem_union, Finset.mem_union, mem_keySet, mem_keySet, mem_keySet]
        exact .inl (.inr (by rw [hxi]; rfl))
      have hcard : (d.knownRefs \ insert a s.visited).card + 1 = (d.knownRefs \ s.visited).card := by
        rw [Finset.sdiff_insert, Finset.card_erase_add_one hknown]
      simp only [searchLeft, length_append, length_singleton]
      omega
  · refine ⟨s, by rw [if_neg hnew]; rfl, hs, fun hak => ?_, le_rfl⟩
    by_contra hno
    exact hnew ⟨hak, hno⟩

include h hc in
/-- The step lemma of the loop over the ancestors. -/
theorem visitAncestor_step (hk : d.gcRound ctx ≤ k) {pre : List BlockRef} {s : Search}
    (hs : Searching G d A k decisionBlocks ((b, pre) :: processed) s) {a : BlockRef} (ha : a ∈ b.ancestors) :
    ∃ s', visitAncestor ctx d k decisionBlocks b s a = .ok s' ∧
      Searching G d A k decisionBlocks ((b, pre ++ [a]) :: processed) s' ∧ searchLeft d s' ≤ searchLeft d s := by
  obtain ⟨s1, hrun, hs1, hav, hleft⟩ := enqueue_step h hc hk hs ha
  unfold visitAncestor
  rw [hrun, ok_bind]
  obtain ⟨v, hv, hmem⟩ := hs1.votes
  have hclosed : ∀ q ∈ (b, pre ++ [a]) :: processed, ∀ p ∈ q.2, k < p.round → p ∈ s1.visited := by
    intro q hq p hp hpk
    rcases mem_cons.mp hq with rfl | hq
    · rcases mem_concat.mp hp with hp | rfl
      · exact hs1.closed (b, pre) mem_cons_self p hp hpk
      · exact hav hpk
    · exact hs1.closed q (mem_cons_of_mem _ hq) p hp hpk
  by_cases hvote : a ∈ decisionBlocks ∧ b.round = k + 1
  · rw [if_pos hvote]
    refine ⟨_, rfl, ⟨hs1.root, hs1.visited, hs1.reached, hclosed, _, hv.addVote a b.author, fun L x => ?_⟩, hleft⟩
    simp only [mem_cons, exists_eq_or_imp, Function.update_apply, mem_append, not_mem_nil, or_false]
    have hL := hmem L x
    simp only [mem_cons, exists_eq_or_imp] at hL
    by_cases hLa : L = a
    · subst hLa
      rw [if_pos rfl, Finset.mem_insert, hL]
      constructor
      · rintro (rfl | ⟨hd, hq⟩)
        · exact ⟨hvote.1, .inl ⟨rfl, hvote.2, .inr rfl⟩⟩
        · exact ⟨hd, hq.imp_left fun hq => ⟨hq.1, hq.2.1, .inl hq.2.2⟩⟩
      · rintro ⟨hd, ⟨rfl, -, -⟩ | hq⟩
        · exact .inl rfl
        · exact .inr ⟨hd, .inr hq⟩
    · rw [if_neg hLa, hL]
      simp only [hLa, or_false]
  · rw [if_neg hvote]
    refine ⟨_, rfl, ⟨hs1.root, hs1.visited, hs1.reached, hclosed, v, hv, fun L x => ?_⟩, hleft⟩
    rw [hmem]
    simp only [mem_cons, exists_eq_or_imp, mem_append, not_mem_nil, or_false]
    refine and_congr_right fun hd => or_congr_left ?_
    refine and_congr_right fun _ => and_congr_right fun hr => ⟨.inl, fun hL => hL.resolve_right ?_⟩
    rintro rfl
    exact hvote ⟨hd, hr⟩

/-- The votes of the map are those in the history of the anchor, for the given decision blocks of round `k`. -/
def VotesInHistory (G : BlockUniverse ctx) (A : VerifiedBlock) (k : Nat) (decisionBlocks : BTreeSet BlockRef)
    (v : BlockRef → Finset AuthorityIndex) : Prop :=
  ∀ L a, a ∈ v L ↔ L ∈ decisionBlocks ∧ ∃ n ∈ G.blocks, n.author = a ∧ n.round = k + 1 ∧ L ∈ n.ancestors ∧
    G.dag.Reach A.reference n.reference

include h in
/-- With nothing left to visit the votes are those in the history of the anchor. -/
theorem Searching.votesInHistory {s : Search} (hs : Searching G d A k decisionBlocks processed s)
    (hfull : ∀ q ∈ processed, q.2 = q.1.ancestors) (hvisit : s.toVisit = []) :
    ∃ v, Counted ctx s.votes v ∧ VotesInHistory G A k decisionBlocks v := by
  have hvisited : ∀ x ∈ s.visited, ∃ q ∈ processed, q.1 ∈ G.blocks ∧ q.1.reference = x := by
    intro x hx
    obtain ⟨b, hb, rfl⟩ := (hs.visited x).mp hx
    rw [hvisit] at hb
    obtain ⟨q, hq, rfl⟩ := mem_map.mp (hb.resolve_right not_mem_nil)
    exact ⟨q, hq, h.mem_of_inView (hs.reached q.1 (.inl (mem_map.mpr ⟨q, hq, rfl⟩))).1, rfl⟩
  obtain ⟨v, hv, hmem⟩ := hs.votes
  refine ⟨v, hv, fun L a => ?_⟩
  rw [hmem]
  refine and_congr_right fun _ => ⟨?_, ?_⟩
  · rintro ⟨q, hq, ha, hr, hL⟩
    obtain ⟨hqv, hqr⟩ := hs.reached q.1 (.inl (mem_map.mpr ⟨q, hq, rfl⟩))
    exact ⟨q.1, h.mem_of_inView hqv, ha, hr, hfull q hq ▸ hL, hqr⟩
  · rintro ⟨n, hn, ha, hr, hL, hreach⟩
    -- the visited references are closed under ancestors above the decision round
    have hclosed : ∀ x ∈ (s.visited : Set BlockRef), ∀ p ∈ G.dag.parents x, k < G.dag.round p → p ∈ (s.visited : Set BlockRef) := by
      intro x hx p hp hpk
      obtain ⟨q, hq, hqG, rfl⟩ := hvisited x hx
      exact hs.closed q hq p (hfull q hq ▸ (mem_parents hqG).mp hp) hpk
    have hkn : k < G.dag.round n.reference := by
      simp only [dag, reference_round]
      omega
    obtain ⟨q, hq, hqG, hqn⟩ := hvisited _ (Dag.mem_of_reach hclosed hs.root hreach hkn)
    obtain rfl := G.reference_injective q.1 hqG n hn hqn
    exact ⟨q, hq, ha, hr, hfull q hq ▸ hL⟩

include h hc in
/-- The traversal returns the votes in the history of the anchor. -/
theorem collectVotes_spec (hA : d.InView A) (hk : d.gcRound ctx ≤ k) (decisionBlocks : BTreeSet BlockRef) :
    ∃ votes v, collectVotes ctx d A k decisionBlocks = .ok votes ∧ Counted ctx votes v ∧ VotesInHistory G A k decisionBlocks v := by
  let Inv : Search → Prop := fun s =>
    ∃ processed, Searching G d A k decisionBlocks processed s ∧ ∀ q ∈ processed, q.2 = q.1.ancestors
  let Post : CommitVotes → Prop := fun votes => ∃ v, Counted ctx votes v ∧ VotesInHistory G A k decisionBlocks v
  have hbody : ∀ s, Inv s → (∃ s', visit ctx d k decisionBlocks s = .ok (.next s') ∧ Inv s' ∧ searchLeft d s' < searchLeft d s) ∨
      ∃ votes, visit ctx d k decisionBlocks s = .ok (.done votes) ∧ Post votes := by
    rintro s ⟨processed, hs, hfull⟩
    cases hvisit : s.toVisit with
    | nil => exact .inr ⟨s.votes, by rw [visit, hvisit]; rfl, hs.votesInHistory h hfull hvisit⟩
    | cons b toVisit =>
      have hstart : Searching G d A k decisionBlocks ((b, []) :: processed) { s with toVisit } := by
        have hiff : ∀ x, (x ∈ ((b, ([] : List BlockRef)) :: processed).map Prod.fst ∨ x ∈ toVisit) ↔
            (x ∈ processed.map Prod.fst ∨ x ∈ s.toVisit) := by
          intro x
          rw [hvisit, map_cons, mem_cons, mem_cons]
          tauto
        obtain ⟨v, hv, hmem⟩ := hs.votes
        refine ⟨hs.root, fun r => ?_, fun x hx => hs.reached x ((hiff x).mp hx), fun q hq p hp hpk => ?_, v, hv, fun L a => ?_⟩
        · rw [hs.visited]
          exact exists_congr fun x => and_congr_left fun _ => (hiff x).symm
        · rcases mem_cons.mp hq with rfl | hq
          · exact absurd hp not_mem_nil
          · exact hs.closed q hq p hp hpk
        · rw [hmem]
          simp
      obtain ⟨s', hfold, hs', hleft⟩ := foldlM_total
        (fun pre c => Searching G d A k decisionBlocks ((b, pre) :: processed) c ∧ searchLeft d c ≤ searchLeft d { s with toVisit })
        (f := visitAncestor ctx d k decisionBlocks b) (l := b.ancestors) ⟨hstart, le_rfl⟩ (by
          rintro pre a post c hpre ⟨hcs, hcl⟩
          obtain ⟨c', hc', hcs', hcl'⟩ := visitAncestor_step h hc hk hcs (a := a) (by rw [hpre]; simp)
          exact ⟨c', hc', hcs', hcl'.trans hcl⟩)
      refine .inl ⟨s', ?_, ⟨_, hs', fun q hq => ?_⟩, ?_⟩
      · rw [visit, hvisit]
        simp only [hfold, ok_bind, pure_eq_ok]
      · rcases mem_cons.mp hq with rfl | hq
        · rfl
        · exact hfull q hq
      · refine lt_of_le_of_lt hleft ?_
        simp only [searchLeft, hvisit, length_cons]
        omega
  have hinit : Inv ⟨[A], {A.reference}, ∅⟩ := by
    refine ⟨[], ⟨Finset.mem_singleton_self _, fun r => ?_, fun b hb => ?_, by simp, fun _ => ∅, fun L => ?_, fun L a => ?_⟩, by simp⟩
    · simp only [Finset.mem_singleton, map_nil, not_mem_nil, mem_singleton, false_or, exists_eq_left]
      exact eq_comm
    · simp only [map_nil, not_mem_nil, mem_singleton, false_or] at hb
      subst hb
      exact ⟨hA, Relation.ReflTransGen.refl⟩
    · rw [if_pos rfl]
      exact get_empty _
    · simp
  have hfuel : searchLeft d ⟨[A], {A.reference}, ∅⟩ < d.knownRefs.card + 2 := by
    have := Finset.card_le_card (Finset.sdiff_subset (s := d.knownRefs) (t := {A.reference}))
    simp only [searchLeft, length_singleton]
    omega
  have hloop : ∃ votes, Loop.run Panic.outOfFuel (visit ctx d k decisionBlocks) (d.knownRefs.card + 2) ⟨[A], {A.reference}, ∅⟩ = .ok votes ∧
      Post votes := Loop.run_total Inv Post (searchLeft d) hinit hfuel hbody
  obtain ⟨votes, hrun, v, hv⟩ := hloop
  exact ⟨votes, v, hrun, hv⟩

/-- The decision on a slot from the history of an anchor: the certified block of the slot, if it is the only one. -/
def IndirectDecision (T : G.TwoThresholds) (A : VerifiedBlock) (slot : Slot) (status : LeaderStatus) : Prop :=
  (∃ B ∈ G.blocks, status = .commit B ∧ (slotRule T).SlotNode slot.round slot.authority B.reference ∧
      (slotRule T).Certified A.reference B.reference ∧
      ∀ L, (slotRule T).SlotNode slot.round slot.authority L → (slotRule T).Certified A.reference L → L = B.reference) ∨
    (status = .skip slot ∧ ¬ ∃ L, ((slotRule T).SlotNode slot.round slot.authority L ∧ (slotRule T).Certified A.reference L) ∧
      ∀ L', (slotRule T).SlotNode slot.round slot.authority L' → (slotRule T).Certified A.reference L' → L' = L)

variable {T : G.TwoThresholds} {slot : Slot}

/-- The decision does not depend on the view. -/
theorem IndirectDecision.unique {status status' : LeaderStatus}
    (hs : IndirectDecision T A slot status) (hs' : IndirectDecision T A slot status') : status = status' := by
  rcases hs with ⟨B, hB, rfl, hnode, hcert, huniq⟩ | ⟨rfl, hno⟩
  · rcases hs' with ⟨B', hB', rfl, hnode', hcert', -⟩ | ⟨rfl, hno'⟩
    · rw [G.reference_injective B' hB' B hB (huniq _ hnode' hcert')]
    · exact absurd ⟨_, ⟨hnode, hcert⟩, huniq⟩ hno'
  · rcases hs' with ⟨B', hB', rfl, hnode', hcert', huniq'⟩ | ⟨rfl, -⟩
    · exact absurd ⟨_, ⟨hnode', hcert'⟩, huniq'⟩ hno
    · rfl

/-- A decision block is certified when its votes reach the threshold. -/
theorem certified_iff (hv : VotesInHistory G A k decisionBlocks v)
    {L : BlockRef} (hL : L ∈ decisionBlocks) (hLk : L.round = k) :
    (slotRule T).Certified A.reference L ↔ ctx.committee.certificationThreshold ≤ ctx.committee.stakeOf (v L) := by
  have hauthors : (slotRule T).members.authors (slotRule T).dag
      (fun n => (slotRule T).dag.Reach A.reference n ∧ (slotRule T).Vote L n) = v L := by
    ext a
    rw [Members.mem_authors, hv]
    constructor
    · rintro ⟨-, n, ⟨hreach, ⟨b, hb, rfl⟩, hr, hp⟩, rfl⟩
      have hr' : b.round = L.round + 1 := hr
      exact ⟨hL, b, hb, rfl, by omega, (mem_parents hb).mp hp, hreach⟩
    · rintro ⟨-, b, hb, rfl, hr, hp, hreach⟩
      have hr' : (slotRule T).dag.round b.reference = (slotRule T).dag.round L + 1 := by
        simp only [slotRule, quorumDag, dag, reference_round]
        omega
      refine ⟨?_, b.reference, ⟨hreach, mem_nodes hb, hr', (mem_parents hb).mpr hp⟩, rfl⟩
      simpa [slotRule, quorumDag, members, Committee.members] using (G.wellFormed hb).author_valid
  rw [SlotRule.Certified, Members.Heavy, hauthors]
  rfl

include h hc in
/-- A certified block of the slot is cached. -/
theorem inView_of_certified (hA : d.InView A)
    (hgc : d.gcRound ctx < slot.round ∨ d.gcRound ctx = 0) (hb : b ∈ G.blocks) (hbs : b.slot = slot)
    (hcert : (slotRule T).Certified A.reference b.reference) : d.InView b := by
  have hAm : A.reference ∈ (view h hc).carrier := by
    obtain ⟨info, hi, -⟩ := hA
    exact Option.isSome_iff_exists.mpr ⟨info, hi⟩
  have hgs : d.gcRound ctx < slot.round := by
    have hpos := (G.wellFormed hb).round_pos
    have hbr : b.round = slot.round := congrArg Slot.round hbs
    omega
  have hbm := SlotRule.mem_of_certified (V := view h hc) hAm ((slotNode_iff hb).mpr hbs) hcert hgs
  obtain ⟨info, hi, hG, hbr⟩ := h.exists_recent hbm
  exact ⟨info, hi, G.reference_injective _ hG b hb hbr⟩

/-- The references of the certified blocks of a slot, as the map of the votes lists them. -/
def certifiedRefs (ctx : Context) (votes : CommitVotes) (slot : Slot) : List (BlockRef × StakeAggregator .certification) :=
  votes.toList.filter fun p => p.1.slot == slot && p.2.reachedThreshold ctx.committee

theorem nodup_certifiedRefs (ctx : Context) (votes : CommitVotes) (slot : Slot) : ((certifiedRefs ctx votes slot).map Prod.fst).Nodup :=
  (nodup_toList votes).sublist (List.filter_sublist.map _)

section

variable (T) (hA : d.InView A) (hgc : d.gcRound ctx < slot.round ∨ d.gcRound ctx = 0)
  (hcount : Counted ctx votes v) (hv : VotesInHistory G A slot.round decisionBlocks v)
  (hslot : ∀ b, d.InView b → b.slot = slot → b.reference ∈ decisionBlocks)
  (hdecision : ∀ r ∈ decisionBlocks, d.recentBlocks[r]?.isSome)

include h hc hA hgc hcount hv hslot hdecision

/-- The listed references are those of the certified blocks of the slot. -/
theorem mem_certifiedRefs (r : BlockRef) : r ∈ (certifiedRefs ctx votes slot).map Prod.fst ↔
      (slotRule T).SlotNode slot.round slot.authority r ∧ (slotRule T).Certified A.reference r := by
  simp only [certifiedRefs, mem_map, mem_filter, Prod.exists, mem_toList, Bool.and_eq_true, beq_iff_eq,
    exists_and_right, exists_eq_right]
  constructor
  · rintro ⟨stake, hget, hrs, hreached⟩
    rw [hcount r] at hget
    split at hget
    · cases hget
    · rename_i hne
      obtain rfl := Option.some.inj hget
      obtain ⟨a, ha⟩ := Finset.nonempty_iff_ne_empty.mpr hne
      obtain ⟨hrd, -⟩ := (hv r a).mp ha
      obtain ⟨info, -, hb, rfl⟩ := h.exists_recent (hdecision r hrd)
      rw [reachedThreshold_ofVotes, decide_eq_true_eq] at hreached
      exact ⟨(slotNode_iff hb).mpr hrs, (certified_iff hv hrd (congrArg Slot.round hrs)).mpr hreached⟩
  · rintro ⟨hnode, hcert⟩
    obtain ⟨b, hb, rfl⟩ := hnode.1
    have hbs : b.slot = slot := (slotNode_iff hb).mp hnode
    have hbd := hslot b (inView_of_certified h hc hA hgc hb hbs hcert) hbs
    have hle := (certified_iff hv hbd (congrArg Slot.round hbs)).mp hcert
    refine ⟨.ofVotes ctx.committee (v b.reference), ?_, hbs, ?_⟩
    · rw [hcount, if_neg]
      intro he
      have := T.certification_pos
      rw [he] at hle
      simp only [Committee.stakeOf, Quorum.weight_empty] at hle
      omega
    · rw [reachedThreshold_ofVotes, decide_eq_true_eq]
      exact hle

/-- From the votes in the history of the anchor, a slot of the decision round gets the decision of the anchor. -/
theorem decideSlot_spec : ∃ status, decideSlot ctx d votes slot = .ok status ∧ IndirectDecision T A slot status := by
  have hmem := mem_certifiedRefs h hc T hA hgc hcount hv hslot hdecision
  have hnodup := nodup_certifiedRefs ctx votes slot
  obtain ⟨bs, hbs, hrefs, hview⟩ := mapM_getBlock (d := d) (certifiedRefs ctx votes slot) Prod.fst
    (fun p => Panic.blockMustExist p.1) (by
    intro r hr
    obtain ⟨hnode, hcert⟩ := (hmem r).mp hr
    obtain ⟨b, hb, rfl⟩ := hnode.1
    exact ⟨b, inView_of_certified h hc hA hgc hb ((slotNode_iff hb).mp hnode) hcert, rfl⟩) (by
    intro r hr
    obtain ⟨⟨b, hb, rfl⟩, -⟩ := ((hmem r).mp hr).1
    have := (G.wellFormed hb).round_pos
    rw [reference_round]
    omega)
  have hrun : certifiedBlocks ctx d votes slot = .ok bs := hbs
  rw [← hrefs] at hmem hnodup
  unfold decideSlot
  rw [hrun, ok_bind]
  match bs, hmem, hnodup, hview with
  | [B], hmem, _, hview =>
    have hB := h.mem_of_inView (hview B (by simp))
    obtain ⟨hnode, hcert⟩ := (hmem B.reference).mp (by simp)
    refine ⟨.commit B, rfl, .inl ⟨B, hB, rfl, hnode, hcert, fun L hL hLc => ?_⟩⟩
    simpa using (hmem L).mpr ⟨hL, hLc⟩
  | [], hmem, _, _ =>
    refine ⟨.skip slot, rfl, .inr ⟨rfl, ?_⟩⟩
    rintro ⟨L, hL, -⟩
    simpa using (hmem L).mpr hL
  | B :: B' :: bs, hmem, hnodup, _ =>
    refine ⟨.skip slot, rfl, .inr ⟨rfl, ?_⟩⟩
    rintro ⟨L, -, huniq⟩
    obtain ⟨hn, hc⟩ := (hmem B.reference).mp (by simp)
    obtain ⟨hn', hc'⟩ := (hmem B'.reference).mp (by simp)
    have heq : B.reference = B'.reference := (huniq _ hn hc).trans (huniq _ hn' hc').symm
    simp [heq] at hnodup

end

include h hc in
/-- An indirect decision of slots of one round is the one of the anchor for each of them. -/
theorem tryIndirectDecide_spec (T : G.TwoThresholds) (hA : d.InView A) {slots : List Slot} (hne : slots ≠ [])
    (hround : ∀ s ∈ slots, s.round = k) (hk : k + indirectCommitDepth ≤ A.round)
    (hgc : d.gcRound ctx < k ∨ d.gcRound ctx = 0) :
    ∃ statuses, tryIndirectDecide ctx d A slots = .ok statuses ∧ List.Forall₂ (IndirectDecision T A) slots statuses := by
  obtain ⟨first, rest, rfl⟩ := exists_cons_of_ne_nil hne
  have hfirst : first.round = k := hround first mem_cons_self
  let decisionBlocks := ((first :: rest).flatMap fun slot =>
    (d.getUncommittedBlocksAtSlot slot).map reference).toFinset
  have hdb : ∀ r, r ∈ decisionBlocks ↔ ∃ s ∈ first :: rest, ∃ b, (d.InView b ∧ b.slot = s) ∧ b.reference = r := by
    intro r
    simp only [decisionBlocks, mem_toFinset, mem_flatMap, mem_map, h.mem_blocksAtSlot]
  obtain ⟨votes, v, hrun, hcount, hv⟩ := collectVotes_spec h hc hA (k := k) (by omega) decisionBlocks
  have hslots : ∀ s ∈ first :: rest, ∃ status, decideSlot ctx d votes s = .ok status ∧ IndirectDecision T A s status := by
    intro s hs
    have hsk := hround s hs
    subst hsk
    refine decideSlot_spec h hc T hA hgc hcount hv (fun b hb hbs => (hdb _).mpr ⟨s, hs, b, ⟨hb, hbs⟩, rfl⟩) fun r hr => ?_
    obtain ⟨-, -, b, ⟨⟨info, hi, -⟩, -⟩, rfl⟩ := (hdb r).mp hr
    exact Option.isSome_iff_exists.mpr ⟨info, hi⟩
  obtain ⟨statuses, hstatuses, hforall⟩ := mapM_forall₂ hslots
  refine ⟨statuses, ?_, hforall⟩
  have hall : ((first :: rest).all fun s => s.round == first.round) = true := by
    rw [all_eq_true]
    intro s hs
    rw [beq_iff_eq, hround s hs, hfirst]
  have hdepth : decide (first.round + indirectCommitDepth ≤ A.round) = true := by
    rw [decide_eq_true_eq, hfirst]
    exact hk
  unfold tryIndirectDecide
  simp only [List.head?_cons, expect_some, ok_bind, hall, hdepth, assert_true]
  rw [hfirst]
  change (collectVotes ctx d A k decisionBlocks >>= _) = _
  rw [hrun, ok_bind]
  exact hstatuses

end

end LeaderSlotDecider

end Sui

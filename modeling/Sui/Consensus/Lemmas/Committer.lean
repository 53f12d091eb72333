import Sui.Consensus.BaseCommitter
import Sui.Consensus.Universe

/-!
# What the committer computes

The functions of `BaseCommitter` on a DAG state that is a view of the blocks of the epoch: each returns, and its answer is the
predicate of the library's commit rule. The loops that count stake up to a threshold are one function here.
-/

namespace Sui

open Library Checked BTreeMap List StakeAggregator BlockRef VerifiedBlock DagState BTreeSet BlockUniverse

/-- A loop that counts the authors of the elements with a property until their stake reaches the quorum. -/
def countUntil {α : Type} (c : Committee) (p : α → Bool) (author : α → AuthorityIndex) : List α → StakeAggregator .quorum → Bool
  | [], _ => false
  | x :: l, s =>
    if p x then
      if (s.addUnique (author x) c).reachedThreshold c then true else countUntil c p author l (s.addUnique (author x) c)
    else countUntil c p author l s

/-- Stopping early does not change the answer: the loop says whether all authors together reach the quorum. -/
theorem countUntil_eq {α : Type} (c : Committee) (p : α → Bool) (author : α → AuthorityIndex) (l : List α)
    (v : Finset AuthorityIndex) (hv : ¬ c.quorumThreshold ≤ c.stakeOf v) :
    countUntil c p author l (.ofVotes c v) =
      decide (c.quorumThreshold ≤ c.stakeOf (v ∪ ((l.filter p).map author).toFinset)) := by
  induction l generalizing v with
  | nil => simp [countUntil, hv]
  | cons x l ih =>
    rw [countUntil]
    by_cases hp : p x = true
    · rw [if_pos hp, addUnique_ofVotes, reachedThreshold_ofVotes, filter_cons_of_pos hp,
        map_cons, toFinset_cons, Finset.union_insert, ← Finset.insert_union]
      by_cases hr : c.quorumThreshold ≤ c.stakeOf (insert (author x) v)
      · have hsub : insert (author x) v ⊆ insert (author x) v ∪ ((l.filter p).map author).toFinset :=
          Finset.subset_union_left
        simp only [Threshold.amount, hr, decide_true, if_true]
        exact (decide_eq_true (hr.trans (c.stakeOf_mono hsub))).symm
      · simp only [Threshold.amount, hr, decide_false, Bool.false_eq_true, if_false]
        exact ih _ hr
    · rw [if_neg hp, filter_cons_of_neg hp]
      exact ih v hv

namespace BaseCommitter

variable {ctx : Context} {d : DagState}

/-! ## Votes -/

/-- A block at most one round above a slot supports the ancestor it has in the slot. -/
theorem findSupportedBlock_eq {slot : Slot} {b : VerifiedBlock} (fuel : Nat) (hb : b.round ≤ slot.round + 1)
    (hrounds : ∀ a ∈ b.ancestors, a.round < b.round) :
    findSupportedBlock d slot (fuel + 1) b = .ok (b.ancestors.find? fun a => a.slot == slot) := by
  rw [findSupportedBlock]
  split_ifs with hlt
  · rw [pure_eq_ok, List.find?_eq_none.mpr]
    intro a ha hs
    have := hrounds a ha
    rw [beq_iff_eq] at hs
    rw [← hs, BlockRef.slot_round] at hlt
    omega
  · -- every ancestor is in the slot or not above its round, so the loop does not recurse
    have hle : ∀ a ∈ b.ancestors, a.round ≤ slot.round := by
      intro a ha
      have := hrounds a ha
      omega
    generalize b.ancestors = l at hle
    induction l with
    | nil => rfl
    | cons a l ih =>
      rw [List.findSomeM?, List.find?_cons]
      by_cases hs : a.slot = slot
      · simp [hs]
      · have hbeq : (a.slot == slot) = false := by simpa using hs
        simp only [hbeq, Bool.false_eq_true, if_false, hle a mem_cons_self, if_true, pure_eq_ok, ok_bind]
        exact ih fun x hx => hle x (mem_cons_of_mem _ hx)

/-- A block at most one round above a leader block votes for it if it has the leader block as an ancestor. -/
theorem isVote_eq {v L : VerifiedBlock} (hv : v.round ≤ L.round + 1) (hrounds : ∀ a ∈ v.ancestors, a.round < v.round)
    (hauthors : (v.ancestors.map author).Nodup) : isVote d v L = .ok (decide (L.reference ∈ v.ancestors)) := by
  rw [isVote, findSupportedBlock_eq v.round (by simpa using hv) hrounds, ok_bind, pure_ok,
    Bool.eq_iff_iff, beq_iff_eq, decide_eq_true_eq]
  constructor
  · exact mem_of_find?_eq_some
  · intro hL
    cases hf : v.ancestors.find? fun a => a.slot == L.reference.slot with
    | none => exact absurd (beq_self_eq_true _) (List.find?_eq_none.mp hf L.reference hL)
    | some a =>
      have hs : a.slot = L.reference.slot := by simpa using List.find?_some hf
      have hauth : a.author = L.reference.author := congrArg Slot.authority hs
      rw [inj_on_of_nodup_map hauthors (mem_of_find?_eq_some hf) hL hauth]

/-- Whether a reference is a vote for a leader block. -/
def voteOf (d : DagState) (L : VerifiedBlock) (r : BlockRef) : Bool :=
  (d.getBlock r).any fun v => decide (L.reference ∈ v.ancestors)

/-- What the loop over references needs of each of them: it is not too high, and it can be read unless garbage collected. -/
def Readable (ctx : Context) (d : DagState) (L : VerifiedBlock) (r : BlockRef) : Prop :=
  r.round ≤ L.round + 1 ∧ (d.gcRound ctx < r.round → (d.getBlock r).isSome)

variable {G : BlockUniverse ctx}

/-- The blocks that a DAG state can be asked for have ancestors of lower rounds by different authors. -/
theorem ancestors_of_getBlock (h : Holds ctx G.blocks d) {r : BlockRef} {b : VerifiedBlock} (hb : d.getBlock r = some b) :
    (∀ a ∈ b.ancestors, a.round < b.round) ∧ (b.ancestors.map author).Nodup := by
  rcases (h.getBlock_some hb).2 with hG | hgen
  · exact ⟨(G.wellFormed hG).rounds, (G.wellFormed hG).authors_nodup⟩
  · obtain ⟨a, -, rfl⟩ := mem_map.mp hgen
    simp

variable {L : VerifiedBlock}

theorem freshVote_eq (h : Holds ctx G.blocks d) {r : BlockRef} (hr : Readable ctx d L r) :
    freshVote ctx d L r = .ok (voteOf d L r) := by
  unfold freshVote voteOf
  cases hb : d.getBlock r with
  | some v =>
    obtain ⟨hrounds, hauthors⟩ := ancestors_of_getBlock h hb
    have hvr : v.round = r.round := by rw [← (h.getBlock_some hb).1, reference_round]
    simp only [Option.any_some]
    exact isVote_eq (by rw [hvr]; exact hr.1) hrounds hauthors
  | none =>
    have hle : r.round ≤ d.gcRound ctx := by
      by_contra hlt
      have := hr.2 (by omega)
      rw [hb] at this
      cases this
    simp [hle]

/-- The cache holds the answers for one leader block. -/
def ValidCache (d : DagState) (L : VerifiedBlock) (allVotes : BTreeMap BlockRef Bool) : Prop :=
  ∀ (r : BlockRef) (v : Bool), allVotes[r]? = some v → v = voteOf d L r

theorem validCache_empty (d : DagState) (L : VerifiedBlock) : ValidCache d L ∅ := by
  intro r v hv
  simp at hv

theorem lookupVote_eq (h : Holds ctx G.blocks d) {r : BlockRef} (hr : Readable ctx d L r)
    {allVotes : BTreeMap BlockRef Bool} (hc : ValidCache d L allVotes) :
    ∃ allVotes', lookupVote ctx d L allVotes r = .ok (voteOf d L r, allVotes') ∧ ValidCache d L allVotes' := by
  unfold lookupVote
  cases hv : allVotes[r]? with
  | some v => exact ⟨allVotes, by rw [← hc r v hv]; rfl, hc⟩
  | none =>
    exact ⟨allVotes.insert r (voteOf d L r), by simp only [freshVote_eq h hr, ok_bind, pure_eq_ok], forall_insert hc rfl⟩

theorem countVotes_eq (h : Holds ctx G.blocks d) (refs : List BlockRef)
    (hr : ∀ r ∈ refs, Readable ctx d L r) (votes : StakeAggregator .quorum) {allVotes : BTreeMap BlockRef Bool}
    (hc : ValidCache d L allVotes) :
    ∃ allVotes', countVotes ctx d L refs votes allVotes =
      .ok (countUntil ctx.committee (voteOf d L) author refs votes, allVotes') ∧ ValidCache d L allVotes' := by
  induction refs generalizing votes allVotes with
  | nil => exact ⟨allVotes, rfl, hc⟩
  | cons r refs ih =>
    obtain ⟨allVotes1, hl, hc1⟩ := lookupVote_eq h (hr r mem_cons_self) hc
    have hr' : ∀ x ∈ refs, Readable ctx d L x := fun x hx => hr x (mem_cons_of_mem _ hx)
    rw [countVotes, hl, countUntil]
    simp only [ok_bind, StakeAggregator.add]
    by_cases hv : voteOf d L r = true
    · by_cases hq : (votes.addUnique r.author ctx.committee).reachedThreshold ctx.committee = true
      · simp only [hv, hq, if_true]
        exact ⟨allVotes1, rfl, hc1⟩
      · simp only [hv, hq, if_true]
        exact ih hr' _ hc1
    · simp only [hv]
      exact ih hr' _ hc1

end BaseCommitter

/-! ## The commit rule of the epoch -/

/-- The quorums of a committee of `Committee::new` meet in an honest authority. -/
theorem Committee.new_quorums_meet {epoch : Nat} {authorities : List Authority} {c : Committee}
    (h : Committee.new epoch authorities = .ok c) :
    0 < c.quorumThreshold ∧ c.stakeOf c.members + (c.totalStake - 1) / 3 < c.quorumThreshold + c.quorumThreshold := by
  obtain ⟨hsum, hpos, hq, -⟩ := Committee.new_thresholds h
  omega

section

variable {ctx : Context} {G : BlockUniverse ctx} {d : DagState}

/-- So little stake is faulty that two quorums share an honest authority. -/
structure BlockUniverse.QuorumsMeet (G : BlockUniverse ctx) extends G.FaultBound where
  quorums_meet :
    ctx.committee.stakeOf ctx.committee.members + faults < ctx.committee.quorumThreshold + ctx.committee.quorumThreshold

/-- The bound on the faulty stake is the same for every node of the epoch. -/
def BlockUniverse.QuorumsMeet.forNode (Q : G.QuorumsMeet) (own : AuthorityIndex) (parameters : Parameters) :
    (G.forNode own parameters).QuorumsMeet :=
  ⟨⟨Q.faults, Q.faulty_le⟩, Q.quorums_meet⟩

/-- The commit rule over the blocks of the epoch, with an elected leader for each round. -/
def BlockUniverse.commitRule (Q : G.QuorumsMeet) (e : Nat → AuthorityIndex) : CommitRule BlockRef AuthorityIndex where
  toQuorumDag := quorumDag Q.toFaultBound (by have := Q.quorums_meet; omega)
  leader := e
  quorums_meet := Q.quorums_meet

namespace BaseCommitter

open BlockUniverse

variable {Q : G.QuorumsMeet} {e : Nat → AuthorityIndex}

theorem quorum_pos (Q : G.QuorumsMeet) : ¬ ctx.committee.quorumThreshold ≤ ctx.committee.stakeOf ∅ := by
  have h0 : ctx.committee.stakeOf ∅ = 0 := by simp [Committee.stakeOf]
  have := Q.quorums_meet
  omega

section

variable (h : Holds ctx G.blocks d) (hc : d.AncestorClosed ctx) {L b : VerifiedBlock} (hb : d.InView b) (hr : b.round = L.round + 2)

include h hc hb hr

/-- The ancestors of a block of the decision round are readable. -/
theorem readable_of_mem : ∀ r ∈ b.ancestors, Readable ctx d L r := by
  intro r hrb
  have hlt := (G.wellFormed (h.mem_of_inView hb)).rounds r hrb
  exact ⟨by omega, fun hg => hc _ _ (hb.getBlock (by omega)) r hrb hg⟩

/-- Among the ancestors of a block of the decision round, the votes are those of the rule. -/
theorem voteOf_iff (hgc : d.gcRound ctx ≤ L.round) {r : BlockRef} (hrb : r ∈ b.ancestors) :
    voteOf d L r = true ↔ (commitRule Q e).Vote L.reference r := by
  have hG := h.mem_of_inView hb
  have hread := readable_of_mem h hc hb hr r hrb
  unfold voteOf CommitRule.Vote
  rw [Option.any_eq_true]
  simp only [decide_eq_true_eq]
  constructor
  · rintro ⟨v, hv, hLv⟩
    obtain ⟨hvr, hv' | hgen⟩ := h.getBlock_some hv
    · subst hvr
      have h1 := (G.wellFormed hv').rounds _ hLv
      have h2 := (G.wellFormed hG).rounds _ hrb
      simp only [reference_round] at h1 h2
      refine ⟨mem_nodes hv', ?_, (mem_parents hv').mpr hLv⟩
      simp only [commitRule, quorumDag, dag, reference_round]
      omega
    · obtain ⟨a, -, rfl⟩ := mem_map.mp hgen
      simp at hLv
  · rintro ⟨⟨v, hv, rfl⟩, hvr, hLv⟩
    have hvr' : v.round = L.round + 1 := hvr
    obtain ⟨w, hw⟩ := Option.isSome_iff_exists.mp (hread.2 (by rw [reference_round]; omega))
    have hwG : w ∈ G.blocks := by
      obtain ⟨info', hi', rfl⟩ := h.recent_of_getBlock hw (by rw [reference_round]; omega)
      exact (h.recent hi').1
    have hwv : w = v := G.reference_injective w hwG v hv (h.getBlock_some hw).1
    subst hwv
    exact ⟨w, hw, (mem_parents hwG).mp hLv⟩

variable {allVotes : BTreeMap BlockRef Bool}

open Classical in
/-- `is_certificate` is the certificate of the rule. -/
theorem isCertificate_eq (hgc : d.gcRound ctx ≤ L.round) (hcache : ValidCache d L allVotes) :
    ∃ allVotes', isCertificate ctx d b L allVotes =
      .ok (decide ((commitRule Q e).Certificate L.reference b.reference), allVotes') ∧ ValidCache d L allVotes' := by
  have hG := h.mem_of_inView hb
  obtain ⟨allVotes', hcount, hcache'⟩ := countVotes_eq h b.ancestors (readable_of_mem h hc hb hr) .new hcache
  refine ⟨allVotes', ?_, hcache'⟩
  rw [isCertificate, hcount, new_eq_ofVotes ctx.committee, countUntil_eq _ _ _ _ _ (quorum_pos Q),
    Finset.empty_union, Except.ok.injEq, Prod.mk.injEq, decide_eq_decide, ← heavy_iff (G := G) (F := Q.toFaultBound)
      (P := fun v => v ∈ G.dag.parents b.reference ∧ (commitRule Q e).Vote L.reference v)]
  · exact ⟨⟨fun hheavy => ⟨mem_nodes hG, hr, hheavy⟩, fun hcert => hcert.2.2⟩, rfl⟩
  · intro r
    rw [mem_filter, mem_parents hG]
    exact and_congr_right fun hrb => voteOf_iff h hc hb hr hgc hrb
  · intro r hrb
    exact (G.wellFormed hG).authors_valid r (mem_filter.mp hrb).1

end

/-! ## Direct decision -/

variable {k : Nat}

theorem blocksAtRound_ok (hk : d.lastCommitRound < k) : d.getUncommittedBlocksAtRound k =
      .ok ((d.recentBlocks.toList.filter fun p => p.1.round == k).map fun p => p.2.block) := by
  have hb : (!decide (k ≤ d.lastCommitRound)) = true := by simpa using hk
  simp only [getUncommittedBlocksAtRound, hb, assert_true, ok_bind, pure_eq_ok]

theorem countBlames_eq (ctx : Context) (a : AuthorityIndex) (l : List VerifiedBlock) (s : StakeAggregator .quorum) :
    countBlames ctx a l s = countUntil ctx.committee (fun b => b.ancestors.all fun p => p.author != a)
      (fun b => b.author) l s := by
  induction l generalizing s with
  | nil => rfl
  | cons b l ih =>
    rw [countBlames, countUntil]
    simp only [StakeAggregator.add, ih]

variable {l : List VerifiedBlock}

/-- Whether the authors of the listed blocks with a property reach the quorum, in terms of the rule. -/
theorem heavy_blocks_iff {P : BlockRef → Prop} {p : VerifiedBlock → Bool}
    (hl : ∀ b ∈ l, b ∈ G.blocks) (hP : ∀ r, P r ↔ ∃ b ∈ l, b.reference = r ∧ p b = true) {t : Nat} :
    (members Q.toFaultBound).Heavy G.dag t P ↔ t ≤ ctx.committee.stakeOf ((l.filter p).map fun b => b.author).toFinset := by
  rw [heavy_iff (l := (l.filter p).map reference), map_map]
  · rfl
  · intro r
    rw [hP, mem_map]
    simp only [mem_filter]
    exact ⟨fun ⟨b, ⟨hb, hp⟩, hr⟩ => ⟨b, hb, hr, hp⟩, fun ⟨b, hb, hr, hp⟩ => ⟨b, ⟨hb, hp⟩, hr⟩⟩
  · intro r hr
    obtain ⟨b, hb, rfl⟩ := mem_map.mp hr
    exact (G.wellFormed (hl b (mem_filter.mp hb).1)).author_valid

variable {h : Holds ctx G.blocks d} {hc : d.AncestorClosed ctx}

theorem mem_view_iff {b : VerifiedBlock} (hb : b ∈ G.blocks) : b.reference ∈ (view h hc).carrier ↔ d.InView b := by
  constructor
  · intro hm
    obtain ⟨info, hi, hG, hr⟩ := h.exists_recent hm
    exact ⟨info, hi, G.reference_injective _ hG _ hb hr⟩
  · rintro ⟨info, hi, -⟩
    exact Option.isSome_iff_exists.mpr ⟨info, hi⟩

variable (Q e h hc) in
/-- A status says what the rule decides, and a commit is of a block in the view. -/
structure Sound (r : Nat) (status : LeaderStatus) : Prop where
  slot : status.slot = ⟨r, e r⟩
  commit : ∀ b, status = .commit b → d.InView b ∧ (commitRule Q e).Decides (DagState.view h hc) r (some b.reference)
  skip : ∀ s, status = .skip s → (commitRule Q e).Decides (DagState.view h hc) r none

variable {r : Nat}

theorem leaderNode_iff {b : VerifiedBlock} : (commitRule Q e).LeaderNode r b.reference ↔ b.slot = ⟨r, e r⟩ := by
  simp [CommitRule.LeaderNode, commitRule, quorumDag, dag, VerifiedBlock.slot]

/-- A list without repetitions in which any two elements are equal has at most one. -/
theorem length_le_one (hn : l.Nodup) (heq : ∀ a ∈ l, ∀ b ∈ l, a = b) : l.length ≤ 1 := by
  match l, hn, heq with
  | [], _, _ => simp
  | [_], _, _ => simp
  | a :: b :: l, hn, heq =>
    rw [nodup_cons] at hn
    exact absurd (by rw [heq a (by simp) b (by simp)]; simp) hn.1

/-- The loop of `ancestors_at_round`: what is linked is reachable, and what is reachable at the round is reachable from what
is linked. -/
structure Linked (D : Dag BlockRef AuthorityIndex) (anchor : BlockRef) (k : Nat) (linked : BTreeSet BlockRef) : Prop where
  sound : ∀ r ∈ linked, D.Reach anchor r
  complete : ∀ m, D.Reach anchor m → m.round = k → ∃ x ∈ linked, D.Reach x m

/-- The known references at or below one of the linked ones: each pass of the loop has fewer of them. -/
def belowLinked (d : DagState) (linked : BTreeSet BlockRef) : BTreeSet BlockRef :=
  d.knownRefs.filter fun r => ∃ x ∈ linked, r ≤ x

variable (h hc)

include h hc

/-- `enough_leader_blame` is the blame of the rule. -/
theorem enoughLeaderBlame_eq (hr : d.lastCommitRound ≤ r) : ∃ blamed, enoughLeaderBlame ctx d (r + 1) (e r) = .ok blamed ∧
      (blamed = true ↔ (commitRule Q e).Blamed (view h hc) r) := by
  refine ⟨_, by simp only [enoughLeaderBlame, blocksAtRound_ok (Nat.lt_succ_of_le hr), ok_bind, pure_eq_ok]; rfl, ?_⟩
  rw [countBlames_eq, new_eq_ofVotes ctx.committee, countUntil_eq _ _ _ _ _ (quorum_pos Q),
    decide_eq_true_eq, Finset.empty_union, ← heavy_blocks_iff (Q := Q)
      (P := fun n => n ∈ (view h hc).carrier ∧ (commitRule Q e).Blame r n)]
  · rfl
  · intro b hb
    exact h.mem_of_inView (h.mem_blocksAtRound.mp hb).1
  · intro x
    simp only [h.mem_blocksAtRound, all_eq_true, bne_iff_ne, ne_eq]
    constructor
    · rintro ⟨hx, ⟨b, hb, rfl⟩, hround, hblame⟩
      refine ⟨b, ⟨(mem_view_iff hb).mp hx, hround⟩, rfl, fun p hp => ?_⟩
      exact hblame p ((mem_parents hb).mpr hp)
    · rintro ⟨b, ⟨hb, hround⟩, rfl, hblame⟩
      have hG := h.mem_of_inView hb
      refine ⟨(mem_view_iff hG).mpr hb, mem_nodes hG, hround, fun p hp => ?_⟩
      exact hblame p ((mem_parents hG).mp hp)

variable {L : VerifiedBlock}

open Classical in
theorem countCertificates_eq (hgc : d.gcRound ctx ≤ L.round) (l : List VerifiedBlock) (hl : ∀ b ∈ l, d.InView b ∧ b.round = L.round + 2)
    (s : StakeAggregator .quorum) (hcache : ValidCache d L allVotes) :
    countCertificates ctx d L l s allVotes = .ok (countUntil ctx.committee
      (fun b => decide ((commitRule Q e).Certificate L.reference b.reference)) (fun b => b.author) l s) := by
  induction l generalizing s allVotes with
  | nil => rfl
  | cons b l ih =>
    obtain ⟨hb, hr⟩ := hl b mem_cons_self
    obtain ⟨allVotes', hcert, hcache'⟩ := isCertificate_eq (Q := Q) (e := e) h hc hb hr hgc hcache
    have hl' : ∀ x ∈ l, d.InView x ∧ x.round = L.round + 2 := fun x hx => hl x (mem_cons_of_mem _ hx)
    rw [countCertificates, hcert, countUntil]
    simp only [ok_bind, StakeAggregator.add]
    cases decide ((commitRule Q e).Certificate L.reference b.reference) with
    | true =>
      by_cases hreach : (s.addUnique b.author ctx.committee).reachedThreshold ctx.committee = true
      · simp only [hreach, if_true, pure_eq_ok]
      · simp only [hreach, if_true]
        exact ih hl' _ hcache'
    | false => exact ih hl' _ hcache'

open Classical in
/-- `enough_leader_support` is the support of the rule. -/
theorem enoughLeaderSupport_eq (hgc : d.gcRound ctx ≤ L.round) (hr : d.lastCommitRound ≤ L.round) :
    enoughLeaderSupport ctx d (L.round + 2) L = .ok (decide ((commitRule Q e).Support (view h hc) L.reference)) := by
  have hmem := fun b => h.mem_blocksAtRound (k := L.round + 2) (b := b)
  have hiff := heavy_blocks_iff (Q := Q) (t := ctx.committee.quorumThreshold)
    (P := fun c => c ∈ (view h hc).carrier ∧ (commitRule Q e).Certificate L.reference c)
    (l := (d.recentBlocks.toList.filter fun p => p.1.round == L.round + 2).map fun p => p.2.block)
    (p := fun b => decide ((commitRule Q e).Certificate L.reference b.reference))
    (fun b hb => h.mem_of_inView ((hmem b).mp hb).1) (by
      intro x
      simp only [hmem, decide_eq_true_eq]
      constructor
      · rintro ⟨hx, ⟨⟨b, hb, rfl⟩, hround, hheavy⟩⟩
        exact ⟨b, ⟨(mem_view_iff hb).mp hx, hround⟩, rfl, ⟨⟨b, hb, rfl⟩, hround, hheavy⟩⟩
      · rintro ⟨b, ⟨hb, -⟩, rfl, hcert⟩
        exact ⟨(mem_view_iff (h.mem_of_inView hb)).mpr hb, hcert⟩)
  simp only [enoughLeaderSupport, blocksAtRound_ok (show d.lastCommitRound < L.round + 2 by omega), ok_bind]
  split
  · -- the stake of all authors of the round is not a quorum, so the stake of some of them is not
    rename_i hreject
    simp only [Committee.reachedQuorum, ge_iff_le, Bool.not_eq_true', decide_eq_false_iff_not, not_le] at hreject
    rw [pure_ok, eq_comm, decide_eq_false_iff_not]
    intro hs
    exact absurd (hiff.mp hs) (not_le.mpr (lt_of_le_of_lt (ctx.committee.stakeOf_filter_le _ _ _) hreject))
  · rw [countCertificates_eq (Q := Q) (e := e) h hc hgc _ (fun b hb => (hmem b).mp hb) _
      (validCache_empty d L), new_eq_ofVotes ctx.committee, countUntil_eq _ _ _ _ _ (quorum_pos Q),
      Finset.empty_union, Except.ok.injEq, decide_eq_decide]
    exact hiff.symm

omit hc in
open Classical in
/-- At most one block of a slot has a certificate: the certificates of two would share a vote. -/
theorem filterM_atSlot {P : BlockRef → Prop} {f : VerifiedBlock → Except Panic Bool}
    (hf : ∀ b : VerifiedBlock, b.round = r → f b = .ok (decide (P b.reference)))
    (hP : ∀ L, P L → ∃ c, (commitRule Q e).Certificate L c) :
    ∃ leaders, (d.getUncommittedBlocksAtSlot ⟨r, e r⟩).filterM f = .ok leaders ∧ leaders.length ≤ 1 ∧
      ∀ b, b ∈ leaders ↔ (d.InView b ∧ b.slot = ⟨r, e r⟩) ∧ P b.reference := by
  refine ⟨_, filterM_eq fun b hb => hf b (congrArg Slot.round (h.mem_blocksAtSlot.mp hb).2), ?_, ?_⟩
  · refine length_le_one ((h.nodup_blocksAtSlot _).filter _) fun a ha b hb => ?_
    simp only [mem_filter, h.mem_blocksAtSlot, decide_eq_true_eq] at ha hb
    obtain ⟨ca, hca⟩ := hP _ ha.2
    obtain ⟨cb, hcb⟩ := hP _ hb.2
    exact G.reference_injective a (h.mem_of_inView ha.1.1) b (h.mem_of_inView hb.1.1)
      (CommitRule.eq_of_certificates (leaderNode_iff.mpr ha.1.2) (leaderNode_iff.mpr hb.1.2) hca hcb)
  · intro b
    rw [mem_filter, h.mem_blocksAtSlot, decide_eq_true_eq]

variable {c : BaseCommitter}

/-- `try_direct_decide` returns, and what it returns is a decision of the rule. -/
theorem tryDirectDecide_sound (hw : c.decisionRound (c.waveNumber r) = r + 2)
    (hgc : d.gcRound ctx ≤ r) (hr : d.lastCommitRound ≤ r) :
    ∃ status, c.tryDirectDecide ctx d ⟨r, e r⟩ = .ok status ∧ Sound Q e h hc r status := by
  obtain ⟨blamed, hblame, hiff⟩ := enoughLeaderBlame_eq (Q := Q) (e := e) h hc hr
  unfold tryDirectDecide
  rw [hblame, ok_bind]
  cases blamed with
  | true =>
    exact ⟨.skip ⟨r, e r⟩, rfl, rfl, by simp, fun s _ => .directSkip (hiff.mp rfl)⟩
  | false =>
    obtain ⟨leaders, hfilter, hlen, hmem⟩ := filterM_atSlot (Q := Q) (e := e) (r := r) h
      (f := enoughLeaderSupport ctx d (c.decisionRound (c.waveNumber r)))
      (P := (commitRule Q e).Support (view h hc)) (by
        rintro b rfl
        rw [hw]
        exact enoughLeaderSupport_eq h hc hgc hr) fun L hL => hL.certificate
    simp only [Bool.false_eq_true, if_false, hfilter, ok_bind, hlen, decide_true, assert_true, pure_eq_ok]
    refine ⟨_, rfl, ?_⟩
    cases hlast : leaders.getLast? with
    | none => exact ⟨rfl, by simp, by simp⟩
    | some b =>
      obtain ⟨⟨hb1, hb2⟩, hb3⟩ := (hmem b).mp (mem_of_getLast? hlast)
      refine ⟨hb2, ?_, by simp⟩
      rintro b' hb'
      obtain rfl : b = b' := by simpa using hb'
      exact ⟨hb1, .directCommit (leaderNode_iff.mpr hb2) ((mem_view_iff (h.mem_of_inView hb1)).mpr hb1) hb3⟩

/-! ## The history of an anchor -/

variable {anchor : VerifiedBlock}

theorem recent_of_reach (ha : d.InView anchor) {r : BlockRef}
    (hr : G.dag.Reach anchor.reference r) (hg : d.gcRound ctx < r.round) :
    ∃ info, d.recentBlocks[r]? = some info ∧ info.block ∈ G.blocks ∧ info.block.reference = r :=
  h.exists_recent ((view h hc).mem_of_reach ((mem_view_iff (h.mem_of_inView ha)).mpr ha) hr hg)

/-- One pass of the loop of `ancestors_at_round`. -/
theorem ancestorsAtRoundBody_step (ha : d.InView anchor) (hk : d.gcRound ctx < k)
    {linked : BTreeSet BlockRef} (hl : Linked G.dag anchor.reference k linked) :
    (∃ linked', d.ancestorsAtRoundBody k linked = .ok (.next linked') ∧ Linked G.dag anchor.reference k linked' ∧
        (belowLinked d linked').card < (belowLinked d linked).card) ∨
      ∃ result, d.ancestorsAtRoundBody k linked = .ok (.done result) ∧ Linked G.dag anchor.reference k result ∧
        ∀ r ∈ result, r.round ≤ k := by
  unfold ancestorsAtRoundBody
  cases hlast : last? linked with
  | none =>
    refine .inr ⟨linked, rfl, hl, fun r hr => ?_⟩
    rw [last?_eq_none.mp hlast] at hr
    exact absurd hr (Finset.notMem_empty r)
  | some r =>
    obtain ⟨hr, hmax⟩ := last?_eq_some hlast
    by_cases hrk : r.round ≤ k
    · refine .inr ⟨linked, by simp [hrk], hl, fun x hx => ?_⟩
      exact (round_le_of_le (hmax x hx)).trans hrk
    · obtain ⟨info, hi, hG, hinfo⟩ := recent_of_reach h hc ha (hl.sound r hr) (by omega)
      have hget := getBlock_recent hi (by omega)
      have hparents : ∀ p, p ∈ info.block.ancestors ↔ p ∈ G.dag.parents r := by
        intro p
        rw [← hinfo, mem_parents hG]
      refine .inl ⟨linked.erase r ∪ info.block.ancestors.toFinset, by simp [hrk, hget], ⟨?_, ?_⟩, ?_⟩
      · intro x hx
        rcases Finset.mem_union.mp hx with hx | hx
        · exact hl.sound x (Finset.mem_of_mem_erase hx)
        · exact (hl.sound r hr).tail ((hparents x).mp (mem_toFinset.mp hx))
      · intro m hm hmk
        obtain ⟨x, hx, hxm⟩ := hl.complete m hm hmk
        by_cases hxr : x = r
        · subst hxr
          obtain ⟨p, hp, hpm⟩ := hxm.exists_parent (by rintro rfl; omega)
          exact ⟨p, Finset.mem_union_right _ (mem_toFinset.mpr ((hparents p).mpr hp)), hpm⟩
        · exact ⟨x, Finset.mem_union_left _ (Finset.mem_erase.mpr ⟨hxr, hx⟩), hxm⟩
      · -- everything linked now is below `r`, which is known
        have hlt : ∀ x ∈ linked.erase r ∪ info.block.ancestors.toFinset, x < r := by
          intro x hx
          rcases Finset.mem_union.mp hx with hx | hx
          · exact lt_of_le_of_ne (hmax x (Finset.mem_of_mem_erase hx)) (Finset.ne_of_mem_erase hx)
          · exact lt_of_round_lt (G.dag.round_lt ((hparents x).mp (mem_toFinset.mp hx)))
        refine Finset.card_lt_card ⟨?_, fun hsub => ?_⟩
        · intro y hy
          obtain ⟨hy1, x, hx, hyx⟩ := Finset.mem_filter.mp hy
          exact Finset.mem_filter.mpr ⟨hy1, r, hr, hyx.trans (hlt x hx).le⟩
        · have hrk : r ∈ belowLinked d linked := by
            refine Finset.mem_filter.mpr ⟨?_, r, hr, le_refl r⟩
            rw [knownRefs, Finset.mem_union, Finset.mem_union, mem_keySet, mem_keySet, hi]
            exact .inl (.inr rfl)
          obtain ⟨-, x, hx, hrx⟩ := Finset.mem_filter.mp (hsub hrk)
          exact absurd (hlt x hx) (not_lt.mpr hrx)

/-- `ancestors_at_round` returns the blocks of the round in the history of the anchor. -/
theorem ancestorsAtRound_eq (ha : d.InView anchor) (hk : d.gcRound ctx < k) (hka : k < anchor.round) :
    ∃ l, d.ancestorsAtRound anchor k = .ok l ∧
      ∀ b, b ∈ l ↔ d.InView b ∧ b.round = k ∧ G.dag.Reach anchor.reference b.reference := by
  have haG := h.mem_of_inView ha
  have h₀ : Linked G.dag anchor.reference k anchor.ancestors.toFinset := by
    constructor
    · intro r hr
      exact Relation.ReflTransGen.single ((mem_parents haG).mpr (mem_toFinset.mp hr))
    · intro m hm hmk
      obtain ⟨p, hp, hpm⟩ := hm.exists_parent (by rintro rfl; rw [reference_round] at hmk; omega)
      exact ⟨p, mem_toFinset.mpr ((mem_parents haG).mp hp), hpm⟩
  have hloop : ∃ linked, Loop.run Panic.outOfFuel (d.ancestorsAtRoundBody k) (d.knownRefs.card + 1)
      anchor.ancestors.toFinset = .ok linked ∧ Linked G.dag anchor.reference k linked ∧ ∀ r ∈ linked, r.round ≤ k :=
    Loop.run_total (Linked G.dag anchor.reference k) _ (fun l => (belowLinked d l).card) h₀
      (Nat.lt_succ_of_le (Finset.card_le_card (Finset.filter_subset _ _)))
      (fun l hl => ancestorsAtRoundBody_step h hc ha hk hl)
  obtain ⟨linked, hrun, hlinked, hle⟩ := hloop
  have hat : ∀ r, r ∈ linked ∧ k ≤ r.round → r.round = k ∧ G.dag.Reach anchor.reference r ∧
      ∃ info, d.recentBlocks[r]? = some info ∧ info.block ∈ G.blocks ∧ info.block.reference = r := by
    rintro r ⟨hr, hkr⟩
    have hrk : r.round = k := le_antisymm (hle r hr) hkr
    exact ⟨hrk, hlinked.sound r hr, recent_of_reach h hc ha (hlinked.sound r hr) (by omega)⟩
  obtain ⟨l, hl⟩ := mapM_total (f := fun r => expect (d.getBlock r) (Panic.shouldExistInDag r))
    (l := (iter linked).filter fun r => k ≤ r.round) (by
      intro r hr
      rw [mem_filter, mem_iter, decide_eq_true_eq] at hr
      obtain ⟨hrk, -, info, hi, -, -⟩ := hat r hr
      exact ⟨info.block, by rw [getBlock_recent hi (by omega)]; rfl⟩)
  refine ⟨l, by simp only [ancestorsAtRound, hrun, ok_bind]; exact hl, fun b => ?_⟩
  rw [mem_mapM hl]
  simp only [mem_filter, mem_iter, decide_eq_true_eq, expect_ok]
  constructor
  · rintro ⟨r, hr, hb⟩
    obtain ⟨hrk, hreach, info, hi, -, hinfo⟩ := hat r hr
    rw [getBlock_recent hi (by omega), Option.some.injEq] at hb
    subst hb
    rw [← reference_round, hinfo]
    exact ⟨h.inView_of_recent hi, hrk, hreach⟩
  · rintro ⟨⟨info, hi, hb⟩, hbk, hreach⟩
    obtain ⟨x, hx, hxb⟩ := hlinked.complete b.reference hreach hbk
    -- a linked reference that reaches `b` is of the same round, so it is `b`
    have hxeq : x = b.reference := by
      by_contra hne
      obtain ⟨p, hp, hpb⟩ := hxb.exists_parent hne
      have h1 : p.round < x.round := G.dag.round_lt hp
      have h2 : b.reference.round ≤ p.round := hpb.round_le
      have h3 := hle x hx
      rw [reference_round] at h2
      omega
    subst hxeq
    refine ⟨b.reference, ⟨hx, by rw [reference_round]; omega⟩, ?_⟩
    rw [getBlock_recent hi (by rw [reference_round]; omega), hb]

/-! ## Indirect decision -/

open Classical in
theorem anyCertificate_eq (hgc : d.gcRound ctx ≤ L.round) (l : List VerifiedBlock)
    (hl : ∀ b ∈ l, d.InView b ∧ b.round = L.round + 2) (hcache : ValidCache d L allVotes) :
    anyCertificate ctx d L l allVotes = .ok (l.any fun b => decide ((commitRule Q e).Certificate L.reference b.reference)) := by
  induction l generalizing allVotes with
  | nil => rfl
  | cons b l ih =>
    obtain ⟨hb, hr⟩ := hl b mem_cons_self
    obtain ⟨allVotes', hcert, hcache'⟩ := isCertificate_eq (Q := Q) (e := e) h hc hb hr hgc hcache
    rw [anyCertificate, hcert, any_cons]
    simp only [ok_bind, ih (fun x hx => hl x (mem_cons_of_mem _ hx)) hcache']
    cases decide ((commitRule Q e).Certificate L.reference b.reference) <;> rfl

/-- A certificate in the history of an anchor is one of the blocks of the decision round that it reaches. -/
theorem certified_iff (ha : d.InView anchor) (hgc : d.gcRound ctx ≤ r) (hL : L.round = r)
    (hl : ∀ b, b ∈ l ↔ d.InView b ∧ b.round = r + 2 ∧ G.dag.Reach anchor.reference b.reference) :
    (commitRule Q e).Certified anchor.reference L.reference ↔
      ∃ b ∈ l, (commitRule Q e).Certificate L.reference b.reference := by
  constructor
  · rintro ⟨c, hreach, hcert⟩
    obtain ⟨⟨b, hb, rfl⟩, hround, hheavy⟩ := hcert
    have hbr : b.round = r + 2 := by rw [← hL]; exact hround
    have hv := (view h hc).mem_of_reach ((mem_view_iff (h.mem_of_inView ha)).mpr ha) hreach
      (show d.gcRound ctx < b.round by omega)
    exact ⟨b, (hl b).mpr ⟨(mem_view_iff hb).mp hv, hbr, hreach⟩, ⟨b, hb, rfl⟩, hround, hheavy⟩
  · rintro ⟨b, hb, hcert⟩
    exact ⟨b.reference, ((hl b).mp hb).2.2, hcert⟩

open Classical in
/-- `decide_leader_from_anchor` returns, and commits the certified block of the slot if there is one. -/
theorem decideLeaderFromAnchor_sound (hw : c.decisionRound (c.waveNumber r) = r + 2)
    (hgc : d.gcRound ctx ≤ r) (ha : d.InView anchor) (har : r + 3 ≤ anchor.round) :
    ∃ status, c.decideLeaderFromAnchor ctx d anchor ⟨r, e r⟩ = .ok status ∧ status.slot = ⟨r, e r⟩ ∧
      (∀ b, status = .commit b → d.InView b ∧ (commitRule Q e).Certified anchor.reference b.reference) ∧
      ∀ s, status = .skip s → ∀ L ∈ (view h hc).carrier, (commitRule Q e).LeaderNode r L →
        ¬ (commitRule Q e).Certified anchor.reference L := by
  obtain ⟨l, hancestors, hl⟩ := ancestorsAtRound_eq h hc ha (k := r + 2) (by omega) (by omega)
  obtain ⟨certified, hfilter, hlen, hmem⟩ := filterM_atSlot (Q := Q) (e := e) (r := r) h
    (f := fun b => anyCertificate ctx d b l ∅) (P := (commitRule Q e).Certified anchor.reference) (by
      intro b hround
      rw [anyCertificate_eq (Q := Q) (e := e) h hc (by omega) l (fun x hx => ⟨((hl x).mp hx).1, by rw [((hl x).mp hx).2.1, hround]⟩)
        (validCache_empty d b), Except.ok.injEq, Bool.eq_iff_iff, any_eq_true, decide_eq_true_eq,
        certified_iff h hc ha hgc hround hl]
      simp only [decide_eq_true_eq]) fun L hL => hL.imp fun _ hcert => hcert.2
  unfold decideLeaderFromAnchor
  simp only [hw, hancestors, hfilter, ok_bind, hlen, decide_true, assert_true, pure_eq_ok]
  refine ⟨_, rfl, ?_⟩
  cases hlast : certified.getLast? with
  | none =>
    have hnil : certified = [] := List.getLast?_eq_none_iff.mp hlast
    refine ⟨rfl, by simp, fun s _ L hL hnode hcert => ?_⟩
    obtain ⟨info, hi, -, rfl⟩ := h.exists_recent hL
    have hin : info.block ∈ certified := (hmem _).mpr ⟨⟨h.inView_of_recent hi, leaderNode_iff.mp hnode⟩, hcert⟩
    rw [hnil] at hin
    exact absurd hin not_mem_nil
  | some b =>
    obtain ⟨⟨hb1, hb2⟩, hb3⟩ := (hmem b).mp (mem_of_getLast? hlast)
    refine ⟨hb2, ?_, by simp⟩
    rintro b' hb'
    obtain rfl : b = b' := by simpa using hb'
    exact ⟨hb1, hb3⟩

/-- The statuses of consecutive rounds from `k` on say what the rule decides. -/
def SoundFrom (Q : G.QuorumsMeet) (e : Nat → AuthorityIndex) (h : Holds ctx G.blocks d) (hc : d.AncestorClosed ctx) :
    Nat → List LeaderStatus → Prop
  | _, [] => True
  | k, status :: l => Sound Q e h hc k status ∧ SoundFrom Q e h hc (k + 1) l

omit h hc in
theorem Sound.round {h : Holds ctx G.blocks d} {hc : d.AncestorClosed ctx} {status : LeaderStatus}
    (hs : Sound Q e h hc k status) : status.round = k := by
  have := congrArg Slot.round hs.slot
  cases status <;> exact this

theorem SoundFrom.le_round {k : Nat} {l : List LeaderStatus} (hl : SoundFrom Q e h hc k l) : ∀ x ∈ l, k ≤ x.round := by
  induction l generalizing k with
  | nil => nofun
  | cons x l ih =>
    exact forall_mem_cons.mpr ⟨hl.1.round.ge, fun y hy => (Nat.le_succ k).trans (ih hl.2 y hy)⟩

/-- The statuses from a higher round on are those that the filter of `try_indirect_decide` keeps. -/
theorem SoundFrom.filter {k j : Nat} {l : List LeaderStatus} (hl : SoundFrom Q e h hc k l) (hkj : k ≤ j) :
    SoundFrom Q e h hc j (l.filter fun x => j ≤ x.round) := by
  induction l generalizing k with
  | nil => trivial
  | cons x l ih =>
    by_cases hk : k = j
    · subst hk
      rw [filter_eq_self.mpr fun y hy => decide_eq_true (SoundFrom.le_round h hc hl y hy)]
      exact hl
    · have hx := hl.1.round
      rw [filter_cons_of_neg (by simp; omega)]
      exact ih hl.2 (by omega)

/-- The loop of `try_indirect_decide` over the anchors returns a decision of the rule. -/
theorem decideFromAnchors_sound (hw : c.decisionRound (c.waveNumber r) = r + 2)
    (hgc : d.gcRound ctx ≤ r) (hk : r + 3 ≤ k) {l : List LeaderStatus} (hl : SoundFrom Q e h hc k l)
    (hbelow : ∀ j, r + 3 ≤ j → j < k → (commitRule Q e).Decides (view h hc) j none) :
    ∃ status, c.decideFromAnchors ctx d ⟨r, e r⟩ l = .ok status ∧ Sound Q e h hc r status := by
  induction l generalizing k with
  | nil => exact ⟨.undecided ⟨r, e r⟩, rfl, rfl, by simp, by simp⟩
  | cons x l ih =>
    cases x with
    | commit anchor =>
      obtain ⟨hav, hdec⟩ := hl.1.commit anchor rfl
      have har : anchor.round = k := hl.1.round
      obtain ⟨status, hstatus, hslot, hcommit, hskip⟩ :=
        decideLeaderFromAnchor_sound (Q := Q) (e := e) h hc hw hgc hav (by omega)
      refine ⟨status, hstatus, hslot, fun b hb => ?_, fun s hs => ?_⟩
      · obtain ⟨hbv, hcert⟩ := hcommit b hb
        have hnode : (commitRule Q e).LeaderNode r b.reference := leaderNode_iff.mpr (by rw [← hslot, hb]; rfl)
        exact ⟨hbv, .indirectCommit hk hdec hbelow hnode ((mem_view_iff (h.mem_of_inView hbv)).mpr hbv) hcert⟩
      · exact .indirectSkip hk hdec hbelow (hskip s hs)
    | skip s =>
      refine ih (k := k + 1) (by omega) hl.2 fun j hj hjk => ?_
      by_cases hjk' : j = k
      · subst hjk'
        exact hl.1.skip s rfl
      · exact hbelow j hj (by omega)
    | undecided => exact ⟨.undecided ⟨r, e r⟩, rfl, rfl, by simp, by simp⟩

/-- `try_indirect_decide` returns a decision of the rule. -/
theorem tryIndirectDecide_sound (hw : c.decisionRound (c.waveNumber r) = r + 2)
    (hwave : c.options.waveLength = 3) (hgc : d.gcRound ctx ≤ r) {l : List LeaderStatus}
    (hl : SoundFrom Q e h hc (r + 1) l) :
    ∃ status, c.tryIndirectDecide ctx d ⟨r, e r⟩ l = .ok status ∧ Sound Q e h hc r status := by
  unfold tryIndirectDecide
  rw [hwave]
  exact decideFromAnchors_sound h hc hw hgc le_rfl (SoundFrom.filter h hc hl (by omega)) fun j hj hjk => by omega

end BaseCommitter

end

end Sui

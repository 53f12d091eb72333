import Sui.Consensus.Lemmas.Committer

/-!
# Agreement of the commit rule

`UniversalCommitter::try_decide` with the pipelined committers, on two views of the same blocks with the same last commit: slots
that both decide they decide in the same way.
-/

namespace Sui

open Library Checked List DagState DecidedLeader BaseCommitter

namespace DecidedLeader

/-- A decision without the flag `direct`: the slot and the committed block, if any. -/
def outcome : DecidedLeader → Slot × Option VerifiedBlock
  | .commit block _ => (block.slot, some block)
  | .skip slot => (slot, none)

@[simp] theorem outcome_fst (l : DecidedLeader) : l.outcome.1 = l.slot := by
  cases l <;> rfl

end DecidedLeader

namespace UniversalCommitter

/-- One of the committers of the pipeline. -/
def stage (leaderSchedule : Nat → Nat → AuthorityIndex) (roundOffset : Nat) : BaseCommitter :=
  { leaderSchedule, options := { waveLength := 3, leaderOffset := 0, roundOffset } }

section

variable (leaderSchedule : Nat → Nat → AuthorityIndex)

include leaderSchedule

/-- A stage of the pipeline elects the leaders of every third round. -/
theorem electLeader_stage {i : Nat} (hi : i < 3) (r : Nat) :
    (stage leaderSchedule i).electLeader r = if r % 3 = i then some ⟨r, leaderSchedule r 0⟩ else none := by
  have hiff : (r - i) / 3 * 3 + i = r ↔ r % 3 = i := by omega
  by_cases hr : r % 3 = i
  · have := hiff.mpr hr
    simp [electLeader, leaderRound, waveNumber, stage, this, hr]
  · have : ¬ (r - i) / 3 * 3 + i = r := fun h => hr (hiff.mp h)
    simp [electLeader, leaderRound, waveNumber, stage, this, hr]

theorem decisionRound_stage (r : Nat) :
    (stage leaderSchedule (r % 3)).decisionRound ((stage leaderSchedule (r % 3)).waveNumber r) = r + 2 := by
  simp only [decisionRound, waveNumber, stage]
  omega

end

variable {ctx : Context} {d : DagState} {leaderSchedule : Nat → Nat → AuthorityIndex} {lastDecided : Slot} {r : Nat}

/-- In each round exactly one committer has a leader. -/
theorem decideSlots_round (r : Nat) (rest : List (Nat × BaseCommitter)) (leaders : List (LeaderStatus × Decision)) :
    decideSlots ctx d lastDecided (((pipelined leaderSchedule).committers.reverse.map fun c => (r, c)) ++ rest) leaders =
      decideSlots ctx d lastDecided ((r, stage leaderSchedule (r % 3)) :: rest) leaders := by
  have hskip : ∀ i, i < 3 → r % 3 ≠ i → ∀ slots leaders,
      decideSlots ctx d lastDecided ((r, stage leaderSchedule i) :: slots) leaders =
        decideSlots ctx d lastDecided slots leaders := by
    intro i hi hne slots leaders
    rw [decideSlots, electLeader_stage leaderSchedule hi, if_neg hne]
  have hmap : ((pipelined leaderSchedule).committers.reverse.map fun c => (r, c)) ++ rest =
      (r, stage leaderSchedule 2) :: (r, stage leaderSchedule 1) :: (r, stage leaderSchedule 0) :: rest := rfl
  rw [hmap]
  have hr3 : r % 3 = 0 ∨ r % 3 = 1 ∨ r % 3 = 2 := by omega
  rcases hr3 with h0 | h1 | h2
  · rw [hskip 2 (by omega) (by omega), hskip 1 (by omega) (by omega), h0]
  · rw [hskip 2 (by omega) (by omega), h1]
    unfold decideSlots
    simp only [hskip 0 (by omega) (by omega)]
  · rw [h2]
    unfold decideSlots
    simp only [hskip 1 (by omega) (by omega), hskip 0 (by omega) (by omega)]

/-- The pairs that `try_decide` visits for some rounds. -/
def slotsOf (leaderSchedule : Nat → Nat → AuthorityIndex) (rounds : List Nat) : List (Nat × BaseCommitter) :=
  rounds.flatMap fun round => (pipelined leaderSchedule).committers.reverse.map fun c => (round, c)

section

open BlockUniverse BaseCommitter

variable {G : BlockUniverse ctx} {Q : G.QuorumsMeet} (h : Holds ctx G.blocks d) (hc : d.AncestorClosed ctx)

variable {leaders : List (LeaderStatus × Decision)}

/-- A round at or above the last commit is decided as the rule says. -/
theorem decideSlots_step (hr : d.lastCommitRound ≤ r) (hl : lastDecided.round < r) (rest : List (Nat × BaseCommitter))
    (hs : SoundFrom Q (leaderSchedule · 0) h hc (r + 1) (leaders.map Prod.fst)) :
    ∃ leaders', decideSlots ctx d lastDecided ((r, stage leaderSchedule (r % 3)) :: rest) leaders =
        decideSlots ctx d lastDecided rest leaders' ∧
      SoundFrom Q (leaderSchedule · 0) h hc r (leaders'.map Prod.fst) := by
  have hgc : d.gcRound ctx ≤ r := (ctx.calculateGcRound_le _).trans hr
  have hne : (⟨r, leaderSchedule r 0⟩ : Slot) ≠ lastDecided := by
    rintro rfl
    exact absurd hl (lt_irrefl _)
  have hw := decisionRound_stage leaderSchedule r
  obtain ⟨status, hdirect, hsound⟩ :=
    tryDirectDecide_sound (Q := Q) (e := (leaderSchedule · 0)) h hc hw hgc hr
  rw [decideSlots, electLeader_stage leaderSchedule (Nat.mod_lt r (by omega)), if_pos rfl]
  simp only [hne, if_false, hdirect, ok_bind]
  by_cases hdec : status.isDecided = true
  · rw [if_pos hdec]
    exact ⟨_, rfl, hsound, hs⟩
  · rw [if_neg hdec]
    obtain ⟨status', hindirect, hsound'⟩ := tryIndirectDecide_sound h hc hw rfl hgc hs
    rw [hindirect, ok_bind]
    exact ⟨_, rfl, hsound', hs⟩

/-- A round below the last commit stops the committer. -/
theorem decideSlots_panic (hr : r < d.lastCommitRound) (hl : lastDecided.round < r)
    (rest : List (Nat × BaseCommitter)) (leaders : List (LeaderStatus × Decision)) :
    decideSlots ctx d lastDecided ((r, stage leaderSchedule (r % 3)) :: rest) leaders =
      .error (Panic.roundHasCommittedBlocks (r + 1)) := by
  have hne : (⟨r, leaderSchedule r 0⟩ : Slot) ≠ lastDecided := by
    rintro rfl
    exact absurd hl (lt_irrefl _)
  have hcommitted : d.getUncommittedBlocksAtRound (r + 1) = .error (Panic.roundHasCommittedBlocks (r + 1)) := by
    simp [getUncommittedBlocksAtRound, assert, hr]
  rw [decideSlots, electLeader_stage leaderSchedule (Nat.mod_lt r (by omega)), if_pos rfl]
  simp only [hne, if_false, tryDirectDecide, enoughLeaderBlame, hcommitted, error_bind]

variable (leaderSchedule) in
/-- The run lemma of `try_decide`: from the highest round down, every status is a decision of the rule, or a round is not
above the last commit. -/
theorem decideSlots_run (first n : Nat) (hl : lastDecided.round < first)
    (hs : SoundFrom Q (leaderSchedule · 0) h hc (first + n) (leaders.map Prod.fst)) :
    (∃ leaders', decideSlots ctx d lastDecided (slotsOf leaderSchedule (List.range' first n).reverse) leaders = .ok leaders' ∧
        SoundFrom Q (leaderSchedule · 0) h hc first (leaders'.map Prod.fst) ∧ (n = 0 ∨ d.lastCommitRound ≤ first)) ∨
      (first < d.lastCommitRound ∧ ∃ k, decideSlots ctx d lastDecided (slotsOf leaderSchedule (List.range' first n).reverse)
        leaders = .error (Panic.roundHasCommittedBlocks k)) := by
  induction n generalizing leaders with
  | zero => exact .inl ⟨leaders, rfl, hs, .inl rfl⟩
  | succ n ih =>
    have hslots : slotsOf leaderSchedule (List.range' first (n + 1)).reverse =
        ((pipelined leaderSchedule).committers.reverse.map fun c => (first + n, c)) ++
          slotsOf leaderSchedule (List.range' first n).reverse := by
      rw [List.range'_1_concat, reverse_append, reverse_singleton, slotsOf, slotsOf, singleton_append, flatMap_cons]
    rw [hslots, decideSlots_round]
    by_cases hr : d.lastCommitRound ≤ first + n
    · have hln : lastDecided.round < first + n := by omega
      obtain ⟨leaders', hstep, hs'⟩ := decideSlots_step h hc hr hln
        (slotsOf leaderSchedule (List.range' first n).reverse) hs
      rw [hstep]
      rcases ih hs' with ⟨leaders'', hrun, hs'', hn⟩ | hpanic
      · refine .inl ⟨leaders'', hrun, hs'', .inr ?_⟩
        rcases hn with rfl | hn
        · simpa using hr
        · exact hn
      · exact .inr hpanic
    · exact .inr ⟨by omega, _, decideSlots_panic (by omega) (by omega) _ _⟩

/-- A decided leader says what the rule decides about its round. -/
structure DecidedAt (Q : G.QuorumsMeet) (e : Nat → AuthorityIndex) (h : Holds ctx G.blocks d) (hc : d.AncestorClosed ctx)
    (r : Nat) (x : DecidedLeader) : Prop where
  slot : x.slot = ⟨r, e r⟩
  decides : (commitRule Q e).Decides (DagState.view h hc) r (x.outcome.2.map VerifiedBlock.reference)
  inView : ∀ b, x.outcome.2 = some b → d.InView b

/-- The decided leaders are of consecutive rounds from `k` on, each as the rule decides. -/
def DecidedFrom (Q : G.QuorumsMeet) (e : Nat → AuthorityIndex) (h : Holds ctx G.blocks d) (hc : d.AncestorClosed ctx) :
    Nat → List DecidedLeader → Prop
  | _, [] => True
  | k, x :: l => DecidedAt Q e h hc k x ∧ DecidedFrom Q e h hc (k + 1) l

variable {e : Nat → AuthorityIndex}

theorem DecidedFrom.exists_round {h : Holds ctx G.blocks d} {hc : d.AncestorClosed ctx} {k : Nat} {l : List DecidedLeader}
    (hl : DecidedFrom Q e h hc k l) {x : DecidedLeader} (hx : x ∈ l) : ∃ r, k ≤ r ∧ DecidedAt Q e h hc r x := by
  induction l generalizing k with
  | nil => cases hx
  | cons y l ih =>
    rcases mem_cons.mp hx with rfl | hx
    · exact ⟨k, le_rfl, hl.1⟩
    · obtain ⟨r, hr, hxr⟩ := ih hl.2 hx
      exact ⟨r, by omega, hxr⟩

/-- A decided status is a decided leader of its round. -/
theorem decidedAt_of_sound {h : Holds ctx G.blocks d} {hc : d.AncestorClosed ctx} {status : LeaderStatus}
    (hs : Sound Q e h hc r status) {direct : Bool} {x : DecidedLeader} (hx : status.intoDecidedLeader direct = some x) :
    DecidedAt Q e h hc r x := by
  cases status with
  | commit b =>
    obtain rfl := Option.some.inj hx
    obtain ⟨hv, hdec⟩ := hs.commit b rfl
    exact ⟨hs.slot, hdec, fun b' hb' => Option.some.inj hb' ▸ hv⟩
  | skip slot =>
    obtain rfl := Option.some.inj hx
    exact ⟨hs.slot, hs.skip slot rfl, fun b' hb' => by cases hb'⟩
  | undecided => cases hx

/-- The decided prefix of the statuses, without the genesis round. -/
theorem decidedPrefix_from {h : Holds ctx G.blocks d} {hc : d.AncestorClosed ctx} {k : Nat}
    {l : List (LeaderStatus × Decision)} (hl : SoundFrom Q e h hc k (l.map Prod.fst)) :
    DecidedFrom Q e h hc (max k 1) (decidedPrefix l) := by
  induction l generalizing k with
  | nil => trivial
  | cons p l ih =>
    obtain ⟨status, decision⟩ := p
    have hround : status.round = k := hl.1.round
    have hrest := ih hl.2
    rw [decidedPrefix]
    by_cases hk : k = 0
    · subst hk
      rw [if_pos (show status.round = genesisRound from hround)]
      exact hrest
    · have hmax : max k 1 = k := by omega
      have hmax' : max (k + 1) 1 = k + 1 := by omega
      rw [hmax'] at hrest
      rw [if_neg (by rw [hround]; exact hk), hmax]
      cases hx : status.intoDecidedLeader (decision == .direct) with
      | none => trivial
      | some => exact ⟨decidedAt_of_sound hl.1 hx, hrest⟩

omit h hc in
theorem tryDecide_eq (hone : ctx.protocolConfig.numLeadersPerRound = some 1) :
    tryDecide ctx d (pipelined leaderSchedule) lastDecided =
      decideSlots ctx d lastDecided (slotsOf leaderSchedule (List.range' (lastDecided.round + 1)
        (d.highestAcceptedRound - 2 + 1 - (lastDecided.round + 1))).reverse) [] >>= fun leaders => pure (decidedPrefix leaders) := by
  have hfirst : lastRound ctx lastDecided = lastDecided.round + 1 := by simp [lastRound, hone]
  unfold tryDecide roundsToDecide
  rw [hfirst]
  rfl

/-- `try_decide` returns decisions of the rule for the rounds after the last decided one, or panics on a round below the last
commit. -/
theorem tryDecide_spec (Q : G.QuorumsMeet) (hone : ctx.protocolConfig.numLeadersPerRound = some 1)
    (leaderSchedule : Nat → Nat → AuthorityIndex) (lastDecided : Slot) :
    (∃ l, tryDecide ctx d (pipelined leaderSchedule) lastDecided = .ok l ∧
        (l = [] ∨ (d.lastCommitRound ≤ lastDecided.round + 1 ∧
          DecidedFrom Q (leaderSchedule · 0) h hc (lastDecided.round + 1) l))) ∨
      (lastDecided.round + 1 < d.lastCommitRound ∧
        ∃ k, tryDecide ctx d (pipelined leaderSchedule) lastDecided = .error (Panic.roundHasCommittedBlocks k)) := by
  rw [tryDecide_eq hone]
  have hnone : ∀ k, SoundFrom Q (leaderSchedule · 0) h hc k (([] : List (LeaderStatus × Decision)).map Prod.fst) :=
    fun _ => trivial
  rcases decideSlots_run leaderSchedule h hc (lastDecided.round + 1)
    (d.highestAcceptedRound - 2 + 1 - (lastDecided.round + 1)) (Nat.lt_succ_self _) (hnone _) with
    ⟨leaders, hok, hs, hn⟩ | ⟨hlt, k, herr⟩
  · refine .inl ⟨decidedPrefix leaders, by rw [hok]; rfl, ?_⟩
    rcases hn with hn | hn
    · rw [hn] at hok
      obtain rfl := Except.ok.inj hok
      exact .inl rfl
    · have hmax : max (lastDecided.round + 1) 1 = lastDecided.round + 1 := by omega
      exact .inr ⟨hn, hmax ▸ decidedPrefix_from hs⟩
  · exact .inr ⟨hlt, k, by rw [herr]; rfl⟩

end

/-! ## Two views -/

section

open BlockUniverse

variable {G : BlockUniverse ctx} {Q : G.QuorumsMeet} {e : Nat → AuthorityIndex} {own1 own2 : AuthorityIndex}
  {params1 params2 : Parameters} {d1 d2 : DagState}
  {h₁ : Holds (ctx.forNode own1 params1) (G.forNode own1 params1).blocks d1} {hc1 : d1.AncestorClosed (ctx.forNode own1 params1)}
  {h₂ : Holds (ctx.forNode own2 params2) (G.forNode own2 params2).blocks d2} {hc2 : d2.AncestorClosed (ctx.forNode own2 params2)}

/-- Two views decide a leader above their GC rounds in the same way. -/
theorem outcome_eq (hg1 : d1.gcRound ctx < r) (hg2 : d2.gcRound ctx < r) {x y : DecidedLeader}
    (hx : DecidedAt (Q.forNode own1 params1) e h₁ hc1 r x) (hy : DecidedAt (Q.forNode own2 params2) e h₂ hc2 r y) :
    x.outcome = y.outcome := by
  have hrefs : x.outcome.2.map VerifiedBlock.reference = y.outcome.2.map VerifiedBlock.reference :=
    -- both nodes have the same rule, over the same blocks
    let V1 : (commitRule Q e).dag.View (d1.gcRound ctx) := (view (G := G.forNode own1 params1) h₁ hc1 : _)
    let V2 : (commitRule Q e).dag.View (d2.gcRound ctx) := (view (G := G.forNode own2 params2) h₂ hc2 : _)
    CommitRule.agreement hg1 hg2 hx.decides hy.decides
  have hslot : x.outcome.1 = y.outcome.1 := by
    rw [outcome_fst, outcome_fst, hx.slot, hy.slot]
  refine Prod.ext hslot ?_
  cases hxo : x.outcome.2 with
  | none =>
    rw [hxo, Option.map_none] at hrefs
    exact (Option.map_eq_none_iff.mp hrefs.symm).symm
  | some b =>
    rw [hxo, Option.map_some] at hrefs
    obtain ⟨b', hyo, hb'⟩ := Option.map_eq_some_iff.mp hrefs.symm
    have hb : b ∈ G.blocks := h₁.mem_of_inView (hx.inView b hxo)
    rw [hyo, G.reference_injective b' (h₂.mem_of_inView (hy.inView b' hyo)) b hb hb']

/-- Two lists of decisions for consecutive rounds from the same round on are one a prefix of the other. -/
theorem prefix_of_decidedFrom {k : Nat} (hg1 : d1.gcRound ctx < k) (hg2 : d2.gcRound ctx < k) {l1 l2 : List DecidedLeader}
    (hl1 : DecidedFrom (Q.forNode own1 params1) e h₁ hc1 k l1) (hl2 : DecidedFrom (Q.forNode own2 params2) e h₂ hc2 k l2) :
    l1.map outcome <+: l2.map outcome ∨ l2.map outcome <+: l1.map outcome := by
  induction l1 generalizing l2 k with
  | nil => exact .inl nil_prefix
  | cons _ _ ih =>
    cases l2 with
    | nil => exact .inr nil_prefix
    | cons =>
      have hxy := outcome_eq hg1 hg2 hl1.1 hl2.1
      have hrest := ih (by omega) (by omega) hl1.2 hl2.2
      simp only [map_cons, hxy, cons_prefix_cons, true_and]
      exact hrest

end

/-- Agreement of the commit rule. Two DAG states of the same universe, closed under ancestors above the GC round and with the
same last commit, run `try_decide` from the same slot. The only panic is the one on a round below the last commit, slots that
both lists contain have the same decision, and one list is a prefix of the other up to the flag `direct`. -/
theorem tryDecide_agreement {ctx : Context} {epoch : Nat} {authorities : List Authority}
    (hcommittee : Committee.new epoch authorities = .ok ctx.committee) (G : BlockUniverse ctx)
    (hfaulty : ctx.committee.stakeOf G.faulty ≤ (ctx.committee.totalStake - 1) / 3)
    (hone : ctx.protocolConfig.numLeadersPerRound = some 1) {own1 own2 : AuthorityIndex} {params1 params2 : Parameters}
    {d1 d2 : DagState} (hr1 : DagReachable (ctx.forNode own1 params1) G.blocks d1)
    (hr2 : DagReachable (ctx.forNode own2 params2) G.blocks d2) (hc1 : d1.AncestorClosed (ctx.forNode own1 params1))
    (hc2 : d2.AncestorClosed (ctx.forNode own2 params2)) (hlast : d1.lastCommit = d2.lastCommit) (lastDecided : Slot)
    (hdecided : d1.lastCommitRound ≤ lastDecided.round ∨ 0 < ctx.protocolConfig.gcDepth)
    (leaderSchedule : Nat → Nat → AuthorityIndex) :
    let run1 := tryDecide (ctx.forNode own1 params1) d1 (pipelined leaderSchedule) lastDecided
    let run2 := tryDecide (ctx.forNode own2 params2) d2 (pipelined leaderSchedule) lastDecided
    (∀ run ∈ [run1, run2], (∃ l, run = .ok l) ∨
        (lastDecided.round + 1 < d1.lastCommitRound ∧ ∃ k, run = .error (Panic.roundHasCommittedBlocks k))) ∧
      ∀ l1 l2, run1 = .ok l1 → run2 = .ok l2 → (∀ x ∈ l1, ∀ y ∈ l2, x.slot = y.slot → x.outcome = y.outcome) ∧
          (l1.map outcome <+: l2.map outcome ∨ l2.map outcome <+: l1.map outcome) := by
  intro run1 run2
  let Q : G.QuorumsMeet := ⟨⟨_, hfaulty⟩, (Committee.new_quorums_meet hcommittee).2⟩
  have hround : d2.lastCommitRound = d1.lastCommitRound := by simp only [lastCommitRound, hlast]
  have hspec1 := tryDecide_spec (G := G.forNode own1 params1) (Holds.of_reachable hr1) hc1 (Q.forNode own1 params1) hone
    leaderSchedule lastDecided
  have hspec2 := tryDecide_spec (G := G.forNode own2 params2) (Holds.of_reachable hr2) hc2 (Q.forNode own2 params2) hone
    leaderSchedule lastDecided
  rw [hround] at hspec2
  constructor
  · intro run hrun
    simp only [mem_cons, not_mem_nil, or_false] at hrun
    rcases hrun with rfl | rfl
    · exact hspec1.imp_left (by rintro ⟨l, hl, -⟩; exact ⟨l, hl⟩)
    · exact hspec2.imp_left (by rintro ⟨l, hl, -⟩; exact ⟨l, hl⟩)
  · intro l1 l2 hl1 hl2
    rcases hspec1 with ⟨l, hl, hfrom1⟩ | ⟨-, k, hk⟩
    swap
    · exact absurd (hl1.symm.trans hk) (by simp)
    obtain rfl : l1 = l := ok_unique hl1 hl
    rcases hspec2 with ⟨l, hl', hfrom2⟩ | ⟨-, k, hk⟩
    swap
    · exact absurd (hl2.symm.trans hk) (by simp)
    obtain rfl : l2 = l := ok_unique hl2 hl'
    rcases hfrom1 with rfl | ⟨hfirst, hfrom1⟩
    · exact ⟨fun x hx => (not_mem_nil hx).elim, .inl nil_prefix⟩
    rcases hfrom2 with rfl | ⟨-, hfrom2⟩
    · exact ⟨fun x _ y hy => (not_mem_nil hy).elim, .inr nil_prefix⟩
    have hg1 : d1.gcRound ctx < lastDecided.round + 1 := by
      simp only [gcRound, Context.calculateGcRound]
      omega
    have hg2 : d2.gcRound ctx < lastDecided.round + 1 := by
      simp only [gcRound, Context.calculateGcRound, hround]
      omega
    refine ⟨fun x hx y hy hslot => ?_, prefix_of_decidedFrom hg1 hg2 hfrom1 hfrom2⟩
    obtain ⟨r, hr, hxr⟩ := hfrom1.exists_round hx
    obtain ⟨r', -, hyr⟩ := hfrom2.exists_round hy
    have hrr : r = r' := congrArg Slot.round (hxr.slot.symm.trans (hslot.trans hyr.slot))
    subst hrr
    exact outcome_eq (by omega) (by omega) hxr hyr

/-- Two views, of which the second has both blocks of the faulty authority: three rounds decide the first leader and four rounds the
first two. -/
theorem tryDecide_agreement_four : ∃ d1 d2 l1 l2, fourState false threeRounds = .ok d1 ∧ fourState false fourRounds = .ok d2 ∧
      tryDecide (fourContext false) d1 (pipelined fun _ _ => 0) ⟨0, 0⟩ = .ok l1 ∧
      tryDecide (fourContext false) d2 (pipelined fun _ _ => 0) ⟨0, 0⟩ = .ok l2 ∧ l1 = [.commit (honestBlock 1 0) true] ∧
      l2 = [.commit (honestBlock 1 0) true, .commit (honestBlock 2 0) true] ∧
      (l1.map outcome <+: l2.map outcome ∨ l2.map outcome <+: l1.map outcome) := by
  have hrun1 : (fourState false threeRounds >>= fun d => tryDecide (fourContext false) d (pipelined fun _ _ => 0) ⟨0, 0⟩) =
      .ok [.commit (honestBlock 1 0) true] := by decide +kernel
  have hrun2 : (fourState false fourRounds >>= fun d => tryDecide (fourContext false) d (pipelined fun _ _ => 0) ⟨0, 0⟩) =
      .ok [.commit (honestBlock 1 0) true, .commit (honestBlock 2 0) true] := by decide +kernel
  obtain ⟨d1, h₁, hl1⟩ := bind_ok.mp hrun1
  obtain ⟨d2, h₂, hl2⟩ := bind_ok.mp hrun2
  have ha1 := accepted_threeRounds h₁
  have ha2 := accepted_fourRounds h₂
  have hcommittee : Committee.new 0 [⟨2⟩, ⟨2⟩, ⟨1⟩, ⟨1⟩] = .ok (fourContext false).committee := rfl
  have hagree := tryDecide_agreement hcommittee (fourUniverse false) (by decide) rfl ha1.reachable ha2.reachable
    ha1.closed ha2.closed (ha1.lastCommit.trans ha2.lastCommit.symm) ⟨0, 0⟩ (.inr (by decide)) fun _ _ => 0
  exact ⟨d1, d2, _, _, h₁, h₂, hl1, hl2, rfl, rfl, (hagree.2 _ _ hl1 hl2).2⟩

end UniversalCommitter

end Sui

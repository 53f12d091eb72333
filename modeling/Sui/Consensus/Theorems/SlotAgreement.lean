import Sui.Consensus.Lemmas.SlotDecider

/-!
# Agreement of commit rule v3

`LeaderSlotDecider` on two views of the same blocks: direct decisions agree with each other and with every later anchor.
-/

namespace Sui

open Library BlockUniverse DagState

namespace LeaderSlotDecider

/-- A call of `try_indirect_decide` with an anchor, for slots of one round that is not garbage collected. -/
structure IndirectCall (ctx : Context) (d : DagState) (A : VerifiedBlock) (slots : List Slot) (k : Nat) : Prop where
  inView : d.InView A
  nonempty : slots ≠ []
  round : ∀ s ∈ slots, s.round = k
  depth : k + indirectCommitDepth ≤ A.round
  notCollected : d.gcRound ctx < k ∨ d.gcRound ctx = 0

section

variable {ctx : Context} {G : BlockUniverse ctx} {d : DagState} {A : VerifiedBlock} {slots : List Slot} {k : Nat}

/-- What an indirect call returns for a slot is the decision of the anchor. -/
theorem IndirectCall.spec (T : G.TwoThresholds) (h : Holds ctx G.blocks d) (hc : d.AncestorClosed ctx)
    (call : IndirectCall ctx d A slots k) :
    ∃ statuses, tryIndirectDecide ctx d A slots = .ok statuses ∧
      ∀ (i : Nat) (slot : Slot), slots[i]? = some slot → ∃ status, statuses[i]? = some status ∧ IndirectDecision T A slot status := by
  obtain ⟨statuses, hrun, hall⟩ :=
    tryIndirectDecide_spec h hc T call.inView call.nonempty call.round call.depth call.notCollected
  refine ⟨statuses, hrun, fun i slot hi => ?_⟩
  rw [List.forall₂_iff_get] at hall
  obtain ⟨hlt, rfl⟩ := List.getElem?_eq_some_iff.mp hi
  have hlt' : i < statuses.length := hall.1 ▸ hlt
  exact ⟨statuses[i], List.getElem?_eq_getElem hlt', hall.2 i hlt hlt'⟩

end

/-! ## Two views -/

section

variable {ctx : Context} {G : BlockUniverse ctx} {T : G.TwoThresholds} {own1 own2 : AuthorityIndex} {params1 params2 : Parameters}
  {d1 d2 : DagState}
  {h1 : Holds (ctx.forNode own1 params1) (G.forNode own1 params1).blocks d1} {hc1 : d1.AncestorClosed (ctx.forNode own1 params1)}
  {h2 : Holds (ctx.forNode own2 params2) (G.forNode own2 params2).blocks d2} {hc2 : d2.AncestorClosed (ctx.forNode own2 params2)}
  {slot : Slot} {B : VerifiedBlock}

/-- The DAG state of a node as a view of the rule of the epoch. -/
def viewOf (T : G.TwoThresholds) {own : AuthorityIndex} {params : Parameters} {d : DagState}
    (h : Holds (ctx.forNode own params) (G.forNode own params).blocks d) (hc : d.AncestorClosed (ctx.forNode own params)) :
    (slotRule T).dag.View (d.gcRound ctx) :=
  view (G := G.forNode own params) h hc

variable {A : VerifiedBlock}

theorem DirectSound.commits (h : DirectSound (T.forNode own1 params1) h1 hc1 slot (.commit B)) :
    d1.gcRound ctx < slot.round ∧ B ∈ G.blocks ∧
      (slotRule T).Commits (viewOf T h1 hc1) slot.round slot.authority B.reference := h.commit B rfl

theorem DirectSound.skips {s : Slot} (h : DirectSound (T.forNode own1 params1) h1 hc1 slot (.skip s)) :
    s = slot ∧ d1.gcRound ctx < slot.round ∧ (slotRule T).Skips (viewOf T h1 hc1) slot.round slot.authority := h.skip s rfl

variable {status : LeaderStatus}

section

variable (h : DirectSound (T.forNode own1 params1) h1 hc1 slot (.commit B))

include h

/-- A slot that one view commits is not skipped by another view, which commits the same block if it commits one. -/
theorem direct_of_commit (h' : DirectSound (T.forNode own2 params2) h2 hc2 slot status) :
    (∀ s, status ≠ .skip s) ∧ ∀ B', status = .commit B' → B' = B := by
  obtain ⟨-, hB, hcommits⟩ := h.commits
  constructor
  · rintro s rfl
    obtain ⟨-, hg, hskips⟩ := h'.skips
    exact SlotRule.not_skips_of_commits hcommits hg hskips
  · rintro B' rfl
    obtain ⟨-, hB', hcommits'⟩ := h'.commits
    exact G.reference_injective B' hB' B hB (SlotRule.eq_of_commits hcommits' hcommits)

/-- An anchor commits the block that a view commits. -/
theorem indirect_of_commit
    (hA : A.reference ∈ (viewOf T h2 hc2).carrier) (hdepth : slot.round + indirectCommitDepth ≤ A.round) (hgc : d2.gcRound ctx < slot.round + 1)
    (hs : IndirectDecision T A slot status) : status = .commit B := by
  obtain ⟨-, hB, hcommits⟩ := h.commits
  refine hs.unique (.inl ⟨B, hB, rfl, hcommits.1, SlotRule.certified_of_commits hcommits hA hdepth hgc, fun L hL hcert => ?_⟩)
  exact (SlotRule.eq_of_certified hcommits hL hcert).symm

end

/-- An anchor skips the slot that a view skips. -/
theorem indirect_of_skip {s : Slot} (h : DirectSound (T.forNode own1 params1) h1 hc1 slot (.skip s))
    (hs : IndirectDecision T A slot status) : status = .skip slot := by
  obtain ⟨-, hg, hskips⟩ := h.skips
  exact hs.unique (.inr ⟨rfl, fun ⟨L, hL, _⟩ => SlotRule.not_certified_of_skips hskips hg hL.1 hL.2⟩)

end

/-- Agreement of commit rule v3, for two DAG states of the same universe that are closed under ancestors. What one of them
commits directly is the decision of every later anchor, and the other one neither skips the slot nor commits another block; what
one of them skips directly every later anchor skips, and the other one does not commit; an anchor decides the same in both; and
no block is both committed and skipped. -/
theorem slotDecider_agreement {ctx : Context} {epoch maliciousStake crashStake f crash : Nat} {authorities : List Authority}
    (hcommittee : Committee.newV3 epoch authorities maliciousStake crashStake = .ok ctx.committee)
    (hbudgets : Committee.scaledBudgets authorities maliciousStake crashStake = .ok (f, crash)) (G : BlockUniverse ctx)
    (hfaulty : ctx.committee.stakeOf G.faulty ≤ f) (hv3 : ctx.protocolConfig.enableV3 = true)
    {own1 own2 : AuthorityIndex} {params1 params2 : Parameters} {d1 d2 : DagState}
    (hr1 : DagReachable (ctx.forNode own1 params1) G.blocks d1) (hr2 : DagReachable (ctx.forNode own2 params2) G.blocks d2)
    (hc1 : d1.AncestorClosed (ctx.forNode own1 params1)) (hc2 : d2.AncestorClosed (ctx.forNode own2 params2)) (slot : Slot) :
    let direct1 := tryDirectDecide (ctx.forNode own1 params1) d1 slot
    let direct2 := tryDirectDecide (ctx.forNode own2 params2) d2 slot
    let indirect1 := tryIndirectDecide (ctx.forNode own1 params1) d1
    let indirect2 := tryIndirectDecide (ctx.forNode own2 params2) d2
    (∀ B, direct1 = .ok (.commit B) → (∀ s, direct2 ≠ .ok (.skip s)) ∧ (∀ B', direct2 = .ok (.commit B') → B' = B) ∧
        ∀ A slots, IndirectCall (ctx.forNode own2 params2) d2 A slots slot.round →
          ∃ statuses, indirect2 A slots = .ok statuses ∧ ∀ i : Nat, slots[i]? = some slot → statuses[i]? = some (.commit B)) ∧
      (∀ s, direct1 = .ok (.skip s) → s = slot ∧ (∀ B, direct2 ≠ .ok (.commit B)) ∧
        ∀ A slots, IndirectCall (ctx.forNode own2 params2) d2 A slots slot.round →
          ∃ statuses, indirect2 A slots = .ok statuses ∧ ∀ i : Nat, slots[i]? = some slot → statuses[i]? = some (.skip slot)) ∧
      (∀ A slots, IndirectCall (ctx.forNode own1 params1) d1 A slots slot.round →
        IndirectCall (ctx.forNode own2 params2) d2 A slots slot.round →
        ∃ statuses, indirect1 A slots = .ok statuses ∧ indirect2 A slots = .ok statuses) ∧
      ∀ r, direct1 ≠ .error (Panic.committedAndSkipped r) ∧ direct2 ≠ .error (Panic.committedAndSkipped r) := by
  intro direct1 direct2 indirect1 indirect2
  obtain ⟨hcert, hquorum, hmeets, hsurvives⟩ := Committee.newV3_thresholds hcommittee hbudgets
  let T : G.TwoThresholds := ⟨⟨f, hfaulty⟩, hquorum, hcert, hmeets, hsurvives⟩
  have hdirect : ∀ {own : AuthorityIndex} {params : Parameters} {d : DagState}
      (hr : DagReachable (ctx.forNode own params) (G.forNode own params).blocks d) (hc : d.AncestorClosed (ctx.forNode own params)),
      (∀ status, tryDirectDecide (ctx.forNode own params) d slot = .ok status →
        DirectSound (T.forNode own params) (.of_reachable hr) hc slot status) ∧
      ∀ r, tryDirectDecide (ctx.forNode own params) d slot ≠ .error (Panic.committedAndSkipped r) := by
    intro own params d hr hc
    rcases tryDirectDecide_spec (.of_reachable hr) hc (VotesExact.of_reachable hv3 hr) (T.forNode own params) slot with
      ⟨status', hrun, hs⟩ | ⟨-, herr⟩
    · refine ⟨fun status hstatus => ?_, fun r herr => absurd (herr.symm.trans hrun) (by simp)⟩
      rw [Checked.ok_unique hstatus hrun]
      exact hs
    · exact ⟨fun status hstatus => absurd (hstatus.symm.trans herr) (by simp),
        fun r herr' => absurd (herr'.symm.trans herr) (by simp)⟩
  obtain ⟨hsound1, hpanic1⟩ := hdirect hr1 hc1
  obtain ⟨hsound2, hpanic2⟩ := hdirect hr2 hc2
  have h2 := Holds.of_reachable hr2
  refine ⟨fun B hB => ?_, fun s hs => ?_, fun A slots call1 call2 => ?_, fun r => ⟨hpanic1 r, hpanic2 r⟩⟩
  · have hcommit := hsound1 _ hB
    refine ⟨fun s hs => (direct_of_commit hcommit (hsound2 _ hs)).1 s rfl,
      fun B' hB' => (direct_of_commit hcommit (hsound2 _ hB')).2 B' rfl, fun A slots call => ?_⟩
    obtain ⟨statuses, hrun, hall⟩ := call.spec (T.forNode own2 params2) h2 hc2
    refine ⟨statuses, hrun, fun i hi => ?_⟩
    obtain ⟨status, hst, hdec⟩ := hall i slot hi
    have hgc : d2.gcRound ctx < slot.round + 1 := by
      have : d2.gcRound ctx < slot.round ∨ d2.gcRound ctx = 0 := call.notCollected
      omega
    obtain ⟨info, hinfo, -⟩ := call.inView
    have hA : A.reference ∈ (viewOf T h2 hc2).carrier := Option.isSome_iff_exists.mpr ⟨info, hinfo⟩
    rw [hst, indirect_of_commit hcommit hA call.depth hgc hdec]
  · have hskip := hsound1 _ hs
    refine ⟨hskip.skips.1, fun B hB => (direct_of_commit (hsound2 _ hB) hskip).1 s rfl, fun A slots call => ?_⟩
    obtain ⟨statuses, hrun, hall⟩ := call.spec (T.forNode own2 params2) h2 hc2
    refine ⟨statuses, hrun, fun i hi => ?_⟩
    obtain ⟨status, hst, hdec⟩ := hall i slot hi
    rw [hst, indirect_of_skip hskip hdec]
  · obtain ⟨statuses1, hrun1, hall1⟩ := tryIndirectDecide_spec (.of_reachable hr1) hc1 (T.forNode own1 params1) call1.inView
      call1.nonempty call1.round call1.depth call1.notCollected
    obtain ⟨statuses2, hrun2, hall2⟩ := tryIndirectDecide_spec h2 hc2 (T.forNode own2 params2) call2.inView call2.nonempty
      call2.round call2.depth call2.notCollected
    have heq : statuses1 = statuses2 := by
      clear hrun1 hrun2 call1 call2
      induction hall1 generalizing statuses2 with
      | nil =>
        cases hall2
        rfl
      | cons hx _ ih =>
        cases hall2 with
        | cons hy hrest =>
          have hxy := IndirectDecision.unique (T := T) hx hy
          rw [hxy, ih _ hrest]
    exact ⟨statuses1, hrun1, heq ▸ hrun2⟩

/-- Two views, of which the second has both blocks of the faulty authority: the first leader is committed directly, and by an
anchor. -/
theorem slotDecider_agreement_four : ∃ d1 d2 statuses, fourState true threeRounds = .ok d1 ∧ fourState true fourRounds = .ok d2 ∧
      tryDirectDecide (fourContext true) d1 ⟨1, 0⟩ = .ok (.commit (honestBlock 1 0)) ∧
      tryIndirectDecide (fourContext true) d2 (honestBlock 4 0) [⟨1, 0⟩] = .ok statuses ∧
      statuses[0]? = some (.commit (honestBlock 1 0)) := by
  have hrun1 : (fourState true threeRounds >>= fun d => tryDirectDecide (fourContext true) d ⟨1, 0⟩) =
      .ok (.commit (honestBlock 1 0)) := by decide +kernel
  have hrun2 : (fourState true fourRounds >>= fun d => pure d.lastCommit) = .ok none := by decide +kernel
  obtain ⟨d1, h1, hdirect⟩ := Checked.bind_ok.mp hrun1
  obtain ⟨d2, h2, -⟩ := Checked.bind_ok.mp hrun2
  have ha1 := accepted_threeRounds h1
  have ha2 := accepted_fourRounds h2
  have hanchor : honestBlock 4 0 ∈ fourRounds := by decide +kernel
  have hcall : IndirectCall (fourContext true) d2 (honestBlock 4 0) [⟨1, 0⟩] 1 :=
    ⟨ha2.inView hanchor (by decide +kernel), by decide, by decide, by decide, Or.inr ha2.gcRound_eq⟩
  have hcommittee : Committee.newV3 0 [⟨2⟩, ⟨2⟩, ⟨1⟩, ⟨1⟩] 1 0 = .ok (fourContext true).committee := rfl
  have hagree := slotDecider_agreement hcommittee rfl (fourUniverse true) (by decide) rfl ha1.reachable ha2.reachable
    ha1.closed ha2.closed ⟨1, 0⟩
  obtain ⟨statuses, hindirect, hget⟩ := (hagree.1 _ hdirect).2.2 _ _ hcall
  exact ⟨d1, d2, statuses, h1, h2, hdirect, hindirect, hget 0 rfl⟩

end LeaderSlotDecider

end Sui

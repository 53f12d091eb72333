import Sui.Consensus.Universe

/-!
# What the threshold clock shows

The round of the clock is a function of the set of accepted references, as long as each one comes after a quorum of the round before.
-/

namespace Sui.ThresholdClock

open Library List StakeAggregator

def run (ctx : Context) (refs : List BlockRef) : ThresholdClock := refs.foldl (fun c b => (c.addBlock ctx b).1) (new 1)

/-- The authors of the references of a round. -/
def authorsAt (refs : Finset BlockRef) (round : Nat) : Finset AuthorityIndex :=
  (refs.filter fun b => b.round = round).image BlockRef.author

def quorumAt (c : Committee) (refs : Finset BlockRef) (round : Nat) : Bool := c.reachedQuorum (c.stakeOf (authorsAt refs round))

/-- Each reference above round one comes after a quorum of the round before. -/
def Causal (c : Committee) (refs : List BlockRef) : Prop :=
  ∀ pre b, pre ++ [b] <+: refs → 1 < b.round → quorumAt c pre.toFinset (b.round - 1)

/-- The round for a set of references: after the highest one if it has a quorum, and the highest one otherwise, but at least one. -/
def roundOf (c : Committee) (refs : Finset BlockRef) : Nat :=
  let highest := refs.sup BlockRef.round
  if quorumAt c refs highest then highest + 1 else max highest 1

variable {ctx : Context} {c : ThresholdClock} {b : BlockRef}

/-- The answer is whether the round went up, and it never goes down. -/
theorem addBlock_round (c : ThresholdClock) (b : BlockRef) :
    c.round ≤ (c.addBlock ctx b).1.round ∧ ((c.addBlock ctx b).2 = true ↔ c.round < (c.addBlock ctx b).1.round) := by
  unfold ThresholdClock.addBlock
  rcases lt_trichotomy b.round c.round with hlt | heq | hgt
  · simp [Nat.compare_eq_lt.mpr hlt]
  · rw [Nat.compare_eq_eq.mpr heq]
    dsimp only
    split <;> simp
    omega
  · rw [Nat.compare_eq_gt.mpr hgt]
    dsimp only
    split <;> simp <;> omega

section

variable (refs : Finset BlockRef) (round : Nat)

theorem authorsAt_insert : authorsAt (insert b refs) round =
    if b.round = round then insert b.author (authorsAt refs round) else authorsAt refs round := by
  rw [authorsAt, Finset.filter_insert]
  split
  · exact Finset.image_insert _ _ _
  · rfl

variable {refs round}

theorem quorumAt_insert (h : quorumAt ctx.committee refs round) : quorumAt ctx.committee (insert b refs) round := by
  refine decide_eq_true (le_trans (of_decide_eq_true h) (Committee.stakeOf_mono _ ?_))
  exact Finset.image_subset_image (Finset.filter_subset_filter _ (Finset.subset_insert _ _))

variable (hq : 0 < ctx.committee.quorumThreshold)

theorem authorsAt_eq_empty (h : ∀ b ∈ refs, b.round < round) : authorsAt refs round = ∅ := by
  rw [authorsAt, Finset.filter_false_of_mem fun b hb => (h b hb).ne, Finset.image_empty]

include hq

theorem not_quorumAt (h : ∀ b ∈ refs, b.round < round) : ¬ quorumAt ctx.committee refs round := by
  rw [quorumAt, authorsAt_eq_empty h, Committee.stakeOf, Quorum.weight_empty, Committee.reachedQuorum, decide_eq_true_eq]
  omega

/-- The clock counts the authors of its round, which is the first one without a quorum. -/
structure Shows (ctx : Context) (c : ThresholdClock) (refs : Finset BlockRef) : Prop where
  pos : 1 ≤ c.round
  le : ∀ b ∈ refs, b.round ≤ c.round
  aggregator : c.aggregator = .ofVotes ctx.committee (authorsAt refs c.round)
  noQuorum : ¬ quorumAt ctx.committee refs c.round
  before : c.round = 1 ∨ quorumAt ctx.committee refs (c.round - 1)

theorem Shows.addBlock (h : Shows ctx c refs) (hb : 1 < b.round → quorumAt ctx.committee refs (b.round - 1)) :
    Shows ctx (c.addBlock ctx b).1 (insert b refs) := by
  unfold ThresholdClock.addBlock
  have hle : b.round ≤ c.round → ∀ x ∈ insert b refs, x.round ≤ c.round :=
    fun hbc x hx => (Finset.mem_insert.mp hx).elim (fun hx => hx ▸ hbc) (h.le x)
  have hauthors := authorsAt_insert (b := b) refs c.round
  rcases lt_trichotomy b.round c.round with hlt | heq | hgt
  · rw [Nat.compare_eq_lt.mpr hlt]
    rw [if_neg hlt.ne] at hauthors
    exact ⟨h.pos, hle hlt.le, hauthors ▸ h.aggregator, by rw [quorumAt, hauthors]; exact h.noQuorum,
      h.before.imp_right quorumAt_insert⟩
  · rw [Nat.compare_eq_eq.mpr heq]
    rw [if_pos heq] at hauthors
    simp only [add, h.aggregator, addUnique_ofVotes, ← hauthors]
    split_ifs with hreached
    · have habove : ∀ x ∈ insert b refs, x.round < b.round + 1 := fun x hx => heq ▸ Nat.lt_succ_of_le (hle heq.le x hx)
      refine ⟨Nat.succ_pos _, fun x hx => (habove x hx).le, ?_, not_quorumAt hq habove, .inr (heq ▸ hreached)⟩
      rw [authorsAt_eq_empty habove, new_eq_ofVotes ctx.committee]
    · exact ⟨h.pos, hle heq.le, rfl, hreached, h.before.imp_right quorumAt_insert⟩
  · -- a quorum of the round before would have moved the clock
    have hquorum := hb (lt_of_le_of_lt h.pos hgt)
    by_cases heq : b.round - 1 = c.round
    · exact absurd (heq ▸ hquorum) h.noQuorum
    · exact absurd hquorum (not_quorumAt hq fun x hx => lt_of_le_of_lt (h.le x hx) (by omega))

theorem Causal.shows {refs : List BlockRef} (h : Causal ctx.committee refs) : Shows ctx (run ctx refs) refs.toFinset := by
  induction refs using List.reverseRecOn with
  | nil => exact ⟨le_rfl, nofun, new_eq_ofVotes _, not_quorumAt hq nofun, .inl rfl⟩
  | append_singleton refs b ih =>
    have hrefs := ih fun pre x hx => h pre x (hx.trans (prefix_append _ _))
    have hinsert : (refs ++ [b]).toFinset = insert b refs.toFinset := by
      rw [toFinset_append, Finset.union_comm]
      rfl
    rw [run, foldl_append, hinsert]
    exact hrefs.addBlock hq (h refs b prefix_rfl)

theorem Shows.round_eq (h : Shows ctx c refs) : c.round = roundOf ctx.committee refs := by
  have hsup : refs.sup BlockRef.round ≤ c.round := Finset.sup_le h.le
  have hbefore : c.round = 1 ∨ c.round - 1 ≤ refs.sup BlockRef.round := h.before.imp_right fun hquorum => by
    by_contra hcon
    exact not_quorumAt hq (fun x hx => lt_of_le_of_lt (Finset.le_sup hx) (Nat.lt_of_not_le hcon)) hquorum
  rw [roundOf]
  split_ifs with hquorum
  · have hne : refs.sup BlockRef.round ≠ c.round := fun heq => h.noQuorum (heq ▸ hquorum)
    have := h.pos
    omega
  · have hne : c.round = 1 ∨ c.round - 1 ≠ refs.sup BlockRef.round := h.before.imp_right fun hb heq => hquorum (heq ▸ hb)
    omega

end

/-- The clock is a function of the set of references, whatever their order, and says when it advances. -/
theorem run_round (hc : ctx.committee.Built) (refs : List BlockRef) (hcausal : Causal ctx.committee refs) :
    (run ctx refs).round = roundOf ctx.committee refs.toFinset ∧ ∀ c b, c.round ≤ (addBlock ctx c b).1.round ∧
      ((addBlock ctx c b).2 = true ↔ c.round < (addBlock ctx c b).1.round) :=
  ⟨(hcausal.shows hc.positive.2.2.1).round_eq hc.positive.2.2.1, addBlock_round⟩

theorem causal_of_get {c : Committee} {refs : List BlockRef} (h : ∀ i : Fin refs.length, 1 < (refs.get i).round →
    quorumAt c (refs.take i).toFinset ((refs.get i).round - 1)) : Causal c refs := by
  rintro pre b ⟨post, rfl⟩ hround
  simpa using h ⟨pre.length, by simp⟩ (by simpa using hround)

/-- Three rounds of four authorities. In the first one an author comes twice before the quorum and another one after it. -/
def threeRoundRefs : List BlockRef :=
  [⟨1, 0, 1⟩, ⟨1, 1, 1⟩, ⟨1, 1, 1⟩, ⟨1, 2, 1⟩, ⟨1, 3, 1⟩, ⟨2, 3, 2⟩, ⟨2, 1, 2⟩, ⟨1, 3, 2⟩, ⟨2, 0, 2⟩, ⟨3, 2, 3⟩]

theorem run_round_four : (run (fourContext false) threeRoundRefs).round = roundOf (fourContext false).committee threeRoundRefs.toFinset ∧
    roundOf (fourContext false).committee threeRoundRefs.toFinset = 3 := by
  have hcausal : Causal (fourContext false).committee threeRoundRefs := causal_of_get (by decide +kernel)
  exact ⟨(run_round (.inl ⟨0, [⟨2⟩, ⟨2⟩, ⟨1⟩, ⟨1⟩], rfl⟩) threeRoundRefs hcausal).1, by decide +kernel⟩

/-- After a genesis reference the clock shows one, although round zero has no quorum. -/
theorem genesis_reference_round : Causal (fourContext false).committee [⟨0, 0, 7⟩] ∧ (run (fourContext false) [⟨0, 0, 7⟩]).round = 1 ∧
    (({⟨0, 0, 7⟩} : Finset BlockRef).sup BlockRef.round) = 0 ∧ quorumAt (fourContext false).committee {⟨0, 0, 7⟩} 0 = false :=
  ⟨causal_of_get (by decide +kernel), by decide +kernel⟩

end Sui.ThresholdClock

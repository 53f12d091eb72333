import Sui.Consensus.Committee
import Sui.Library.WeightedRank

/-!
# Quorum rounds

`compute_quorum_round` of `consensus/src/round_tracker.rs`. Both quorum rounds are ranks of the reported rounds by stake, from
above and from below.
-/

namespace Sui.RoundTracker

open Library Checked List

/-- The indexing of a row of rounds. -/
inductive RoundPanic where
  | indexOutOfBounds
deriving DecidableEq, Repr

/-- The order of pairs that `sort` sorts by. -/
def pairLe (a b : Nat × Nat) : Prop := a.1 < b.1 ∨ a.1 = b.1 ∧ a.2 ≤ b.2

instance (a b : Nat × Nat) : Decidable (pairLe a b) := inferInstanceAs (Decidable (_ ∨ _))

/-- The rounds that the authorities report for the target, with their stakes. The longer list is cut off, as `zip_debug_eq` does
in a release build. -/
def roundsWithStake (c : Committee) (targetIndex : AuthorityIndex) (highestRounds : List (List Nat)) :
    Except RoundPanic (List (Nat × Nat)) :=
  (highestRounds.zip c.authorities).mapM fun p => do
    let round ← expect p.1[targetIndex]? .indexOutOfBounds
    return (round, p.2.stake)

def computeQuorumRound (c : Committee) (targetIndex : AuthorityIndex) (highestRounds : List (List Nat)) :
    Except RoundPanic (Nat × Nat) := do
  let rounds ← roundsWithStake c targetIndex highestRounds
  let sorted := rounds.insertionSort pairLe
  let low := (crossing c.quorumThreshold 0 sorted.reverse).getD 0
  let high := (crossing c.quorumThreshold 0 sorted).getD 0
  return (low, high)

def reported (highestRounds : List (List Nat)) (targetIndex a : AuthorityIndex) : Nat :=
  (highestRounds[a]?.bind (·[targetIndex]?)).getD 0

instance : Std.Total pairLe := ⟨fun a b => by unfold pairLe; omega⟩

instance : IsTrans (Nat × Nat) pairLe := ⟨fun a b c hab hbc => by unfold pairLe at *; omega⟩

variable {c : Committee} {rounds : List (List Nat)} {target : AuthorityIndex}

theorem roundsWithStake_eq (hlen : rounds.length = c.size) (htarget : ∀ row ∈ rounds, target < row.length) :
    roundsWithStake c target rounds = .ok ((range c.size).map fun a => (reported rounds target a, c.stake a)) := by
  have heach : ∀ p ∈ rounds.zip c.authorities, (do
      let round ← expect p.1[target]? RoundPanic.indexOutOfBounds
      return (round, p.2.stake)) = .ok (p.1[target]?.getD 0, p.2.stake) := by
    rintro ⟨row, a⟩ hp
    rw [getElem?_eq_getElem (htarget row (of_mem_zip hp).1), expect_some, ok_bind]
    rfl
  rw [roundsWithStake, mapM_eq heach]
  refine congrArg Except.ok (Committee.zip_authorities (f := (·[target]?.getD 0)) hlen fun a row ha => ?_)
  rw [reported, ha, Option.bind_some]

/-- The low quorum round is the largest reported round that a quorum reaches, the high one the smallest that a quorum does not
exceed, and honest authorities report rounds on both sides of each. -/
theorem computeQuorumRound_robust {epoch : Nat} {authorities : List Authority}
    (hcommittee : Committee.new epoch authorities = .ok c) (hlen : rounds.length = c.size)
    (htarget : ∀ row ∈ rounds, target < row.length) :
    ∃ low high, computeQuorumRound c target rounds = .ok (low, high) ∧ low ≤ high ∧
      IsGreatest {x | (∃ a ∈ c.members, reported rounds target a = x) ∧
        c.quorumThreshold ≤ c.stakeOf (c.members.filter fun a => x ≤ reported rounds target a)} low ∧
      IsLeast {x | (∃ a ∈ c.members, reported rounds target a = x) ∧
        c.quorumThreshold ≤ c.stakeOf (c.members.filter fun a => reported rounds target a ≤ x)} high ∧
      ∀ honest : Finset AuthorityIndex, c.stakeOf (c.members \ honest) < c.validityThreshold → ∀ x, x = low ∨ x = high →
        (∃ a ∈ honest, reported rounds target a ≤ x) ∧ ∃ a ∈ honest, x ≤ reported rounds target a := by
  obtain ⟨hsum, hpos, hq, hv⟩ := Committee.new_thresholds hcommittee
  have hqpos : 0 < c.quorumThreshold := by omega
  have hqle : c.quorumThreshold ≤ c.stakeOf c.members := by omega
  -- Two quorums together weigh more than the whole.
  have htwo : ∀ {x}, c.quorumThreshold ≤ x → c.stakeOf c.members < x + c.quorumThreshold := by omega
  let pairs := (range c.size).map fun a => (reported rounds target a, c.stake a)
  have hperm : (pairs.insertionSort pairLe).Perm pairs := perm_insertionSort _ _
  have hsorted : (pairs.insertionSort pairLe).Pairwise fun a b => a.1 ≤ b.1 :=
    (pairwise_insertionSort pairLe pairs).imp fun h => by
      unfold pairLe at h
      omega
  obtain ⟨low, hlow, hl⟩ := exists_crossing (r := fun x y => y ≤ x) le_refl (pairwise_reverse.mpr hsorted)
    ((reverse_perm _).trans hperm) rfl hqpos hqle
  obtain ⟨high, hhigh, hh⟩ := exists_crossing (r := (· ≤ ·)) le_refl hsorted hperm rfl hqpos hqle
  refine ⟨low, high, ?_, ?_, ⟨⟨hl.mem, hl.reached⟩, ?_⟩, ⟨⟨hh.mem, hh.reached⟩, ?_⟩, ?_⟩
  · simp only [computeQuorumRound, roundsWithStake_eq hlen htarget, ok_bind]
    rw [hlow, hhigh]
    rfl
  · obtain ⟨a, hla, hah⟩ := hh.exists_reached (Finset.filter_subset _ _) (htwo hl.reached)
    exact le_trans (Finset.mem_filter.mp hla).2 hah
  · rintro y ⟨-, hy⟩
    obtain ⟨a, hya, hal⟩ := hl.exists_rest (Finset.filter_subset _ _) hy
    exact le_trans (Finset.mem_filter.mp hya).2 hal
  · rintro y ⟨-, hy⟩
    obtain ⟨a, hay, hha⟩ := hh.exists_rest (Finset.filter_subset _ _) hy
    exact le_trans hha (Finset.mem_filter.mp hay).2
  · intro honest hfaulty x hx
    have hsplit : c.stakeOf c.members ≤ c.stakeOf (c.members \ (c.members ∩ honest)) + c.stakeOf (c.members ∩ honest) :=
      Quorum.weight_le_sdiff_add _ _ _
    rw [Finset.sdiff_inter_self_left] at hsplit
    have hquorum : c.quorumThreshold ≤ c.stakeOf (c.members ∩ honest) := by omega
    have hhonest : ∀ {a}, a ∈ c.members ∩ honest → a ∈ honest := Finset.mem_of_mem_inter_right
    rcases hx with rfl | rfl
    · obtain ⟨a, ha, hax⟩ := hl.exists_rest Finset.inter_subset_left hquorum
      obtain ⟨b, hb, hxb⟩ := hl.exists_reached Finset.inter_subset_left (htwo hquorum)
      exact ⟨⟨a, hhonest ha, hax⟩, b, hhonest hb, hxb⟩
    · obtain ⟨a, ha, hxa⟩ := hh.exists_rest Finset.inter_subset_left hquorum
      obtain ⟨b, hb, hbx⟩ := hh.exists_reached Finset.inter_subset_left (htwo hquorum)
      exact ⟨⟨b, hhonest hb, hbx⟩, a, hhonest ha, hxa⟩

/-- Four authorities that report rounds from 3 to 9: a quorum reaches round 4, and a quorum does not exceed round 5. -/
theorem computeQuorumRound_four_authorities : ∃ c, Committee.new 0 [⟨1⟩, ⟨1⟩, ⟨1⟩, ⟨1⟩] = .ok c ∧ ∃ low high,
    computeQuorumRound c 0 [[5], [3], [4], [9]] = .ok (low, high) ∧ low ≤ high ∧ (low, high) = (4, 5) := by
  refine ⟨_, rfl, ?_⟩
  obtain ⟨low, high, heq, hle, -⟩ := @computeQuorumRound_robust _ [[5], [3], [4], [9]] 0 0 [⟨1⟩, ⟨1⟩, ⟨1⟩, ⟨1⟩] rfl rfl
    (by decide)
  exact ⟨low, high, heq, hle, Except.ok.inj (heq.symm.trans rfl)⟩

end Sui.RoundTracker

import Sui.Consensus.Block
import Sui.Library.Quorum

/-!
# The committee

`config/consensus/src/committee.rs` and `consensus/src/stake_aggregator.rs`. Stakes are voting powers, which add up to 10,000 by
the documentation of `Stake`: sums are without the bound of `u64`. The one checked multiplication, in `new_v3`, keeps its check.
-/

namespace Sui

open Library Checked List

/-- `Authority`: of its fields the model reads the stake. -/
structure Authority where
  stake : Nat
deriving DecidableEq, Repr

/-- `Committee`: the authorities of an epoch and the thresholds on their stakes. -/
structure Committee where
  epoch : Nat
  authorities : List Authority
  totalStake : Nat
  quorumThreshold : Nat
  certificationThreshold : Nat
  validityThreshold : Nat
deriving DecidableEq, Repr

/-- The assertions of the constructors of a committee. -/
inductive CommitteePanic where
  | empty
  | tooManyAuthorities
  | zeroTotalStake
  | quorumsDoNotIntersect
  | overflowed
  | certificationStakeSafety
  | quorumStakeSafety
deriving DecidableEq, Repr

namespace Committee

def sumStake (authorities : List Authority) : Nat := (authorities.map Authority.stake).sum

def new (epoch : Nat) (authorities : List Authority) : Except CommitteePanic Committee := do
  assert (!authorities.isEmpty) .empty
  assert (authorities.length < 2 ^ 32 - 1) .tooManyAuthorities
  let totalStake := sumStake authorities
  assert (totalStake != 0) .zeroTotalStake
  -- tolerate integer f faults when the total stake is 3f+1
  let faultTolerance := (totalStake - 1) / 3
  let quorumThreshold := totalStake - faultTolerance
  let validityThreshold := faultTolerance + 1
  assert (2 * quorumThreshold - faultTolerance > totalStake) .quorumsDoNotIntersect
  return { epoch, authorities, totalStake, quorumThreshold, validityThreshold, certificationThreshold := quorumThreshold }

/-- `checked_mul` on `u64`. -/
def checkedMul (a b : Nat) : Option Nat := if a * b < 2 ^ 64 then some (a * b) else none

/-- The closure `scale` of `Committee::new_v3`: a nominal fault budget scaled to the stake of the committee. -/
def scale (actualTotalStake baseStake nominal : Nat) : Except CommitteePanic Nat := do
  let product ← expect (checkedMul nominal (actualTotalStake - 1)) .overflowed
  return product / baseStake

/-- The scaled budgets `(f, c)` of `Committee::new_v3`. -/
def scaledBudgets (authorities : List Authority) (maliciousStake crashStake : Nat) : Except CommitteePanic (Nat × Nat) := do
  let actualTotalStake := sumStake authorities
  let baseStake := 5 * maliciousStake + 3 * crashStake
  if baseStake > 0 then
    let f ← scale actualTotalStake baseStake maliciousStake
    let c ← scale actualTotalStake baseStake crashStake
    return (f, c)
  else
    return (0, 0)

def newV3 (epoch : Nat) (authorities : List Authority) (maliciousStake crashStake : Nat) : Except CommitteePanic Committee := do
  assert (!authorities.isEmpty) .empty
  assert (authorities.length < 2 ^ 32 - 1) .tooManyAuthorities
  let actualTotalStake := sumStake authorities
  assert (actualTotalStake != 0) .zeroTotalStake
  let (f, c) ← scaledBudgets authorities maliciousStake crashStake
  let validityThreshold := f + 1
  let certificationThreshold := 2 * f + c + 1
  let quorumThreshold := actualTotalStake - f - c
  -- a certificate of a committed block intersects every quorum
  assert (certificationThreshold + quorumThreshold ≥ actualTotalStake + f + 1) .certificationStakeSafety
  -- a certificate of a committed block survives in the intersection of two quorums
  assert (quorumThreshold * 2 ≥ actualTotalStake + f + certificationThreshold) .quorumStakeSafety
  return { epoch, authorities, totalStake := actualTotalStake, quorumThreshold, certificationThreshold, validityThreshold }

def size (c : Committee) : Nat := c.authorities.length

def isValidIndex (c : Committee) (a : AuthorityIndex) : Bool := a < c.size

/-- `Committee::stake`. The source indexes the authorities, and callers pass valid indices only. -/
def stake (c : Committee) (a : AuthorityIndex) : Nat := (c.authorities[a]?.map Authority.stake).getD 0

def reachedQuorum (c : Committee) (s : Nat) : Bool := s ≥ c.quorumThreshold

def members (c : Committee) : Finset AuthorityIndex := Finset.range c.size

def stakeOf (c : Committee) (s : Finset AuthorityIndex) : Nat := Quorum.weight c.stake s

/-- The stake of all members is the sum of the stakes. -/
theorem stakeOf_members (c : Committee) : c.stakeOf c.members = sumStake c.authorities := by
  have h : ∀ l : List Authority,
      ∑ i ∈ Finset.range l.length, (l[i]?.map Authority.stake).getD 0 = (l.map Authority.stake).sum := by
    intro l
    induction l with
    | nil => rfl
    | cons a l ih =>
      rw [length_cons, Finset.sum_range_succ']
      simp only [List.getElem?_cons_succ, List.getElem?_cons_zero, Option.map_some, Option.getD_some, ih, map_cons, sum_cons]
      omega
  exact h c.authorities

theorem stakeOf_mono (c : Committee) {s t : Finset AuthorityIndex} (h : s ⊆ t) : c.stakeOf s ≤ c.stakeOf t :=
  Quorum.weight_mono h

/-- A value of each authority with its stake, from a list in the order of the authorities. -/
theorem zip_authorities {α : Type} {c : Committee} {l : List α} (hlen : l.length = c.size) {f : α → Nat} {g : AuthorityIndex → Nat}
    (hg : ∀ a x, l[a]? = some x → g a = f x) :
    ((l.zip c.authorities).map fun p => (f p.1, p.2.stake)) = (range c.size).map fun a => (g a, c.stake a) := by
  refine ext_getElem ?_ fun i hi _ => ?_
  · rw [length_map, length_map, length_zip, length_range, hlen]
    exact Nat.min_self _
  · rw [length_map, length_zip] at hi
    have hrow : i < l.length := by omega
    have hauth : i < c.authorities.length := by omega
    simp only [getElem_map, getElem_zip, getElem_range, hg i _ (getElem?_eq_getElem hrow), stake, getElem?_eq_getElem hauth,
      Option.map_some, Option.getD_some]

/-- Counting an authority more than once counts at least its stake. -/
theorem stakeOf_toFinset_le (c : Committee) (l : List AuthorityIndex) : c.stakeOf l.toFinset ≤ (l.map c.stake).sum := by
  induction l with
  | nil => simp [stakeOf]
  | cons a l =>
    rw [toFinset_cons, map_cons, sum_cons]
    by_cases ha : a ∈ l.toFinset
    · rw [Finset.insert_eq_of_mem ha]
      omega
    · have hw : c.stakeOf (insert a l.toFinset) = c.stake a + c.stakeOf l.toFinset := Quorum.weight_insert ha
      omega

/-- The authors of some elements of a list have at most the stake that the whole list counts. -/
theorem stakeOf_filter_le {α : Type} (c : Committee) (f : α → AuthorityIndex) (p : α → Bool) (l : List α) :
    c.stakeOf ((l.filter p).map f).toFinset ≤ (l.map fun x => c.stake (f x)).sum := by
  have hall := c.stakeOf_toFinset_le (l.map f)
  rw [map_map] at hall
  refine le_trans (c.stakeOf_mono ?_) hall
  intro a ha
  exact mem_toFinset.mpr ((filter_sublist.map _).subset (mem_toFinset.mp ha))

/-- The thresholds of `Committee::new` for the faults it tolerates. -/
theorem new_thresholds {epoch : Nat} {authorities : List Authority} {c : Committee} (h : new epoch authorities = .ok c) :
    c.stakeOf c.members = c.totalStake ∧ 0 < c.totalStake ∧ c.quorumThreshold = c.totalStake - (c.totalStake - 1) / 3 ∧
      c.validityThreshold = (c.totalStake - 1) / 3 + 1 := by
  simp only [new, bind_ok, assert_ok, pure_ok, exists_and_left, exists_const, bne_iff_ne] at h
  obtain ⟨-, -, hpos, -, rfl⟩ := h
  exact ⟨stakeOf_members _, Nat.pos_of_ne_zero hpos, rfl, rfl⟩

/-- A committee that one of the constructors returns. -/
def Built (c : Committee) : Prop := (∃ epoch authorities, new epoch authorities = .ok c) ∨
  ∃ epoch authorities maliciousStake crashStake, newV3 epoch authorities maliciousStake crashStake = .ok c

theorem Built.positive {c : Committee} (h : c.Built) :
    c.stakeOf c.members = c.totalStake ∧ 0 < c.totalStake ∧ 0 < c.quorumThreshold ∧
      c.validityThreshold ≤ c.quorumThreshold ∧ c.quorumThreshold ≤ c.totalStake := by
  rcases h with ⟨epoch, authorities, h⟩ | ⟨epoch, authorities, maliciousStake, crashStake, h⟩
  · obtain ⟨hsum, hpos, hq, hv⟩ := new_thresholds h
    exact ⟨hsum, hpos, by omega, by omega, by omega⟩
  · rw [stakeOf_members]
    simp only [newV3, bind_ok, assert_ok, pure_ok, exists_and_left, exists_const, bne_iff_ne, decide_eq_true_eq] at h
    obtain ⟨-, -, hpos, _, -, -, hsafe, rfl⟩ := h
    refine ⟨rfl, ?_, ?_, ?_, ?_⟩ <;> dsimp only <;> omega

end Committee

/-- The thresholds a `StakeAggregator` can be for: `QuorumThreshold` and `CertificationThreshold`. -/
inductive Threshold where
  | quorum
  | certification
deriving DecidableEq, Repr

/-- `CommitteeThreshold::threshold`. -/
def Threshold.amount : Threshold → Committee → Nat
  | .quorum, c => c.quorumThreshold
  | .certification, c => c.certificationThreshold

def Threshold.isThreshold (t : Threshold) (c : Committee) (amount : Nat) : Bool := amount ≥ t.amount c

/-- `StakeAggregator<T>`: the authorities that voted and their stake. -/
structure StakeAggregator (t : Threshold) where
  votes : BTreeSet AuthorityIndex
  stake : Nat
deriving DecidableEq

namespace StakeAggregator

variable {t : Threshold}

def new : StakeAggregator t := ⟨∅, 0⟩

variable (s : StakeAggregator t)

/-- `StakeAggregator::add_unique`, without its answer whether the vote is counted. -/
def addUnique (vote : AuthorityIndex) (c : Committee) : StakeAggregator t :=
  if vote ∈ s.votes then s else ⟨insert vote s.votes, s.stake + c.stake vote⟩

def reachedThreshold (c : Committee) : Bool := t.isThreshold c s.stake

/-- `StakeAggregator::add`: counts the vote and says whether the threshold is reached. -/
def add (vote : AuthorityIndex) (c : Committee) : StakeAggregator t × Bool :=
  (s.addUnique vote c, (s.addUnique vote c).reachedThreshold c)

/-- The aggregator that has counted each authority of a set. -/
def ofVotes (c : Committee) (votes : Finset AuthorityIndex) : StakeAggregator t := ⟨votes, c.stakeOf votes⟩

section

variable (c : Committee)

include c

@[simp] theorem new_eq_ofVotes : (new : StakeAggregator t) = ofVotes c ∅ := by
  simp [new, ofVotes, Committee.stakeOf]

variable (v : Finset AuthorityIndex)

@[simp] theorem ofVotes_votes : (ofVotes c v : StakeAggregator t).votes = v := rfl

/-- A vote is counted once for an authority. -/
@[simp] theorem addUnique_ofVotes (a : AuthorityIndex) :
    (ofVotes c v : StakeAggregator t).addUnique a c = ofVotes c (insert a v) := by
  unfold addUnique
  split_ifs with h
  · rw [ofVotes_votes] at h
    rw [Finset.insert_eq_of_mem h]
  · rw [ofVotes_votes] at h
    simp only [ofVotes, Committee.stakeOf, Quorum.weight_insert h, StakeAggregator.mk.injEq, true_and]
    omega

@[simp] theorem reachedThreshold_ofVotes :
    (ofVotes c v : StakeAggregator t).reachedThreshold c = decide (t.amount c ≤ c.stakeOf v) := rfl

/-- Counting the votes of a list, in any order, counts the set of its authorities. -/
theorem foldl_addUnique (l : List AuthorityIndex) (v : Finset AuthorityIndex) :
    l.foldl (fun s a => s.addUnique a c) (ofVotes c v : StakeAggregator t) = ofVotes c (v ∪ l.toFinset) := by
  induction l generalizing v with
  | nil => simp
  | cons a l ih =>
    rw [foldl_cons, addUnique_ofVotes, ih, toFinset_cons, Finset.insert_union, Finset.union_insert]

end

end StakeAggregator

end Sui

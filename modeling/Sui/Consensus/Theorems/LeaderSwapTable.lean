import Sui.Consensus.LeaderSwapTable

/-!
# Good and bad leaders

The table cuts the good nodes from the top of one ranking and the bad nodes from its bottom, each within a third of the stake.
Whether there is a good node to swap in depends on the stake of the first node.
-/

namespace Sui.LeaderSwapTable

open Library Checked BTreeMap List

/-- The authorities with their scores, highest scores first and shuffled where they are equal. -/
def ranking (rng : SwapRng) (commitIndex : Nat) (scores : ReputationScores) : List (AuthorityIndex × Nat) :=
  (rng.shuffle commitIndex (scores.scoresPerAuthority.zipIdx.map fun p => (p.2, p.1))).insertionSort fun a b => b.2 ≤ a.2

def stakes (c : Committee) (l : List (AuthorityIndex × Nat)) : Nat := (l.map fun p => c.stake p.1).sum

/-- Ranked authorities as nodes of the table. -/
def nodes (c : Committee) (l : List (AuthorityIndex × Nat)) : List (AuthorityIndex × Nat) := l.map fun p => (p.1, c.stake p.1)

variable {c : Committee} {threshold : Nat} {l : List (AuthorityIndex × Nat)}

/-- The first nodes are a prefix whose stake is within the cutoff. -/
theorem firstNodes_spec (n : Nat) (l : List (AuthorityIndex × Nat)) (stake : Nat) (h : stake ≤ n) :
    ∃ pre suf, l = pre ++ suf ∧ firstNodes c n stake l = nodes c pre ∧ stake + stakes c pre ≤ n := by
  induction l generalizing stake with
  | nil => exact ⟨[], [], rfl, rfl, h⟩
  | cons p l ih =>
    unfold firstNodes
    split_ifs with hle
    · exact ⟨[], p :: l, rfl, rfl, h⟩
    · obtain ⟨pre, suf, rfl, heq, hsum⟩ := ih (stake + c.stake p.1) (Nat.le_of_not_lt hle)
      refine ⟨p :: pre, suf, rfl, by rw [heq]; rfl, ?_⟩
      rw [stakes, map_cons, sum_cons, ← stakes]
      omega

/-- There is no first node exactly if the stake of the first authority is above the cutoff. -/
theorem retrieveFirstNodes_eq_nil :
    retrieveFirstNodes c l threshold = [] ↔ ∀ p ∈ l.head?, cutoff c threshold < c.stake p.1 := by
  cases l with
  | nil => exact iff_of_true rfl nofun
  | cons =>
    simp only [retrieveFirstNodes, firstNodes, head?_cons, Option.mem_some_iff, forall_eq', Nat.zero_add]
    split <;> simp_all

theorem cutoff_le (c : Committee) (threshold : Nat) : cutoff c threshold ≤ threshold * c.totalStake / 100 :=
  Nat.div_le_div_right (Nat.mod_le _ _)

/-- Authorities with the whole stake are cut into good nodes, others and bad nodes. -/
theorem exists_cut (hthreshold : threshold ≤ 33) (hl : l = [] ∨ 0 < c.totalStake ∧ c.totalStake ≤ stakes c l) :
    ∃ good middle bad, l = good ++ middle ++ bad ∧ retrieveFirstNodes c l threshold = nodes c good ∧
      retrieveFirstNodes c l.reverse threshold = nodes c bad.reverse ∧ stakes c good ≤ threshold * c.totalStake / 100 ∧
      stakes c bad ≤ threshold * c.totalStake / 100 := by
  rcases hl with rfl | ⟨hpos, htotal⟩
  · exact ⟨[], [], [], rfl, rfl, rfl, Nat.zero_le _, Nat.zero_le _⟩
  obtain ⟨good, s1, hgood, heq1, hsum1⟩ := firstNodes_spec (c := c) (cutoff c threshold) l 0 (Nat.zero_le _)
  obtain ⟨bad, s2, hbad, heq2, hsum2⟩ := firstNodes_spec (c := c) (cutoff c threshold) l.reverse 0 (Nat.zero_le _)
  have hcutoff := cutoff_le c threshold
  have hstakes : stakes c bad.reverse = stakes c bad := by rw [stakes, map_reverse, sum_reverse, stakes]
  have hbad' : l = s2.reverse ++ bad.reverse := by rw [← reverse_append, ← hbad, reverse_reverse]
  rcases append_eq_append_iff.mp (hgood.symm.trans hbad') with ⟨middle, hs2, hs1⟩ | ⟨shared, hs2, hs1⟩
  · refine ⟨good, middle, bad.reverse, ?_, heq1, by rw [reverse_reverse]; exact heq2, by omega, by omega⟩
    rw [hgood, hs1, append_assoc]
  · -- otherwise each authority is good or bad, but together they have at most two thirds of the stake
    have hmul : threshold * c.totalStake ≤ 33 * c.totalStake := Nat.mul_le_mul_right _ hthreshold
    rw [hbad', stakes, map_append, sum_append, ← stakes, ← stakes] at htotal
    rw [hs2, stakes, map_append, sum_append, ← stakes] at hsum1
    omega

section

variable (rng : SwapRng) (commitIndex : Nat) {scores : ReputationScores}

theorem perm_ranking : (ranking rng commitIndex scores).Perm (scores.scoresPerAuthority.zipIdx.map fun p => (p.2, p.1)) :=
  (perm_insertionSort _ _).trans (rng.shuffle_perm _ _)

theorem perm_ranked : ((ranking rng commitIndex scores).map Prod.fst).Perm (range scores.scoresPerAuthority.length) := by
  have h := (@perm_ranking rng commitIndex scores).map Prod.fst
  rwa [map_map, show Prod.fst ∘ (fun p : Nat × Nat => (p.2, p.1)) = Prod.snd from rfl, zipIdx_map_snd, ← range_eq_range'] at h

theorem ranking_nil (h : scores.scoresPerAuthority = []) : ranking rng commitIndex scores = [] := by
  simpa [h] using (@perm_ranking rng commitIndex scores).length_eq

/-- A later node of the ranking is another authority and has no higher score. -/
theorem pairwise_ranking : (ranking rng commitIndex scores).Pairwise fun a b => b.2 ≤ a.2 ∧ a.1 ≠ b.1 := by
  have : Std.Total fun a b : AuthorityIndex × Nat => b.2 ≤ a.2 := ⟨fun a b => le_total b.2 a.2⟩
  have : IsTrans _ fun a b : AuthorityIndex × Nat => b.2 ≤ a.2 := ⟨fun _ _ _ hab hbc => le_trans hbc hab⟩
  refine pairwise_and_iff.mpr ⟨pairwise_insertionSort _ _, pairwise_map.mp ?_⟩
  exact (perm_ranked rng commitIndex).nodup_iff.mpr nodup_range

/-- The ranked authorities have the whole stake. -/
theorem totalStake_le_ranking (hc : c.Built) (hlen : scores.scoresPerAuthority.length = c.size) :
    c.totalStake ≤ stakes c (ranking rng commitIndex scores) := by
  have hle := c.stakeOf_toFinset_le ((ranking rng commitIndex scores).map Prod.fst)
  rw [toFinset_eq_of_perm _ _ (perm_ranked rng commitIndex), hlen, map_map] at hle
  rw [← hc.positive.1, Committee.members, ← toFinset_range]
  exact hle

variable (hthreshold : threshold ≤ 33) (hlen : scores.scoresPerAuthority = [] ∨ scores.scoresPerAuthority.length = c.size)

include hthreshold hlen

/-- The table of scores for every authority, or of none. -/
theorem newInner_ok : ∃ t, newInner rng c threshold commitIndex scores = .ok t ∧
    t.goodNodes = retrieveFirstNodes c (ranking rng commitIndex scores) threshold ∧ ∀ a : AuthorityIndex, t.badNodes[a]?.isSome ↔
      a ∈ (retrieveFirstNodes c (ranking rng commitIndex scores).reverse threshold).map Prod.fst := by
  by_cases hempty : scores.scoresPerAuthority = []
  · rw [ranking_nil rng commitIndex hempty]
    exact ⟨⟨[], ∅, .default⟩, by simp [newInner, hempty, hthreshold], rfl, by simp [retrieveFirstNodes, firstNodes]⟩
  have hlen := hlen.resolve_left hempty
  have hby : scores.authoritiesByScore c = .ok (scores.scoresPerAuthority.zipIdx.map fun p => (p.2, p.1)) := by
    refine mapM_eq fun p hp => ?_
    have hlt : p.2 < c.size := by
      have := snd_lt_of_mem_zipIdx hp
      omega
    rw [Committee.isValidIndex, decide_eq_true hlt, assert_true, ok_bind, pure_eq_ok]
  refine ⟨⟨retrieveFirstNodes c (ranking rng commitIndex scores) threshold, (retrieveFirstNodes c
    (ranking rng commitIndex scores).reverse threshold).foldl (fun m p => m.insert p.1 p.2) ∅, scores⟩, ?_, rfl, fun a => ?_⟩
  · simp only [newInner, hby, decide_eq_true hthreshold, assert_true, ok_bind, List.isEmpty_iff, if_neg hempty, length_map,
      length_zipIdx, hlen, decide_true, pure_eq_ok, ranking]
  · rw [isSome_foldl_insert Prod.fst Prod.snd, get_empty, mem_map]
    simp

/-- Good and bad nodes are the two ends of the ranking, each within the threshold of the stake. No good node has a lower score
than a bad one, and a leader is never swapped for a bad node. -/
theorem newInner_separates (hc : c.Built) : ∃ t good middle bad, newInner rng c threshold commitIndex scores = .ok t ∧
    ranking rng commitIndex scores = good ++ middle ++ bad ∧ t.goodNodes = nodes c good ∧
    (∀ a, t.badNodes[a]?.isSome ↔ a ∈ bad.map Prod.fst) ∧ stakes c good ≤ threshold * c.totalStake / 100 ∧
    stakes c bad ≤ threshold * c.totalStake / 100 ∧
    (∀ g ∈ good, ∀ b ∈ bad, b.2 ≤ g.2 ∧ g.1 ≠ b.1) ∧
    ∀ leader round offset node, t.swap rng leader round offset = .ok (some node) → t.badNodes[node]? = none := by
  obtain ⟨t, ht, hgood, hbad⟩ := newInner_ok rng commitIndex hthreshold hlen
  obtain ⟨good, middle, bad, hcut, heq1, heq2, hsum1, hsum2⟩ := exists_cut hthreshold (hlen.imp (ranking_nil rng commitIndex)
    fun hlen => ⟨hc.positive.2.1, totalStake_le_ranking rng commitIndex hc hlen⟩)
  rw [heq1] at hgood
  simp only [heq2, nodes, map_map, Function.comp_def, mem_map, mem_reverse] at hbad
  have hpair := @pairwise_ranking rng commitIndex scores
  rw [hcut, append_assoc] at hpair
  have hapart : ∀ g ∈ good, ∀ b ∈ bad, b.2 ≤ g.2 ∧ g.1 ≠ b.1 :=
    fun g hg b hb => (pairwise_append.mp hpair).2.2 g hg b (mem_append_right _ hb)
  refine ⟨t, good, middle, bad, ht, hcut, hgood, fun a => by rw [hbad, mem_map], hsum1, hsum2, hapart, ?_⟩
  intro leader round offset node hswap
  unfold swap at hswap
  split at hswap
  · simp only [bind_ok, assert_ok, expect_ok, pure_ok, exists_and_left, exists_const, Option.some.injEq] at hswap
    obtain ⟨-, x, hx, rfl⟩ := hswap
    obtain ⟨g, hg, rfl⟩ := mem_map.mp (hgood ▸ rng.choose_mem hx)
    rw [← Option.not_isSome_iff_eq_none, hbad]
    rintro ⟨b, hb, hbg⟩
    exact (hapart g hg b hb).2 hbg.symm
  · cases hswap

/-- The swap never panics exactly if the last node of the ranking is not bad or the first one is good. -/
theorem swap_total_iff : ∃ t, newInner rng c threshold commitIndex scores = .ok t ∧
    ((∀ leader round, ∃ node, t.swap rng leader round 0 = .ok node) ↔
      (∀ last ∈ (ranking rng commitIndex scores).getLast?, cutoff c threshold < c.stake last.1) ∨
        ∃ first ∈ (ranking rng commitIndex scores).head?, c.stake first.1 ≤ cutoff c threshold) := by
  obtain ⟨t, ht, hgood, hbad⟩ := newInner_ok rng commitIndex hthreshold hlen
  have hsome : (∃ first ∈ (ranking rng commitIndex scores).head?, c.stake first.1 ≤ cutoff c threshold) ↔ t.goodNodes ≠ [] := by
    rw [hgood, ne_eq, retrieveFirstNodes_eq_nil]
    simp only [not_forall, not_lt, exists_prop]
  have hnone : (∀ last ∈ (ranking rng commitIndex scores).getLast?, cutoff c threshold < c.stake last.1) ↔
      ∀ a : AuthorityIndex, t.badNodes[a]?.isSome = false := by
    rw [← head?_reverse, ← retrieveFirstNodes_eq_nil, ← map_eq_nil_iff (f := Prod.fst), eq_nil_iff_forall_not_mem]
    simp only [← hbad, Bool.not_eq_true]
  refine ⟨t, ht, ?_⟩
  rw [hsome, hnone]
  constructor
  · intro h
    by_contra hcon
    obtain ⟨hsome, hempty⟩ := not_or.mp hcon
    obtain ⟨a, ha⟩ := not_forall.mp hsome
    obtain ⟨node, hnode⟩ := h a 0
    simp only [swap, Bool.not_eq_false _ ▸ ha, if_true, not_ne_iff.mp hempty, bind_ok, expect_ok] at hnode
    obtain ⟨-, -, x, hx, -⟩ := hnode
    exact not_mem_nil (rng.choose_mem hx)
  · intro h leader round
    unfold swap
    split_ifs with ha
    · have hne := h.resolve_left fun hall => Bool.false_ne_true ((hall leader).symm.trans ha)
      obtain ⟨x, hx⟩ := Option.ne_none_iff_exists'.mp (mt rng.choose_none hne)
      exact ⟨some x.1, by rw [hx]; rfl⟩
    · exact ⟨none, rfl⟩

end

/-- A generator that shuffles nothing and chooses the first element. -/
def firstRng : SwapRng where
  shuffle _ l := l
  choose _ _ l := l.head?
  shuffle_perm _ l := .refl l
  choose_mem h := mem_of_mem_head? h
  choose_none h := head?_eq_none_iff.mp h

/-- An authority with most of the stake and the highest score, and one with the rest. -/
def unevenCommittee : Committee := ⟨0, [⟨9⟩, ⟨1⟩], 10, 7, 7, 4⟩

def unevenScores : ReputationScores := ⟨[1, 0], CommitRange.default⟩

theorem uneven_swap_panics : Committee.new 0 [⟨9⟩, ⟨1⟩] = .ok unevenCommittee ∧
    ∃ t, newInner firstRng unevenCommittee 33 0 unevenScores = .ok t ∧ t.badNodes[1]?.isSome ∧ t.goodNodes = [] ∧
      t.swap firstRng 1 5 0 = .error .noGoodNode := by
  refine ⟨rfl, _, rfl, ?_⟩
  decide +kernel

/-- Four authorities with the same stake, of which the first has the highest score and the last the lowest. -/
def evenCommittee : Committee := ⟨0, [⟨1⟩, ⟨1⟩, ⟨1⟩, ⟨1⟩], 4, 3, 3, 2⟩

def evenScores : ReputationScores := ⟨[3, 2, 1, 0], CommitRange.default⟩

theorem even_swap_total : ∃ t, newInner firstRng evenCommittee 33 0 evenScores = .ok t ∧ t.goodNodes = [(0, 1)] ∧
    t.badNodes[3]?.isSome ∧ ∀ leader round, ∃ node, t.swap firstRng leader round 0 = .ok node := by
  obtain ⟨t, ht, hiff⟩ := @swap_total_iff evenCommittee 33 firstRng 0 evenScores (by decide) (.inr rfl)
  obtain rfl := Except.ok.inj ht
  exact ⟨_, rfl, by decide +kernel, by decide +kernel, hiff.mpr (.inr ⟨(0, 3), by decide +kernel, by decide⟩)⟩

theorem even_separates : ∃ t, newInner firstRng evenCommittee 33 0 evenScores = .ok t ∧ t.goodNodes = [(0, 1)] ∧
    t.badNodes[3]?.isSome ∧ t.swap firstRng 3 5 0 = .ok (some 0) ∧ t.badNodes[0]? = none := by
  obtain ⟨t, good, middle, bad, ht, -, -, -, -, -, -, hswap⟩ := @newInner_separates evenCommittee 33 firstRng 0 evenScores
    (by decide) (.inr rfl) (.inl ⟨0, [⟨1⟩, ⟨1⟩, ⟨1⟩, ⟨1⟩], rfl⟩)
  obtain rfl := Except.ok.inj ht
  exact ⟨_, rfl, by decide +kernel, by decide +kernel, rfl, hswap 3 5 0 0 rfl⟩

end Sui.LeaderSwapTable

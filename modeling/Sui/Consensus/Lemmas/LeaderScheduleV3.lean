import Mathlib.Data.List.DropRight
import Sui.Consensus.LeaderScheduleV3

/-!
# What the leader schedule keeps of the commits

The state after a list of commits is a function of the list: the last three commits, the entries of the last scored ones, their
totals, and a schedule. So two runs that end with the same commits end in the same state.
-/

namespace Sui.LeaderScheduleV3

open Library Checked List Context ScoresEntry

variable {cfg : LeaderScheduleConfig} {ctx : Context} {commits cs : List CommittedSubDag} {es : List ScoresEntry}
  {sch : NextCommitLeaderSchedule}

/-! ## Checked arithmetic -/

theorem assert_pure_ok {p : Prop} [Decidable p] {e : SchedulePanic} {x r : Nat} :
    (do assert (decide p) e; return x) = Except.ok r ↔ p ∧ r = x := by
  simp only [bind_ok, assert_ok, decide_eq_true_eq, pure_ok, exists_const, @eq_comm _ x]

theorem checkedMul_ok {a b r : Nat} : checkedMul a b = .ok r ↔ a * b < 2 ^ 64 ∧ r = a * b := assert_pure_ok

theorem checkedAdd_ok {a b r : Nat} : checkedAdd a b = .ok r ↔ a + b < 2 ^ 64 ∧ r = a + b := assert_pure_ok

theorem checkedSub_add (a b : Nat) : checkedSub (a + b) a = .ok b := by
  have hle : decide (a ≤ a + b) = true := decide_eq_true (Nat.le_add_right a b)
  rw [checkedSub, hle, assert_true, ok_bind, Nat.add_sub_cancel_left, pure_eq_ok]

theorem checkedMul_errors (a b : Nat) : ErrorsIn (· = .checkedMul) (checkedMul a b) := .bind (.assert fun _ => rfl) fun _ _ => .ok _

theorem checkedAdd_errors (a b : Nat) : ErrorsIn (· = .checkedAdd) (checkedAdd a b) := .bind (.assert fun _ => rfl) fun _ _ => .ok _

/-! ## Totals -/

/-- What the entries contribute to the score of an authority. -/
def sumScores (es : List ScoresEntry) (a : AuthorityIndex) : Nat := (es.map fun e => e.scoreContributions[a]?.getD 0).sum

/-- A state with the totals of some entries. -/
def withTotals (cfg : LeaderScheduleConfig) (s : LeaderScheduleV3) (es : List ScoresEntry) : LeaderScheduleV3 :=
  { s with
    totalScoresPerAuthority := cfg.context.authorities.map (sumScores es)
    totalNumLeaders := (es.map numLeaders).sum
    totalLeaderStakes := (es.map leaderStakes).sum }

def Fits (cfg : LeaderScheduleConfig) (es : List ScoresEntry) : Prop :=
  (∀ a ∈ cfg.context.authorities, sumScores es a < 2 ^ 64) ∧ (es.map numLeaders).sum < 2 ^ 64 ∧
    (es.map leaderStakes).sum < 2 ^ 64

variable {es' : List ScoresEntry}

theorem sum_map_le_of_suffix (h : es' <:+ es) (f : ScoresEntry → Nat) : (es'.map f).sum ≤ (es.map f).sum := by
  obtain ⟨pre, rfl⟩ := h
  rw [map_append, sum_append]
  exact Nat.le_add_left _ _

theorem Fits.of_suffix (h : Fits cfg es) (hs : es' <:+ es) : Fits cfg es' :=
  ⟨fun a ha => lt_of_le_of_lt (sum_map_le_of_suffix hs _) (h.1 a ha), lt_of_le_of_lt (sum_map_le_of_suffix hs _) h.2.1,
    lt_of_le_of_lt (sum_map_le_of_suffix hs _) h.2.2⟩

theorem fits_nil : Fits cfg [] := by
  refine ⟨fun a _ => ?_, ?_, ?_⟩
  · simp [sumScores]
  · simp
  · simp

variable {op : Nat → Nat → Except SchedulePanic Nat}

theorem updateTotals_map {f g h : Nat → Nat} {l : List Nat}
    (hop : ∀ i ∈ l, op (f i) (g i) = .ok (h i)) : updateTotals op (l.map f) (l.map g) = .ok (l.map h) := by
  induction l with
  | nil => rfl
  | cons i l ih =>
    simp only [map_cons, updateTotals, hop i mem_cons_self, ok_bind, ih fun j hj => hop j (mem_cons_of_mem _ hj), pure_eq_ok]

theorem updateTotals_fits {f g : Nat → Nat} {l r : List Nat} (h : updateTotals checkedAdd (l.map f) (l.map g) = .ok r) :
    ∀ i ∈ l, f i + g i < 2 ^ 64 := by
  induction l generalizing r with
  | nil => exact fun i hi => absurd hi not_mem_nil
  | cons i l ih =>
    simp only [map_cons, updateTotals, bind_ok, checkedAdd_ok] at h
    obtain ⟨t, ⟨hi, -⟩, ts, hts, -⟩ := h
    intro j hj
    rcases mem_cons.mp hj with rfl | hj
    · exact hi
    · exact ih hts j hj

theorem updateTotals_errors {Q : SchedulePanic → Prop} (hop : ∀ a b, ErrorsIn Q (op a b)) (f g : Nat → Nat) (l : List Nat) :
    ErrorsIn Q (updateTotals op (l.map f) (l.map g)) := by
  induction l with
  | nil => exact .ok _
  | cons i l ih => exact .bind (hop _ _) fun _ _ => .bind ih fun _ _ => .ok _

variable {e : ScoresEntry}

/-- The contributions of an entry, by authority. -/
theorem contributions_eq (h : e.scoreContributions.length = cfg.context.committee.size) :
    e.scoreContributions = cfg.context.authorities.map fun a => e.scoreContributions[a]?.getD 0 := by
  refine ext_getElem (by simp [authorities, h]) fun i hi _ => ?_
  simp [authorities, getElem?_eq_getElem hi]

theorem sumScores_concat (e : ScoresEntry) (es : List ScoresEntry) (a : AuthorityIndex) :
    sumScores (es ++ [e]) a = sumScores es a + e.scoreContributions[a]?.getD 0 := by
  rw [sumScores, map_append, sum_append, sumScores, map_singleton, sum_singleton]

theorem sum_concat (f : ScoresEntry → Nat) (e : ScoresEntry) (es : List ScoresEntry) :
    ((es ++ [e]).map f).sum = (es.map f).sum + f e := by
  rw [map_append, sum_append, map_singleton, sum_singleton]

section

variable (he : e.scoreContributions.length = cfg.context.committee.size)

include he

/-- An evicted entry leaves the totals of the others. -/
theorem updateEntry_sub (s : LeaderScheduleV3)
    (es : List ScoresEntry) : (withTotals cfg s (e :: es)).updateEntry checkedSub e = .ok (withTotals cfg s es) := by
  have hscores : updateTotals checkedSub (cfg.context.authorities.map (sumScores (e :: es))) e.scoreContributions =
      .ok (cfg.context.authorities.map (sumScores es)) := by
    rw [contributions_eq he]
    exact updateTotals_map fun a _ => by rw [sumScores, map_cons, sum_cons, ← sumScores, checkedSub_add]
  simp only [updateEntry, withTotals, hscores, ok_bind, map_cons, sum_cons, checkedSub_add, pure_eq_ok]

/-- A new entry is added if the totals fit. -/
theorem updateEntry_add (s s' : LeaderScheduleV3)
    (es : List ScoresEntry) : (withTotals cfg s es).updateEntry checkedAdd e = .ok s' ↔
      Fits cfg (es ++ [e]) ∧ s' = withTotals cfg s (es ++ [e]) := by
  simp only [updateEntry, withTotals, bind_ok, checkedAdd_ok, pure_ok, Fits, sum_concat]
  constructor
  · rintro ⟨scores, hscores, n, ⟨hn, rfl⟩, st, ⟨hst, rfl⟩, rfl⟩
    rw [contributions_eq he] at hscores
    have hfits := updateTotals_fits hscores
    refine ⟨⟨fun a ha => ?_, hn, hst⟩, ?_⟩
    · rw [sumScores_concat]
      exact hfits a ha
    · have hmap : updateTotals checkedAdd (cfg.context.authorities.map (sumScores es))
          (cfg.context.authorities.map fun a => e.scoreContributions[a]?.getD 0) =
          .ok (cfg.context.authorities.map (sumScores (es ++ [e]))) :=
        updateTotals_map fun a ha => checkedAdd_ok.mpr ⟨hfits a ha, sumScores_concat e es a⟩
      rw [ok_unique hscores hmap]
  · rintro ⟨⟨hscores, hn, hst⟩, rfl⟩
    refine ⟨_, ?_, _, ⟨hn, rfl⟩, _, ⟨hst, rfl⟩, rfl⟩
    rw [contributions_eq he]
    refine updateTotals_map fun a ha => checkedAdd_ok.mpr ⟨?_, sumScores_concat e es a⟩
    rw [← sumScores_concat]
    exact hscores a ha

theorem updateEntry_add_errors (s : LeaderScheduleV3)
    (es : List ScoresEntry) : ErrorsIn (· = .checkedAdd) ((withTotals cfg s es).updateEntry checkedAdd e) := by
  refine .bind ?_ fun _ _ => .bind (checkedAdd_errors _ _) fun _ _ => .bind (checkedAdd_errors _ _) fun _ _ => .ok _
  rw [contributions_eq he]
  exact updateTotals_errors checkedAdd_errors _ _ _

end

theorem windowSize_pos (cfg : LeaderScheduleConfig) : 0 < cfg.windowSize := Nat.lt_of_lt_of_le Nat.one_pos (Nat.le_max_right _ _)

/-- The eviction leaves room for one more entry, and the totals of the entries that are left. -/
theorem evict_eq (hes : ∀ e ∈ es, e.scoreContributions.length = cfg.context.committee.size) (s : LeaderScheduleV3) :
    evict cfg (withTotals cfg s es) es =
      .ok { withTotals cfg s (es.rtake (cfg.windowSize - 1)) with scoresEntries := es.rtake (cfg.windowSize - 1) } := by
  have hpos := windowSize_pos cfg
  induction es with
  | nil => simp [evict, hpos]
  | cons e es ih =>
    rw [evict]
    split
    · rename_i hfull
      have hrtake : (e :: es).rtake (cfg.windowSize - 1) = es.rtake (cfg.windowSize - 1) := by
        rw [rtake, rtake, length_cons]
        rw [length_cons] at hfull
        rw [show es.length + 1 - (cfg.windowSize - 1) = es.length - (cfg.windowSize - 1) + 1 by omega, drop_succ_cons]
      rw [updateEntry_sub (hes e mem_cons_self), ok_bind, ih fun x hx => hes x (mem_cons_of_mem _ hx), hrtake]
    · rename_i hroom
      have hrtake : (e :: es).rtake (cfg.windowSize - 1) = e :: es := by
        rw [rtake, Nat.sub_eq_zero_of_le (by omega), drop_zero]
      rw [hrtake, pure_eq_ok]

/-! ## The entries of a list of commits -/

variable {voting certifying : List VerifiedBlock}

theorem contribution_errors (leaderRefs : BTreeSet BlockRef) (certifying voting : List VerifiedBlock) :
    ErrorsIn (· = .checkedMul) (contribution ctx leaderRefs certifying voting) := by
  unfold contribution
  split
  · dsimp only
    split
    · exact .ok _
    · exact .bind (checkedMul_errors _ _) fun _ _ => .ok _
  · exact .ok _

/-- The contributions are by authority. -/
theorem meets_scoreContributions (leaderRefs : BTreeSet BlockRef) :
    Meets (fun e => e = .checkedMul ∨ (e = .indexOutOfBounds ∧ ∃ b ∈ voting, ctx.committee.size ≤ b.author))
      (fun l => l.length = ctx.committee.size) (scoreContributions ctx leaderRefs voting certifying) := by
  refine .foldlM (fun _ (l : List Nat) => l.length = ctx.committee.size) length_replicate ?_
  intro pre a post c heq hc
  refine .bind ⟨(contribution_errors _ _ _).imp fun _ => .inl, fun _ _ => trivial⟩ fun score _ => ?_
  cases score with
  | none => exact .ok hc
  | some =>
    refine .bind ⟨.assert fun hlt => .inr ?_, fun _ _ => trivial⟩ fun _ _ => .ok (length_set.trans hc)
    have hmem : a ∈ BTreeSet.iter (voting.map (·.author)).toFinset := heq ▸ mem_append_right _ mem_cons_self
    rw [BTreeSet.mem_iter, mem_toFinset, mem_map] at hmem
    obtain ⟨b, hb, rfl⟩ := hmem
    exact ⟨rfl, b, hb, by simpa only [decide_eq_false_iff_not, not_lt, hc] using hlt⟩

theorem scoresEntry_length {c0 c1 c2 c3 : CommittedSubDag} (h : scoresEntry ctx c0 c1 c2 c3 = .ok e) :
    e.scoreContributions.length = ctx.committee.size := by
  simp only [scoresEntry, bind_ok, pure_ok] at h
  obtain ⟨-, -, -, -, -, -, voting, -, certifying, -, l, hl, rfl⟩ := h
  exact (meets_scoreContributions _).2 l hl

variable (ctx cs es) in
/-- The entries of the commits of a list that three more commits follow. -/
structure EntriesOf : Prop where
  length : es.length = cs.length - 3
  entry : ∀ (i : Nat) c0 c1 c2 c3 e, cs[i]? = some c0 → cs[i + 1]? = some c1 → cs[i + 2]? = some c2 → cs[i + 3]? = some c3 →
    es[i]? = some e → scoresEntry ctx c0 c1 c2 c3 = .ok e

variable {c : CommittedSubDag}

namespace EntriesOf

theorem nil (ctx : Context) (h : cs.length ≤ 3) : EntriesOf ctx cs [] :=
  ⟨(Nat.sub_eq_zero_of_le h).symm, fun i c0 c1 c2 c3 e _ _ _ _ he => by cases he⟩

/-- Each entry is that of a commit. -/
theorem exists_commits (h : EntriesOf ctx cs es) {i : Nat} (he : es[i]? = some e) :
    ∃ c0 c1 c2 c3, cs[i]? = some c0 ∧ cs[i + 1]? = some c1 ∧ cs[i + 2]? = some c2 ∧ cs[i + 3]? = some c3 ∧
      scoresEntry ctx c0 c1 c2 c3 = .ok e := by
  have hi : i + 3 < cs.length := by
    have := (List.getElem?_eq_some_iff.mp he).1
    have := h.length
    omega
  have h0 : cs[i]? = some cs[i] := List.getElem?_eq_getElem (by omega)
  have h1 : cs[i + 1]? = some cs[i + 1] := List.getElem?_eq_getElem (by omega)
  have h2 : cs[i + 2]? = some cs[i + 2] := List.getElem?_eq_getElem (by omega)
  have h3 : cs[i + 3]? = some cs[i + 3] := List.getElem?_eq_getElem hi
  exact ⟨_, _, _, _, h0, h1, h2, h3, h.entry i _ _ _ _ e h0 h1 h2 h3 he⟩

theorem contributions_length (h : EntriesOf ctx cs es) (he : e ∈ es) : e.scoreContributions.length = ctx.committee.size := by
  obtain ⟨i, hi⟩ := mem_iff_getElem?.mp he
  obtain ⟨c0, c1, c2, c3, -, -, -, -, hentry⟩ := h.exists_commits hi
  exact scoresEntry_length hentry

theorem unique (h : EntriesOf ctx cs es) (h' : EntriesOf ctx cs es') : es = es' := by
  have hlen : es.length = es'.length := h.length.trans h'.length.symm
  refine ext_getElem hlen fun i hi hi' => ?_
  obtain ⟨c0, c1, c2, c3, h0, h1, h2, h3, he⟩ := h.exists_commits (getElem?_eq_getElem hi)
  have he' := h'.entry i c0 c1 c2 c3 _ h0 h1 h2 h3 (getElem?_eq_getElem hi')
  exact ok_unique he he'

/-- The entries of the last commits are the last entries. -/
theorem of_append {pre : List CommittedSubDag} (h : EntriesOf ctx (pre ++ cs) es) : EntriesOf ctx cs (es.drop pre.length) := by
  refine ⟨?_, fun i c0 c1 c2 c3 e h0 h1 h2 h3 he => ?_⟩
  · rw [length_drop, h.length, length_append]
    omega
  · have hget : ∀ (j : Nat) c, cs[j]? = some c → (pre ++ cs)[pre.length + j]? = some c := fun j c hc => by
      rw [getElem?_append_right (Nat.le_add_right _ _), Nat.add_sub_cancel_left, hc]
    rw [getElem?_drop] at he
    exact h.entry (pre.length + i) c0 c1 c2 c3 e (hget i c0 h0) (hget _ c1 h1) (hget _ c2 h2) (hget _ c3 h3) he

/-- One more commit scores the third to last one. -/
theorem concat {pre : List CommittedSubDag} {c0 c1 c2 : CommittedSubDag} (h : EntriesOf ctx (pre ++ [c0, c1, c2]) es) :
    EntriesOf ctx (pre ++ [c0, c1, c2] ++ [c]) es' ↔ ∃ e, scoresEntry ctx c0 c1 c2 c = .ok e ∧ es' = es ++ [e] := by
  have hlen : es.length = pre.length := by
    rw [h.length, length_append]
    rfl
  have hget : ∀ j : Nat, (pre ++ [c0, c1, c2] ++ [c])[pre.length + j]? = [c0, c1, c2, c][j]? := fun j => by
    rw [append_assoc, List.getElem?_append_right (Nat.le_add_right _ _), Nat.add_sub_cancel_left]
    rfl
  have hconcat : ∀ e, scoresEntry ctx c0 c1 c2 c = .ok e → EntriesOf ctx (pre ++ [c0, c1, c2] ++ [c]) (es ++ [e]) := by
    refine fun e he => ⟨?_, fun i d0 d1 d2 d3 e' h0 h1 h2 h3 he' => ?_⟩
    · rw [length_append, hlen, length_append, length_append]
      rfl
    · rcases Nat.lt_trichotomy i pre.length with hi | rfl | hi
      · have happ : ∀ (j : Nat) d, j < pre.length + 3 → (pre ++ [c0, c1, c2] ++ [c])[j]? = some d →
            (pre ++ [c0, c1, c2])[j]? = some d := fun j d hj hd => by
          rwa [List.getElem?_append_left (by rw [length_append]; exact hj)] at hd
        rw [List.getElem?_append_left (by omega)] at he'
        exact h.entry i d0 d1 d2 d3 e' (happ _ _ (by omega) h0) (happ _ _ (by omega) h1) (happ _ _ (by omega) h2)
          (happ _ _ (by omega) h3) he'
      · obtain rfl := Option.some.inj ((hget 0).symm.trans h0)
        obtain rfl := Option.some.inj ((hget 1).symm.trans h1)
        obtain rfl := Option.some.inj ((hget 2).symm.trans h2)
        obtain rfl := Option.some.inj ((hget 3).symm.trans h3)
        rw [← hlen, List.getElem?_concat_length] at he'
        exact Option.some.inj he' ▸ he
      · rw [List.getElem?_eq_none (by rw [length_append, length_singleton]; omega)] at he'
        cases he'
  constructor
  · intro h'
    have hlt : pre.length < es'.length := by
      rw [h'.length, length_append, length_append]
      exact Nat.lt_succ_self _
    have he := h'.entry pre.length c0 c1 c2 c _ (hget 0) (hget 1) (hget 2) (hget 3) (List.getElem?_eq_getElem hlt)
    exact ⟨_, he, h'.unique (hconcat _ he)⟩
  · rintro ⟨e, he, rfl⟩
    exact hconcat e he

end EntriesOf

/-! ## The state after a list of commits -/

variable (cfg cs es sch) in
/-- The state after commits with some entries, and with some schedule. -/
def stateOf : LeaderScheduleV3 :=
  withTotals cfg ⟨[], 0, 0, cs.rtake 3, es.rtake cfg.windowSize, sch⟩ (es.rtake cfg.windowSize)

variable {α : Type}

theorem getLast?_rtake {n : Nat} (hn : 0 < n) (l : List α) : (l.rtake n).getLast? = l.getLast? := by
  rw [rtake, getLast?_drop]
  split_ifs with h
  · rw [eq_nil_of_length_eq_zero (by omega : l.length = 0)]
    rfl
  · rfl

theorem rtake_suffix (n : Nat) (l : List α) : l.rtake n <:+ l := drop_suffix _ _

variable {l : List α}

theorem rtake_append {n : Nat} (h : n ≤ l.length) (pre : List α) : (pre ++ l).rtake n = l.rtake n := by
  rw [rtake, rtake, length_append, Nat.add_sub_assoc h, drop_length_add_append]

theorem rtake_of_length_le {n : Nat} (h : l.length ≤ n) : l.rtake n = l := by
  rw [rtake, Nat.sub_eq_zero_of_le h, drop_zero]

theorem rtake_suffix_rtake {l' : List α} (n : Nat) (h : l' <:+ l) : l'.rtake n <:+ l.rtake n := by
  obtain ⟨pre, rfl⟩ := h
  by_cases hn : n ≤ l'.length
  · rw [rtake_append hn]
  · rw [rtake_of_length_le (Nat.le_of_not_le hn), rtake, length_append, drop_append_of_le_length (by omega)]
    exact suffix_append _ _

theorem getLast?_append_of_length (h : 0 < l.length) (pre : List α) : (pre ++ l).getLast? = l.getLast? := by
  rw [← getLast?_rtake Nat.one_pos, rtake_append h, getLast?_rtake Nat.one_pos]

def lastIndex (cs : List CommittedSubDag) : Nat := (cs.getLast?.map fun c => c.commitRef.index).getD 0

theorem nextCommitIndex_stateOf (cs : List CommittedSubDag) (es : List ScoresEntry) (sch : NextCommitLeaderSchedule) :
    (stateOf cfg cs es sch).nextCommitIndex = lastIndex cs + 1 := by
  rw [nextCommitIndex, stateOf, withTotals, getLast?_rtake (by decide), lastIndex]

def CutoffFits (cfg : LeaderScheduleConfig) : Prop :=
  cfg.context.protocolConfig.badNodesStakeThreshold * cfg.context.committee.totalStake < 2 ^ 64

def MetricsFit (cfg : LeaderScheduleConfig) (es : List ScoresEntry) : Prop :=
  ∀ a ∈ cfg.context.authorities, cfg.hostnameIsEmpty a = false →
    (es.map leaderStakes).sum * cfg.context.committee.totalStake < 2 ^ 64

theorem MetricsFit.of_suffix (h : MetricsFit cfg es) (hs : es' <:+ es) : MetricsFit cfg es' :=
  fun a ha hname => lt_of_le_of_lt (Nat.mul_le_mul_right _ (sum_map_le_of_suffix hs _)) (h a ha hname)

def allowedLeaders (cfg : LeaderScheduleConfig) (scores : List Nat) (seed : Digest) : List AuthorityIndex :=
  let byScore := (cfg.shuffle seed (scores.zipIdx.map fun p => (p.2, p.1))).insertionSort fun a b => b.2 ≤ a.2
  let cutoff := cfg.context.protocolConfig.badNodesStakeThreshold * cfg.context.committee.totalStake / 100
  ((dropBad cfg.context cutoff 0 byScore.reverse).reverse).map Prod.fst

/-- There is a score for each authority. -/
theorem toAuthorityIndex_of_mem {f : AuthorityIndex → Nat} {p : Nat × Nat} (h : p ∈ (ctx.authorities.map f).zipIdx) :
    toAuthorityIndex ctx p.2 = some p.2 := by
  have hlt := snd_lt_of_mem_zipIdx h
  rw [length_map, authorities, length_range, Nat.add_zero] at hlt
  rw [toAuthorityIndex, Committee.isValidIndex, if_pos (decide_eq_true hlt)]

theorem selectAllowedLeaders_withTotals (s : LeaderScheduleV3) (es : List ScoresEntry) :
    (withTotals cfg s es).selectAllowedLeadersWithFixedConfig cfg = (do
      let _ ← checkedMul cfg.context.protocolConfig.badNodesStakeThreshold cfg.context.committee.totalStake
      return allowedLeaders cfg (cfg.context.authorities.map (sumScores es)) (s.seed cfg)) := by
  have hmap : ((cfg.context.authorities.map (sumScores es)).zipIdx.mapM fun p => do
      let authorityIndex ← expect (toAuthorityIndex cfg.context p.2) SchedulePanic.notAnAuthority
      return (authorityIndex, p.1)) = .ok ((cfg.context.authorities.map (sumScores es)).zipIdx.map fun p => (p.2, p.1)) := by
    rw [mapM_ok, forall₂_map_right_iff, forall₂_same]
    intro p hp
    rw [toAuthorityIndex_of_mem hp]
    rfl
  unfold selectAllowedLeadersWithFixedConfig
  rw [withTotals, hmap, ok_bind]
  cases hmul : checkedMul cfg.context.protocolConfig.badNodesStakeThreshold cfg.context.committee.totalStake with
  | error => rfl
  | ok =>
    obtain ⟨-, rfl⟩ := checkedMul_ok.mp hmul
    rfl

/-- The seed after a list of commits. -/
def lastSeed (cfg : LeaderScheduleConfig) (cs : List CommittedSubDag) : Digest :=
  (cs.getLast?.map fun c => c.commitRef.digest).getD (epochSeed cfg.context)

/-- The leader round that the next commit has to pass. -/
def lastRound (cs : List CommittedSubDag) : Nat := (cs.getLast?.map fun c => c.leader.round).getD 0

variable (cfg cs es) in
/-- The schedule that is computed after a list of commits. -/
def computedSchedule : NextCommitLeaderSchedule :=
  { nextCommitIndex := lastIndex cs + 1
    minNextLeaderRound := lastRound cs + 1
    allowedLeaders := allowedLeaders cfg (cfg.context.authorities.map (sumScores (es.rtake cfg.windowSize))) (lastSeed cfg cs) }

variable (cfg cs es sch) in
/-- The schedule after a list of commits: computed at the end of an interval, and else with the leaders of the schedule before. -/
def nextSchedule : NextCommitLeaderSchedule :=
  if lastIndex cs % cfg.updateInterval = 0 then computedSchedule cfg cs es
  else { nextCommitIndex := lastIndex cs + 1, minNextLeaderRound := lastRound cs + 1, allowedLeaders := sch.allowedLeaders }

theorem computeNext_stateOf (hcut : CutoffFits cfg) (cs : List CommittedSubDag) (es : List ScoresEntry) (sch : NextCommitLeaderSchedule) :
    (stateOf cfg cs es sch).computeNextCommitLeaderSchedule cfg = .ok (computedSchedule cfg cs es) := by
  have hselect : (stateOf cfg cs es sch).selectAllowedLeadersWithFixedConfig cfg =
      .ok (computedSchedule cfg cs es).allowedLeaders := by
    rw [stateOf, selectAllowedLeaders_withTotals, checkedMul_ok.mpr ⟨hcut, rfl⟩, ok_bind, seed, getLast?_rtake (by decide)]
    rfl
  rw [computeNextCommitLeaderSchedule, hselect, ok_bind, nextCommitIndex_stateOf, minNextLeaderRound, stateOf, withTotals,
    getLast?_rtake (by decide)]
  rfl

theorem refresh_stateOf (hcut : CutoffFits cfg) (cs : List CommittedSubDag) (es : List ScoresEntry) (sch : NextCommitLeaderSchedule) :
    (stateOf cfg cs es sch).refreshCurrentSchedule cfg = .ok (stateOf cfg cs es (nextSchedule cfg cs es sch)) := by
  unfold refreshCurrentSchedule nextSchedule
  rw [nextCommitIndex_stateOf, Nat.add_sub_cancel]
  split
  · rw [computeNext_stateOf hcut, ok_bind]
    rfl
  · simp only [minNextLeaderRound, stateOf, withTotals, getLast?_rtake (show 0 < 3 by decide), pure_eq_ok, lastRound]

theorem reportMetrics_stateOf {u : Unit} :
    (stateOf cfg cs es sch).reportMetrics cfg = .ok u ↔ MetricsFit cfg (es.rtake cfg.windowSize) := by
  rw [reportMetrics, forM_ok]
  simp only [stateOf, withTotals]
  have hone : ∀ p ∈ (cfg.context.authorities.map (sumScores (es.rtake cfg.windowSize))).zipIdx, ((do
        let authorityIndex ← expect (toAuthorityIndex cfg.context p.2) SchedulePanic.notAnAuthority
        if cfg.hostnameIsEmpty authorityIndex then return ()
        else do
          let _ ← checkedMul ((es.rtake cfg.windowSize).map leaderStakes).sum cfg.context.committee.totalStake
          return ()) = Except.ok ()) ↔ (cfg.hostnameIsEmpty p.2 = false →
            ((es.rtake cfg.windowSize).map leaderStakes).sum * cfg.context.committee.totalStake < 2 ^ 64) := by
    intro p hp
    rw [toAuthorityIndex_of_mem hp, expect_some, ok_bind]
    cases cfg.hostnameIsEmpty p.2 with
    | true => exact iff_of_true rfl nofun
    | false =>
      simp only [Bool.false_eq_true, if_false, bind_ok, checkedMul_ok, pure_eq_ok, and_true, forall_const]
      exact ⟨fun ⟨_, h, _⟩ => h, fun h => ⟨_, h, rfl⟩⟩
  rw [forall₂_congr hone]
  constructor
  · intro h a ha hname
    have hlt : a < (cfg.context.authorities.map (sumScores (es.rtake cfg.windowSize))).length := by
      rw [length_map, authorities, length_range]
      exact mem_authorities.mp ha
    exact h (_, a) (mem_zipIdx_iff_getElem?.mpr (getElem?_eq_getElem hlt)) hname
  · intro h p hp hname
    have hlt := snd_lt_of_mem_zipIdx hp
    rw [length_map, authorities, length_range, Nat.add_zero] at hlt
    exact h p.2 (mem_authorities.mpr hlt) hname

variable {s' : LeaderScheduleV3}

/-- What `add_commit` does at its end. -/
theorem finish_stateOf (hcut : CutoffFits cfg) : finish cfg (stateOf cfg cs es sch) = .ok s' ↔
      MetricsFit cfg (es.rtake cfg.windowSize) ∧ s' = stateOf cfg cs es (nextSchedule cfg cs es sch) := by
  rw [finish, refresh_stateOf hcut, ok_bind, bind_ok]
  simp only [reportMetrics_stateOf, pure_ok]
  exact ⟨fun ⟨_, h, hs⟩ => ⟨h, hs.symm⟩, fun ⟨h, hs⟩ => ⟨(), h, hs.symm⟩⟩

/-! ## One commit -/

/-- The commit follows the last one of a list. -/
def Follows (cs : List CommittedSubDag) (c : CommittedSubDag) : Prop :=
  ∀ last, cs.getLast? = some last → c.commitRef.index = last.commitRef.index + 1

theorem isNext_stateOf : (stateOf cfg cs es sch).isNext c = true ↔ Follows cs c := by
  rw [isNext, stateOf, withTotals, getLast?_rtake (by decide), Option.all_eq_true]
  simp only [decide_eq_true_eq, Follows]

/-- A list of commits is shorter than three, or it ends with three commits. -/
theorem length_lt_or_eq (cs : List CommittedSubDag) : cs.length < 3 ∨ ∃ pre c0 c1 c2, cs = pre ++ [c0, c1, c2] := by
  by_cases h : cs.length < 3
  · exact .inl h
  · right
    have hlen : (cs.rtake 3).length = 3 := by
      rw [rtake, length_drop]
      omega
    obtain ⟨c0, c1, c2, hlast⟩ := length_eq_three.mp hlen
    refine ⟨cs.take (cs.length - 3), c0, c1, c2, ?_⟩
    rw [← hlast, rtake, take_append_drop]

/-- The first commits are only kept. -/
theorem addCommit_short (h : cs.length < 3) (hnext : Follows cs c) :
    addCommit cfg (stateOf cfg cs [] sch) c = finish cfg (stateOf cfg (cs ++ [c]) [] sch) := by
  have hpending : (stateOf cfg cs [] sch).pendingCommits = cs := rtake_of_length_le h.le
  have hfull : (cs ++ [c]).rtake 3 = cs ++ [c] := rtake_of_length_le (by rw [length_append, length_singleton]; omega)
  rw [addCommit, isNext_stateOf.mpr hnext, assert_true, ok_bind, hpending]
  have hstate : ({ stateOf cfg cs [] sch with pendingCommits := cs ++ [c] } : LeaderScheduleV3) = stateOf cfg (cs ++ [c]) [] sch := by
    simp only [stateOf, withTotals, hfull]
  match cs, h with
  | [], _ => exact congrArg (finish cfg) hstate
  | [_], _ => exact congrArg (finish cfg) hstate
  | [_, _], _ => exact congrArg (finish cfg) hstate

/-- The state in which a new entry is added: the window has room for it. -/
def evictedState (cfg : LeaderScheduleConfig) (pending : List CommittedSubDag) (es : List ScoresEntry) (sch : NextCommitLeaderSchedule) :
    LeaderScheduleV3 :=
  withTotals cfg ⟨[], 0, 0, pending, es.rtake (cfg.windowSize - 1), sch⟩ (es.rtake (cfg.windowSize - 1))

theorem rtake_pred (cfg : LeaderScheduleConfig) (es : List ScoresEntry) :
    (es.rtake cfg.windowSize).rtake (cfg.windowSize - 1) = es.rtake (cfg.windowSize - 1) := by
  rw [rtake, rtake, rtake, drop_drop, length_drop]
  congr 1
  omega

theorem rtake_window_concat (cfg : LeaderScheduleConfig) (es : List ScoresEntry) (e : ScoresEntry) :
    (es ++ [e]).rtake cfg.windowSize = es.rtake (cfg.windowSize - 1) ++ [e] := by
  have hsucc : cfg.windowSize = cfg.windowSize - 1 + 1 := (Nat.succ_pred_eq_of_pos (windowSize_pos cfg)).symm
  rw [hsucc, rtake_concat_succ, Nat.add_sub_cancel]

section Full

variable {pre : List CommittedSubDag} {c0 c1 c2 c : CommittedSubDag}

/-- The other ones are scored. -/
theorem addCommit_full (hes : EntriesOf cfg.context (pre ++ [c0, c1, c2]) es) (hnext : Follows (pre ++ [c0, c1, c2]) c) :
    addCommit cfg (stateOf cfg (pre ++ [c0, c1, c2]) es sch) c = (do
      let e ← scoresEntry cfg.context c0 c1 c2 c
      let s ← (evictedState cfg [c0, c1, c2] es sch).updateEntry checkedAdd e
      finish cfg { s with
        scoresEntries := s.scoresEntries ++ [e]
        pendingCommits := s.pendingCommits.tail ++ [c] }) := by
  have hpending : (stateOf cfg (pre ++ [c0, c1, c2]) es sch).pendingCommits = [c0, c1, c2] :=
    (rtake_append (le_refl 3) pre).trans (rtake_of_length_le (le_refl 3))
  have hlengths : ∀ e ∈ es.rtake cfg.windowSize, e.scoreContributions.length = cfg.context.committee.size :=
    fun e he => hes.contributions_length ((rtake_suffix _ _).subset he)
  have hevict : evict cfg (stateOf cfg (pre ++ [c0, c1, c2]) es sch) (stateOf cfg (pre ++ [c0, c1, c2]) es sch).scoresEntries =
      .ok (evictedState cfg [c0, c1, c2] es sch) := by
    rw [stateOf, show (withTotals cfg _ _).scoresEntries = es.rtake cfg.windowSize from rfl, evict_eq hlengths, rtake_pred]
    simp only [evictedState, withTotals, rtake_append (show 3 ≤ [c0, c1, c2].length from le_refl 3) pre,
      rtake_of_length_le (show [c0, c1, c2].length ≤ 3 from le_refl 3)]
  rw [addCommit, isNext_stateOf.mpr hnext, assert_true, ok_bind, hpending]
  simp only [hevict, ok_bind]

/-- The state with the new entry. -/
theorem stateOf_concat (pre : List CommittedSubDag) (c : CommittedSubDag) (e : ScoresEntry) : ({ withTotals cfg ⟨[], 0, 0, [c0, c1, c2], es.rtake (cfg.windowSize - 1), sch⟩
      ((es ++ [e]).rtake cfg.windowSize) with
      scoresEntries := es.rtake (cfg.windowSize - 1) ++ [e]
      pendingCommits := [c1, c2, c] } : LeaderScheduleV3) = stateOf cfg (pre ++ [c0, c1, c2] ++ [c]) (es ++ [e]) sch := by
  have hpending : (pre ++ [c0, c1, c2] ++ [c]).rtake 3 = [c1, c2, c] := by
    rw [show pre ++ [c0, c1, c2] ++ [c] = (pre ++ [c0]) ++ [c1, c2, c] by simp, rtake_append (le_refl 3), rtake_of_length_le (le_refl 3)]
  rw [stateOf, hpending, rtake_window_concat]
  rfl

theorem addCommit_full_ok (hcut : CutoffFits cfg) (hes : EntriesOf cfg.context (pre ++ [c0, c1, c2]) es)
    (hnext : Follows (pre ++ [c0, c1, c2]) c) :
    addCommit cfg (stateOf cfg (pre ++ [c0, c1, c2]) es sch) c = .ok s' ↔
      ∃ e, scoresEntry cfg.context c0 c1 c2 c = .ok e ∧ Fits cfg ((es ++ [e]).rtake cfg.windowSize) ∧
        MetricsFit cfg ((es ++ [e]).rtake cfg.windowSize) ∧
        s' = stateOf cfg (pre ++ [c0, c1, c2] ++ [c]) (es ++ [e]) (nextSchedule cfg (pre ++ [c0, c1, c2] ++ [c]) (es ++ [e]) sch) := by
  rw [addCommit_full hes hnext, bind_ok]
  refine exists_congr fun e => and_congr_right fun he => ?_
  rw [bind_ok, evictedState]
  simp only [updateEntry_add (scoresEntry_length he), and_assoc, exists_eq_left, exists_and_left, ← rtake_window_concat]
  refine and_congr_right fun _ => ?_
  rw [← finish_stateOf hcut, ← stateOf_concat pre c e]
  rfl

end Full

/-- What one commit does. -/
theorem addCommit_ok (hcut : CutoffFits cfg) (hes : EntriesOf cfg.context cs es) (hnext : Follows cs c) :
    addCommit cfg (stateOf cfg cs es sch) c = .ok s' ↔
      ∃ es', EntriesOf cfg.context (cs ++ [c]) es' ∧ Fits cfg (es'.rtake cfg.windowSize) ∧ MetricsFit cfg (es'.rtake cfg.windowSize) ∧
        s' = stateOf cfg (cs ++ [c]) es' (nextSchedule cfg (cs ++ [c]) es' sch) := by
  rcases length_lt_or_eq cs with hshort | ⟨pre, c0, c1, c2, rfl⟩
  · have hnil : EntriesOf cfg.context (cs ++ [c]) [] := .nil _ (by rw [length_append, length_singleton]; omega)
    obtain rfl := hes.unique (.nil _ hshort.le)
    rw [addCommit_short hshort hnext, finish_stateOf hcut]
    constructor
    · intro h
      exact ⟨[], hnil, by rw [rtake_nil]; exact fits_nil, h⟩
    · rintro ⟨es', hes', -, h⟩
      obtain rfl := hes'.unique hnil
      exact h
  · rw [addCommit_full_ok hcut hes hnext]
    simp only [hes.concat]
    constructor
    · rintro ⟨e, he, h⟩
      exact ⟨es ++ [e], ⟨e, he, rfl⟩, h⟩
    · rintro ⟨-, ⟨e, he, rfl⟩, h⟩
      exact ⟨e, he, h⟩

/-! ## A run -/

theorem new_eq : new cfg = (do
    let _ ← checkedMul cfg.context.protocolConfig.badNodesStakeThreshold cfg.context.committee.totalStake
    return stateOf cfg [] [] (computedSchedule cfg [] [])) := by
  have hzero : replicate cfg.context.committee.size 0 = cfg.context.authorities.map (sumScores []) := by
    rw [show sumScores [] = fun _ => 0 from rfl, map_const', authorities, length_range]
  have hstate : (⟨replicate cfg.context.committee.size 0, 0, 0, [], [], ⟨0, 0, []⟩⟩ : LeaderScheduleV3) =
      stateOf cfg [] [] ⟨0, 0, []⟩ := by
    simp only [stateOf, withTotals, hzero, rtake_nil]
    rfl
  rw [new]
  simp only [hstate]
  cases hmul : checkedMul cfg.context.protocolConfig.badNodesStakeThreshold cfg.context.committee.totalStake with
  | error =>
    rw [computeNextCommitLeaderSchedule, stateOf, selectAllowedLeaders_withTotals, hmul]
    rfl
  | ok =>
    rw [computeNext_stateOf (checkedMul_ok.mp hmul).1, hzero, ok_bind, ok_bind]
    simp only [stateOf, withTotals, rtake_nil]
    rfl

/-- What holds of the state after a list of commits. -/
def Sound (cfg : LeaderScheduleConfig) (cs : List CommittedSubDag) (s : LeaderScheduleV3) : Prop :=
  ∃ es sch, EntriesOf cfg.context cs es ∧ s = stateOf cfg cs es sch ∧
    (lastIndex cs % cfg.updateInterval = 0 → sch = computedSchedule cfg cs es)

theorem sound_new : Sound cfg [] (stateOf cfg [] [] (computedSchedule cfg [] [])) :=
  ⟨[], _, .nil _ (Nat.zero_le 3), rfl, fun _ => rfl⟩

theorem Sound.addCommit {s s' : LeaderScheduleV3} {c : CommittedSubDag} (hcut : CutoffFits cfg) (h : Sound cfg cs s) (hnext : Follows cs c)
    (hadd : addCommit cfg s c = .ok s') : Sound cfg (cs ++ [c]) s' := by
  obtain ⟨es, sch, hes, rfl, -⟩ := h
  obtain ⟨es', hes', -, -, rfl⟩ := (addCommit_ok hcut hes hnext).mp hadd
  exact ⟨es', _, hes', rfl, fun hend => if_pos hend⟩

def Consecutive (cs : List CommittedSubDag) : Prop := ∀ pre c post, cs = pre ++ c :: post → Follows pre c

variable {s : LeaderScheduleV3}

theorem addCommits_ok : addCommits cfg cs = .ok s ↔
    CutoffFits cfg ∧ cs.foldlM (addCommit cfg) (stateOf cfg [] [] (computedSchedule cfg [] [])) = .ok s := by
  rw [addCommits, new_eq]
  simp only [bind_ok, checkedMul_ok, pure_ok, CutoffFits]
  constructor
  · rintro ⟨-, ⟨p, ⟨hcut, -⟩, rfl⟩, h⟩
    exact ⟨hcut, h⟩
  · intro h
    exact ⟨_, ⟨_, ⟨h.1, rfl⟩, rfl⟩, h.2⟩

theorem Sound.foldlM (hcut : CutoffFits cfg) (hcs : Consecutive cs)
    (h : cs.foldlM (LeaderScheduleV3.addCommit cfg) (stateOf cfg [] [] (computedSchedule cfg [] [])) = .ok s) : Sound cfg cs s := by
  refine foldlM_invariant (Sound cfg) h sound_new ?_
  intro pre c post s s' heq hs hstep
  exact hs.addCommit hcut (hcs pre c post heq) hstep

/-! ## Panics -/

/-- The leader of a sub-dag is one of its blocks, and the authors are members of the committee. -/
structure SubDagWellFormed (ctx : Context) (c : CommittedSubDag) : Prop where
  leader : c.leader ∈ c.blocks.map VerifiedBlock.reference
  authors : ∀ b ∈ c.blocks, b.author < ctx.committee.size

/-- The panics that can happen: a number is too large, or a sub-dag is not well formed. -/
def Tolerated (ctx : Context) (cs : List CommittedSubDag) (e : SchedulePanic) : Prop :=
  e = .checkedMul ∨ e = .checkedAdd ∨ e = .indexOverflow ∨
    ((∃ c ∈ cs, ¬ SubDagWellFormed ctx c) ∧ (e = .indexOutOfBounds ∨ ∃ leader, e = .leaderMissing leader))

theorem Tolerated.mono {cs' : List CommittedSubDag} {e : SchedulePanic} (h : Tolerated ctx cs e) (hsub : cs ⊆ cs') :
    Tolerated ctx cs' e := by
  refine h.imp_right (.imp_right (.imp_right fun h => ?_))
  obtain ⟨⟨c, hc, hbad⟩, he⟩ := h
  exact ⟨⟨c, hsub hc, hbad⟩, he⟩

variable {upper : Nat}

theorem mem_takeUntilAbove (h : c ∈ takeUntilAbove upper cs) : c ∈ cs := by
  induction cs with
  | nil => exact h
  | cons _ _ ih =>
    rw [takeUntilAbove] at h
    split at h
    · rw [mem_singleton.mp h]
      exact mem_cons_self
    · rcases mem_cons.mp h with rfl | h
      · exact mem_cons_self
      · exact mem_cons_of_mem _ (ih h)

theorem takeUntilAbove_last (h : ∃ c ∈ cs, upper < c.leader.round) :
    ∃ last, (takeUntilAbove upper cs).getLast? = some last ∧ upper < last.leader.round := by
  induction cs with
  | nil =>
    obtain ⟨c, hc, -⟩ := h
    exact absurd hc not_mem_nil
  | cons d _ ih =>
    rw [takeUntilAbove]
    split_ifs with hd
    · exact ⟨d, rfl, hd⟩
    · obtain ⟨c, hc, hlt⟩ := h
      rcases mem_cons.mp hc with rfl | hc
      · exact absurd hlt hd
      · obtain ⟨last, hlast, hround⟩ := ih ⟨c, hc, hlt⟩
        refine ⟨last, ?_, hround⟩
        rw [getLast?_cons, hlast]
        rfl

theorem scan_errors (h : ∃ c ∈ cs, upper < c.leader.round) (Q : SchedulePanic → Prop) :
    ErrorsIn Q (scanCommitsUntilLeaderRoundAbove cs upper) := by
  obtain ⟨last, hlast, hround⟩ := takeUntilAbove_last h
  refine .bind ?_ fun _ _ => .ok _
  rw [hlast, Option.any_some, decide_eq_true hround]
  exact .ok _

theorem scoresEntry_errors {c0 c1 c2 c3 : CommittedSubDag} (h0 : c0.leader.round < c1.leader.round)
    (h1 : c1.leader.round < c2.leader.round) (h2 : c2.leader.round < c3.leader.round) :
    ErrorsIn (Tolerated ctx [c0, c1, c2, c3]) (scoresEntry ctx c0 c1 c2 c3) := by
  have hrounds : (decide (c0.leader.round < c1.leader.round) && decide (c1.leader.round < c2.leader.round) &&
      decide (c2.leader.round < c3.leader.round)) = true := by simp [h0, h1, h2]
  -- if the leader is not among the leader blocks, the sub-dag is not well formed
  have hleader : c0.leader ∉ ((c0.blocks.filter fun b => b.round = c0.leader.round).map VerifiedBlock.reference).toFinset →
      Tolerated ctx [c0, c1, c2, c3] (.leaderMissing c0.leader) := by
    refine fun hnot => .inr (.inr (.inr ⟨⟨c0, mem_cons_self, fun hwf => hnot ?_⟩, .inr ⟨_, rfl⟩⟩))
    obtain ⟨b, hb, href⟩ := mem_map.mp hwf.leader
    refine mem_toFinset.mpr (mem_map.mpr ⟨b, mem_filter.mpr ⟨hb, ?_⟩, href⟩)
    rw [← href]
    exact decide_eq_true rfl
  have hlast : ∃ c ∈ [c1, c2, c3], c0.leader.round + 2 < c.leader.round := ⟨c3, by simp, by omega⟩
  have hlast' : ∃ c ∈ [c1, c2, c3], c0.leader.round + 1 < c.leader.round := ⟨c3, by simp, by omega⟩
  unfold scoresEntry
  simp only [hrounds, assert_true, ok_bind]
  refine .bind ?_ fun _ _ => .bind ?_ fun _ _ => .bind (scan_errors hlast' _) fun voting hvoting =>
    .bind (scan_errors hlast _) fun certifying _ => .bind ?_ fun _ _ => .ok _
  · refine .assert fun hempty => hleader fun hmem => ?_
    rw [decide_eq_false_iff_not, not_not] at hempty
    rw [hempty] at hmem
    exact absurd hmem (Finset.notMem_empty _)
  · exact .assert fun hnot => hleader (decide_eq_false_iff_not.mp hnot)
  · refine (meets_scoreContributions _).1.imp fun e he => ?_
    rcases he with rfl | ⟨rfl, b, hb, hsize⟩
    · exact .inl rfl
    · obtain ⟨c, hc, hbc⟩ := mem_flatMap.mp hb
      simp only [scanCommitsUntilLeaderRoundAbove, bind_ok, pure_ok] at hvoting
      obtain ⟨-, -, rfl⟩ := hvoting
      have hbad : ¬ SubDagWellFormed ctx c := fun hwf =>
        absurd (hwf.authors b (mem_filter.mp hbc).1) (Nat.not_lt_of_le hsize)
      exact .inr (.inr (.inr ⟨⟨c, mem_cons_of_mem _ (mem_takeUntilAbove hc), hbad⟩, .inl rfl⟩))

theorem finish_errors (hcut : CutoffFits cfg) : ErrorsIn (· = .checkedMul) (finish cfg (stateOf cfg cs es sch)) := by
  rw [finish, refresh_stateOf hcut, ok_bind]
  refine .bind (.forM fun p hp => ?_) fun _ _ => .ok _
  rw [toAuthorityIndex_of_mem hp, expect_some, ok_bind]
  split
  · exact .ok _
  · exact .bind (checkedMul_errors _ _) fun _ _ => .ok _

def RoundsIncrease (cs : List CommittedSubDag) : Prop := cs.Pairwise fun a b => a.leader.round < b.leader.round

theorem addCommit_errors (hcut : CutoffFits cfg) (hs : Sound cfg cs s)
    (hnext : Follows cs c) (hrounds : RoundsIncrease (cs ++ [c])) :
    ErrorsIn (Tolerated cfg.context (cs ++ [c])) (addCommit cfg s c) := by
  obtain ⟨es, sch, hes, rfl, -⟩ := hs
  rcases length_lt_or_eq cs with hshort | ⟨pre, c0, c1, c2, rfl⟩
  · obtain rfl := hes.unique (.nil _ hshort.le)
    rw [addCommit_short hshort hnext]
    exact (finish_errors hcut).imp fun _ => .inl
  · have hlast : RoundsIncrease [c0, c1, c2, c] := by
      rw [append_assoc] at hrounds
      exact (pairwise_append.mp hrounds).2.1
    simp only [RoundsIncrease, pairwise_cons, mem_cons, forall_eq_or_imp] at hlast
    rw [addCommit_full hes hnext]
    refine .bind (fun e he => ?_) fun e he => .bind (fun e' he' => ?_) fun s hs => fun e' he' => ?_
    · refine (scoresEntry_errors hlast.1.1 hlast.2.1.1 hlast.2.2.1.1 e he).mono ?_
      rw [append_assoc]
      exact subset_append_right _ _
    · exact .inr (.inl (updateEntry_add_errors (scoresEntry_length he) _ _ e' he'))
    · rw [evictedState, updateEntry_add (scoresEntry_length he), ← rtake_window_concat] at hs
      obtain ⟨-, rfl⟩ := hs
      have hstate := (congrArg (finish cfg) (stateOf_concat pre c e)).symm.trans he'
      exact .inl (finish_errors hcut e' hstate)

/-- A run panics only if a number is too large or a sub-dag is not well formed. -/
theorem addCommits_errors (hcs : Consecutive cs) (hrounds : RoundsIncrease cs) :
    ErrorsIn (Tolerated cfg.context cs) (addCommits cfg cs) := by
  rw [addCommits, new_eq]
  refine .bind (.bind (fun e he => .inl (checkedMul_errors _ _ e he)) fun _ _ => .ok _) fun s hs => ?_
  simp only [bind_ok, checkedMul_ok, pure_ok] at hs
  obtain ⟨-, ⟨hcut, -⟩, rfl⟩ := hs
  refine .foldlM (Sound cfg) sound_new ?_ ?_
  · intro pre c post s s' heq hs hstep
    exact hs.addCommit hcut (hcs pre c post heq) hstep
  · intro pre c post s heq hs e he
    have hsub : List.Sublist (pre ++ [c]) cs := by
      rw [heq]
      simp
    exact (addCommit_errors hcut hs (hcs pre c post heq) (hrounds.sublist hsub) e he).mono hsub.subset

end Sui.LeaderScheduleV3

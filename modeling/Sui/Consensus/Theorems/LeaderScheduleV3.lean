import Sui.Consensus.Lemmas.LeaderScheduleV3
import Sui.Consensus.Universe

/-!
# Recovery of the leader schedule

A node that starts again adds only the last commits of the store to a fresh schedule: enough for the state of a node that added
all.
-/

namespace Sui.LeaderScheduleV3

open Library Checked List

variable {cfg : LeaderScheduleConfig} {commits cs : List CommittedSubDag}

/-- The commits of a list have the indices 1, 2 and so on. -/
def IndexedFromOne (commits : List CommittedSubDag) : Prop := ∀ (i : Nat) c, commits[i]? = some c → c.commitRef.index = i + 1

/-- The running totals are the sums of what the retained entries contribute. -/
structure RunningTotals (cfg : LeaderScheduleConfig) (s : LeaderScheduleV3) : Prop where
  entries : s.scoresEntries.length ≤ cfg.windowSize
  scores : s.totalScoresPerAuthority =
    cfg.context.authorities.map fun a => (s.scoresEntries.map fun e => e.scoreContributions[a]?.getD 0).sum
  leaders : s.totalNumLeaders = (s.scoresEntries.map ScoresEntry.numLeaders).sum
  stakes : s.totalLeaderStakes = (s.scoresEntries.map ScoresEntry.leaderStakes).sum

variable {s : LeaderScheduleV3}

theorem Sound.runningTotals (h : Sound cfg cs s) : RunningTotals cfg s := by
  obtain ⟨es, sch, -, rfl, -⟩ := h
  refine ⟨?_, rfl, rfl, rfl⟩
  have hlen : (es.rtake cfg.windowSize).length = es.length - (es.length - cfg.windowSize) := length_drop
  rw [stateOf, withTotals, hlen]
  omega

variable {pre : List CommittedSubDag}

theorem IndexedFromOne.index {c : CommittedSubDag} (h : IndexedFromOne commits)
    (post : List CommittedSubDag) (heq : commits = pre ++ c :: post) : c.commitRef.index = pre.length + 1 :=
  h pre.length c (by simp [heq])

/-- A part of the commits is consecutive. -/
theorem IndexedFromOne.consecutive (h : IndexedFromOne commits) (hpart : cs <:+: commits) : Consecutive cs := by
  obtain ⟨before, after, rfl⟩ := hpart
  intro pre c post heq last hlast
  subst heq
  obtain ⟨pre', rfl⟩ := getLast?_eq_some_iff.mp hlast
  have hl : last.commitRef.index = (before ++ pre').length + 1 := h.index (c :: post ++ after) (by simp)
  have hc : c.commitRef.index = (before ++ pre' ++ [last]).length + 1 := h.index (post ++ after) (by simp)
  rw [hl, hc, length_append, length_singleton]

/-- The commits from an index on. -/
theorem IndexedFromOne.filter_eq (h : IndexedFromOne commits) {start : Nat} (hstart : 1 ≤ start) :
    (commits.filter fun c => start ≤ c.commitRef.index ∧ c.commitRef.index ≤ commits.length) = commits.drop (start - 1) := by
  have hbefore : ((commits.take (start - 1)).filter fun c => start ≤ c.commitRef.index ∧ c.commitRef.index ≤ commits.length) = [] := by
    refine filter_eq_nil_iff.mpr fun c hc => ?_
    obtain ⟨i, hi⟩ := mem_iff_getElem?.mp hc
    rw [List.getElem?_take] at hi
    split at hi
    · have := h i c hi
      simp only [decide_eq_true_eq]
      omega
    · cases hi
  have hafter : ((commits.drop (start - 1)).filter fun c => start ≤ c.commitRef.index ∧ c.commitRef.index ≤ commits.length) =
      commits.drop (start - 1) := by
    refine filter_eq_self.mpr fun c hc => ?_
    obtain ⟨i, hi⟩ := mem_iff_getElem?.mp hc
    rw [List.getElem?_drop] at hi
    have hindex := h _ c hi
    have hlt := (List.getElem?_eq_some_iff.mp hi).1
    simp only [decide_eq_true_eq]
    omega
  conv_lhs => rw [← take_append_drop (start - 1) commits, filter_append]
  rw [take_append_drop, hbefore, hafter, nil_append]

/-! ## Adding the last commits only -/

/-- A run over all commits that returned shows that the run over the last ones does. -/
theorem foldlM_part (hcut : CutoffFits cfg) (hall : Consecutive (pre ++ cs)) (hcs : Consecutive cs)
    (h : (pre ++ cs).foldlM (addCommit cfg) (stateOf cfg [] [] (computedSchedule cfg [] [])) = .ok s) :
    ∃ s', cs.foldlM (addCommit cfg) (stateOf cfg [] [] (computedSchedule cfg [] [])) = .ok s' ∧ Sound cfg cs s' := by
  refine foldlM_total (Sound cfg) sound_new ?_
  intro part c post s' heq hs'
  subst heq
  -- the step of the long run for the same commit
  rw [show pre ++ (part ++ c :: post) = pre ++ part ++ c :: post by simp, foldlM_append, bind_ok] at h
  obtain ⟨s1, hs1, h⟩ := h
  rw [foldlM_cons, bind_ok] at h
  obtain ⟨s2, hstep, -⟩ := h
  have hprefix : Consecutive (pre ++ part) := fun q d r hq =>
    hall q d (r ++ c :: post) (by rw [← append_assoc, hq]; simp)
  obtain ⟨es, sch, hes, rfl, -⟩ := Sound.foldlM hcut hprefix hs1
  obtain ⟨es2, hes2, hfits, hmetrics, -⟩ := (addCommit_ok hcut hes (hall (pre ++ part) c post (by simp))).mp hstep
  -- its entries end with those of the short run, which are fewer
  have hnext := hcs part c post rfl
  have hsound := hs'
  obtain ⟨es', sch', hes', rfl, -⟩ := hs'
  rw [append_assoc] at hes2
  have hsuffix := rtake_suffix_rtake cfg.windowSize (drop_suffix pre.length es2)
  have hadd : addCommit cfg (stateOf cfg part es' sch') c = .ok _ := (addCommit_ok hcut hes' hnext).mpr
    ⟨_, hes2.of_append, hfits.of_suffix hsuffix, hmetrics.of_suffix hsuffix, rfl⟩
  exact ⟨_, hadd, hsound.addCommit hcut hnext hadd⟩

/-- At the end of an interval and with a full window of scored commits, the state is that of the last commits. -/
theorem Sound.eq_of_window {s' : LeaderScheduleV3} (h : Sound cfg (pre ++ cs) s) (h' : Sound cfg cs s')
    (hlen : cs.length = cfg.windowSize + 3) (hend : lastIndex cs % cfg.updateInterval = 0) : s = s' := by
  obtain ⟨es, sch, hes, rfl, hsch⟩ := h
  obtain ⟨es', sch', hes', rfl, hsch'⟩ := h'
  obtain rfl := hes'.unique hes.of_append
  have hwindow : es.rtake cfg.windowSize = (es.drop pre.length).rtake cfg.windowSize := by
    have hfull : cfg.windowSize ≤ (es.drop pre.length).length := by
      rw [hes'.length, hlen]
      omega
    conv_lhs => rw [← take_append_drop pre.length es, rtake_append hfull]
  have hpending : (pre ++ cs).rtake 3 = cs.rtake 3 := rtake_append (by omega) pre
  have hlast : (pre ++ cs).getLast? = cs.getLast? := getLast?_append_of_length (by omega) pre
  have hcomputed : computedSchedule cfg (pre ++ cs) es = computedSchedule cfg cs (es.drop pre.length) := by
    simp only [computedSchedule, lastIndex, lastRound, lastSeed, hlast, hwindow]
  rw [lastIndex, hlast] at hsch
  rw [hsch hend, hsch' hend, hcomputed, stateOf, stateOf, hpending, hwindow]

/-- The run over the last commits ends in the state of the run over all. -/
theorem addCommits_drop (hindex : IndexedFromOne commits) (h : addCommits cfg commits = .ok s) :
    addCommits cfg (commits.drop (max (commits.length / cfg.updateInterval * cfg.updateInterval + 1 - (cfg.windowSize + 3)) 1 - 1)) =
      .ok s := by
  obtain ⟨hcut, hfold⟩ := addCommits_ok.mp h
  generalize hend : commits.length / cfg.updateInterval * cfg.updateInterval = last
  have hlast : last ≤ commits.length := hend ▸ Nat.div_mul_le_self _ _
  by_cases hfew : last + 1 - (cfg.windowSize + 3) ≤ 1
  · rw [max_eq_right hfew]
    exact h
  · rw [max_eq_left (by omega)]
    generalize hk : last + 1 - (cfg.windowSize + 3) - 1 = k
    -- before the window, the window up to the last change of the schedule, and after it
    have hsplit : commits = commits.take k ++ (commits.drop k).take (cfg.windowSize + 3) ++ commits.drop last := by
      rw [append_assoc, show last = k + (cfg.windowSize + 3) by omega, ← drop_drop, take_append_drop, take_append_drop]
    have hdrop : commits.drop k = (commits.drop k).take (cfg.windowSize + 3) ++ commits.drop last := by
      rw [show last = k + (cfg.windowSize + 3) by omega, ← drop_drop, take_append_drop]
    have hlen : ((commits.drop k).take (cfg.windowSize + 3)).length = cfg.windowSize + 3 := by
      rw [length_take, length_drop]
      omega
    generalize hwindow : (commits.drop k).take (cfg.windowSize + 3) = window at hsplit hdrop hlen
    have hpart : window <:+: commits := ⟨_, _, hsplit.symm⟩
    have hlastIndex : lastIndex window = last := by
      have hget : window.getLast? = commits[last - 1]? := by
        rw [getLast?_eq_getElem?, hlen, ← hwindow, getElem?_take_of_lt (by omega), getElem?_drop]
        congr 1
        omega
      rw [lastIndex, hget, getElem?_eq_getElem (by omega), Option.map_some, Option.getD_some,
        hindex (last - 1) _ (getElem?_eq_getElem (by omega))]
      omega
    rw [hsplit, foldlM_append, bind_ok] at hfold
    obtain ⟨s1, hbefore, hafter⟩ := hfold
    have hall : Consecutive (commits.take k ++ window) := hindex.consecutive ⟨[], _, hsplit.symm⟩
    obtain ⟨s2, hrun, hsound⟩ := foldlM_part hcut hall (hindex.consecutive hpart) hbefore
    have heq : s1 = s2 := (Sound.foldlM hcut hall hbefore).eq_of_window hsound hlen
      (by rw [hlastIndex, ← hend]; exact Nat.mul_mod_left _ _)
    rw [hdrop, addCommits_ok, foldlM_append, hrun, ok_bind, ← heq]
    exact ⟨hcut, hafter⟩

theorem addCommits_runningTotals (hcs : Consecutive cs) (h : addCommits cfg cs = .ok s) : RunningTotals cfg s := by
  obtain ⟨hcut, hfold⟩ := addCommits_ok.mp h
  exact (Sound.foldlM hcut hcs hfold).runningTotals

theorem fromStore_nil : fromStore cfg [] = addCommits cfg [] := by
  change new cfg = new cfg >>= pure
  rw [bind_pure]

/-- What is added to a fresh schedule when a node starts again. -/
theorem fromStore_eq (hindex : IndexedFromOne commits) (hne : commits ≠ []) : fromStore cfg commits = (do
    let start ← replayStart cfg commits.length
    addCommits cfg (commits.drop (start - 1))) := by
  obtain ⟨pre, last, rfl⟩ := (eq_nil_or_concat' commits).resolve_left hne
  have hlast : last.commitRef.index = (pre ++ [last]).length := by
    rw [hindex.index [] rfl, length_append, length_singleton]
  unfold fromStore
  rw [getLast?_concat]
  simp only [hlast]
  cases hstart : replayStart cfg (pre ++ [last]).length with
  | error => rfl
  | ok =>
    simp only [replayStart, bind_ok, pure_ok] at hstart
    obtain ⟨-, -, rfl⟩ := hstart
    rw [ok_bind, ok_bind, hindex.filter_eq (Nat.le_max_right _ _)]

/-- For commits with increasing leader rounds: in a run over any part of them the totals are the sums of the retained entries,
only a number that is too large or a malformed sub-dag makes it panic, and recovery from the store gives the schedule of the
whole run. -/
theorem fromStore_eq_addCommits (cfg : LeaderScheduleConfig) (commits : List CommittedSubDag) (hindex : IndexedFromOne commits)
    (hrounds : RoundsIncrease commits) :
    (∀ part, part <:+: commits → ErrorsIn (Tolerated cfg.context part) (addCommits cfg part) ∧
        ∀ s, addCommits cfg part = .ok s → RunningTotals cfg s) ∧
      (∀ s start, addCommits cfg commits = .ok s → replayStart cfg commits.length = .ok start →
        addCommits cfg (commits.drop (start - 1)) = .ok s ∧ fromStore cfg commits = .ok s) ∧
      ErrorsIn (Tolerated cfg.context commits) (fromStore cfg commits) := by
  have hpart : ∀ part, part <:+: commits → ErrorsIn (Tolerated cfg.context part) (addCommits cfg part) := fun part hpart =>
    addCommits_errors (hindex.consecutive hpart) (hrounds.sublist hpart.sublist)
  refine ⟨fun part h => ⟨hpart part h, fun s hs => addCommits_runningTotals (hindex.consecutive h) hs⟩, ?_, ?_⟩
  · intro s start hs hstart
    have hreplay : addCommits cfg (commits.drop (start - 1)) = .ok s := by
      simp only [replayStart, bind_ok, pure_ok] at hstart
      obtain ⟨-, -, rfl⟩ := hstart
      exact addCommits_drop hindex hs
    refine ⟨hreplay, ?_⟩
    by_cases hne : commits = []
    · subst hne
      exact fromStore_nil.trans hs
    · rw [fromStore_eq hindex hne, hstart, ok_bind, hreplay]
  · by_cases hne : commits = []
    · subst hne
      rw [fromStore_nil]
      exact hpart [] (infix_refl _)
    · rw [fromStore_eq hindex hne]
      refine .bind (.bind (.assert fun _ => .inr (.inr (.inl rfl))) fun _ _ => .ok _) fun start _ => ?_
      exact (hpart _ (drop_suffix _ _).isInfix).imp fun e he => he.mono (drop_subset _ _)

/-- A window of one scored commit and an interval of two commits. -/
def narrowConfig : LeaderScheduleConfig := ⟨fourContext true, 1, 2, fun _ => false, fun _ l => l⟩

/-- Commits of three blocks each, all rounds after each other. -/
def leaderCommits (n : Nat) : List CommittedSubDag :=
  (range n).map fun i => .new (honestBlock (i + 1) 0).reference ([0, 1, 2].map (honestBlock (i + 1))) 0 ⟨i + 1, i⟩

/-- Of seven commits the last five are replayed; the window holds the entry of the fourth commit. -/
theorem fromStore_eq_addCommits_seven :
    replayStart narrowConfig 7 = .ok 3 ∧ ∃ s, addCommits narrowConfig (leaderCommits 7) = .ok s ∧
      fromStore narrowConfig (leaderCommits 7) = .ok s ∧ RunningTotals narrowConfig s ∧
      s.scoresEntries.map (fun e => e.commitRef.index) = [4] ∧ s.totalScoresPerAuthority = [25, 25, 25, 0] := by
  have hindex : IndexedFromOne (leaderCommits 7) := by
    intro i c hc
    simp only [leaderCommits, getElem?_map, Option.map_eq_some_iff] at hc
    obtain ⟨j, hj, rfl⟩ := hc
    rw [getElem?_eq_some_iff] at hj
    obtain ⟨hi, rfl⟩ := hj
    simp [CommittedSubDag.new]
  have hrounds : RoundsIncrease (leaderCommits 7) := by
    rw [RoundsIncrease, leaderCommits, pairwise_map]
    exact pairwise_lt_range.imp fun h => Nat.succ_lt_succ h
  have hrun : (addCommits narrowConfig (leaderCommits 7)).toOption.map (fun s =>
      (s.scoresEntries.map (fun e => e.commitRef.index), s.totalScoresPerAuthority)) = some ([4], [25, 25, 25, 0]) := by decide +kernel
  obtain ⟨hpart, hstore, -⟩ := fromStore_eq_addCommits narrowConfig (leaderCommits 7) hindex hrounds
  refine ⟨by decide, ?_⟩
  cases hs : addCommits narrowConfig (leaderCommits 7) with
  | error =>
    rw [hs] at hrun
    cases hrun
  | ok s =>
    rw [hs] at hrun
    obtain ⟨hentries, hscores⟩ := Prod.mk.inj (Option.some.inj hrun)
    exact ⟨s, rfl, (hstore s 3 hs (by decide)).2, (hpart _ (infix_refl _)).2 s hs, hentries, hscores⟩

end Sui.LeaderScheduleV3

import Sui.Consensus.CommitSyncer
import Sui.Library.Coverage

/-!
# The ranges of the commit syncer

The invariant of the commit syncer: its ranges cover the commits from the synced index to the highest scheduled one, each once, what
was fetched for a range is all of its commits, and Core is not behind the synced index.
-/

namespace Sui

open Library Checked BTreeMap List CommitRange BTreeSet CommitSyncer

namespace CommitRange

theorem holds_iff {r : CommitRange} {i : Nat} : r.holds i = true ↔ r.start ≤ i ∧ i < r.stop := by
  rw [holds, Bool.and_eq_true, decide_eq_true_eq, decide_eq_true_eq]

/-- How often a range counts for an index. -/
def count (r : CommitRange) (i : Nat) : Nat := if r.holds i then 1 else 0

theorem count_new (first last i : Nat) : (CommitRange.new first last).count i = if first ≤ i ∧ i ≤ last then 1 else 0 := by
  simp only [count, holds_iff, CommitRange.new, Nat.lt_succ_iff]

end CommitRange

/-! ## Batches -/

/-- The commits are those of the range, in order. -/
def Batch (range : CommitRange) (certified : CertifiedCommits) : Prop :=
  certified.commits.map (fun c => c.commit.index) = range' range.start (range.stop - range.start)

variable {ctx : Context} {range : CommitRange}

/-- The commits collected so far are consecutive from the start of the range, and not past its end. -/
theorem collectCommits_spec {commits result : List TrustedCommit} {rest : List Commit}
    (hacc : ∃ n, commits.map (fun c => c.index) = range' range.start n ∧ (n ≠ 0 → range.start + n ≤ range.last + 1))
    (h : collectCommits ctx range commits rest = .ok result) :
    ∃ n, result.map (fun c => c.index) = range' range.start n ∧ (n ≠ 0 → range.start + n ≤ range.last + 1) := by
  induction rest generalizing commits with
  | nil => exact Except.ok.inj h ▸ hacc
  | cons c _ ih =>
    rw [collectCommits, bind_ok] at h
    obtain ⟨_, hnext, h⟩ := h
    split_ifs at h with hend
    · exact Except.ok.inj h ▸ hacc
    · refine ih ?_ h
      obtain ⟨n, hn, -⟩ := hacc
      have hindex : c.index = range.start + n := by
        unfold checkSequence at hnext
        split at hnext
        · rename_i hnone
          rw [getLast?_eq_none_iff] at hnone
          subst hnone
          rw [map_nil, eq_comm, range'_eq_nil_iff] at hn
          rw [assert_ok, decide_eq_true_eq] at hnext
          omega
        · rename_i last hlast
          rw [assert_ok, Bool.and_eq_true, decide_eq_true_eq] at hnext
          have hlastIndex : (commits.map fun c => c.index).getLast? = some last.index := by rw [getLast?_map, hlast]; rfl
          rw [hn, getLast?_range'] at hlastIndex
          split at hlastIndex
          · cases hlastIndex
          · have := Option.some.inj hlastIndex
            omega
      refine ⟨n + 1, ?_, fun _ => by omega⟩
      rw [map_append, hn, range'_concat, Nat.one_mul]
      simp only [map_cons, map_nil, TrustedCommit.newTrusted, hindex]

variable {certified : CertifiedCommits}

/-- A fetch returns the first commits of its range. -/
theorem Fetched.spec (h : Fetched ctx range certified) :
    ∃ n, 0 < n ∧ range.start + n ≤ range.last + 1 ∧ certified.commits.map (fun c => c.commit.index) = range' range.start n := by
  obtain ⟨serializedCommits, serializedVotes, h⟩ := h
  simp only [verifyCommits, bind_ok, expect_ok, pure_ok, Prod.mk.injEq] at h
  obtain ⟨commits, hcollect, last, hlast, -, -, -, -, hcommits, -⟩ := h
  obtain ⟨n, hn, hend⟩ := collectCommits_spec ⟨0, rfl, fun h => absurd rfl h⟩ hcollect
  have hmap : certified.commits.map (fun c => c.commit.index) = range' range.start n := by
    rw [← hn, hcommits, map_map]
    rfl
  have hpos : n ≠ 0 := by
    intro hzero
    rw [hzero, range'_zero, map_eq_nil_iff] at hn
    rw [hn] at hlast
    cases hlast
  exact ⟨n, Nat.pos_of_ne_zero hpos, hend hpos, hmap⟩

theorem filter_range'_gt {start last : Nat} (h : start ≤ last + 1) (n : Nat) :
    (range' start n).filter (fun i => i > last) = range' (last + 1) (start + n - (last + 1)) := by
  induction n with
  | zero => rw [show start + 0 - (last + 1) = 0 by omega]; rfl
  | succ n ih =>
    rw [range'_1_concat, filter_append, ih]
    by_cases hlast : start + n > last
    · rw [show start + (n + 1) - (last + 1) = start + n - (last + 1) + 1 by omega, range'_1_concat,
        show last + 1 + (start + n - (last + 1)) = start + n by omega, filter_cons_of_pos (by simpa using hlast), filter_nil]
    · rw [show start + (n + 1) - (last + 1) = start + n - (last + 1) by omega, filter_cons_of_neg (by simpa using hlast),
        filter_nil, append_nil]

/-- The first of consecutive commits. -/
theorem head_of_indices {commits : List CertifiedCommit} {start n : Nat} (h : commits.map (fun c => c.commit.index) = range' start n)
    (hn : n ≠ 0) : ∃ first, commits.head? = some first ∧ first.commit.index = start := by
  have hhead : (commits.map fun c => c.commit.index).head? = some start := by rw [h, head?_range', if_neg hn]
  rwa [head?_map, Option.map_eq_some_iff] at hhead

/-- Core takes the commits of a batch that starts at or before its next commit, and then has them all. -/
theorem filterNewCommits_batch {commits : List CertifiedCommit} {start n last : Nat}
    (h : commits.map (fun c => c.commit.index) = range' start n) (hstart : start ≤ last + 1) :
    ∃ new, filterNewCommits last commits = .ok new ∧ start + n ≤ last + new.length + 1 := by
  have hnew : (commits.filter fun c => c.commit.index > last).map (fun c => c.commit.index) =
      range' (last + 1) (start + n - (last + 1)) := by
    rw [← filter_range'_gt hstart, ← h, filter_map]
    rfl
  refine ⟨commits.filter fun c => c.commit.index > last, ?_, ?_⟩
  · unfold filterNewCommits
    by_cases hk : start + n - (last + 1) = 0
    · rw [hk, range'_zero, map_eq_nil_iff] at hnew
      simp only [hnew, head?_nil, pure_eq_ok]
    · obtain ⟨c, hhead, hc⟩ := head_of_indices hnew hk
      simp only [hhead, hc, decide_true, assert_true, ok_bind, pure_eq_ok]
  · have hlen := congrArg length hnew
    rw [length_map, length_range'] at hlen
    omega

theorem addCertifiedCommits_batch {last : Nat} (h : Batch range certified) (hne : range.start < range.stop)
    (hstart : range.start ≤ last + 1) {progress : CoreProgress} (hcore : progress.CommitsWholeBatch) :
    ∃ last', addCertifiedCommits (progress.tryCommit range) last certified = .ok last' ∧ last ≤ last' ∧ range.last ≤ last' := by
  obtain ⟨new, hnew, hlen⟩ := filterNewCommits_batch h hstart
  have hle := hcore range last new
  refine ⟨progress.tryCommit range last new, ?_, by omega, ?_⟩
  · rw [addCertifiedCommits, hnew]
    rfl
  · rw [CommitRange.last]
    omega

/-! ## The invariant -/

variable (s : CommitSyncer)

namespace CommitSyncer

/-- The ranges that are pending, in flight or fetched. -/
def ranges : List CommitRange :=
  BTreeSet.iter s.pendingFetches ++ s.inflightFetches ++ BTreeSet.iter (keySet s.fetchedRanges)

/-- How many ranges of three collections hold an index. -/
def countOf (pending : BTreeSet CommitRange) (inflight : List CommitRange) (fetched : BTreeMap CommitRange CertifiedCommits) (i : Nat) :
    Nat :=
  (BTreeSet.iter pending).countP (·.holds i) + inflight.countP (·.holds i) + (BTreeSet.iter (keySet fetched)).countP (·.holds i)

/-- How many ranges hold an index. -/
def count (i : Nat) : Nat := countOf s.pendingFetches s.inflightFetches s.fetchedRanges i

variable {s : CommitSyncer} {r : CommitRange} {pending : BTreeSet CommitRange} {inflight : List CommitRange}
  {fetched : BTreeMap CommitRange CertifiedCommits}

theorem mem_ranges : r ∈ s.ranges ↔ r ∈ s.pendingFetches ∨ r ∈ s.inflightFetches ∨ s.fetchedRanges[r]?.isSome := by
  rw [ranges, mem_append, mem_append, mem_iter, mem_iter, mem_keySet, or_assoc]

theorem count_eq (i : Nat) : s.count i = s.ranges.countP (·.holds i) := by
  rw [count, countOf, ranges, countP_append, countP_append]

theorem count_pos_of_mem (h : r ∈ s.ranges) {i : Nat} (hi : r.holds i = true) : 0 < s.count i := by
  rw [count_eq]
  exact countP_pos_iff.mpr ⟨r, h, hi⟩

/-- The count of a set that has one range more than another one. -/
theorem countP_iter {s t : BTreeSet CommitRange} (hr : r ∉ s) (h : ∀ r', r' ∈ t ↔ r' = r ∨ r' ∈ s) (i : Nat) :
    (iter t).countP (·.holds i) = (iter s).countP (·.holds i) + r.count i := by
  rw [(BTreeSet.perm_iter_cons hr h).countP_eq, countP_cons, CommitRange.count]

theorem countOf_insert_pending (h : r ∉ pending) (i : Nat) :
    countOf (insert r pending) inflight fetched i = countOf pending inflight fetched i + r.count i := by
  rw [countOf, countOf, countP_iter h fun _ => Finset.mem_insert]
  omega

theorem countOf_insert_fetched (h : fetched[r]? = none) (certified : CertifiedCommits) (i : Nat) :
    countOf pending inflight (fetched.insert r certified) i = countOf pending inflight fetched i + r.count i := by
  have hnot : r ∉ keySet fetched := by
    rw [mem_keySet, h]
    exact Bool.false_ne_true
  have hmem : ∀ r', r' ∈ keySet (fetched.insert r certified) ↔ r' = r ∨ r' ∈ keySet fetched := by
    intro r'
    rw [mem_keySet, mem_keySet, get_insert]
    by_cases heq : r = r'
    · rw [if_pos heq]
      exact iff_of_true rfl (.inl heq.symm)
    · rw [if_neg heq, or_iff_right (Ne.symm heq)]
  rw [countOf, countOf, countP_iter hnot hmem]
  omega

theorem countOf_erase_fetched (h : fetched[r]?.isSome) (i : Nat) :
    countOf pending inflight fetched i = countOf pending inflight (fetched.erase r) i + r.count i := by
  have hnot : r ∉ keySet (fetched.erase r) := by
    rw [mem_keySet, get_erase, if_pos rfl]
    exact Bool.false_ne_true
  have hmem : ∀ r', r' ∈ keySet fetched ↔ r' = r ∨ r' ∈ keySet (fetched.erase r) := by
    intro r'
    rw [mem_keySet, mem_keySet, get_erase]
    by_cases heq : r = r'
    · subst heq
      exact iff_of_true h (.inl rfl)
    · rw [if_neg heq, or_iff_right (Ne.symm heq)]
  rw [countOf, countOf, countP_iter hnot hmem]
  omega

theorem countOf_start (h : r ∈ pending) (i : Nat) :
    countOf (pending.erase r) (inflight ++ [r]) fetched i = countOf pending inflight fetched i := by
  have hmem : ∀ r', r' ∈ pending ↔ r' = r ∨ r' ∈ pending.erase r := fun r' => by
    rw [← Finset.mem_insert, Finset.insert_erase h]
  rw [countOf, countOf, countP_iter (Finset.notMem_erase r pending) hmem, countP_append, countP_singleton, CommitRange.count]
  omega

/-- A range with an index that nothing holds is in no collection. -/
theorem fresh_of_countOf {i : Nat} (h : countOf pending inflight fetched i = 0) (hi : r.holds i = true) :
    r ∉ pending ∧ fetched[r]? = none := by
  rw [countOf, Nat.add_eq_zero_iff, Nat.add_eq_zero_iff, countP_eq_zero, countP_eq_zero, countP_eq_zero] at h
  refine ⟨fun hmem => h.1.1 r (mem_iter.mpr hmem) hi, ?_⟩
  by_contra hne
  exact h.2 r (mem_iter.mpr (mem_keySet.mpr (Option.isSome_iff_ne_none.mpr hne))) hi

/-- The mark up to which ranges were scheduled. -/
def scheduled : Nat := s.highestScheduledIndex.getD 0

end CommitSyncer

/-- What is handed to Core starts at or before the next commit of the syncer, and Core takes it. -/
def Handed.Accepted (m : Handed) : Prop :=
  (∃ first ∈ m.certified.commits.head?, first.commit.index ≤ m.syncedCommitIndex + 1) ∧
    ∃ new, filterNewCommits m.lastCommitIndex m.certified.commits = .ok new

/-- The invariant of a node. -/
structure SyncNode.Sound (n : SyncNode) : Prop where
  covers : Covers n.syncer.count n.syncer.syncedCommitIndex n.syncer.scheduled
  nonempty : ∀ r ∈ n.syncer.ranges, r.start < r.stop
  batches : ∀ (r : CommitRange) certified, n.syncer.fetchedRanges[r]? = some certified → Batch r certified
  synced : n.syncer.syncedCommitIndex ≤ n.lastCommitIndex

namespace SyncNode.Sound

open CommitSyncer

variable {n : SyncNode}

theorem start (lastCommitIndex : Nat) : Sound ⟨.new lastCommitIndex, lastCommitIndex⟩ where
  covers := (Covers.zero lastCommitIndex).congr fun _ => rfl
  nonempty := fun r hr => by simp [CommitSyncer.new, mem_ranges] at hr
  batches := fun r certified h => by simp [CommitSyncer.new] at h
  synced := le_refl _

/-- Core commits. -/
theorem commit (h : Sound n) (count : Nat) : Sound { n with lastCommitIndex := n.lastCommitIndex + count } :=
  ⟨h.covers, h.nonempty, h.batches, le_trans h.synced (Nat.le_add_right _ _)⟩

/-- The synced index follows Core. -/
theorem raise (h : Sound n) {synced : Nat} (hle : n.syncer.syncedCommitIndex ≤ synced) (hcore : synced ≤ n.lastCommitIndex) :
    Sound { n with syncer := { n.syncer with syncedCommitIndex := synced } } :=
  ⟨h.covers.raise hle, h.nonempty, h.batches, hcore⟩

/-! ### Scheduling -/

/-- One more range is scheduled, after all the others. -/
theorem scheduleOne (h : Sound n) {prevEnd size : Nat} (hprev : prevEnd = max n.syncer.syncedCommitIndex n.syncer.scheduled)
    (hsize : 0 < size) :
    Sound { n with
      syncer := { n.syncer with
        pendingFetches := insert (CommitRange.new (prevEnd + 1) (prevEnd + size)) n.syncer.pendingFetches
        highestScheduledIndex := some (prevEnd + size) } } := by
  have hnot : CommitRange.new (prevEnd + 1) (prevEnd + size) ∉ n.syncer.pendingFetches := by
    intro hmem
    have hheld : (CommitRange.new (prevEnd + 1) (prevEnd + size)).holds (prevEnd + 1) = true :=
      holds_iff.mpr ⟨le_refl _, by simp only [CommitRange.new]; omega⟩
    have hpos := count_pos_of_mem (mem_ranges.mpr (.inl hmem)) hheld
    have hzero := h.covers.bounded (prevEnd + 1) (by omega)
    omega
  refine ⟨h.covers.extend (show max _ _ ≤ prevEnd + size by omega) fun i => ?_, fun r hr => ?_, h.batches, h.synced⟩
  · refine (countOf_insert_pending hnot i).trans ?_
    rw [count_new, hprev]
    rfl
  · rcases mem_ranges.mp hr with hr | hr
    · rcases Finset.mem_insert.mp hr with rfl | hr
      · simp only [CommitRange.new]
        omega
      · exact h.nonempty r (mem_ranges.mpr (.inl hr))
    · exact h.nonempty r (mem_ranges.mpr (.inr hr))

/-- The ends of the ranges before follow each other. -/
theorem scheduleRanges (h : Sound n) {size quorum handled threshold : Nat} (hsize : 0 < size) (count : Nat) : Sound { n with
      syncer := scheduleRanges size quorum handled threshold n.syncer
        ((List.range count).map fun i => max n.syncer.syncedCommitIndex n.syncer.scheduled + i * size) } := by
  induction count generalizing n with
  | zero => exact h
  | succ count ih =>
    have hlist : (List.range (count + 1)).map (fun i => max n.syncer.syncedCommitIndex n.syncer.scheduled + i * size) =
        max n.syncer.syncedCommitIndex n.syncer.scheduled :: (List.range count).map fun i =>
          max n.syncer.syncedCommitIndex n.syncer.scheduled + size + i * size := by
      rw [range_succ_eq_map, map_cons, map_map, Nat.zero_mul, Nat.add_zero]
      congr 1
      refine map_congr_left fun i _ => ?_
      rw [Function.comp_apply, Nat.succ_mul, Nat.add_comm (i * size), Nat.add_assoc]
    rw [hlist, scheduleRanges]
    split
    · exact h
    · split
      · exact h
      · have hnext := ih (h.scheduleOne rfl hsize)
        have hmax : max n.syncer.syncedCommitIndex (max n.syncer.syncedCommitIndex n.syncer.scheduled + size) =
            max n.syncer.syncedCommitIndex n.syncer.scheduled + size := by omega
        simp only [scheduled, Option.getD_some] at hnext hmax ⊢
        rw [hmax] at hnext
        exact hnext

variable {parameters : CommitSyncParameters}

theorem tryScheduleOnce (h : Sound n) {quorum handled : Nat} {s : CommitSyncer}
    (hs : n.syncer.tryScheduleOnce parameters quorum n.lastCommitIndex handled = .ok s) : Sound { n with syncer := s } := by
  simp only [CommitSyncer.tryScheduleOnce, bind_ok, assert_ok, decide_eq_true_eq, pure_eq_ok, Except.ok.injEq] at hs
  obtain ⟨threshold, -, -, hsize, rfl⟩ := hs
  have hraise := h.raise (Nat.le_max_left n.syncer.syncedCommitIndex n.lastCommitIndex) (max_le h.synced (le_refl _))
  unfold stepBy
  split
  · exact hraise.scheduleRanges (Nat.pos_of_ne_zero hsize) _
  · exact hraise

/-! ### Starting fetches -/

variable {r : CommitRange}

/-- A pending range becomes one in flight. -/
theorem startOne (h : Sound n) (hr : r ∈ n.syncer.pendingFetches) : Sound { n with syncer := { n.syncer with
        pendingFetches := n.syncer.pendingFetches.erase r
        inflightFetches := n.syncer.inflightFetches ++ [r] } } := by
  refine ⟨h.covers.congr fun i => countOf_start hr i, fun r' hr' => ?_, h.batches, h.synced⟩
  · refine h.nonempty r' (mem_ranges.mpr ?_)
    rcases mem_ranges.mp hr' with hr' | hr' | hr'
    · exact .inl (Finset.mem_of_mem_erase hr')
    · rcases mem_append.mp hr' with hr' | hr'
      · exact .inr (.inl hr')
      · exact .inl (mem_singleton.mp hr' ▸ hr)
    · exact .inr (.inr hr')

theorem startFetches (h : Sound n) (target : Nat) {rest : List CommitRange} (hrest : ∀ r ∈ rest, r ∈ n.syncer.pendingFetches)
    (hnodup : rest.Nodup) : Sound { n with syncer := startFetches target n.syncer rest } := by
  induction rest generalizing n with
  | nil => exact h
  | cons r _ ih =>
    rw [startFetches]
    rw [nodup_cons] at hnodup
    split
    · exact h
    · refine ih (h.startOne (hrest r mem_cons_self)) (fun r' hr' => ?_) hnodup.2
      refine Finset.mem_erase.mpr ⟨?_, hrest r' (mem_cons_of_mem _ hr')⟩
      exact fun heq => hnodup.1 (heq ▸ hr')

theorem tryStartFetches (h : Sound n) (parameters : CommitSyncParameters) (knownPeersCount : Nat) :
    Sound { n with syncer := n.syncer.tryStartFetches parameters knownPeersCount } :=
  h.startFetches _ (fun _ => mem_iter.mp) (nodup_iter _)

/-! ### Fetch results -/

/-- The syncer after it took in a fetch result. -/
theorem receive_eq (lastCommitIndex targetEnd commitStart commitEnd : Nat) (certified : CertifiedCommits) :
    s.receive lastCommitIndex targetEnd commitStart commitEnd certified = { s with
      highestFetchedCommitIndex := max s.highestFetchedCommitIndex commitEnd
      pendingFetches :=
        if commitEnd < targetEnd then insert (CommitRange.new (commitEnd + 1) targetEnd) s.pendingFetches else s.pendingFetches
      syncedCommitIndex := max s.syncedCommitIndex lastCommitIndex
      fetchedRanges := if max s.syncedCommitIndex lastCommitIndex < commitEnd then
        s.fetchedRanges.insert (CommitRange.new commitStart commitEnd) certified else s.fetchedRanges } := by
  unfold receive
  by_cases hpart : commitEnd < targetEnd
  · simp only [hpart, if_true]
    split <;> rfl
  · simp only [hpart, if_false]
    split <;> rfl

/-- A fetch result is taken in: the commits that were fetched, and the rest of the range that is to be fetched. -/
theorem receive (h : Sound n) (hr : r ∈ n.syncer.inflightFetches) {commitEnd : Nat}
    (hstart : r.start ≤ commitEnd) (hend : commitEnd ≤ r.last) (hcommits : Batch (CommitRange.new r.start commitEnd) certified) :
    Sound { n with
      syncer := CommitSyncer.receive n.lastCommitIndex r.last r.start commitEnd certified
        { n.syncer with inflightFetches := n.syncer.inflightFetches.erase r } } := by
  have hr' := mem_ranges.mpr (.inr (.inl hr))
  have hstop : r.last + 1 = r.stop := by
    have := h.nonempty r hr'
    rw [last]
    omega
  -- the range in flight is the part that was fetched and the rest
  have hsplit : ∀ i, r.count i = (CommitRange.new r.start commitEnd).count i + (CommitRange.new (commitEnd + 1) r.last).count i := by
    intro i
    rw [CommitRange.count_new, CommitRange.count_new, CommitRange.count]
    simp only [holds_iff]
    split <;> split <;> split <;> omega
  have hcount : ∀ i, n.syncer.count i = countOf n.syncer.pendingFetches (n.syncer.inflightFetches.erase r) n.syncer.fetchedRanges i +
      ((CommitRange.new r.start commitEnd).count i + (CommitRange.new (commitEnd + 1) r.last).count i) := fun i => by
    rw [← hsplit, CommitSyncer.count, countOf, countOf, (perm_cons_erase hr).countP_eq, countP_cons, CommitRange.count]
    omega
  -- so the two parts are in no other collection
  have hfresh : ∀ i, r.start ≤ i → i ≤ r.last →
      countOf n.syncer.pendingFetches (n.syncer.inflightFetches.erase r) n.syncer.fetchedRanges i = 0 := by
    intro i hlo hhi
    have hone := h.covers.once i
    rw [hcount i, ← hsplit, CommitRange.count, if_pos (CommitRange.holds_iff.mpr ⟨hlo, by omega⟩)] at hone
    omega
  have hpending : commitEnd < r.last → CommitRange.new (commitEnd + 1) r.last ∉ n.syncer.pendingFetches := fun hlt =>
    (fresh_of_countOf (hfresh (commitEnd + 1) (by omega) hlt) (holds_iff.mpr ⟨le_refl _, Nat.lt_succ_of_le hlt⟩)).1
  have hfetched : n.syncer.fetchedRanges[CommitRange.new r.start commitEnd]? = none :=
    (fresh_of_countOf (r := .new r.start commitEnd) (hfresh r.start (le_refl _) (hstart.trans hend))
      (holds_iff.mpr ⟨le_refl _, Nat.lt_succ_of_le hstart⟩)).2
  have heq := receive_eq { n.syncer with inflightFetches := n.syncer.inflightFetches.erase r } n.lastCommitIndex
    r.last r.start commitEnd certified
  generalize CommitSyncer.receive n.lastCommitIndex r.last r.start commitEnd certified
    { n.syncer with inflightFetches := n.syncer.inflightFetches.erase r } = s at heq ⊢
  have hp := congrArg CommitSyncer.pendingFetches heq
  have hi := congrArg CommitSyncer.inflightFetches heq
  have hf := congrArg CommitSyncer.fetchedRanges heq
  have hs := congrArg CommitSyncer.highestScheduledIndex heq
  have hsynced := congrArg CommitSyncer.syncedCommitIndex heq
  dsimp only at hp hi hf hs hsynced
  have hafter : ∀ i, n.syncer.count i = s.count i +
      if max n.syncer.syncedCommitIndex n.lastCommitIndex < commitEnd then 0 else (CommitRange.new r.start commitEnd).count i := by
    intro i
    have hrest : countOf s.pendingFetches (n.syncer.inflightFetches.erase r) n.syncer.fetchedRanges i =
        countOf n.syncer.pendingFetches (n.syncer.inflightFetches.erase r) n.syncer.fetchedRanges i +
          (CommitRange.new (commitEnd + 1) r.last).count i := by
      rw [hp]
      split
      · rename_i hlt
        exact countOf_insert_pending (hpending hlt) i
      · rename_i hge
        rw [count_new, if_neg (by omega)]
        rfl
    rw [hcount i, CommitSyncer.count, hi, hf]
    split
    · rw [countOf_insert_fetched hfetched, hrest]
      omega
    · rw [hrest]
      omega
  refine ⟨?_, fun r' hr' => ?_, fun r' certified' hr' => ?_, ?_⟩
  · show Covers s.count s.syncedCommitIndex s.scheduled
    rw [CommitSyncer.scheduled, hs, hsynced]
    refine (h.covers.raise (Nat.le_max_left _ n.lastCommitIndex)).discard (fun i hpos => ?_) hafter
    split_ifs at hpos with hle
    · cases hpos
    · rw [count_new] at hpos
      split at hpos
      · omega
      · cases hpos
  · rcases (mem_ranges (s := s)).mp hr' with hr' | hr' | hr'
    · rw [hp] at hr'
      split_ifs at hr' with hlt
      · rcases Finset.mem_insert.mp hr' with rfl | hr'
        · simp only [CommitRange.new]
          omega
        · exact h.nonempty r' (mem_ranges.mpr (.inl hr'))
      · exact h.nonempty r' (mem_ranges.mpr (.inl hr'))
    · rw [hi] at hr'
      exact h.nonempty r' (mem_ranges.mpr (.inr (.inl (mem_of_mem_erase hr'))))
    · rw [hf] at hr'
      split at hr'
      · rw [get_insert] at hr'
        split_ifs at hr' with heq
        · rw [← heq]
          simp only [CommitRange.new]
          omega
        · exact h.nonempty r' (mem_ranges.mpr (.inr (.inr hr')))
      · exact h.nonempty r' (mem_ranges.mpr (.inr (.inr hr')))
  · change s.fetchedRanges[r']? = _ at hr'
    rw [hf] at hr'
    split at hr'
    · exact forall_insert h.batches hcommits r' certified' hr'
    · exact h.batches r' certified' hr'
  · show s.syncedCommitIndex ≤ n.lastCommitIndex
    rw [hsynced]
    exact max_le h.synced (le_refl _)

/-- A fetched range that the synced index has reached is taken out. -/
theorem discardFetched (h : Sound n) (hr : n.syncer.fetchedRanges[r]?.isSome) {synced lastCommitIndex : Nat}
    (hle : n.syncer.syncedCommitIndex ≤ synced) (hlast : r.last ≤ synced) (hcore : synced ≤ lastCommitIndex) :
    Sound ⟨{ n.syncer with fetchedRanges := n.syncer.fetchedRanges.erase r, syncedCommitIndex := synced }, lastCommitIndex⟩ := by
  refine ⟨(h.covers.raise hle).discard (fun i hpos => ?_) (countOf_erase_fetched hr), fun r' hr' => ?_, forall_erase h.batches r, hcore⟩
  · rw [CommitRange.count] at hpos
    split_ifs at hpos with hheld
    · have := holds_iff.mp hheld
      rw [last] at hlast
      omega
    · cases hpos
  · refine h.nonempty r' (mem_ranges.mpr ?_)
    rcases mem_ranges.mp hr' with hr' | hr' | hr'
    · exact .inl hr'
    · exact .inr (.inl hr')
    · rw [get_erase] at hr'
      split at hr'
      · cases hr'
      · exact .inr (.inr hr')

theorem processFetched {progress : CoreProgress} (hcore : progress.CommitsWholeBatch) {h : CommitSyncer.Handling}
    {rest : List (CommitRange × CertifiedCommits)}
    (hsound : Sound ⟨h.syncer, h.lastCommitIndex⟩) (hhanded : ∀ m ∈ h.handed, m.Accepted) (hfailed : h.failed = none)
    (hrest : ∀ p ∈ rest, h.syncer.fetchedRanges[p.1]? = some p.2) (hnodup : (rest.map Prod.fst).Nodup) :
    Sound ⟨(CommitSyncer.processFetched progress h rest).syncer, (CommitSyncer.processFetched progress h rest).lastCommitIndex⟩ ∧
      (∀ m ∈ (CommitSyncer.processFetched progress h rest).handed, m.Accepted) ∧
      (CommitSyncer.processFetched progress h rest).failed = none := by
  induction rest generalizing h with
  | nil => exact ⟨hsound, hhanded, hfailed⟩
  | cons p rest ih =>
    obtain ⟨r, certified⟩ := p
    rw [map_cons, nodup_cons] at hnodup
    have hr : h.syncer.fetchedRanges[r]? = some certified := hrest (r, certified) mem_cons_self
    have hsome : h.syncer.fetchedRanges[r]?.isSome := by
      rw [hr]
      rfl
    -- the other ranges stay
    have hothers : ∀ p ∈ rest, (h.syncer.fetchedRanges.erase r)[p.1]? = some p.2 := by
      intro p hp
      rw [get_erase, if_neg, hrest p (mem_cons_of_mem _ hp)]
      intro heq
      have hmem : p.1 ∈ rest.map Prod.fst := mem_map_of_mem hp
      rw [← heq] at hmem
      exact hnodup.1 hmem
    rw [CommitSyncer.processFetched]
    split_ifs with hnext
    · dsimp only
      split
      · rename_i hdone
        exact ih (hsound.discardFetched hsome (le_refl _) hdone hsound.synced) hhanded hfailed hothers hnodup.2
      · have hne := hsound.nonempty r (mem_ranges.mpr (.inr (.inr hsome)))
        have hbatch := hsound.batches r certified hr
        have hsynced : h.syncer.syncedCommitIndex ≤ h.lastCommitIndex + progress.before r :=
          le_trans hsound.synced (Nat.le_add_right _ _)
        obtain ⟨last', hadd, hle, hlast⟩ := addCertifiedCommits_batch hbatch hne
          (show r.start ≤ h.lastCommitIndex + progress.before r + 1 by omega) hcore
        rw [hadd]
        dsimp only
        refine ih (hsound.discardFetched hsome (Nat.le_max_left _ _) (Nat.le_max_right _ _) (max_le (le_trans hsynced hle) hlast))
          (fun m hm => ?_) rfl hothers hnodup.2
        rcases mem_concat.mp hm with hm | rfl
        · exact hhanded m hm
        · refine ⟨?_, ?_⟩
          · obtain ⟨first, hfirst, hindex⟩ := head_of_indices hbatch (by omega)
            exact ⟨first, hfirst, by simp only [hindex]; exact hnext⟩
          · obtain ⟨new, hnew, -⟩ := filterNewCommits_batch hbatch
              (show r.start ≤ h.lastCommitIndex + progress.before r + 1 by omega)
            exact ⟨new, hnew⟩
    · exact ⟨hsound, hhanded, hfailed⟩

/-- A fetch result is handled: Core takes what it is handed, and the invariant is kept. -/
theorem handleFetchResult (h : Sound n) (hr : r ∈ n.syncer.inflightFetches)
    (hfetched : Fetched ctx r certified) {progress : CoreProgress} (hcore : progress.CommitsWholeBatch) :
    ∃ out, CommitSyncer.handleFetchResult progress n.lastCommitIndex r.last certified
        { n.syncer with inflightFetches := n.syncer.inflightFetches.erase r } = .ok out ∧
      Sound ⟨out.syncer, out.lastCommitIndex⟩ ∧ (∀ m ∈ out.handed, m.Accepted) ∧ out.failed = none := by
  obtain ⟨size, hpos, hsize, hcommits⟩ := hfetched.spec
  have hbatch : Batch (CommitRange.new r.start (r.start + size - 1)) certified := by
    rw [Batch, hcommits]
    simp only [CommitRange.new]
    congr 1
    omega
  obtain ⟨first, hfirst, hfirstIndex⟩ := head_of_indices hcommits hpos.ne'
  obtain ⟨last, hlast, hlastIndex⟩ : ∃ last, certified.commits.getLast? = some last ∧ last.commit.index = r.start + size - 1 := by
    have hend : (certified.commits.map fun c => c.commit.index).getLast? = some (r.start + size - 1) := by
      rw [hcommits, getLast?_range', if_neg (by omega)]
    rwa [getLast?_map, Option.map_eq_some_iff] at hend
  have hreceive := h.receive hr (show r.start ≤ r.start + size - 1 by omega) (by omega) hbatch
  generalize hs : CommitSyncer.receive n.lastCommitIndex r.last r.start (r.start + size - 1) certified
    { n.syncer with inflightFetches := n.syncer.inflightFetches.erase r } = s at hreceive
  let handling : CommitSyncer.Handling := ⟨s, n.lastCommitIndex, [], none⟩
  refine ⟨CommitSyncer.processFetched progress handling s.fetchedRanges.toList, ?_,
    processFetched hcore (show Sound ⟨handling.syncer, handling.lastCommitIndex⟩ from hreceive)
      (fun m hm => absurd hm not_mem_nil) rfl (fun p => mem_toList.mp) (nodup_toList _)⟩
  simp only [CommitSyncer.handleFetchResult, hfirst, hlast, expect_some, ok_bind, hfirstIndex, hlastIndex, hs]
  rfl

theorem step (h : Sound n) {n' : SyncNode} (hstep : SyncStep ctx parameters n n') : Sound n' := by
  cases hstep with
  | schedule _ _ hs => exact h.tryScheduleOnce hs
  | start knownPeersCount => exact h.tryStartFetches parameters knownPeersCount
  | fetched hcore hmem hfetched hrun =>
    obtain ⟨out, hout, hsound, -⟩ := h.handleFetchResult hmem hfetched hcore
    obtain rfl := ok_unique hout hrun
    exact hsound
  | commit count => exact h.commit count

theorem of_reachable (h : SyncReachable ctx parameters n) : Sound n := by
  induction h with
  | start lastCommitIndex => exact start lastCommitIndex
  | step _ hstep ih => exact ih.step hstep

end SyncNode.Sound

end Sui

import Sui.LightClient.HonestServer
import Sui.LightClient.Lemmas.EventStream

/-!
# The client and an honest server

Every loop of the client gets what it asks for from an honest server, unless a call fails: the settlements of a range, the committee
of a checkpoint, and the head of the stream.
-/

namespace Sui.LightClient

open Library Settlement Effects List EpochCache

variable {Sig Agg Merkle Absence : Type} {crypto : EventCryptography Sig Agg Merkle Absence}
  {server : Server Agg Merkle} {genesis : Types.EpochCommittee} {ledger : Ledger genesis} {faults : Finset Nat} {client : Client}

/-! ## Calls that fail -/

/-- No call between the two states fails. -/
def Unfailing (faults : Finset Nat) (client client' : Client) : Prop :=
  client.calls ≤ client'.calls ∧ ∀ n ∈ faults, client.calls ≤ n → client'.calls ≤ n

/-- A call between the two states fails. -/
def Failing (faults : Finset Nat) (client client' : Client) : Prop := ∃ n ∈ faults, client.calls ≤ n ∧ n < client'.calls

section

variable {s t u : Client}

theorem Unfailing.refl : Unfailing faults s s := ⟨le_rfl, fun _ _ h => h⟩

theorem Unfailing.trans (h : Unfailing faults s t) (h' : Unfailing faults t u) : Unfailing faults s u :=
  ⟨h.1.trans h'.1, fun n hn hle => h'.2 n hn (h.2 n hn hle)⟩

/-- A failure after calls that do not fail is a failure of all of them. -/
theorem Unfailing.failing (h : Unfailing faults s t) (h' : Failing faults t u) : Failing faults s u := by
  obtain ⟨n, hn, hle, hlt⟩ := h'
  exact ⟨n, hn, h.1.trans hle, hlt⟩

theorem Unfailing.step (h : s.calls ∉ faults) : Unfailing faults s { s with calls := s.calls + 1 } := by
  refine ⟨Nat.le_succ _, ?_⟩
  intro n hn hle
  exact Nat.lt_of_le_of_ne hle fun heq => h (heq ▸ hn)

theorem Failing.step (h : s.calls ∈ faults) : Failing faults s { s with calls := s.calls + 1 } := ⟨_, h, le_rfl, Nat.lt_succ_self _⟩

end

/-- The loop over the pages of the settlements gets those between the rows. -/
theorem fetchSettlements_honest (h : Honest crypto ledger faults server) {startCheckpoint endCheckpoint fuel a b : Nat}
    {all : List (Nat × Nat)} {cursor : Option Cursor} (hle : startCheckpoint < endCheckpoint)
    (hb : b = ledger.transactionScan.rowOf endCheckpoint)
    (hat : RequestAt ledger.transactionScan ledger.transactionCursor startCheckpoint cursor a b) (hfuel : b - a < fuel) :
    Ensures (fetchSettlements server ledger.streamObjectId startCheckpoint endCheckpoint fuel all cursor) client
      (fun r t => r = all ++ ledger.transactionScan.between a b ∧ t.epochCache = client.epochCache ∧ Unfailing faults client t)
      fun _ t => t.epochCache = client.epochCache ∧ Failing faults client t := by
  induction fuel generalizing client a all cursor with
  | zero => omega
  | succ _ ih =>
    have hanswer := h.listTransactions client.calls ⟨startCheckpoint, some endCheckpoint, ledger.streamObjectId, cursor, 1000⟩ a rfl
      (by rw [hb] at hat; exact hat)
    rw [fetchSettlements, if_pos hle]
    refine .bind ?_
    split_ifs at hanswer with hfault
    · obtain ⟨status, hstatus, -⟩ := hanswer
      exact .error (fetchPage_of_error hstatus) ⟨rfl, .step hfault⟩
    · obtain ⟨page, hpage, ⟨hincomplete, k, hak, hkb, hitems, hcursor⟩ | ⟨hcomplete, hitems⟩⟩ := hanswer
      · refine .ok (fetchPage_of_ok hpage) ?_
        have hkb : k ≤ b := hb ▸ hkb
        rw [if_pos hincomplete]
        have hnext : RequestAt ledger.transactionScan ledger.transactionCursor startCheckpoint page.lastCursor k b :=
          ⟨hkb, .inr ⟨hcursor, by obtain ⟨-, ⟨-, rfl⟩ | ⟨-, hle⟩⟩ := hat <;> omega⟩⟩
        refine (ih hnext (by omega)).mono ?_ (fun _ _ ht => ⟨ht.1, (Unfailing.step hfault).failing ht.2⟩)
        rintro r t ⟨rfl, ht, hcalls⟩
        rw [hitems, append_assoc, Scan.between_append (by omega) hkb]
        exact ⟨rfl, ht, (Unfailing.step hfault).trans hcalls⟩
      · refine .ok (fetchPage_of_ok hpage) ?_
        rw [if_neg (by simp [hcomplete]), hitems, hb]
        exact ⟨rfl, rfl, .step hfault⟩

/-! ## Committees -/

variable {e checkpoint : Nat}

namespace Ledger

/-- Later epochs end later. -/
theorem lastCheckpoint_lt_of_lt {e' : Nat} (hlt : e < e') (he' : e' < ledger.currentEpoch) :
    ledger.lastCheckpoint e < ledger.lastCheckpoint e' := by
  induction e' with
  | zero => omega
  | succ e' ih =>
    have hstep := ledger.lastCheckpoint_lt e' he'
    rcases Nat.lt_succ_iff_lt_or_eq.mp hlt with hlt | rfl
    · exact (ih hlt (by omega)).trans hstep
    · exact hstep

/-- A checkpoint of a later epoch is after the end of an earlier one. -/
theorem lastCheckpoint_lt_firstCheckpoint {e' : Nat} (hlt : e < e') (he' : e' ≤ ledger.currentEpoch) :
    ledger.lastCheckpoint e < ledger.firstCheckpoint e' := by
  cases e' with
  | zero => omega
  | succ =>
    rw [firstCheckpoint, Nat.lt_succ_iff]
    rcases Nat.lt_succ_iff_lt_or_eq.mp hlt with hlt | rfl
    · exact (lastCheckpoint_lt_of_lt hlt he').le
    · exact le_rfl

theorem firstCheckpoint_le_lastCheckpoint (he : e < ledger.currentEpoch) :
    ledger.firstCheckpoint e ≤ ledger.lastCheckpoint e := by
  cases e with
  | zero => exact Nat.zero_le _
  | succ e => exact ledger.lastCheckpoint_lt e he

/-- The epoch holds the checkpoint. -/
def InEpoch (ledger : Ledger genesis) (e checkpoint : Nat) : Prop :=
  e ≤ ledger.currentEpoch ∧ ledger.firstCheckpoint e ≤ checkpoint ∧
    (e = ledger.currentEpoch ∨ e < ledger.currentEpoch ∧ checkpoint ≤ ledger.lastCheckpoint e)

/-- A checkpoint is in one epoch only. -/
theorem epochOf_eq (h : ledger.InEpoch e checkpoint) : ledger.epochOf checkpoint = e := by
  obtain ⟨he, hfirst, hlast⟩ := h
  have hiff : ∀ i ∈ List.range ledger.currentEpoch, (ledger.lastCheckpoint i < checkpoint ↔ i < e) := by
    intro i hi
    have hi := mem_range.mp hi
    constructor
    · intro hlt
      by_contra hge
      rcases hlast with rfl | ⟨hcurrent, hle⟩
      · omega
      · rcases Nat.lt_or_eq_of_le (Nat.le_of_not_lt hge) with hlt' | rfl
        · have := lastCheckpoint_lt_of_lt hlt' hi
          omega
        · omega
    · intro hlt
      have := lastCheckpoint_lt_firstCheckpoint hlt he
      omega
  have hcount : ∀ n, e ≤ n → (List.range n).countP (fun i => i < e) = e := by
    intro n hn
    induction n, hn using Nat.le_induction with
    | base => exact countP_eq_length.mpr (by simp) |>.trans length_range
    | succ _ _ ih => rw [range_succ, countP_append, ih]; simp; omega
  rw [epochOf, ← hcount _ he]
  refine countP_congr ?_
  intro i hi
  simpa only [decide_eq_true_eq, hcount _ he] using hiff i hi

/-- The cache when the epoch has been reached. -/
def cache (ledger : Ledger genesis) (e : Nat) : EpochCache where
  completedCommittees := (List.range e).map fun i => (ledger.firstCheckpoint i, ledger.lastCheckpoint i, ledger.committee i)
  currentEpochNumber := e
  currentCommittee := ledger.committee e
  currentEpochStartCheckpoint := ledger.firstCheckpoint e

theorem cache_zero : ledger.cache 0 = .new genesis := by
  rw [cache, EpochCache.new, ledger.committee_zero]
  rfl

/-- A checkpoint before the current epoch is in an epoch before it. -/
theorem exists_inEpoch (he : e ≤ ledger.currentEpoch) (hlt : checkpoint < ledger.firstCheckpoint e) :
    ∃ i < e, ledger.InEpoch i checkpoint := by
  induction e with
  | zero => exact absurd hlt (Nat.not_lt_zero _)
  | succ e ih =>
    by_cases hfirst : ledger.firstCheckpoint e ≤ checkpoint
    · exact ⟨e, Nat.lt_succ_self e, by omega, hfirst, .inr ⟨by omega, Nat.lt_succ_iff.mp hlt⟩⟩
    · obtain ⟨i, hi, h⟩ := ih (by omega) (by omega)
      exact ⟨i, by omega, h⟩

/-- The ranges of the epochs are in order. -/
theorem compareRange_mono {i j : Nat} (hij : i < j) (hj : j < ledger.currentEpoch) :
    compareRange checkpoint (ledger.firstCheckpoint i, ledger.lastCheckpoint i, ledger.committee i) ≤
      compareRange checkpoint (ledger.firstCheckpoint j, ledger.lastCheckpoint j, ledger.committee j) := by
  have hrange : ledger.firstCheckpoint i ≤ ledger.lastCheckpoint i := firstCheckpoint_le_lastCheckpoint (hij.trans hj)
  have hlater : ledger.lastCheckpoint i < ledger.firstCheckpoint j := lastCheckpoint_lt_firstCheckpoint hij hj.le
  unfold compareRange
  by_cases hbefore : ledger.lastCheckpoint i < checkpoint
  · rw [if_neg (by dsimp only; omega), if_pos hbefore]
    exact Nat.zero_le _
  · rw [if_pos (show checkpoint < ledger.firstCheckpoint j by omega)]
    split
    · exact le_rfl
    · exact Nat.le_succ 1

/-- The search stops at the range that has the checkpoint. -/
theorem compareRange_eq_one {range : Nat × Nat × Types.EpochCommittee} :
    compareRange checkpoint range = 1 ↔ range.1 ≤ checkpoint ∧ checkpoint ≤ range.2.1 := by
  unfold compareRange
  split
  · omega
  · split <;> omega

/-- The cache finds the committee of a checkpoint of an epoch that has been reached. -/
theorem getCommitteeForCheckpoint_cache {i : Nat} (he : e ≤ ledger.currentEpoch) (hi : i ≤ e)
    (h : ledger.InEpoch i checkpoint) : (ledger.cache e).getCommitteeForCheckpoint checkpoint = some (ledger.committee i) := by
  rcases Nat.lt_or_eq_of_le hi with hlt | rfl
  · obtain ⟨-, hfirst, hcurrent | ⟨-, hlast⟩⟩ := id h
    · omega
    have hafter := lastCheckpoint_lt_firstCheckpoint hlt he
    have hsorted : (ledger.cache e).completedCommittees.Pairwise fun a b =>
        compareRange checkpoint a ≤ compareRange checkpoint b := by
      rw [cache, pairwise_map]
      refine pairwise_lt_range.imp_of_mem ?_
      intro a b _ hb hab
      exact compareRange_mono hab ((mem_range.mp hb).trans_le he)
    have hsome : (binarySearchByKey (compareRange checkpoint) 1 (ledger.cache e).completedCommittees).isSome := by
      refine (binarySearchByKey_isSome hsorted).mpr ⟨_, mem_map_of_mem (mem_range.mpr hlt), ?_⟩
      exact compareRange_eq_one.mpr ⟨hfirst, hlast⟩
    obtain ⟨index, hindex⟩ := Option.isSome_iff_exists.mp hsome
    obtain ⟨range, hrange, hone⟩ := getElem?_of_binarySearchByKey hindex
    -- the range that is found is that of an epoch of the checkpoint, and there is only one
    obtain ⟨m, hm, rfl⟩ := mem_map.mp (mem_of_getElem? hrange)
    have hm := mem_range.mp hm
    obtain ⟨hmfirst, hmlast⟩ := compareRange_eq_one.mp hone
    have hin : ledger.InEpoch m checkpoint := ⟨by omega, hmfirst, .inr ⟨by omega, hmlast⟩⟩
    have hmi : m = i := (epochOf_eq hin).symm.trans (epochOf_eq h)
    have hcurrent : ¬ (ledger.cache e).currentEpochStartCheckpoint ≤ checkpoint := by
      change ¬ ledger.firstCheckpoint e ≤ checkpoint
      omega
    rw [EpochCache.getCommitteeForCheckpoint, if_neg hcurrent, hindex, Option.bind_some, hrange, Option.map_some, hmi]
  · rw [EpochCache.getCommitteeForCheckpoint, if_pos (show (ledger.cache i).currentEpochStartCheckpoint ≤ checkpoint from h.2.1)]
    rfl

end Ledger

/-- The client has reached an epoch of the ledger. -/
def CacheHonest (ledger : Ledger genesis) (cache : EpochCache) : Prop := ∃ e ≤ ledger.currentEpoch, cache = ledger.cache e

/-- The genesis committee alone is what the ledger has for epoch 0. -/
theorem CacheHonest.new : CacheHonest ledger (.new genesis) := ⟨0, Nat.zero_le _, Ledger.cache_zero.symm⟩

/-- A call about an epoch that fails is reported as an internal error. -/
theorem endOfEpochCheckpoint_of_fails {answer : Except Status (Option EpochInfo)} (h : Fails answer) :
    ∃ message, endOfEpochCheckpoint e answer = .error (.internalError message) := by
  obtain ⟨status, rfl, hretriable⟩ := h
  have hcode : status.code ≠ .notFound := by
    intro hcode
    rw [hcode] at hretriable
    cases hretriable
  exact ⟨_, if_neg hcode⟩

/-- One epoch of the ratchet: stay in the epoch if it holds the checkpoint, or get the next committee. -/
theorem fetchAndVerifyNextEpoch_honest (h : Honest crypto ledger faults server) (he : e ≤ ledger.currentEpoch) :
    Ensures (fetchAndVerifyNextEpoch crypto.toCryptography server e (ledger.committee e) checkpoint) client
      (fun r t => t.epochCache = client.epochCache ∧ Unfailing faults client t ∧
        if e < ledger.currentEpoch ∧ ledger.lastCheckpoint e < checkpoint then
          r = some (ledger.lastCheckpoint e, ledger.committee (e + 1))
        else r = none)
      fun _ t => t.epochCache = client.epochCache ∧ Failing faults client t := by
  have hepoch := h.getEpoch client.calls e he
  refine .bind (.ok call_of_eq (.bind ?_))
  split_ifs at hepoch with hfault hcurrent
  · obtain ⟨message, hmessage⟩ := endOfEpochCheckpoint_of_fails hepoch
    rw [hmessage]
    exact .error rfl ⟨rfl, .step hfault⟩
  · refine .ok (orStop_ok hepoch) ?_
    dsimp only
    by_cases hlast : checkpoint ≤ ledger.lastCheckpoint e
    · rw [if_pos hlast]
      refine .pure ⟨rfl, .step hfault, ?_⟩
      rw [if_neg (by omega)]
    · rw [if_neg hlast]
      refine .bind (.ok call_of_eq (.bind ?_))
      have hcheckpoint := h.getCheckpoint (client.calls + 1) e hcurrent
      split_ifs at hcheckpoint with hfault'
      · obtain ⟨status, hstatus, -⟩ := hcheckpoint
        rw [hstatus]
        exact .error rfl ⟨rfl, (Unfailing.step hfault).failing (.step hfault')⟩
      · refine .ok (lift_ok.mpr ⟨hcheckpoint, rfl⟩) (.pure ⟨rfl, (Unfailing.step hfault).trans (.step hfault'), ?_⟩)
        rw [if_pos (by omega)]
  · refine .ok (orStop_ok hepoch) (.pure ⟨rfl, .step hfault, ?_⟩)
    rw [if_neg (by omega)]

/-- The ratchet reaches the epoch of the checkpoint. -/
theorem trustRatchetToCheckpoint_honest (h : Honest crypto ledger faults server) {fuel : Nat}
    (he : e ≤ ledger.currentEpoch) (hcache : client.epochCache = ledger.cache e) (hfuel : ledger.currentEpoch - e < fuel) :
    Ensures (trustRatchetToCheckpoint crypto.toCryptography server checkpoint fuel) client
      (fun _ t => Unfailing faults client t ∧
        ∃ e' i, e' ≤ ledger.currentEpoch ∧ t.epochCache = ledger.cache e' ∧ i ≤ e' ∧ ledger.InEpoch i checkpoint)
      fun _ t => CacheHonest ledger t.epochCache ∧ Failing faults client t := by
  induction fuel generalizing client e with
  | zero => omega
  | succ _ ih =>
    refine .bind (.get ?_)
    rw [hcache]
    by_cases hcompleted : checkpoint < ledger.firstCheckpoint e
    · rw [if_pos (show checkpoint < (ledger.cache e).currentEpochStartCheckpoint from hcompleted)]
      obtain ⟨i, hi, hin⟩ := Ledger.exists_inEpoch he hcompleted
      exact .pure ⟨.refl, e, i, he, hcache, hi.le, hin⟩
    · rw [if_neg (show ¬ checkpoint < (ledger.cache e).currentEpochStartCheckpoint from hcompleted)]
      refine .bind ((fetchAndVerifyNextEpoch_honest h he).mono ?_ (fun _ _ ht => ⟨⟨e, he, ht.1.trans hcache⟩, ht.2⟩))
      rintro r t ⟨ht, hcalls, hr⟩
      split at hr
      · rename_i hnext
        subst hr
        refine .bind (.modify ?_)
        have ht := ht.trans hcache
        rw [if_pos (show t.epochCache.currentEpochNumber = (ledger.cache e).currentEpochNumber by rw [ht])]
        refine (ih (e := e + 1) (by omega) ?_ (by omega)).mono ?_ ?_
        · change t.epochCache.applyRatchetUpdate _ _ _ _ = _
          rw [ht]
          simp only [Ledger.cache, applyRatchetUpdate, range_succ, map_append]
          rfl
        · exact fun _ _ hu => ⟨hcalls.trans hu.1, hu.2⟩
        · exact fun _ _ hu => ⟨hu.1, hcalls.failing hu.2⟩
      · rename_i hstay
        subst hr
        refine .pure ⟨hcalls, e, e, he, ht.trans hcache, le_rfl, he, Nat.le_of_not_lt hcompleted, ?_⟩
        by_cases hcurrent : e < ledger.currentEpoch
        · exact .inr ⟨hcurrent, by omega⟩
        · exact .inl (by omega)

/-- The client gets the head as of a checkpoint with settlements, unless a call fails. -/
theorem fetchAndVerifyStreamHead_honest (h : Honest crypto ledger faults server) {fuel : Nat}
    (hcache : CacheHonest ledger client.epochCache) (hfuel : ledger.currentEpoch < fuel) :
    Ensures (fetchAndVerifyStreamHead crypto server fuel ledger.streamObjectId checkpoint) client
      (fun head t => CacheHonest ledger t.epochCache ∧ Unfailing faults client t ∧ head = ledger.headAt crypto checkpoint)
      fun _ t => CacheHonest ledger t.epochCache ∧ (checkpoint ∈ ledger.settlements.map (·.checkpoint) → Failing faults client t) := by
  obtain ⟨e, he, hcache⟩ := hcache
  refine .bind (.bind ((trustRatchetToCheckpoint_honest h he hcache (by omega)).mono ?_ (fun _ _ ht => ⟨ht.1, fun _ => ht.2⟩)))
  rintro _ t ⟨hcalls, e', i, he', ht, hi, hin⟩
  have hcacheT : CacheHonest ledger t.epochCache := ⟨e', he', ht⟩
  have hget := Ledger.getCommitteeForCheckpoint_cache he' hi hin
  rw [← ht, ← Ledger.epochOf_eq hin] at hget
  refine .bind (.get (.ok (lift_ok.mpr ⟨Checked.expect_ok.mpr hget, rfl⟩) ?_))
  have hproof := h.getCheckpointObjectProof t.calls checkpoint
  split_ifs at hproof with hfault hmem
  · obtain ⟨status, hstatus, -⟩ := hproof
    exact .bind (.error (rpc_of_error hstatus) ⟨hcacheT, fun _ => hcalls.failing (.step hfault)⟩)
  · obtain ⟨response, hresponse, hread⟩ := hproof
    refine .bind (.ok (rpc_of_ok hresponse) ?_)
    exact .ok (lift_ok.mpr ⟨hread, rfl⟩) ⟨hcacheT, hcalls.trans (.step hfault), rfl⟩
  · obtain ⟨response, hresponse, message, hread⟩ := hproof
    refine .bind (.ok (rpc_of_ok hresponse) ?_)
    exact .error (lift_error.mpr ⟨hread, rfl⟩) ⟨hcacheT, fun hmem' => absurd hmem' hmem⟩

end Sui.LightClient

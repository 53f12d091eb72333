import Sui.Execution.Lemmas.Settlement
import Sui.Library.Shares

/-!
# Settlement conserves every account

The settlement transactions hold one call for each account whose deposits and withdrawals differ, with the difference, however
the accounts are cut into transactions and the effects are ordered.
-/

namespace Sui.Settlement

open Library Checked BTreeMap List SettlementCall SettlementTxn AccumulatorSettlementTxBuilder

/-- The account, the merged and the split amount of a `settle_u128` call. -/
def SettlementCall.settled : SettlementCall → Option (AccumulatorAddress × Nat × Nat)
  | .settleU128 ty address merge split => some (⟨address, ty⟩, merge, split)
  | _ => none

/-- The input and output SUI of a prologue. -/
def SettlementCall.suiTotals : SettlementCall → Option (Nat × Nat)
  | .settlementPrologue _ _ _ totalInputSui totalOutputSui => some (totalInputSui, totalOutputSui)
  | _ => none

/-- The `settle_u128` calls of a transaction. -/
def SettlementTxn.settled (txn : SettlementTxn) : List (AccumulatorAddress × Nat × Nat) := txn.calls.filterMap SettlementCall.settled

/-- The SUI totals of the prologue of a transaction. -/
def SettlementTxn.suiTotals (txn : SettlementTxn) : List (Nat × Nat) := txn.calls.filterMap SettlementCall.suiTotals

def net (a : AccumulatorAddress) (deposits withdrawals : Nat) : List (AccumulatorAddress × Nat × Nat) :=
  if isBalance a.ty = true ∧ deposits ≠ withdrawals then [(a, deposits - withdrawals, withdrawals - deposits)] else []

variable (events : List AccumulatorEvent)

/-- The net call for the account of an object. -/
def netOf (o : AccumulatorObjId) : List (AccumulatorAddress × Nat × Nat) :=
  match events.find? fun e => e.accumulatorObj = o with
  | some e => net e.write.address (total (amount .merge) events o) (total (amount .split) events o)
  | none => []

/-- The objects of the events, in ascending order. -/
def objects : List AccumulatorObjId :=
  BTreeSet.iter (events.map AccumulatorEvent.accumulatorObj).toFinset

theorem mem_objects {events : List AccumulatorEvent} {o : AccumulatorObjId} :
    o ∈ objects events ↔ ∃ e ∈ events, e.accumulatorObj = o := by
  rw [objects, BTreeSet.mem_iter, mem_toFinset, mem_map]

variable {a : AccumulatorAddress} {e : AccumulatorEvent}

namespace AccumulatorSettlementTxBuilder

variable {events : List AccumulatorEvent} {b : AccumulatorSettlementTxBuilder}

/-- The accounts are settled in the order of their objects. -/
theorem Tracks.keys_eq (h : Tracks events b) : b.updates.toList.map Prod.fst = objects events := by
  refine (BTreeSet.iter_eq_of_pairwise (pairwise_map.mpr (pairwise_toList _)) fun o => ?_).symm
  rw [Std.ExtTreeMap.map_fst_toList_eq_keys, Std.ExtTreeMap.mem_keys, Std.ExtTreeMap.mem_iff_isSome_getElem?, h.keys,
    mem_toFinset, mem_map]

variable {entry : AccumulatorObjId × Update}

theorem find_of_mem (he : e ∈ events) : ∃ e', events.find? (fun e' => e'.accumulatorObj = e.accumulatorObj) = some e' ∧
    e' ∈ events ∧ e'.accumulatorObj = e.accumulatorObj := by
  have hsome : (events.find? fun e' => e'.accumulatorObj = e.accumulatorObj).isSome :=
    List.find?_isSome.mpr ⟨e, he, decide_eq_true rfl⟩
  obtain ⟨e', he'⟩ := Option.isSome_iff_exists.mp hsome
  exact ⟨e', he', mem_of_find?_eq_some he', by simpa using List.find?_some he'⟩

theorem Tracks.entry_of_mem (h : Tracks events b) (hentry : entry ∈ b.updates.toList) :
    ∃ a, b.addresses[entry.1]? = some a ∧ EntryOf events entry.1 a entry.2 ∧
      ∃ e, events.find? (fun e => e.accumulatorObj = entry.1) = some e ∧ e.write.address = a := by
  have hget : b.updates[entry.1]? = some entry.2 := mem_toList.mp hentry
  obtain ⟨e, he, ho⟩ := (h.keys entry.1).mp (by rw [hget]; rfl)
  obtain ⟨e', he', hmem, ho'⟩ := find_of_mem he
  rw [ho] at he' ho'
  have ha := (h.address entry.1 e'.write.address).mpr ⟨e', hmem, ho', rfl⟩
  exact ⟨_, ha, h.entry _ _ _ ha hget, e', he', rfl⟩

theorem addMoveCall_balance (h : isBalance a.ty = true) (deposits withdrawals checkpointSeq : Nat) :
    MergedValue.addMoveCall (.sumU128 deposits) (.sumU128 withdrawals) a checkpointSeq = .ok (if deposits = withdrawals then []
        else [.settleU128 a.ty a.address (deposits - withdrawals) (withdrawals - deposits)]) := by
  cases hty : a.ty with
  | other => simp [hty, isBalance] at h
  | balance =>
    unfold MergedValue.addMoveCall
    simp only [hty]
    rcases Nat.lt_trichotomy deposits withdrawals with hlt | rfl | hlt
    · have hsub : deposits - withdrawals = 0 := by omega
      simp [Nat.not_le.mpr hlt, Nat.ne_of_lt hlt, hsub, Nat.sub_ne_zero_of_lt hlt]
    · simp
    · have hsub : withdrawals - deposits = 0 := by omega
      simp [Nat.le_of_lt hlt, Nat.ne_of_gt hlt, hsub, Nat.sub_ne_zero_of_lt hlt]

/-- The calls for an account: the net amount of a balance, or the events of a stream. -/
theorem Tracks.settleCalls_ok (h : Tracks events b) (buildEventMerkleRoot : List EventCommitment → Nat) (checkpointSeq : Nat)
    (hentry : entry ∈ b.updates.toList) :
    ∃ calls, settleCalls buildEventMerkleRoot b.addresses checkpointSeq entry = .ok calls ∧
      calls.filterMap SettlementCall.settled = netOf events entry.1 ∧ calls.filterMap SettlementCall.suiTotals = [] := by
  obtain ⟨a, ha, hspec, e, he, rfl⟩ := h.entry_of_mem hentry
  unfold settleCalls netOf net
  rw [ha, expect_some, ok_bind, he]
  dsimp only
  cases hty : isBalance e.write.address.ty with
  | false =>
    obtain ⟨m, s, hm, hs⟩ := hspec.stream hty
    refine ⟨_, by rw [hm, hs]; unfold MergedValue.addMoveCall; cases e.write.address.ty <;> rfl, ?_, ?_⟩
    · simp [SettlementCall.settled]
    · simp [SettlementCall.suiTotals]
  | true =>
    obtain ⟨hm, hs⟩ := hspec.balance hty
    refine ⟨_, by rw [hm, hs]; exact addMoveCall_balance hty _ _ _, ?_, ?_⟩
    · by_cases heq : total (amount .merge) events entry.1 = total (amount .split) events entry.1
      · simp [heq]
      · simp [heq, SettlementCall.settled]
    · split <;> simp [SettlementCall.suiTotals]

/-- The input and output SUI of accounts. -/
def suiOf (updates : List (AccumulatorObjId × Update)) : Nat × Nat :=
  ((updates.map fun entry => entry.2.inputSui).sum, (updates.map fun entry => entry.2.outputSui).sum)

theorem suiTotals_ok {updates : List (AccumulatorObjId × Update)} (hinput : (suiOf updates).1 < 2 ^ 64)
    (houtput : (suiOf updates).2 < 2 ^ 64) : suiTotals updates = .ok (suiOf updates) := by
  obtain ⟨acc, hacc, rfl⟩ : ∃ acc, suiTotals updates = .ok acc ∧ acc = suiOf updates := by
    refine foldlM_total (fun pre acc => acc = suiOf pre) rfl ?_
    rintro pre entry post acc hl rfl
    rw [hl] at hinput houtput
    simp only [suiOf, map_append, map_cons, sum_append, sum_cons] at hinput houtput ⊢
    exact ⟨_, by rw [Word.add_eq (by omega), ok_bind, Word.add_eq (by omega)]; rfl, by simp⟩
  exact hacc

/-- A transaction settles the accounts of its chunk. -/
theorem Tracks.buildOneSettlementTxn_ok (h : Tracks events b) (buildEventMerkleRoot : List EventCommitment → Nat)
    (epoch checkpointHeight : Nat) (version : SequenceNumber) (checkpointSeq : Nat) {chunk : List (AccumulatorObjId × Update)}
    (hmem : ∀ entry ∈ chunk, entry ∈ b.updates.toList) (hinput : (suiOf chunk).1 < 2 ^ 64)
    (houtput : (suiOf chunk).2 < 2 ^ 64) (idx : Nat) :
    ∃ txn, buildOneSettlementTxn buildEventMerkleRoot b.addresses epoch checkpointHeight version checkpointSeq (chunk, idx) = .ok txn ∧
      txn.settled = (chunk.map Prod.fst).flatMap (netOf events) ∧
      txn.suiTotals = [suiOf chunk] := by
  obtain ⟨calls, hcalls, hall⟩ := mapM_forall₂ fun entry hentry => h.settleCalls_ok buildEventMerkleRoot checkpointSeq (hmem entry hentry)
  have hflat : calls.flatten.filterMap settled = (chunk.map Prod.fst).flatMap (netOf events) ∧
      calls.flatten.filterMap SettlementCall.suiTotals = [] := by
    clear hcalls hmem hinput houtput
    induction hall with
    | nil => simp
    | cons hspec _ ih =>
      rw [flatten_cons, filterMap_append, filterMap_append, hspec.1, hspec.2, ih.1, ih.2]
      simp
  unfold buildOneSettlementTxn
  dsimp only
  rw [suiTotals_ok hinput houtput, ok_bind, hcalls]
  refine ⟨_, rfl, ?_, ?_⟩
  · rw [SettlementTxn.settled, filterMap_cons_none rfl, hflat.1]
  · simp only [SettlementTxn.suiTotals, filterMap_cons, SettlementCall.suiTotals, hflat.2]

/-- The SUI of the accounts is the SUI of the events. -/
theorem Tracks.sum_sui (h : Tracks events b) :
    suiOf b.updates.toList = ((events.map (suiAmount .merge)).sum, (events.map (suiAmount .split)).sum) := by
  have hsum : ∀ f, (b.updates.toList.map (total f events ∘ Prod.fst)).sum = (events.map f).sum := by
    intro f
    rw [← map_map, ← sum_toFinset _ (nodup_toList _), h.keys_eq, objects, BTreeSet.toFinset_iter]
    exact sum_total f events fun e he => mem_toFinset.mpr (mem_map_of_mem he)
  rw [← hsum, ← hsum]
  refine Prod.ext (congrArg List.sum (map_congr_left fun entry hentry => ?_))
    (congrArg List.sum (map_congr_left fun entry hentry => ?_)) <;> obtain ⟨a, -, hspec, -⟩ := h.entry_of_mem hentry
  · exact hspec.inputSui
  · exact hspec.outputSui

/-- The transactions of a checkpoint: the net calls in the order of the objects, cut into chunks, and the SUI of the events. -/
theorem Tracks.buildTx_ok (h : Tracks events b) (hbounded : Bounded events) (buildEventMerkleRoot : List EventCommitment → Nat)
    {maxUpdatesPerSettlementTxn : Option Nat} (hchunk : maxUpdatesPerSettlementTxn ≠ some 0) (epoch : Nat) (version : SequenceNumber)
    (checkpointHeight checkpointSeq : Nat) :
    ∃ txs, b.buildTx buildEventMerkleRoot maxUpdatesPerSettlementTxn epoch version checkpointHeight checkpointSeq = .ok txs ∧
      txs.map SettlementTxn.settled =
        (chunks (maxUpdatesPerSettlementTxn.getD (2 ^ 32 - 1)) (objects events)).map (List.flatMap (netOf events)) ∧
      ((txs.flatMap SettlementTxn.suiTotals).map Prod.fst).sum = (events.map (suiAmount .merge)).sum ∧
      ((txs.flatMap SettlementTxn.suiTotals).map Prod.snd).sum = (events.map (suiAmount .split)).sum := by
  generalize hsize : maxUpdatesPerSettlementTxn.getD (2 ^ 32 - 1) = size
  have hne : size ≠ 0 := by
    cases maxUpdatesPerSettlementTxn with
    | none => simp [← hsize]
    | some => simpa [← hsize] using hchunk
  have hpart : ∀ chunk ∈ chunks size b.updates.toList, chunk.Sublist b.updates.toList := by
    intro chunk hchunk
    have hsub := sublist_flatten_of_mem hchunk
    rwa [flatten_chunks] at hsub
  obtain ⟨txs, htxs, hall⟩ := mapM_forall₂ (l := (chunks size b.updates.toList).zipIdx) fun chunk hmem => by
    have hsub := hpart chunk.1 (fst_mem_of_mem_zipIdx hmem)
    exact h.buildOneSettlementTxn_ok buildEventMerkleRoot epoch checkpointHeight version checkpointSeq hsub.subset
      (((hsub.map _).sum_le_sum (fun _ _ => Nat.zero_le _)).trans_lt ((congrArg Prod.fst h.sum_sui).trans_lt hbounded.suiDeposits))
      (((hsub.map _).sum_le_sum (fun _ _ => Nat.zero_le _)).trans_lt ((congrArg Prod.snd h.sum_sui).trans_lt hbounded.suiWithdrawals)) chunk.2
  have hzip : ∀ {γ : Type} (f : List (AccumulatorObjId × Update) → γ),
      ((chunks size b.updates.toList).zipIdx.map fun chunk => f chunk.1) = (chunks size b.updates.toList).map f :=
    fun f => zipIdx_map_comp_fst f
  have hsum : ∀ f : AccumulatorObjId × Update → Nat,
      ((chunks size b.updates.toList).map fun chunk => (chunk.map f).sum).sum = (b.updates.toList.map f).sum := by
    intro f
    nth_rewrite 2 [← flatten_chunks size b.updates.toList]
    rw [map_flatten, sum_flatten, map_map]
    rfl
  have htotals : txs.flatMap SettlementTxn.suiTotals = (chunks size b.updates.toList).map suiOf := by
    rw [flatMap_def, map_eq_of_forall₂ (hall.imp fun _ _ hspec => hspec.2), hzip fun chunk => [suiOf chunk], ← flatMap_def]
    exact flatMap_pure_eq_map _ _
  refine ⟨txs, ?_, ?_, ?_, ?_⟩
  · unfold buildTx
    have hassert : assert (decide (size ≠ 0)) SettlementPanic.zeroChunkSize = .ok () :=
      assert_ok.mpr (by simpa using hne)
    dsimp only
    rw [hsize, hassert]
    exact htxs
  · rw [map_eq_of_forall₂ (hall.imp fun _ _ hspec => hspec.1), hzip fun chunk => (chunk.map Prod.fst).flatMap (netOf events),
      ← h.keys_eq, ← map_chunks, map_map]
    rfl
  · rw [htotals, map_map]
    exact (hsum _).trans (congrArg Prod.fst h.sum_sui)
  · rw [htotals, map_map]
    exact (hsum _).trans (congrArg Prod.snd h.sum_sui)

/-- The funds change of a balance is what its deposits exceed its withdrawals by. -/
theorem Tracks.collectFundsChanges_eq (h : Tracks events b) (hbounded : Bounded events) (he : e ∈ events)
    (hbalance : isBalance e.write.address.ty = true) :
    b.collectFundsChanges[e.accumulatorObj]? = some
      ((total (amount .merge) events e.accumulatorObj : Int) - total (amount .split) events e.accumulatorObj) := by
  have hpairwise : (b.updates.toList.filterMap fundsChange).Pairwise fun x y => x.1 < y.1 := by
    refine List.Pairwise.filterMap _ ?_ (pairwise_toList b.updates)
    intro x y hxy x' hx' y' hy'
    have hkey : ∀ {z : AccumulatorObjId × Update} {z' : AccumulatorObjId × Int}, fundsChange z = some z' → z'.1 = z.1 := by
      intro z z' hz
      unfold fundsChange at hz
      split at hz
      · rw [← Option.some.inj hz]
      · cases hz
    rw [hkey hx', hkey hy']
    exact hxy
  have ha := (h.address e.accumulatorObj e.write.address).mpr ⟨e, he, rfl, rfl⟩
  obtain ⟨upd, hupd⟩ := Option.isSome_iff_exists.mp ((h.keys e.accumulatorObj).mpr ⟨e, he, rfl⟩)
  obtain ⟨hm, hs⟩ := (h.entry _ _ _ ha hupd).balance hbalance
  rw [← mem_toList, collectFundsChanges, toList_foldl_insert Prod.snd hpairwise, mem_map]
  refine ⟨(e.accumulatorObj, _), mem_filterMap.mpr ⟨(e.accumulatorObj, upd), mem_toList.mpr hupd, ?_⟩, rfl⟩
  simp only [fundsChange, hm, hs, asI128, if_pos (hbounded.deposits _), if_pos (hbounded.withdrawals _)]

end AccumulatorSettlementTxBuilder

/-! ## Accounts -/

/-- A sum over the events of an account. -/
def accountTotal (f : AccumulatorEvent → Nat) (events : List AccumulatorEvent) (a : AccumulatorAddress) : Nat :=
  ((events.filter fun e => e.write.address = a).map f).sum

def deposits (a : AccumulatorAddress) : Nat := accountTotal (amount .merge) events a

def withdrawals (a : AccumulatorAddress) : Nat := accountTotal (amount .split) events a

variable {events : List AccumulatorEvent}

/-- The sum over an account is the one over its object. -/
theorem total_eq_accountTotal (hone : OneObject events) (f : AccumulatorEvent → Nat)
    (he : e ∈ events) : total f events e.accumulatorObj = accountTotal f events e.write.address := by
  unfold total accountTotal
  refine congrArg (fun l : List AccumulatorEvent => (l.map f).sum) (filter_congr fun e' he' => ?_)
  exact decide_eq_decide.mpr (hone e' he' e he)

/-- The event that an object is found by is one of its account. -/
theorem find_object (hone : OneObject events) (he : e ∈ events) :
    netOf events e.accumulatorObj = net e.write.address (deposits events e.write.address) (withdrawals events e.write.address) := by
  obtain ⟨e', he', hmem, ho⟩ := find_of_mem he
  unfold netOf deposits withdrawals
  rw [he', ← total_eq_accountTotal hone _ he, ← total_eq_accountTotal hone _ he, ← (hone e' hmem e he).mp ho]

/-- An account whose deposits and withdrawals differ is a balance with events. -/
theorem exists_balance (hwf : ∀ e ∈ events, WellFormed e) (hne : deposits events a ≠ withdrawals events a) :
    ∃ e ∈ events, e.write.address = a ∧ isBalance a.ty = true := by
  by_contra hnot
  have hzero : ∀ op, accountTotal (amount op) events a = 0 := by
    intro op
    refine sum_eq_zero fun v hv => ?_
    obtain ⟨e, he, rfl⟩ := mem_map.mp hv
    obtain ⟨hmem, ha⟩ := mem_filter.mp he
    obtain rfl : e.write.address = a := by simpa using ha
    have hbalance := hwf e hmem
    unfold WellFormed at hbalance
    unfold amount
    split
    · rename_i v hval
      rw [hval] at hbalance
      exact absurd ⟨e, hmem, rfl, hbalance⟩ hnot
    · rfl
  exact hne ((hzero .merge).trans (hzero .split).symm)

/-- The net calls: one for each account whose deposits and withdrawals differ. -/
theorem mem_netOf (hwf : ∀ e ∈ events, WellFormed e) (hone : OneObject events) {merge split : Nat} :
    (a, merge, split) ∈ (objects events).flatMap (netOf events) ↔ deposits events a ≠ withdrawals events a ∧
      merge = deposits events a - withdrawals events a ∧ split = withdrawals events a - deposits events a := by
  rw [mem_flatMap]
  constructor
  · rintro ⟨o, ho, hmem⟩
    obtain ⟨e, he, rfl⟩ := mem_objects.mp ho
    rw [find_object hone he, net] at hmem
    split_ifs at hmem with hcond
    · obtain ⟨rfl, rfl, rfl⟩ : a = _ ∧ merge = _ ∧ split = _ := by simpa using hmem
      exact ⟨hcond.2, rfl, rfl⟩
    · exact absurd hmem not_mem_nil
  · rintro ⟨hne, rfl, rfl⟩
    obtain ⟨e, he, rfl, hbalance⟩ := exists_balance hwf hne
    refine ⟨e.accumulatorObj, mem_objects.mpr ⟨e, he, rfl⟩, ?_⟩
    rw [find_object hone he, net, if_pos ⟨hbalance, hne⟩]
    exact mem_singleton.mpr rfl

/-- No account has two net calls. -/
theorem nodup_netOf (hone : OneObject events) : (((objects events).flatMap (netOf events)).map Prod.fst).Nodup := by
  rw [map_flatMap, nodup_flatMap]
  have hnet : ∀ o ∈ objects events, ∀ a ∈ (netOf events o).map Prod.fst, ∃ e ∈ events, e.accumulatorObj = o ∧ e.write.address = a := by
    intro o ho a ha
    obtain ⟨e, he, rfl⟩ := mem_objects.mp ho
    rw [find_object hone he, net] at ha
    split at ha
    · exact ⟨e, he, rfl, by simpa [eq_comm] using ha⟩
    · simp at ha
  constructor
  · intro o ho
    obtain ⟨e, he, rfl⟩ := mem_objects.mp ho
    rw [find_object hone he, net]
    split <;> simp
  · refine (BTreeSet.nodup_iter _).imp_of_mem fun {o o'} ho ho' hne => ?_
    intro a ha ha'
    obtain ⟨e, he, rfl, rfl⟩ := hnet o ho a ha
    obtain ⟨e', he', rfl, hee'⟩ := hnet o' ho' _ ha'
    exact hne ((hone e he e' he').mpr hee'.symm)

section

variable {events' : List AccumulatorEvent} (hperm : events.Perm events')

include hperm

theorem OneObject.perm (hone : OneObject events) : OneObject events' :=
  fun e he e' he' => hone e (hperm.mem_iff.mpr he) e' (hperm.mem_iff.mpr he')

/-- The order of the events makes no difference. -/
theorem netOf_perm (hone : OneObject events) :
    objects events' = objects events ∧ ∀ o ∈ objects events, netOf events' o = netOf events o := by
  constructor
  · unfold objects
    congr 1
    exact (toFinset_eq_of_perm _ _ (hperm.map _)).symm
  · intro o ho
    obtain ⟨e, he, rfl⟩ := mem_objects.mp ho
    have htotal : ∀ f, accountTotal f events' e.write.address = accountTotal f events e.write.address := fun f =>
      (((hperm.filter _).map f).sum_eq).symm
    rw [find_object hone he, find_object (OneObject.perm hperm hone) (hperm.mem_iff.mp he)]
    unfold deposits withdrawals
    rw [htotal, htotal]

theorem Bounded.perm (h : Bounded events) : Bounded events' := by
  have htotal : ∀ f o, total f events' o = total f events o := fun f o => (((hperm.filter _).map f).sum_eq).symm
  refine ⟨fun o => htotal _ o ▸ h.deposits o, fun o => htotal _ o ▸ h.withdrawals o, ?_, ?_⟩
  · rw [← (hperm.map _).sum_eq]
    exact h.suiDeposits
  · rw [← (hperm.map _).sum_eq]
    exact h.suiWithdrawals

end

def checkpointEvents (ckptEffects : List TransactionEffects) : List AccumulatorEvent :=
  ckptEffects.flatMap TransactionEffects.accumulatorEvents

/-- The settlement transactions settle each account whose deposits and withdrawals differ once, for the difference, which is its
funds change; the order of the effects makes no difference to the calls of any transaction; and the SUI of the prologues is that
of the events. The cache holds the events of the effects. -/
theorem settlement_conserves (buildEventMerkleRoot : List EventCommitment → Nat)
    (cache : Option (TransactionDigest → Option (List AccumulatorEvent))) (ckptEffects : List TransactionEffects)
    (maxUpdatesPerSettlementTxn : Option Nat) (checkpointSeq txIndexOffset epoch checkpointHeight : Nat) (version : SequenceNumber)
    (hcache : ∀ effect ∈ ckptEffects, eventsOf cache effect = effect.accumulatorEvents)
    (hwf : ∀ e ∈ checkpointEvents ckptEffects, WellFormed e)
    (hone : AccumulatorSettlementTxBuilder.OneObject (checkpointEvents ckptEffects))
    (hbounded : Bounded (checkpointEvents ckptEffects)) (hchunk : maxUpdatesPerSettlementTxn ≠ some 0) :
    ∃ b txs, new cache ckptEffects checkpointSeq txIndexOffset = .ok b ∧
      b.buildTx buildEventMerkleRoot maxUpdatesPerSettlementTxn epoch version checkpointHeight checkpointSeq = .ok txs ∧
      ((txs.flatMap SettlementTxn.settled).map Prod.fst).Nodup ∧
      (∀ a merge split, (a, merge, split) ∈ txs.flatMap SettlementTxn.settled ↔
        deposits (checkpointEvents ckptEffects) a ≠ withdrawals (checkpointEvents ckptEffects) a ∧
        merge = deposits (checkpointEvents ckptEffects) a - withdrawals (checkpointEvents ckptEffects) a ∧
        split = withdrawals (checkpointEvents ckptEffects) a - deposits (checkpointEvents ckptEffects) a) ∧
      (∀ e ∈ checkpointEvents ckptEffects, isBalance e.write.address.ty = true → b.collectFundsChanges[e.accumulatorObj]? =
        some ((deposits (checkpointEvents ckptEffects) e.write.address : Int) -
          withdrawals (checkpointEvents ckptEffects) e.write.address)) ∧
      (∀ ckptEffects', ckptEffects.Perm ckptEffects' → ∃ b' txs', new cache ckptEffects' checkpointSeq txIndexOffset = .ok b' ∧
        b'.buildTx buildEventMerkleRoot maxUpdatesPerSettlementTxn epoch version checkpointHeight checkpointSeq = .ok txs' ∧
        txs'.map SettlementTxn.settled = txs.map SettlementTxn.settled) ∧
      ((txs.flatMap SettlementTxn.suiTotals).map Prod.fst).sum = ((checkpointEvents ckptEffects).map (suiAmount .merge)).sum ∧
      ((txs.flatMap SettlementTxn.suiTotals).map Prod.snd).sum = ((checkpointEvents ckptEffects).map (suiAmount .split)).sum := by
  have hevents : ∀ effects : List TransactionEffects, (∀ effect ∈ effects, effect ∈ ckptEffects) →
      effects.flatMap (eventsOf cache) = checkpointEvents effects := fun effects hmem =>
    flatMap_congr fun effect heffect => hcache effect (hmem effect heffect)
  obtain ⟨b, hb, htracks⟩ := new_ok (hevents ckptEffects fun _ h => h) hwf hone hbounded
    checkpointSeq txIndexOffset
  obtain ⟨txs, htxs, hsettled, hinput, houtput⟩ := htracks.buildTx_ok hbounded buildEventMerkleRoot hchunk epoch version
    checkpointHeight checkpointSeq
  have hcalls : txs.flatMap settled =
      (objects (checkpointEvents ckptEffects)).flatMap (netOf (checkpointEvents ckptEffects)) := by
    rw [flatMap_def, hsettled, flatMap_def,
      ← flatten_chunks (maxUpdatesPerSettlementTxn.getD (2 ^ 32 - 1)) (objects (checkpointEvents ckptEffects)), map_flatten,
      flatten_flatten, map_map, flatten_chunks]
    rfl
  refine ⟨b, txs, hb, htxs, hcalls ▸ nodup_netOf hone, fun a merge split => hcalls ▸ mem_netOf hwf hone, ?_, ?_, hinput, houtput⟩
  · intro e he hbalance
    rw [htracks.collectFundsChanges_eq hbounded he hbalance, total_eq_accountTotal hone _ he, total_eq_accountTotal hone _ he]
    rfl
  · intro ckptEffects' hperm
    have hperm' : (checkpointEvents ckptEffects).Perm (checkpointEvents ckptEffects') := hperm.flatMap_right _
    obtain ⟨hobjects, hnet⟩ := netOf_perm hperm' hone
    obtain ⟨b', hb', htracks'⟩ := new_ok (hevents ckptEffects' fun _ h => hperm.mem_iff.mpr h)
      (fun e he => hwf e (hperm'.mem_iff.mpr he)) (OneObject.perm hperm' hone)
      (hbounded.perm hperm') checkpointSeq txIndexOffset
    obtain ⟨txs', htxs', hsettled', -, -⟩ := htracks'.buildTx_ok (hbounded.perm hperm') buildEventMerkleRoot hchunk epoch version
      checkpointHeight checkpointSeq
    refine ⟨b', txs', hb', htxs', ?_⟩
    rw [hsettled', hsettled, hobjects]
    refine map_congr_left fun os hos => flatMap_congr fun o ho => hnet o ?_
    rw [← flatten_chunks (maxUpdatesPerSettlementTxn.getD (2 ^ 32 - 1)) (objects (checkpointEvents ckptEffects))]
    exact mem_flatten_of_mem hos ho

/-- Two transactions: account 1 gets 5 SUI and pays 3, account 2 gets 4 of another coin and pays 4. -/
def twoTransfers : List TransactionEffects :=
  [⟨1, [⟨10, ⟨⟨1, .balance .sui⟩, .merge, .integer 5⟩⟩, ⟨20, ⟨⟨2, .balance (.other 0)⟩, .split, .integer 4⟩⟩]⟩,
    ⟨2, [⟨20, ⟨⟨2, .balance (.other 0)⟩, .merge, .integer 4⟩⟩, ⟨10, ⟨⟨1, .balance .sui⟩, .split, .integer 3⟩⟩]⟩]

theorem settlement_conserves_twoTransfers :
    ∃ b txs, new none twoTransfers 9 0 = .ok b ∧ b.buildTx List.length (some 1) 0 1 7 9 = .ok txs ∧
      (⟨1, .balance .sui⟩, 2, 0) ∈ txs.flatMap SettlementTxn.settled ∧
      ((txs.flatMap SettlementTxn.suiTotals).map Prod.fst).sum = 5 := by
  obtain ⟨b, txs, hb, htxs, -, hsettled, -, -, hinput, -⟩ := settlement_conserves List.length none twoTransfers (some 1) 9 0 0 7 1
    (fun _ _ => rfl) (by decide) (by decide) ⟨fun o => (total_le_sum _ _ o).trans_lt (by decide),
      fun o => (total_le_sum _ _ o).trans_lt (by decide), by decide, by decide⟩ (by decide)
  exact ⟨b, txs, hb, htxs, (hsettled _ 2 0).mpr (by decide), hinput.trans (by decide)⟩

end Sui.Settlement

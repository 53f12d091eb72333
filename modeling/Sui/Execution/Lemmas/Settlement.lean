import Sui.Execution.Settlement

/-!
# What the settlement builder holds

After every event the builder holds, for each account that had one, the sums of its deposits and withdrawals and the SUI among
them. The events are well formed: integers are for balances, and digests are not. An account has one accumulator object.
-/

namespace Sui.Settlement

open Library Checked BTreeMap List

/-- The amount of an event, if it is of the operation. -/
def amount (op : AccumulatorOperation) (e : AccumulatorEvent) : Nat :=
  match e.write.value with
  | .integer v => if e.write.operation = op then v else 0
  | _ => 0

/-- The amount of an event, if it is of the operation and in SUI. -/
def suiAmount (op : AccumulatorOperation) (e : AccumulatorEvent) : Nat :=
  if e.write.address.ty = .balance .sui then amount op e else 0

variable (f : AccumulatorEvent → Nat)

/-- A sum over the events of an object. -/
def total (events : List AccumulatorEvent) (o : AccumulatorObjId) : Nat :=
  ((events.filter fun e => e.accumulatorObj = o).map f).sum

def isBalance : TypeTag → Bool
  | .balance _ => true
  | .other _ => false

/-- Integers are written to balances, and digests of events to streams. -/
def WellFormed (e : AccumulatorEvent) : Prop :=
  match e.write.value with
  | .integer _ => isBalance e.write.address.ty = true
  | .integerTuple _ _ => False
  | .eventDigest _ => isBalance e.write.address.ty = false

instance decidableWellFormed : DecidablePred WellFormed := fun e =>
  match h : e.write.value with
  | .integer _ => decidable_of_iff (isBalance e.write.address.ty = true) (by rw [WellFormed, h])
  | .integerTuple _ _ => .isFalse (by rw [WellFormed, h]; exact id)
  | .eventDigest _ => decidable_of_iff (isBalance e.write.address.ty = false) (by rw [WellFormed, h])

variable {e : AccumulatorEvent}

theorem totalSuiInEvent_ok (h : WellFormed e) : totalSuiInEvent e = .ok (suiAmount .split e, suiAmount .merge e) := by
  unfold totalSuiInEvent suiAmount amount
  unfold WellFormed at h
  cases hv : e.write.value with
  | integer =>
    cases hty : e.write.address.ty with
    | other => simp [hv, hty, isBalance] at h
    | balance coin => cases coin <;> cases hop : e.write.operation <;> simp
  | integerTuple => simp [hv] at h
  | eventDigest =>
    cases hty : e.write.address.ty with
    | other => cases hop : e.write.operation <;> simp
    | balance => simp [hv, hty, isBalance] at h

theorem total_concat (events : List AccumulatorEvent) (e : AccumulatorEvent) (o : AccumulatorObjId) :
    total f (events ++ [e]) o = total f events o + if e.accumulatorObj = o then f e else 0 := by
  unfold total
  rw [filter_append, map_append, sum_append]
  by_cases h : e.accumulatorObj = o <;> simp [h]

variable {events : List AccumulatorEvent}

theorem total_eq_zero {f : AccumulatorEvent → Nat} {o : AccumulatorObjId}
    (h : ∀ e ∈ events, e.accumulatorObj ≠ o) : total f events o = 0 := by
  have hnil : events.filter (fun e => e.accumulatorObj = o) = [] := by
    rw [filter_eq_nil_iff]
    intro e he
    simpa using h e he
  simp [total, hnil]

theorem total_le_sum (events : List AccumulatorEvent) (o : AccumulatorObjId) : total f events o ≤ (events.map f).sum :=
  (List.filter_sublist.map f).sum_le_sum (fun _ _ => Nat.zero_le _)

/-- The sums over the objects of a set add up to the sum over the events. -/
theorem sum_total (events : List AccumulatorEvent) {s : Finset AccumulatorObjId}
    (h : ∀ e ∈ events, e.accumulatorObj ∈ s) : ∑ o ∈ s, total f events o = (events.map f).sum := by
  induction events using List.reverseRecOn with
  | nil => simp [total]
  | append_singleton _ e ih =>
    simp only [total_concat, Finset.sum_add_distrib, map_append, sum_append, map_singleton, sum_singleton]
    rw [ih fun e' he' => h e' (mem_append_left _ he'), Finset.sum_ite_eq, if_pos (h e (by simp))]

/-- The sums of the events stay within their integer types. -/
structure Bounded (events : List AccumulatorEvent) : Prop where
  deposits : ∀ o, total (amount .merge) events o < 2 ^ 127
  withdrawals : ∀ o, total (amount .split) events o < 2 ^ 127
  suiDeposits : (events.map (suiAmount .merge)).sum < 2 ^ 64
  suiWithdrawals : (events.map (suiAmount .split)).sum < 2 ^ 64

theorem Bounded.of_append {events rest : List AccumulatorEvent} (h : Bounded (events ++ rest)) : Bounded events := by
  have htotal : ∀ f o, total f events o ≤ total f (events ++ rest) o := by
    intro f o
    simp only [total, filter_append, map_append, sum_append]
    exact Nat.le_add_right _ _
  refine ⟨fun o => (htotal _ o).trans_lt (h.deposits o), fun o => (htotal _ o).trans_lt (h.withdrawals o), ?_, ?_⟩
  · have := h.suiDeposits
    rw [map_append, sum_append] at this
    omega
  · have := h.suiWithdrawals
    rw [map_append, sum_append] at this
    omega

/-- The entry of an object after events. -/
structure EntryOf (events : List AccumulatorEvent) (o : AccumulatorObjId) (a : AccumulatorAddress) (upd : Update) : Prop where
  inputSui : upd.inputSui = total (suiAmount .merge) events o
  outputSui : upd.outputSui = total (suiAmount .split) events o
  balance : isBalance a.ty = true →
    upd.merge = .sumU128 (total (amount .merge) events o) ∧ upd.split = .sumU128 (total (amount .split) events o)
  stream : isBalance a.ty = false → ∃ m s, upd.merge = .events m ∧ upd.split = .events s

/-- The entries of the other objects stay as they are. -/
theorem EntryOf.concat {o : AccumulatorObjId} {a : AccumulatorAddress} {upd : Update}
    (h : EntryOf events o a upd) (ho : e.accumulatorObj ≠ o) : EntryOf (events ++ [e]) o a upd := by
  have htotal : ∀ f, total f (events ++ [e]) o = total f events o := fun f => by rw [total_concat, if_neg ho, add_zero]
  exact ⟨by rw [htotal]; exact h.inputSui, by rw [htotal]; exact h.outputSui, by simpa only [htotal] using h.balance, h.stream⟩

namespace AccumulatorSettlementTxBuilder

/-- What the builder holds after events. -/
structure Tracks (events : List AccumulatorEvent) (b : AccumulatorSettlementTxBuilder) : Prop where
  address : ∀ (o : AccumulatorObjId) (a : AccumulatorAddress),
    b.addresses[o]? = some a ↔ ∃ e ∈ events, e.accumulatorObj = o ∧ e.write.address = a
  keys : ∀ o : AccumulatorObjId, b.updates[o]?.isSome ↔ ∃ e ∈ events, e.accumulatorObj = o
  entry : ∀ (o : AccumulatorObjId) (a : AccumulatorAddress) (upd : Update),
    b.addresses[o]? = some a → b.updates[o]? = some upd → EntryOf events o a upd

/-- One accumulator object for each account. -/
def OneObject (events : List AccumulatorEvent) : Prop :=
  ∀ e ∈ events, ∀ e' ∈ events, e.accumulatorObj = e'.accumulatorObj ↔ e.write.address = e'.write.address

instance (events : List AccumulatorEvent) : Decidable (OneObject events) :=
  inferInstanceAs (Decidable (∀ e ∈ events, ∀ e' ∈ events, e.accumulatorObj = e'.accumulatorObj ↔ e.write.address = e'.write.address))

variable {b : AccumulatorSettlementTxBuilder}

/-- The entry that an event is added to. -/
theorem Tracks.entry_getD (h : Tracks events b) (hwf : WellFormed e) (hone : OneObject (events ++ [e])) :
    EntryOf events e.accumulatorObj e.write.address (b.updates[e.accumulatorObj]?.getD
      ⟨.zero e.write.value, .zero e.write.value, 0, 0⟩) := by
  cases hu : b.updates[e.accumulatorObj]? with
  | some upd =>
    obtain ⟨e', he', ho⟩ := (h.keys e.accumulatorObj).mp (by rw [hu]; rfl)
    have ha := (hone e' (mem_append_left _ he') e (by simp)).mp ho
    exact h.entry _ _ upd ((h.address _ _).mpr ⟨e', he', ho, ha⟩) hu
  | none =>
    have hno : ∀ e' ∈ events, e'.accumulatorObj ≠ e.accumulatorObj := by
      intro e' he' ho
      have := (h.keys e.accumulatorObj).mpr ⟨e', he', ho⟩
      rw [hu] at this
      cases this
    have hzero : ∀ f, total f events e.accumulatorObj = 0 := fun f => total_eq_zero hno
    unfold WellFormed at hwf
    refine ⟨by simp [hzero], by simp [hzero], fun hb => ?_, fun hs => ?_⟩
    · cases hv : e.write.value with
      | integer => simp [hzero, MergedValueIntermediate.zero]
      | integerTuple => simp [hv] at hwf
      | eventDigest => simp [hv, hb] at hwf
    · cases hv : e.write.value with
      | integer => simp [hv, hs] at hwf
      | integerTuple => simp [hv] at hwf
      | eventDigest => exact ⟨[], [], rfl, rfl⟩

/-- What an event adds to the sum of its operation. -/
theorem accumulateInto_ok (hwf : WellFormed e) {v : MergedValueIntermediate} {t : Nat}
    (hb : isBalance e.write.address.ty = true → v = .sumU128 t ∧ t + amount e.write.operation e < 2 ^ 127)
    (hs : isBalance e.write.address.ty = false → ∃ m, v = .events m) (checkpointSeq transactionIdx : Nat) :
    ∃ v', v.accumulateInto e.write.value checkpointSeq transactionIdx = .ok v' ∧
      (isBalance e.write.address.ty = true → v' = .sumU128 (t + amount e.write.operation e)) ∧
      (isBalance e.write.address.ty = false → ∃ m, v' = .events m) := by
  unfold WellFormed at hwf
  unfold amount at hb ⊢
  cases hv : e.write.value with
  | integer w =>
    simp only [hv, if_true] at hwf hb ⊢
    obtain ⟨rfl, hlt⟩ := hb hwf
    refine ⟨.sumU128 (t + w), ?_, fun _ => rfl, fun hf => absurd (hwf.symm.trans hf) nofun⟩
    simp only [MergedValueIntermediate.accumulateInto]
    rw [Word.add_eq (by omega)]
    rfl
  | integerTuple => simp [hv] at hwf
  | eventDigest =>
    simp only [hv] at hwf
    obtain ⟨m, rfl⟩ := hs hwf
    exact ⟨_, rfl, fun ht => absurd (hwf.symm.trans ht) nofun, fun _ => ⟨_, rfl⟩⟩

theorem amount_of_ne {op : AccumulatorOperation} (h : e.write.operation ≠ op) : amount op e = 0 := by
  unfold amount
  split
  · exact if_neg h
  · rfl

theorem total_concat_self (events : List AccumulatorEvent) (e : AccumulatorEvent) :
    total f (events ++ [e]) e.accumulatorObj = total f events e.accumulatorObj + f e := by
  rw [total_concat, if_pos rfl]

/-- The builder with the new entry of an object. -/
theorem Tracks.insert (h : Tracks events b) (hone : OneObject (events ++ [e])) {upd : Update}
    (hupd : EntryOf (events ++ [e]) e.accumulatorObj e.write.address upd) (numDeposits numWithdrawals : Nat) :
    Tracks (events ++ [e]) ⟨b.updates.insert e.accumulatorObj upd, b.addresses.insert e.accumulatorObj e.write.address,
      numDeposits, numWithdrawals⟩ := by
  have hlast : e ∈ events ++ [e] := by simp
  refine ⟨fun o a => ?_, fun o => ?_, fun o a upd' ha hu => ?_⟩
  · dsimp only
    rw [get_insert]
    split_ifs with ho
    · constructor
      · intro ha
        exact ⟨e, hlast, ho, Option.some.inj ha⟩
      · rintro ⟨e', he', ho', rfl⟩
        rw [(hone e hlast e' he').mp (ho.trans ho'.symm)]
    · rw [h.address]
      constructor
      · rintro ⟨e', he', hea⟩
        exact ⟨e', mem_append_left _ he', hea⟩
      · rintro ⟨e', he', ho', ha⟩
        rcases mem_append.mp he' with he' | he'
        · exact ⟨e', he', ho', ha⟩
        · exact absurd (mem_singleton.mp he' ▸ ho') ho
  · dsimp only
    rw [get_insert]
    split_ifs with ho
    · exact ⟨fun _ => ⟨e, hlast, ho⟩, fun _ => rfl⟩
    · rw [h.keys]
      constructor
      · rintro ⟨e', he', ho'⟩
        exact ⟨e', mem_append_left _ he', ho'⟩
      · rintro ⟨e', he', ho'⟩
        rcases mem_append.mp he' with he' | he'
        · exact ⟨e', he', ho'⟩
        · exact absurd (mem_singleton.mp he' ▸ ho') ho
  · dsimp only at ha hu
    rw [get_insert] at ha hu
    split_ifs at hu with ho
    · rw [if_pos ho] at ha
      obtain rfl := Option.some.inj ha
      obtain rfl := Option.some.inj hu
      exact ho ▸ hupd
    · rw [if_neg ho] at ha
      exact (h.entry o a upd' ha hu).concat ho

/-- An event is added to the sums of its account. -/
theorem addEvent_ok (h : Tracks events b)
    (hwf : WellFormed e) (hone : OneObject (events ++ [e])) (hbounded : Bounded (events ++ [e]))
    (checkpointSeq transactionIdx : Nat) :
    ∃ b', addEvent checkpointSeq transactionIdx b e = .ok b' ∧ Tracks (events ++ [e]) b' := by
  have hentry := h.entry_getD hwf hone
  unfold addEvent
  rw [totalSuiInEvent_ok hwf, ok_bind]
  dsimp only
  generalize b.updates[e.accumulatorObj]?.getD ⟨.zero e.write.value, .zero e.write.value, 0, 0⟩ = entry at hentry ⊢
  have hinput : entry.inputSui + suiAmount .merge e = total (suiAmount .merge) (events ++ [e]) e.accumulatorObj := by
    rw [hentry.inputSui, total_concat_self]
  have houtput : entry.outputSui + suiAmount .split e = total (suiAmount .split) (events ++ [e]) e.accumulatorObj := by
    rw [hentry.outputSui, total_concat_self]
  rw [Word.add_eq (hinput.trans_lt ((total_le_sum _ _ _).trans_lt hbounded.suiDeposits)), ok_bind,
    Word.add_eq (houtput.trans_lt ((total_le_sum _ _ _).trans_lt hbounded.suiWithdrawals)), ok_bind]
  cases hop : e.write.operation with
  | merge =>
    have hlt : total (amount .merge) events e.accumulatorObj + amount e.write.operation e < 2 ^ 127 := by
      rw [hop, ← total_concat_self]
      exact hbounded.deposits _
    obtain ⟨v, hv, hbalance, hstream⟩ := accumulateInto_ok hwf (fun hb => ⟨(hentry.balance hb).1, hlt⟩)
      (fun hs => (hentry.stream hs).imp fun _ ⟨_, hm, _⟩ => hm) checkpointSeq transactionIdx
    rw [hop] at hbalance
    refine ⟨_, by dsimp only; rw [hv]; rfl, h.insert hone ⟨hinput, houtput, fun hb => ⟨?_, ?_⟩, fun hs => ?_⟩ _ _⟩
    · rw [total_concat_self, hbalance hb]
    · rw [total_concat_self, (hentry.balance hb).2, amount_of_ne (by simp [hop]), add_zero]
    · obtain ⟨m, hm⟩ := hstream hs
      obtain ⟨-, s, -, hs'⟩ := hentry.stream hs
      exact ⟨m, s, hm, hs'⟩
  | split =>
    have hlt : total (amount .split) events e.accumulatorObj + amount e.write.operation e < 2 ^ 127 := by
      rw [hop, ← total_concat_self]
      exact hbounded.withdrawals _
    obtain ⟨v, hv, hbalance, hstream⟩ := accumulateInto_ok hwf (fun hb => ⟨(hentry.balance hb).2, hlt⟩)
      (fun hs => (hentry.stream hs).elim fun _ ⟨s, _, hs'⟩ => ⟨s, hs'⟩) checkpointSeq transactionIdx
    rw [hop] at hbalance
    refine ⟨_, by dsimp only; rw [hv]; rfl, h.insert hone ⟨hinput, houtput, fun hb => ⟨?_, ?_⟩, fun hs => ?_⟩ _ _⟩
    · rw [total_concat_self, (hentry.balance hb).1, amount_of_ne (by simp [hop]), add_zero]
    · rw [total_concat_self, hbalance hb]
    · obtain ⟨s, hs'⟩ := hstream hs
      obtain ⟨m, -, hm, -⟩ := hentry.stream hs
      exact ⟨m, s, hm, hs'⟩

/-- The builder of a checkpoint holds the sums over its events. -/
theorem new_ok {cache : Option (TransactionDigest → Option (List AccumulatorEvent))} {ckptEffects : List TransactionEffects}
    (hevents : ckptEffects.flatMap (eventsOf cache) = events) (hwf : ∀ e ∈ events, WellFormed e)
    (hone : OneObject events) (hbounded : Bounded events) (checkpointSeq txIndexOffset : Nat) :
    ∃ b, new cache ckptEffects checkpointSeq txIndexOffset = .ok b ∧ Tracks events b := by
  have hpart : ∀ done e rest, events = done ++ [e] ++ rest → WellFormed e ∧ OneObject (done ++ [e]) ∧ Bounded (done ++ [e]) := by
    rintro done e rest rfl
    refine ⟨hwf e (by simp), fun x hx y hy => hone x ?_ y ?_, hbounded.of_append⟩
    · exact mem_append_left _ hx
    · exact mem_append_left _ hy
  have hzip : (ckptEffects.zipIdx.flatMap fun x => eventsOf cache x.1) = ckptEffects.flatMap (eventsOf cache) := by
    rw [← flatMap_map, zipIdx_map_fst]
  have hloop := foldlM_total (f := addEffects cache checkpointSeq txIndexOffset) (l := ckptEffects.zipIdx)
    (b := ⟨∅, ∅, 0, 0⟩) (fun pre b => Tracks (pre.flatMap fun x => eventsOf cache x.1) b) ⟨by simp, by simp, by simp⟩ ?_
  · obtain ⟨b, hb, htracks⟩ := hloop
    refine ⟨b, hb, ?_⟩
    exact hevents ▸ hzip ▸ htracks
  · rintro pre ⟨effect, i⟩ post b hl hb
    have hsplit : events = (pre.flatMap fun x => eventsOf cache x.1) ++ eventsOf cache effect ++
        post.flatMap fun x => eventsOf cache x.1 := by
      rw [← hevents, ← hzip, hl]
      simp
    have hinner := foldlM_total (f := addEvent checkpointSeq (i + txIndexOffset)) (l := eventsOf cache effect) (b := b)
      (fun done b => Tracks ((pre.flatMap fun x => eventsOf cache x.1) ++ done) b) (by simpa using hb) ?_
    · obtain ⟨b', hb', htracks⟩ := hinner
      exact ⟨b', hb', by simpa using htracks⟩
    · intro done e rest b hrest hb
      obtain ⟨hwf, hone, hbounded⟩ := hpart ((pre.flatMap fun x => eventsOf cache x.1) ++ done) e
        (rest ++ post.flatMap fun x => eventsOf cache x.1) (by rw [hsplit, hrest]; simp)
      rw [← append_assoc]
      exact addEvent_ok hb hwf hone hbounded checkpointSeq (i + txIndexOffset)

end AccumulatorSettlementTxBuilder

end Sui.Settlement

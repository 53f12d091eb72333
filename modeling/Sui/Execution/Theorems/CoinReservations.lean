import Sui.Execution.CoinReservations
import Sui.Library.WriteOnceCache

/-!
# When the reservation cache changes an answer

The cache of owners and types is a write-once cache by object id: an entry answers every later request for its object, whatever
the version bound.
-/

namespace Sui.CachingCoinReservationResolver

open Library BTreeMap Request CoinReservationResolver

/-- What a request reads, as an entry of the cache; nothing if the object does not exist at its bound. -/
def Request.found (r : Request) : Option (Except ReservationError (SuiAddress × CoinType)) :=
  match CoinReservationResolver.getOwnerAndTypeForObject r.childObjectResolver r.coinReservation.unmaskedObjectId
      r.accumulatorVersion with
  | .ok none => none
  | .ok (some value) => some (.ok value)
  | .error e => some (.error e)

/-- The answer to a request from an entry, or from an object that does not exist. -/
def Request.answer (r : Request) (entry : Option (Except ReservationError (SuiAddress × CoinType))) :
    Except ReservationError FundsWithdrawalArg :=
  match entry with
  | none => .error (.notFound r.coinReservation.unmaskedObjectId)
  | some found => do
    let (owner, typeTag) ← found
    CoinReservationResolver.withdrawalOf r.sender r.coinReservation owner typeTag

theorem Request.uncached_eq (r : Request) : r.uncached = r.answer r.found := by
  unfold Request.uncached CoinReservationResolver.resolveFundsWithdrawal Request.found
  cases getOwnerAndTypeForObject r.childObjectResolver r.coinReservation.unmaskedObjectId
      r.accumulatorVersion with
  | error e => rfl
  | ok found => cases found <;> rfl

/-- A request is answered from its entry, or from what it reads, which then becomes its entry. -/
theorem Request.cached_eq (cache : ReservationCache) (r : Request) :
    r.cached cache = (r.answer (cache[r.coinReservation.unmaskedObjectId]?.orElse fun _ => r.found),
      match cache[r.coinReservation.unmaskedObjectId]?, r.found with
      | none, some entry => cache.insert r.coinReservation.unmaskedObjectId entry
      | _, _ => cache) := by
  unfold cached CachingCoinReservationResolver.resolveFundsWithdrawal getOwnerAndTypeCached
  cases cache[r.coinReservation.unmaskedObjectId]? with
  | some => rfl
  | none =>
    simp only [Option.orElse_none, found]
    cases getOwnerAndTypeForObject r.childObjectResolver r.coinReservation.unmaskedObjectId r.accumulatorVersion with
    | error => rfl
    | ok found => cases found <;> rfl

/-- An event as an event of a write-once cache. -/
def Event.toEvent : Event → WriteOnceCache.Event ObjectID (Except ReservationError (SuiAddress × CoinType))
  | .resolve r => .ask r.coinReservation.unmaskedObjectId r.found
  | .evict id => .evict id

theorem get_cached (cache : ReservationCache) (r : Request) (id : ObjectID) :
    (r.cached cache).2[id]? = if r.coinReservation.unmaskedObjectId = id then cache[id]?.orElse fun _ => r.found else cache[id]? := by
  rw [r.cached_eq]
  split_ifs with hid
  · subst hid
    cases hc : cache[r.coinReservation.unmaskedObjectId]? <;> cases r.found <;> simp [hc]
  · split
    · rw [get_insert, if_neg hid]
    · rfl

/-- The cache of the resolver is the write-once cache of its history. -/
theorem get_run (history : List Event) (id : ObjectID) :
    (run history)[id]? = WriteOnceCache.run (history.map Event.toEvent) id := by
  induction history using List.reverseRecOn generalizing id with
  | nil => simp [run, WriteOnceCache.run]
  | append_singleton history e ih =>
    have hrun : run (history ++ [e]) = step (run history) e := by simp [run]
    rw [List.map_append, List.map_singleton, WriteOnceCache.run_concat, hrun]
    cases e with
    | resolve r =>
      simp only [step, Event.toEvent, WriteOnceCache.step, ← ih]
      rw [get_cached]
      by_cases hid : r.coinReservation.unmaskedObjectId = id
      · subst hid
        cases hc : (run history)[r.coinReservation.unmaskedObjectId]? <;> simp [hc, ← ih]
      · have hne : id ≠ r.coinReservation.unmaskedObjectId := Ne.symm hid
        rw [if_neg hid]
        split
        · exact ih id
        · rw [Function.update_of_ne hne, ih id]
    | evict id' =>
      simp only [step, Event.toEvent, WriteOnceCache.step]
      rw [get_erase]
      by_cases hid : id' = id
      · subst hid
        simp
      · rw [if_neg hid, Function.update_of_ne (Ne.symm hid), ih id]

/-- An entry was read by a request, and not evicted since. -/
theorem exists_of_get_run {history : List Event} {id : ObjectID} {entry : Except ReservationError (SuiAddress × CoinType)}
    (h : (run history)[id]? = some entry) : ∃ pre r mid, history = pre ++ .resolve r :: mid ∧
      r.coinReservation.unmaskedObjectId = id ∧ r.found = some entry ∧ .evict id ∉ mid := by
  rw [get_run, WriteOnceCache.run_eq_some_iff] at h
  obtain ⟨pre', mid', heq, -, hmid⟩ := h
  obtain ⟨pre, rest, rfl, rfl, hrest⟩ := List.map_eq_append_iff.mp heq
  obtain ⟨e, mid, rfl, he, rfl⟩ := List.map_eq_cons_iff.mp hrest
  cases e with
  | evict => cases he
  | resolve r =>
    injection he with hid hfound
    exact ⟨pre, r, mid, rfl, hid, hfound, fun hmem => hmid (List.mem_map.mpr ⟨.evict id, hmem, rfl⟩)⟩

/-- Up to the eviction of an object that was found, no request for it has a bound at which the objects give another answer. -/
def Coherent (history : List Event) : Prop :=
  ∀ pre r mid r' post entry, history = pre ++ .resolve r :: mid ++ .resolve r' :: post →
    r.coinReservation.unmaskedObjectId = r'.coinReservation.unmaskedObjectId → .evict r.coinReservation.unmaskedObjectId ∉ mid →
    r.found = some entry → r'.found = some entry

/-- The cache changes no answer of such a history. -/
theorem cached_eq_uncached (history : List Event) (h : Coherent history) (pre : List Event) (r : Request) (post : List Event)
    (heq : history = pre ++ .resolve r :: post) : (r.cached (run pre)).1 = r.uncached := by
  rw [r.cached_eq, uncached_eq]
  cases hc : (run pre)[r.coinReservation.unmaskedObjectId]? with
  | none => rfl
  | some entry =>
    obtain ⟨pre', r', mid, rfl, hid, hfound, hmid⟩ := exists_of_get_run hc
    rw [h pre' r' mid r post entry heq hid (hid ▸ hmid) hfound]
    rfl

/-- Account 7 holds a balance of `SUI` from version 5 on. -/
def balanceFromFive : ObjectVersions :=
  (∅ : ObjectVersions).insert 1 ((∅ : BTreeMap SequenceNumber (Option Object)).insert 5
    (some ⟨.objectOwner suiAccumulatorRootObjectId, some ⟨.suiBalanceAccumulatorField, some 7⟩⟩))

/-- The sender 7 reserves 10 of the balance in object 1. -/
def reserveTen (accumulatorVersion : Option SequenceNumber) : Request :=
  ⟨balanceFromFive.readChildObject, 7, ⟨1, 10⟩, accumulatorVersion⟩

/-- After a request without a bound, a request with the bound 6 gets the uncached answer. -/
theorem cached_eq_uncached_six :
    ((reserveTen (some 6)).cached (run [.resolve (reserveTen none)])).1 = (reserveTen (some 6)).uncached := by
  refine cached_eq_uncached [.resolve (reserveTen none), .resolve (reserveTen (some 6))] ?_ [_] _ [] rfl
  have hfound : ∀ r, .resolve r ∈ [Event.resolve (reserveTen none), .resolve (reserveTen (some 6))] →
      r.found = some (.ok (7, .sui)) := by
    intro r hr
    rcases List.mem_pair.mp hr with hr | hr
    · rw [Event.resolve.inj hr]
      decide +kernel
    · rw [Event.resolve.inj hr]
      decide +kernel
  intro pre r mid r' post entry heq _ _ hentry
  rw [hfound r' (by simp [heq]), ← hentry, hfound r (by simp [heq])]

/-- After a request without a bound, the request with the bound 3 resolves, though the object does not exist at version 3. -/
theorem cached_ne_uncached_below_creation :
    ((reserveTen (some 3)).cached (run [.resolve (reserveTen none)])).1 = .ok ⟨10, .sui⟩ ∧
      (reserveTen (some 3)).uncached = .error (.notFound 1) := by
  decide +kernel

end Sui.CachingCoinReservationResolver

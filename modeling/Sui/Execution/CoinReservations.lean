import Sui.Execution.Accumulator
import Sui.Execution.SharedObjectVersions

/-!
# Coin reservations

`types/sui/src/coin_reservation.rs` and `authority/src/accumulators/coin_reservations.rs`: a reservation names an accumulator
object, from which the resolver reads the owner and the coin type of the balance. The caching resolver keeps what it read. Of a
reservation the object id and the amount are kept, of a Move object its type and the owner in its key.
-/

namespace Sui

open Library Checked

/-- `Owner`, the permissions of a party by a number. -/
inductive Owner where
  | addressOwner (address : SuiAddress)
  | objectOwner (address : SuiAddress)
  | shared (initialSharedVersion : SequenceNumber)
  | immutable
  | consensusAddressOwner (startVersion : SequenceNumber) (owner : SuiAddress)
  | party (startVersion : SequenceNumber) (permissions : Nat)
deriving DecidableEq, Repr

/-- `MoveObjectType`, as far as `balance_accumulator_field_type_maybe` tells types apart. -/
inductive MoveObjectType where
  | suiBalanceAccumulatorField
  | balanceAccumulatorField (inner : CoinType)
  | other (id : Nat)
deriving DecidableEq, Repr

/-- `MoveObject`, with the owner in the accumulator key if the contents are those of an accumulator field. -/
structure MoveObject where
  type_ : MoveObjectType
  keyOwner : Option SuiAddress
deriving DecidableEq, Repr

/-- `Object`: the data is none for a package. -/
structure Object where
  owner : Owner
  data : Option MoveObject
deriving DecidableEq, Repr

/-- The errors of reading an accumulator object. -/
inductive LoadError where
  | invalidChildObjectAccess (object givenParent : ObjectID) (actualOwner : Owner)
  | dynamicFieldReadError
deriving DecidableEq, Repr

/-- `UserInputError::InvalidWithdrawReservation`, by its text, and the panic on an object that is not a Move object. -/
inductive ReservationError where
  | couldNotLoad (e : LoadError)
  | notBalanceAccumulatorField (id : ObjectID)
  | notFound (id : ObjectID)
  | notOwner (id : ObjectID) (owner sender : SuiAddress)
  | notMoveObject
deriving DecidableEq, Repr

structure ParsedObjectRefWithdrawal where
  unmaskedObjectId : ObjectID
  reservationAmount : Nat
deriving DecidableEq, Repr

/-- `FundsWithdrawalArg` from the balance of the sender. -/
structure FundsWithdrawalArg where
  amount : Nat
  balanceType : CoinType
deriving DecidableEq, Repr

/-! ## Reading accumulator objects -/

/-- `ChildObjectResolver::read_child_object`: parent, child and the bound of the version. -/
abbrev ChildObjectResolver := ObjectID → ObjectID → SequenceNumber → Except LoadError (Option Object)

/-- The versions of every object in the store, with none for a deleted or wrapped object. -/
abbrev ObjectVersions := BTreeMap ObjectID (BTreeMap SequenceNumber (Option Object))

def ObjectVersions.findObjectLtOrEqVersion (store : ObjectVersions) (id : ObjectID) (versionBound : SequenceNumber) : Option Object :=
  match store[id]? with
  | none => none
  | some versions => ((versions.toList.filter fun v => v.1 ≤ versionBound).getLast?).bind Prod.snd

/-- `read_child_object` of the execution cache. -/
def ObjectVersions.readChildObject (store : ObjectVersions) : ChildObjectResolver := fun parent child childVersionUpperBound =>
  match store.findObjectLtOrEqVersion child childVersionUpperBound with
  | none => .ok none
  | some childObject =>
    if childObject.owner ≠ .objectOwner parent then .error (.invalidChildObjectAccess child parent childObject.owner)
    else .ok (some childObject)

def sequenceNumberMax : SequenceNumber := 0x7fffffffffffffff

variable (cache : ReservationCache) (childObjectResolver : ChildObjectResolver)

def loadObjectById (versionBound : Option SequenceNumber) (id : ObjectID) : Except LoadError (Option Object) :=
  childObjectResolver suiAccumulatorRootObjectId id (versionBound.getD sequenceNumberMax)

def MoveObjectType.balanceAccumulatorFieldTypeMaybe : MoveObjectType → Option CoinType
  | .suiBalanceAccumulatorField => some .sui
  | .balanceAccumulatorField inner => some inner
  | .other _ => none

namespace CoinReservationResolver

def getOwnerAndTypeForObject (objectId : ObjectID)
    (accumulatorVersion : Option SequenceNumber) : Except ReservationError (Option (SuiAddress × CoinType)) := do
  match ← (loadObjectById childObjectResolver accumulatorVersion objectId).mapError .couldNotLoad with
  | none => return none
  | some object =>
    let moveObject ← expect object.data .notMoveObject
    let typeTag ← expect moveObject.type_.balanceAccumulatorFieldTypeMaybe (.notBalanceAccumulatorField objectId)
    let owner ← expect moveObject.keyOwner (.couldNotLoad .dynamicFieldReadError)
    return some (owner, typeTag)

/-- The reservation of a balance whose owner and type are known. -/
def withdrawalOf (sender : SuiAddress) (coinReservation : ParsedObjectRefWithdrawal) (owner : SuiAddress) (typeTag : CoinType) :
    Except ReservationError FundsWithdrawalArg :=
  if sender ≠ owner then .error (.notOwner coinReservation.unmaskedObjectId owner sender)
  else .ok ⟨coinReservation.reservationAmount, typeTag⟩

def resolveFundsWithdrawal (sender : SuiAddress)
    (coinReservation : ParsedObjectRefWithdrawal) (accumulatorVersion : Option SequenceNumber) :
    Except ReservationError FundsWithdrawalArg := do
  let found ← getOwnerAndTypeForObject childObjectResolver coinReservation.unmaskedObjectId accumulatorVersion
  let (owner, typeTag) ← expect found (.notFound coinReservation.unmaskedObjectId)
  withdrawalOf sender coinReservation owner typeTag

end CoinReservationResolver

/-! ## The cache -/

abbrev ReservationCache := BTreeMap ObjectID (Except ReservationError (SuiAddress × CoinType))

namespace CachingCoinReservationResolver

/-- `get_owner_and_type_cached`, with the cache after it. -/
def getOwnerAndTypeCached (childObjectResolver : ChildObjectResolver) (objectId : ObjectID)
    (accumulatorVersion : Option SequenceNumber) : Except ReservationError (SuiAddress × CoinType) × ReservationCache :=
  match cache[objectId]? with
  | some cached => (cached, cache)
  | none =>
    match CoinReservationResolver.getOwnerAndTypeForObject childObjectResolver objectId accumulatorVersion with
    | .ok (some value) => (.ok value, cache.insert objectId (.ok value))
    | .ok none => (.error (.notFound objectId), cache)
    | .error e => (.error e, cache.insert objectId (.error e))

/-- `CachingCoinReservationResolver::resolve_funds_withdrawal`, with the cache after it. -/
def resolveFundsWithdrawal (childObjectResolver : ChildObjectResolver) (sender : SuiAddress)
    (coinReservation : ParsedObjectRefWithdrawal) (accumulatorVersion : Option SequenceNumber) :
    Except ReservationError FundsWithdrawalArg × ReservationCache :=
  let (found, cache) := getOwnerAndTypeCached cache childObjectResolver coinReservation.unmaskedObjectId accumulatorVersion
  (do let (owner, typeTag) ← found
      CoinReservationResolver.withdrawalOf sender coinReservation owner typeTag, cache)

/-- A request to the caching resolver, with the objects that can be read at that time. -/
structure Request where
  childObjectResolver : ChildObjectResolver
  sender : SuiAddress
  coinReservation : ParsedObjectRefWithdrawal
  accumulatorVersion : Option SequenceNumber

/-- What happens to the cache: it is asked, or it evicts an entry to keep to its capacity. -/
inductive Event where
  | resolve (request : Request)
  | evict (id : ObjectID)

/-- The answer of the uncached resolver to a request. -/
def Request.uncached (r : Request) : Except ReservationError FundsWithdrawalArg :=
  CoinReservationResolver.resolveFundsWithdrawal r.childObjectResolver r.sender r.coinReservation r.accumulatorVersion

/-- The answer of the caching resolver to a request, with the cache after it. -/
def Request.cached (r : Request) : Except ReservationError FundsWithdrawalArg × ReservationCache :=
  resolveFundsWithdrawal cache r.childObjectResolver r.sender r.coinReservation r.accumulatorVersion

def step : Event → ReservationCache
  | .resolve request => (request.cached cache).2
  | .evict id => cache.erase id

def run (history : List Event) : ReservationCache := history.foldl step ∅

end CachingCoinReservationResolver

end Sui

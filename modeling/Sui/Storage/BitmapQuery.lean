import Mathlib.Data.Finset.Basic
import Sui.Library.Loop

/-!
# Bitmap queries

`storage/inverted-index/src/bitmap_query`: a query in disjunctive form is evaluated over ordered scans, one for each dimension
key. The drivers of `stream.rs` and `iter.rs` run the same rounds; a round is given here once. A dimension key is opaque to the
evaluator, and a `RoaringBitmap` is a finite set of offsets.
-/

namespace Sui.InvertedIndex

open Library

abbrev RoaringBitmap := Finset Nat

inductive Watermarked (α : Type) where
  | item (a : α)
  | watermark (p : Nat)
deriving DecidableEq

inductive ScanDirection where
  | ascending
  | descending
deriving DecidableEq, Repr

/-- `Range<u64>`. -/
structure Range where
  start : Nat
  stop : Nat
  start_lt : start < 2 ^ 64
  stop_lt : stop < 2 ^ 64

/-- What a scan is asked for: a range of member ids, in buckets of a size, in a direction. -/
structure Request where
  range : Range
  bucketSize : Nat
  direction : ScanDirection

/-! ## Queries -/

/-- `BitmapLiteral`, with its variants `Include` and `Exclude`. -/
inductive BitmapLiteral (K : Type) where
  | incl (key : K)
  | excl (key : K)
deriving DecidableEq, Repr

variable {K E : Type}

/-- `BitmapTerm`, with the include literal that `BitmapTerm::new` asks for. -/
structure BitmapTerm (K : Type) where
  literals : List (BitmapLiteral K)
  anchored : ∃ key, .incl key ∈ literals

/-- `BitmapQuery`, with the term that `BitmapQuery::new` asks for. -/
structure BitmapQuery (K : Type) where
  terms : List (BitmapTerm K)
  nonempty : terms ≠ []

def BitmapTerm.includedKeys (t : BitmapTerm K) : List K :=
  t.literals.filterMap fun
    | .incl key => some key
    | .excl _ => none

def BitmapTerm.excludedKeys (t : BitmapTerm K) : List K :=
  t.literals.filterMap fun
    | .incl _ => none
    | .excl key => some key

/-- The intersection of the contents that a term includes, without those that it excludes. -/
def BitmapTerm.value (content : K → Nat → RoaringBitmap) (t : BitmapTerm K) (b : Nat) : RoaringBitmap :=
  ((t.includedKeys.map fun key => content key b).foldr (· ∪ ·) ∅).filter fun o =>
    (∀ key ∈ t.includedKeys, o ∈ content key b) ∧ ∀ key ∈ t.excludedKeys, o ∉ content key b

/-- The value of a query at a bucket: the union of its terms. -/
def BitmapQuery.value (content : K → Nat → RoaringBitmap) (q : BitmapQuery K) (b : Nat) : RoaringBitmap :=
  (q.terms.map fun t => t.value content b).foldr (· ∪ ·) ∅

structure TermSpec where
  includes : List Nat
  excludes : List Nat
  unsatisfiable : Bool
deriving DecidableEq, Repr

structure DedupedQuery (K : Type) where
  keys : List K
  terms : List TermSpec

/-- The index of a key in `build_term_specs`, after the key is added if it is new. -/
def keyIndex [DecidableEq K] (keys : List K) (key : K) : List K × Nat :=
  match keys.idxOf? key with
  | some i => (keys, i)
  | none => (keys ++ [key], keys.length)

/-- A literal in `build_term_specs`. -/
def addLiteral [DecidableEq K] (acc : List K × TermSpec) (literal : BitmapLiteral K) : List K × TermSpec :=
  match literal with
  | .incl key =>
    let (keys, i) := keyIndex acc.1 key
    (keys, { acc.2 with includes := acc.2.includes ++ [i] })
  | .excl key =>
    let (keys, i) := keyIndex acc.1 key
    (keys, { acc.2 with excludes := acc.2.excludes ++ [i] })

/-- One term in the loop of `build_term_specs`. -/
def addTerm [DecidableEq K] (q : DedupedQuery K) (term : BitmapTerm K) : DedupedQuery K :=
  let (keys, spec) := term.literals.foldl addLiteral (q.keys, ⟨[], [], false⟩)
  ⟨keys, q.terms ++ [spec]⟩

def buildTermSpecs [DecidableEq K] (terms : List (BitmapTerm K)) : DedupedQuery K :=
  terms.foldl addTerm ⟨[], []⟩

/-! ## Positions -/

def boundInDirection (a b : Nat) (direction : ScanDirection) : Nat :=
  match direction with
  | .ascending => min a b
  | .descending => max a b

def frontierAdvanced (prev : Option Nat) (next : Nat) (direction : ScanDirection) : Bool :=
  match prev with
  | none => true
  | some prev =>
    match direction with
    | .ascending => decide (next > prev)
    | .descending => decide (next < prev)

variable (req : Request)

def bucketEdges (bucket : Nat) : Nat × Nat :=
  let start := min (bucket * req.bucketSize) (2 ^ 64 - 1)
  let stop := min (start + req.bucketSize) (2 ^ 64 - 1)
  match req.direction with
  | .ascending => (max start req.range.start, min stop req.range.stop)
  | .descending => (min stop req.range.stop, max start req.range.start)

namespace Request

def terminus : Nat :=
  match req.direction with
  | .ascending => req.range.stop
  | .descending => req.range.start

def requestFloor : Nat :=
  match req.direction with
  | .ascending => req.range.start
  | .descending => req.range.stop

end Request

/-- A bucket that holds members of the range. -/
def Request.InRange (bucket : Nat) : Prop :=
  max (bucket * req.bucketSize) req.range.start < min ((bucket + 1) * req.bucketSize) req.range.stop

instance (req : Request) (bucket : Nat) : Decidable (req.InRange bucket) :=
  inferInstanceAs (Decidable (_ < _))

/-- The order of the scan, as an order of integers. -/
def ScanDirection.key (direction : ScanDirection) (n : Nat) : Int :=
  match direction with
  | .ascending => n
  | .descending => -n

/-! ## Leaves -/

/-- A bucket source: the buckets that it yields and the error with which it ends, if it fails. -/
structure Leaf (E : Type) where
  buckets : List (Nat × RoaringBitmap)
  error : Option E

/-- An ordered sparse source: it yields buckets of the range in the order of the scan and leaves out only buckets that are
empty, or that lie behind all it yields if it fails. -/
structure Leaf.Serves (req : Request) (content : Nat → RoaringBitmap) (leaf : Leaf E) : Prop where
  ordered : leaf.buckets.Pairwise fun x y => req.direction.key x.1 < req.direction.key y.1
  correct : ∀ x ∈ leaf.buckets, req.InRange x.1 ∧ x.2 = content x.1
  complete : ∀ b, req.InRange b → (content b).Nonempty → (∃ bm, (b, bm) ∈ leaf.buckets) ∨
    (leaf.error.isSome ∧ ∀ x ∈ leaf.buckets, req.direction.key x.1 < req.direction.key b)

inductive LeafHead where
  | bucket (b : Nat)
  | eof
  | error
deriving DecidableEq, Repr

/-- A leaf with its entries of `unreferenced`, `front` and `class`. -/
structure LeafState (E : Type) where
  leaf : Leaf E
  unreferenced : Bool
  front : Nat
  head : Option LeafHead

/-- The state between two rounds. -/
structure EvalState (E : Type) where
  leaves : List (LeafState E)
  terms : List TermSpec
  lastEmitted : Option Nat
  out : List (Watermarked (Nat × RoaringBitmap))

/-- What a scan yields, and the errors it ends with if it fails. -/
structure ScanResult (E : Type) where
  out : List (Watermarked (Nat × RoaringBitmap))
  errors : Option (List E)

/-- The `expect`s of the driver, and the loop of the model that runs out of fuel. -/
inductive EvalPanic where
  | activeEmpty
  | noBucket
  | outOfFuel
deriving DecidableEq, Repr

/-- The peek of a leaf: its head and the position that it has scanned to. -/
def peekLeaf (l : LeafState E) : LeafState E :=
  if l.unreferenced then { l with head := none } else
    match l.leaf.buckets with
    | (bucket, _) :: _ => { l with front := (bucketEdges req bucket).1, head := some (.bucket bucket) }
    | [] =>
      match l.leaf.error with
      | none => { l with front := req.terminus, head := some .eof }
      | some _ => { l with head := some .error }

def headAt (leaves : List (LeafState E)) (i : Nat) : Option LeafHead := leaves[i]?.bind LeafState.head

/-- A term is unsatisfiable once an include is at its end. -/
def markUnsatisfiable (leaves : List (LeafState E)) (term : TermSpec) : TermSpec :=
  if !term.unsatisfiable && term.includes.any (fun i => headAt leaves i == some .eof) then { term with unsatisfiable := true }
  else term

/-- Whether a satisfiable term refers to the leaf, in `recompute_unreferenced`. -/
def isReferenced (terms : List TermSpec) (i : Nat) (l : LeafState E) : Bool :=
  terms.any fun term => !term.unsatisfiable && (term.includes ++ term.excludes).any fun j =>
    j == i && !l.unreferenced && !(l.head == some .eof)

def recomputeUnreferenced (terms : List TermSpec) (leaves : List (LeafState E)) : List (LeafState E) :=
  leaves.mapIdx fun i l => if isReferenced terms i l then l else { l with unreferenced := true }

/-- The error of an active leaf whose head is one. -/
def headError (l : LeafState E) : Option E :=
  if !l.unreferenced && l.head == some .error then l.leaf.error else none

def headBucket (l : LeafState E) : Option Nat :=
  match l.head with
  | some (.bucket b) => some b
  | _ => none

def reduce {α : Type} (f : α → α → α) : List α → Option α
  | [] => none
  | a :: l => some (l.foldl f a)

/-- An active leaf that sits on the floor bucket. -/
def isOnFloor (floorBucket : Nat) (l : LeafState E) : Bool := !l.unreferenced && l.head == some (.bucket floorBucket)

/-- A leaf on the floor bucket moves past it. -/
def advance (floorBucket post : Nat) (l : LeafState E) : LeafState E :=
  if isOnFloor floorBucket l then { l with front := post, leaf := { l.leaf with buckets := l.leaf.buckets.tail } } else l

variable (out : List (Watermarked (Nat × RoaringBitmap)))

def items : List (Nat × RoaringBitmap) :=
  out.filterMap fun
    | .item x => some x
    | .watermark _ => none

def watermarks : List Nat :=
  out.filterMap fun
    | .item _ => none
    | .watermark p => some p

/-! ## The terms at a bucket -/

/-- The bitmaps of the leaves on the floor, and how many slots still refer to each. -/
structure Snapshot where
  bitmaps : List (Option RoaringBitmap)
  remainingRefs : List Nat
  onFloor : List Bool

def takeSnapshotBitmap (s : Snapshot) (i : Nat) : Option RoaringBitmap × Snapshot :=
  if s.onFloor[i]?.getD false then
    let refs := s.remainingRefs[i]?.getD 0
    let bitmap := s.bitmaps[i]?.getD none
    if refs > 1 then (bitmap, { s with remainingRefs := s.remainingRefs.set i (refs - 1) })
    else (bitmap, { s with remainingRefs := s.remainingRefs.set i (refs - 1), bitmaps := s.bitmaps.set i none })
  else (none, s)

/-- The bitmaps of a list of leaves, in order. -/
def takeSnapshotBitmaps (s : Snapshot) : List Nat → List (Option RoaringBitmap) × Snapshot
  | [] => ([], s)
  | i :: is =>
    let (bitmap, s) := takeSnapshotBitmap s i
    let (bitmaps, s) := takeSnapshotBitmaps s is
    (bitmap :: bitmaps, s)

def countOnFloorRefs (terms : List TermSpec) (onFloor : List Bool) : List Nat :=
  terms.foldl (fun refs term =>
    if term.unsatisfiable then refs else
      (term.includes ++ term.excludes).foldl (fun refs i => if onFloor[i]?.getD false then refs.modify i (· + 1) else refs) refs)
    (List.replicate onFloor.length 0)

/-- The intersection of the includes in `eval_term_at_bucket`. -/
def intersectIncludes (acc : Option RoaringBitmap) : List (Option RoaringBitmap) → Option RoaringBitmap
  | [] => acc
  | none :: _ => none
  | some bitmap :: includes =>
    intersectIncludes (some (match acc with | none => bitmap | some a => a ∩ bitmap)) includes

def evalTermAtBucket (includes excludes : List (Option RoaringBitmap)) : Option RoaringBitmap := do
  let acc ← intersectIncludes none includes
  let acc := (excludes.filterMap id).foldl (fun acc exclude => acc \ exclude) acc
  if acc.Nonempty then some acc else none

/-- One term in the loop at the floor bucket: the union so far and what is left of the snapshot. -/
def evalTerm (acc : Option RoaringBitmap × Snapshot) (term : TermSpec) : Option RoaringBitmap × Snapshot :=
  if term.unsatisfiable then acc else
    let (includes, s) := takeSnapshotBitmaps acc.2 term.includes
    let (excludes, s) := takeSnapshotBitmaps s term.excludes
    match evalTermAtBucket includes excludes with
    | none => (acc.1, s)
    | some bitmap => (some (match acc.1 with | none => bitmap | some a => a ∪ bitmap), s)

/-- The loop over the terms at the floor bucket. -/
def evalTerms (s : Snapshot) (terms : List TermSpec) : Option RoaringBitmap :=
  (terms.foldl evalTerm (none, s)).1

/-- The snapshot of the leaves on the floor bucket. -/
def takeSnapshot (floorBucket : Nat) (terms : List TermSpec) (leaves : List (LeafState E)) : Snapshot :=
  let onFloor := leaves.map (isOnFloor floorBucket)
  ⟨leaves.map fun l => if isOnFloor floorBucket l then l.leaf.buckets.head?.map Prod.snd else none,
    countOnFloorRefs terms onFloor, onFloor⟩

/-! ## Rounds -/

/-- A watermark is emitted if it advances the frontier. -/
def emit (lastEmitted : Option Nat) (out : List (Watermarked (Nat × RoaringBitmap))) (p : Nat) :
    Option Nat × List (Watermarked (Nat × RoaringBitmap)) :=
  if frontierAdvanced lastEmitted p req.direction then (some p, out ++ [.watermark p]) else (lastEmitted, out)

/-- The item of a bucket is emitted if the bucket has matches. -/
def emitItem (bucket : Nat) (bitmap : Option RoaringBitmap) : List (Watermarked (Nat × RoaringBitmap)) :=
  match bitmap with
  | none => out
  | some bitmap => out ++ [.item (bucket, bitmap)]

variable (st : EvalState E)

/-- The terms of a round, after the peeks. -/
def settleTerms : List TermSpec :=
  st.terms.map (markUnsatisfiable (st.leaves.map (peekLeaf req)))

/-- The leaves of a round, after the peeks and with the leaves retired that no satisfiable term needs. -/
def settleLeaves : List (LeafState E) :=
  recomputeUnreferenced (settleTerms req st) (st.leaves.map (peekLeaf req))

def round : Except EvalPanic (Loop.Pass (EvalState E) (ScanResult E)) := do
  let terms := settleTerms req st
  let leaves := settleLeaves req st
  let errors := leaves.filterMap headError
  let active := leaves.filter fun l => !l.unreferenced
  if active.isEmpty then
    return .done ⟨(emit req st.lastEmitted st.out req.terminus).2, none⟩
  else
    let floorPos ← Checked.expect (reduce (boundInDirection · · req.direction) (active.map LeafState.front)) .activeEmpty
    let (lastEmitted, out) := emit req st.lastEmitted st.out floorPos
    if !errors.isEmpty then
      return .done ⟨out, some errors⟩
    else
      let floorBucket ← Checked.expect (reduce (boundInDirection · · req.direction) (active.filterMap headBucket)) .noBucket
      let post := (bucketEdges req floorBucket).2
      let out := emitItem out floorBucket (evalTerms (takeSnapshot floorBucket terms leaves) terms)
      let (lastEmitted, out) := emit req lastEmitted out post
      return .next ⟨leaves.map (advance floorBucket post), terms, lastEmitted, out⟩

def start [DecidableEq K] (source : K → Leaf E) (query : BitmapQuery K) (req : Request) : EvalState E :=
  let q := buildTermSpecs query.terms
  ⟨q.keys.map fun key => ⟨source key, false, req.requestFloor, none⟩, q.terms, none, []⟩

def bucketsLeft : Nat := (st.leaves.map fun l => l.leaf.buckets.length).sum

/-- `eval_bitmap_query_bucket_stream` and `eval_bitmap_query_bucket_iter`, run to their end. -/
def evalBitmapQuery [DecidableEq K] (source : K → Leaf E) (query : BitmapQuery K) (req : Request) :
    Except EvalPanic (ScanResult E) :=
  let st := start source query req
  Loop.run .outOfFuel (round req) (bucketsLeft st + 1) st

end Sui.InvertedIndex

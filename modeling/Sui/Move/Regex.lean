import Mathlib.Data.List.Lex
import Mathlib.Data.Prod.Lex
import Mathlib.Data.Bool.Basic
import Mathlib.Order.BooleanAlgebra.Basic
import Sui.Library.Ordered

/-!
# Regular expressions of borrow edges

`move-regex-borrow-graph/src/regex.rs`: a regex is a list of labels that may end in a dot-star, and an extension is one label, a
dot-star or nothing. The position of a walk is kept as the labels that are left.
-/

namespace Sui.BorrowGraph

structure Regex (Lbl : Type) where
  labels : List Lbl
  endsInDotStar : Bool
deriving Repr

inductive Extension (Lbl : Type) where
  | epsilon
  | label (lbl : Lbl)
  | dotStar
deriving DecidableEq, Repr

/-- `Walk`: helper for `remove_prefix`. -/
inductive Walk (Lbl : Type) where
  | emptySet
  | epsilon
  | regex (rest : List Lbl) (endsInDotStar : Bool)

inductive WalkPeek (Lbl : Type) where
  | emptySet
  | epsilon
  | label (lbl : Lbl)
  | dotStar

variable {Lbl : Type}

variable (r : Regex Lbl)

namespace Regex

/-- The fields in the order in which regexes are compared. -/
def key : List Lbl ×ₗ Bool := toLex (r.labels, r.endsInDotStar)

theorem key_injective : Function.Injective (key : Regex Lbl → List Lbl ×ₗ Bool) := by
  intro a b h
  cases a
  cases b
  simp only [key, EmbeddingLike.apply_eq_iff_eq, Prod.mk.injEq] at h
  obtain ⟨rfl, rfl⟩ := h
  rfl

instance [LinearOrder Lbl] : LinearOrder (Regex Lbl) := LinearOrder.lift' key key_injective

def epsilon : Regex Lbl := ⟨[], false⟩

def label (lbl : Lbl) : Regex Lbl := ⟨[lbl], false⟩

def dotStar : Regex Lbl := ⟨[], true⟩

def isEpsilon : Bool := r.labels.isEmpty && !r.endsInDotStar

def abstractSize : Nat := 1 + r.labels.length + r.endsInDotStar.toNat

def extend (ext : Extension Lbl) : Regex Lbl :=
  if r.endsInDotStar then r else
    match ext with
    | .epsilon => r
    | .label lbl => { r with labels := r.labels ++ [lbl] }
    | .dotStar => { r with endsInDotStar := true }

def walk : Walk Lbl := if r.isEpsilon then .epsilon else .regex r.labels r.endsInDotStar

end Regex

namespace Walk

def peek : Walk Lbl → WalkPeek Lbl
  | .emptySet => .emptySet
  | .epsilon => .epsilon
  | .regex (l :: _) _ => .label l
  | .regex [] true => .dotStar
  | .regex [] false => .epsilon

def next : Walk Lbl → Walk Lbl
  | .emptySet => .emptySet
  | .epsilon => .emptySet
  | .regex rest endsInDotStar =>
    if rest.tail.isEmpty && !endsInDotStar then .epsilon else .regex rest.tail endsInDotStar

def remaining : Walk Lbl → Option (Regex Lbl)
  | .emptySet => none
  | .epsilon => some .epsilon
  | .regex rest endsInDotStar => some ⟨rest, endsInDotStar⟩

/-- The loop over the rest of the walk in `remove_prefix`, with a bound on its steps. -/
def suffixes : Nat → Walk Lbl → List (Regex Lbl)
  | 0, _ => []
  | fuel + 1, w =>
    match w.remaining with
    | none => []
    | some rem => rem :: suffixes fuel w.next

end Walk

/-! ## Words -/

/-- The words that a regex matches. -/
def Regex.Matches (w : List Lbl) : Prop := if r.endsInDotStar then r.labels <+: w else r.labels = w

instance [DecidableEq Lbl] (r : Regex Lbl) (w : List Lbl) : Decidable (r.Matches w) :=
  inferInstanceAs (Decidable (if r.endsInDotStar then r.labels <+: w else r.labels = w))

/-- The words that an extension stands for. -/
def Extension.Matches (ext : Extension Lbl) (w : List Lbl) : Prop :=
  match ext with
  | .epsilon => w = []
  | .label lbl => w = [lbl]
  | .dotStar => True

/-! ## Left quotients -/

def Extension.intoRegex : Extension Lbl → Regex Lbl
  | .epsilon => .epsilon
  | .label lbl => .label lbl
  | .dotStar => .dotStar

variable [DecidableEq Lbl]

def Regex.removePrefix (r : Regex Lbl) (p : Extension Lbl) : List (Regex Lbl) :=
  match p with
  | .epsilon => r.walk.remaining.toList
  | .label lp =>
    match r.walk.peek with
    | .emptySet => []
    | .epsilon => []
    | .label l => if lp ≠ l then [] else r.walk.next.remaining.toList
    | .dotStar => [.dotStar]
  | .dotStar => if r.endsInDotStar then [.dotStar] else r.walk.suffixes (r.labels.length + 2)

def Extension.removePrefix (ext : Extension Lbl) (p : Regex Lbl) : List (Regex Lbl) :=
  match p.walk.peek with
  | .emptySet => []
  | .epsilon => [ext.intoRegex]
  | .label lp =>
    match ext with
    | .epsilon => []
    | .label l =>
      if lp ≠ l then [] else
        match p.walk.next.peek with
        | .emptySet => []
        | .epsilon => [.epsilon]
        | .dotStar => [.epsilon]
        | .label _ => []
    | .dotStar => [.dotStar]
  | .dotStar =>
    match ext with
    | .dotStar => [.dotStar]
    | .epsilon => [.epsilon]
    | .label _ => [ext.intoRegex, .epsilon]

end Sui.BorrowGraph

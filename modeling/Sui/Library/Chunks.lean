import Mathlib.Data.List.Basic

/-!
# Chunks of a list

A list cut into parts of a given size, in order, the last of which may be shorter.
-/

namespace Sui.Library

open List

variable {α β : Type}

/-- The parts of a list, with the part that is being filled. -/
def chunksFrom (size : Nat) : List α → List α → List (List α)
  | part, [] => if part.isEmpty then [] else [part]
  | part, a :: l =>
    if part.length + 1 < size then chunksFrom size (part ++ [a]) l else (part ++ [a]) :: chunksFrom size [] l

def chunks (size : Nat) (l : List α) : List (List α) := chunksFrom size [] l

theorem flatten_chunksFrom (size : Nat) (part l : List α) : (chunksFrom size part l).flatten = part ++ l := by
  induction l generalizing part with
  | nil => cases part <;> simp [chunksFrom]
  | cons a l ih =>
    unfold chunksFrom
    split
    · rw [ih, append_assoc, singleton_append]
    · rw [flatten_cons, ih, nil_append, append_assoc, singleton_append]

/-- Nothing is lost, repeated or moved. -/
theorem flatten_chunks (size : Nat) (l : List α) : (chunks size l).flatten = l := flatten_chunksFrom size [] l

theorem map_chunksFrom (f : α → β) (size : Nat) (part l : List α) :
    (chunksFrom size part l).map (map f) = chunksFrom size (part.map f) (l.map f) := by
  induction l generalizing part with
  | nil => cases part <;> simp [chunksFrom]
  | cons a l ih =>
    rw [map_cons]
    unfold chunksFrom
    rw [length_map]
    split
    · rw [ih, map_append, map_singleton]
    · rw [map_cons, ih, map_append, map_singleton, map_nil]

/-- Where a list is cut depends on its length only. -/
theorem map_chunks (f : α → β) (size : Nat) (l : List α) : (chunks size l).map (map f) = chunks size (l.map f) :=
  map_chunksFrom f size [] l

end Sui.Library

import Mathlib.Logic.Function.Basic
import Mathlib.Data.List.Induction

/-!
# Caches whose entries are written once

A cache that is asked for keys. A question to which an answer was found puts the answer into the cache if there is none, and an
entry stays as it is until it is evicted.
-/

namespace Sui.Library.WriteOnceCache

variable {K A : Type} [DecidableEq K]

/-- A question for a key, with the answer found outside the cache if any, or the eviction of a key. -/
inductive Event (K A : Type) where
  | ask (key : K) (found : Option A)
  | evict (key : K)
deriving DecidableEq

/-- What an event does to the cache. -/
def step (cache : K → Option A) : Event K A → K → Option A
  | .ask key found => if (cache key).isSome then cache else Function.update cache key found
  | .evict key => Function.update cache key none

/-- The cache after a history. -/
def run (history : List (Event K A)) : K → Option A := history.foldl step fun _ => none

theorem run_concat (history : List (Event K A)) (e : Event K A) : run (history ++ [e]) = step (run history) e := by
  simp [run]

/-- A key is held if the event is the question that stores its answer, or if it was held before and is not evicted. -/
theorem step_eq_some {cache : K → Option A} {e : Event K A} {key : K} {a : A} :
    step cache e key = some a ↔ (cache key = some a ∧ e ≠ .evict key) ∨ (cache key = none ∧ e = .ask key (some a)) := by
  cases e with
  | ask k =>
    by_cases hk : k = key
    · subst hk
      cases hc : cache k with
      | none => simp [step, hc]
      | some => simp [step, hc]
    · have hne : key ≠ k := fun h => hk h.symm
      simp only [step]
      split
      · simp [hk]
      · simp [Function.update_of_ne hne, hk]
  | evict k =>
    by_cases hk : k = key
    · subst hk
      simp [step]
    · have hne : key ≠ k := fun h => hk h.symm
      simp [step, Function.update_of_ne hne, hk]

/-- An entry was stored by a question at which the key was not held, and not evicted since. -/
theorem run_eq_some_iff {history : List (Event K A)} {key : K} {a : A} : run history key = some a ↔
      ∃ pre post, history = pre ++ .ask key (some a) :: post ∧ run pre key = none ∧ .evict key ∉ post := by
  induction history using List.reverseRecOn with
  | nil => simp [run]
  | append_singleton history e ih =>
    rw [run_concat, step_eq_some, ih]
    constructor
    · rintro (⟨⟨pre, post, rfl, hpre, hpost⟩, he⟩ | ⟨hnone, rfl⟩)
      · exact ⟨pre, post ++ [e], by simp, hpre, by simp [hpost, Ne.symm he]⟩
      · exact ⟨history, [], rfl, hnone, List.not_mem_nil⟩
    · rintro ⟨pre, post, heq, hpre, hpost⟩
      rcases List.eq_nil_or_concat post with rfl | ⟨post', e', rfl⟩
      · obtain ⟨rfl, he⟩ := List.append_inj' heq rfl
        exact Or.inr ⟨hpre, by simpa using he⟩
      · have heq' : history ++ [e] = (pre ++ .ask key (some a) :: post') ++ [e'] := by simpa using heq
        obtain ⟨rfl, he⟩ := List.append_inj' heq' rfl
        obtain rfl : e = e' := by simpa using he
        rw [List.concat_eq_append, List.mem_append, List.mem_singleton, not_or] at hpost
        exact Or.inl ⟨⟨pre, post', rfl, hpre, hpost.1⟩, Ne.symm hpost.2⟩

end Sui.Library.WriteOnceCache

import Sui.Move.Regex

/-!
# Words of the quotients

Concatenation keeps every word, and the two left quotients of regexes are exact: they match what is left of a word after a prefix,
and nothing else.
-/

namespace Sui.BorrowGraph

open List Walk Regex

variable {Lbl : Type}

namespace Regex

theorem matches_mk_true {l w : List Lbl} : (⟨l, true⟩ : Regex Lbl).Matches w ↔ l <+: w := Iff.rfl

theorem matches_mk_false {l w : List Lbl} : (⟨l, false⟩ : Regex Lbl).Matches w ↔ l = w := Iff.rfl

@[simp] theorem matches_dotStar (w : List Lbl) : (dotStar : Regex Lbl).Matches w := nil_prefix

@[simp] theorem matches_epsilon {w : List Lbl} : (epsilon : Regex Lbl).Matches w ↔ w = [] := eq_comm

@[simp] theorem matches_label {l : Lbl} {w : List Lbl} : (label l).Matches w ↔ w = [l] := eq_comm

variable {ext : Extension Lbl}

theorem matches_intoRegex {w : List Lbl} : ext.intoRegex.Matches w ↔ ext.Matches w := by
  cases ext with
  | epsilon => exact matches_epsilon
  | label => exact matches_label
  | dotStar => exact iff_true_intro (matches_dotStar w)

theorem matches_extend {r : Regex Lbl} {u e : List Lbl} (hu : r.Matches u) (he : ext.Matches e) :
    (r.extend ext).Matches (u ++ e) := by
  obtain ⟨l, d⟩ := r
  cases d with
  | true => exact (matches_mk_true.mp hu).trans (prefix_append u e)
  | false =>
    obtain rfl := matches_mk_false.mp hu
    cases ext with
    | epsilon =>
      have he : e = [] := he
      simpa [extend, he] using matches_mk_false.mpr rfl
    | label a =>
      have he : e = [a] := he
      simpa [extend, he] using matches_mk_false.mpr rfl
    | dotStar => exact prefix_append l e

/-- The loop over the rest of a walk without dot-star passes the suffixes. -/
theorem suffixes_walk {l : List Lbl} {fuel : Nat} (hf : l.length + 2 ≤ fuel) :
    (walk ⟨l, false⟩).suffixes fuel = l.tails.map fun w => ⟨w, false⟩ := by
  induction l generalizing fuel with
  | nil =>
    obtain ⟨fuel, rfl⟩ : ∃ n, fuel = n + 2 := ⟨fuel - 2, by simp at hf; omega⟩
    rfl
  | cons a l ih =>
    rw [length_cons] at hf
    obtain ⟨fuel, rfl⟩ : ∃ n, fuel = n + 1 := ⟨fuel - 1, by omega⟩
    have hnext : (walk ⟨a :: l, false⟩).next = walk ⟨l, false⟩ := by cases l <;> rfl
    change _ :: (walk ⟨a :: l, false⟩).next.suffixes fuel = _
    rw [hnext, ih (by omega)]
    rfl

variable [DecidableEq Lbl]

/-- The words of the quotient of a regex by an extension. -/
theorem exists_mem_removePrefix {r : Regex Lbl} {q : List Lbl} :
    (∃ r' ∈ r.removePrefix ext, r'.Matches q) ↔ ∃ e, ext.Matches e ∧ r.Matches (e ++ q) := by
  obtain ⟨l, d⟩ := r
  cases ext with
  | epsilon =>
    have heq : removePrefix ⟨l, d⟩ .epsilon = [⟨l, d⟩] := by cases l <;> cases d <;> rfl
    simp [heq, Extension.Matches]
  | label a =>
    simp only [Extension.Matches, exists_eq_left, singleton_append]
    cases l with
    | nil => cases d <;> simp [removePrefix, walk, isEpsilon, peek, matches_mk_true, matches_mk_false]
    | cons b l =>
      have heq : removePrefix ⟨b :: l, d⟩ (.label a) = if a ≠ b then [] else [⟨l, d⟩] := by
        cases l <;> cases d <;> simp [removePrefix, walk, isEpsilon, peek, Walk.next, remaining, epsilon]
      by_cases hab : a = b
      · subst hab
        cases d <;> simp [heq, matches_mk_true, matches_mk_false]
      · have hba := Ne.symm hab
        cases d <;> simp [heq, hab, hba, matches_mk_true, matches_mk_false]
  | dotStar =>
    cases d with
    | true => exact iff_of_true ⟨_, mem_singleton_self _, matches_dotStar q⟩ ⟨l, trivial, prefix_append l q⟩
    | false =>
      have heq : removePrefix ⟨l, false⟩ .dotStar = l.tails.map fun w => ⟨w, false⟩ := suffixes_walk le_rfl
      simp only [heq, mem_map, mem_tails, exists_exists_and_eq_and, matches_mk_false, exists_eq_right]
      constructor
      · rintro ⟨e, rfl⟩
        exact ⟨e, trivial, rfl⟩
      · rintro ⟨e, -, rfl⟩
        exact suffix_append e q

end Regex

/-- The words of the quotient of an extension by a regex. -/
theorem Extension.exists_mem_removePrefix [DecidableEq Lbl] {ext : Extension Lbl} {p : Regex Lbl} {q : List Lbl} :
    (∃ r ∈ ext.removePrefix p, r.Matches q) ↔ ∃ v, p.Matches v ∧ ext.Matches (v ++ q) := by
  obtain ⟨l, d⟩ := p
  cases l with
  | nil =>
    cases d with
    | false => simp [removePrefix, walk, isEpsilon, peek, matches_mk_false, matches_intoRegex]
    | true =>
      simp only [matches_mk_true, nil_prefix, true_and]
      cases ext with
      | epsilon => simp [removePrefix, walk, isEpsilon, peek, Extension.Matches]
      | label => simp [removePrefix, walk, isEpsilon, peek, Extension.Matches, intoRegex, append_eq_singleton_iff, exists_or, or_comm]
      | dotStar => simp [removePrefix, walk, isEpsilon, peek, Extension.Matches]
  | cons b l =>
    have hv : ∀ v, (⟨b :: l, d⟩ : Regex Lbl).Matches v → b :: l <+: v := by
      intro v hp
      cases d with
      | true => exact hp
      | false => exact matches_mk_false.mp hp ▸ prefix_rfl
    cases ext with
    | epsilon =>
      refine iff_of_false (by simp [removePrefix, walk, isEpsilon, peek]) ?_
      rintro ⟨v, hp, he⟩
      obtain ⟨v', rfl⟩ := hv v hp
      exact absurd he (by simp [Extension.Matches])
    | label a =>
      by_cases h : b = a ∧ l = []
      · obtain ⟨rfl, rfl⟩ := h
        have heq : removePrefix (.label b) ⟨[b], d⟩ = [.epsilon] := by
          cases d <;> simp [removePrefix, walk, isEpsilon, peek, Walk.next]
        simp only [heq, mem_singleton, exists_eq_left, matches_epsilon]
        constructor
        · rintro rfl
          exact ⟨[b], by cases d <;> simp [matches_mk_true, matches_mk_false], rfl⟩
        · rintro ⟨v, hp, he⟩
          obtain ⟨v', rfl⟩ := hv v hp
          exact (append_eq_nil_iff.mp (cons.inj he).2).2
      · refine iff_of_false ?_ ?_
        · have heq : removePrefix (.label a) ⟨b :: l, d⟩ = [] := by
            cases l <;> simp_all [removePrefix, walk, isEpsilon, peek, Walk.next]
          simp [heq]
        · rintro ⟨v, hp, he⟩
          obtain ⟨v', rfl⟩ := hv v hp
          obtain ⟨hb, htail⟩ := cons.inj he
          exact h ⟨hb, (append_eq_nil_iff.mp (append_eq_nil_iff.mp htail).1).1⟩
    | dotStar =>
      refine iff_of_true ⟨.dotStar, by simp [removePrefix, walk, isEpsilon, peek], matches_dotStar q⟩ ⟨b :: l, ?_, trivial⟩
      cases d <;> simp [matches_mk_true, matches_mk_false]

end Sui.BorrowGraph

import Sui.Library.Ordered

/-!
# Aggregate signatures

Signatures of one message under several keys that are combined into one. An aggregate verifies under a list of keys if and only
if it is an aggregate of valid signatures, one for each key. What goes into it need not be valid one by one: two invalid
signatures can make up for each other.
-/

namespace Sui.Library

/-- A scheme of aggregate signatures. -/
structure AggregateScheme (Key Msg Sig Agg : Type) where
  verify : Key → Msg → Sig → Bool
  aggregate : List Sig → Except String Agg
  verifyAggregate : List Key → Msg → Agg → Bool
  /-- Valid signatures can be aggregated, and the aggregate verifies. -/
  complete {keys : List Key} {m : Msg} {sigs : List Sig} : keys ≠ [] → List.Forall₂ (fun k s => verify k m s = true) keys sigs →
    ∃ agg, aggregate sigs = .ok agg ∧ verifyAggregate keys m agg = true
  /-- What verifies is an aggregate of valid signatures. -/
  sound {keys : List Key} {m : Msg} {agg : Agg} : verifyAggregate keys m agg = true →
    ∃ sigs, List.Forall₂ (fun k s => verify k m s = true) keys sigs ∧ aggregate sigs = .ok agg

namespace AggregateScheme

variable {Key Msg G : Type} [AddCommMonoid G] [DecidableEq G]

/-- The scheme in which a key has one valid signature of a message, and signatures aggregate to their sum. -/
def ofSigning (sign : Key → Msg → G) : AggregateScheme Key Msg G G where
  verify k m s := s = sign k m
  aggregate sigs := if sigs.isEmpty then .error "no signatures" else .ok sigs.sum
  verifyAggregate keys m agg := !keys.isEmpty && agg = (keys.map (sign · m)).sum
  complete := by
    intro keys m sigs hkeys hsigs
    simp only [decide_eq_true_eq, forall₂_iff_eq_map] at hsigs
    subst hsigs
    simp [hkeys]
  sound := by
    intro keys m agg h
    simp only [Bool.and_eq_true, Bool.not_eq_true', List.isEmpty_eq_false_iff, decide_eq_true_eq] at h
    refine ⟨keys.map (sign · m), ?_, ?_⟩
    · simp only [decide_eq_true_eq, forall₂_iff_eq_map]
    · simp [h.1, h.2]

/-- The scheme in which only some messages are ever signed. -/
def restrict {Sig Agg : Type} (scheme : AggregateScheme Key Msg Sig Agg) (signed : Msg → Bool) : AggregateScheme Key Msg Sig Agg where
  verify k m s := signed m && scheme.verify k m s
  aggregate := scheme.aggregate
  verifyAggregate keys m agg := signed m && scheme.verifyAggregate keys m agg
  complete := by
    intro keys m sigs hkeys hsigs
    have hsigned : signed m = true := by
      cases hsigs with
      | nil => exact absurd rfl hkeys
      | cons hfirst => exact (Bool.and_eq_true_iff.mp hfirst).1
    simp only [hsigned, Bool.true_and] at hsigs ⊢
    exact scheme.complete hkeys hsigs
  sound := by
    intro keys m agg h
    obtain ⟨hsigned, h⟩ := Bool.and_eq_true_iff.mp h
    simp only [hsigned, Bool.true_and]
    exact scheme.sound h

end AggregateScheme

end Sui.Library

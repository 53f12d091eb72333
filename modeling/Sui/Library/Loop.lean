import Sui.Library.Checked

/-!
# Loops

A `while` loop of the source whose body may panic. The loop runs on fuel, and one that uses it up panics with an error of its
own, so that a model cannot hide a loop that does not stop. An invariant holds when the loop is left, and with a measure that
every pass lowers, enough fuel makes the loop return.
-/

namespace Sui.Library

namespace Loop

open Checked

variable {ε σ α : Type}

/-- What one pass of the body does: go on from a new state, or leave the loop. -/
inductive Pass (σ α : Type) where
  | next (s : σ)
  | done (a : α)
deriving DecidableEq, Repr

/-- Run the body until it leaves the loop, at most `fuel` times. -/
def run (exhausted : ε) (body : σ → Except ε (Pass σ α)) : ℕ → σ → Except ε α
  | 0, _ => .error exhausted
  | fuel + 1, s => do
    match ← body s with
    | .next s' => run exhausted body fuel s'
    | .done a => return a

variable {exhausted : ε} {body : σ → Except ε (Pass σ α)} {s : σ} {fuel : ℕ}

theorem run_succ_next {s' : σ} (h : body s = .ok (.next s')) :
    run exhausted body (fuel + 1) s = run exhausted body fuel s' := by
  rw [run, h]
  rfl

theorem run_succ_done {a : α} (h : body s = .ok (.done a)) : run exhausted body (fuel + 1) s = .ok a := by
  rw [run, h]
  rfl

/-- The invariant rule: what every pass preserves holds of the errors and the results of the loop. -/
theorem run_meets {P : ε → Prop} (Inv : σ → Prop) (Post : α → Prop) (hexhausted : P exhausted) (h0 : Inv s)
    (hbody : ∀ s, Inv s → Meets P (fun p => (∀ s', p = .next s' → Inv s') ∧ ∀ a, p = .done a → Post a) (body s)) :
    Meets P Post (run exhausted body fuel s) := by
  induction fuel generalizing s with
  | zero => exact ⟨fun e he => Except.error.inj he ▸ hexhausted, fun a ha => by cases ha⟩
  | succ _ ih =>
    refine Meets.bind (hbody s h0) fun p hp => ?_
    cases p with
    | next s' => exact ih (hp.1 s' rfl)
    | done a => exact .ok (hp.2 a rfl)

/-- The rule for a loop that returns: no pass panics under the invariant and every pass lowers the measure. -/
theorem run_total (Inv : σ → Prop) (Post : α → Prop) (measure : σ → ℕ) (h0 : Inv s) (hfuel : measure s < fuel)
    (hbody : ∀ s, Inv s →
      (∃ s', body s = .ok (.next s') ∧ Inv s' ∧ measure s' < measure s) ∨ ∃ a, body s = .ok (.done a) ∧ Post a) :
    ∃ a, run exhausted body fuel s = .ok a ∧ Post a := by
  induction fuel generalizing s with
  | zero => omega
  | succ _ ih =>
    rcases hbody s h0 with ⟨s', hb, hs', hm⟩ | ⟨a, hb, ha⟩
    · rw [run_succ_next hb]
      exact ih hs' (by omega)
    · exact ⟨a, run_succ_done hb, ha⟩

/-- Two loops whose passes keep two states related leave the loop with related results, whatever their fuel. -/
theorem run_related {ε' σ' α' : Type} {exhausted' : ε'} {body' : σ' → Except ε' (Pass σ' α')} {s' : σ'} {fuel' : ℕ}
    (R : σ → σ' → Prop) (Q : α → α' → Prop)
    (hstep : ∀ s s', R s s' → (∃ t t', body s = .ok (.next t) ∧ body' s' = .ok (.next t') ∧ R t t') ∨
      ∃ a a', body s = .ok (.done a) ∧ body' s' = .ok (.done a') ∧ Q a a')
    (hR : R s s') {a : α} {a' : α'} (h : run exhausted body fuel s = .ok a) (h' : run exhausted' body' fuel' s' = .ok a') :
    Q a a' := by
  induction fuel generalizing s s' fuel' with
  | zero => simp [run] at h
  | succ _ ih =>
    cases fuel' with
    | zero => simp [run] at h'
    | succ =>
      rcases hstep s s' hR with ⟨t, t', hb, hb', ht⟩ | ⟨c, c', hb, hb', hc⟩
      · rw [run_succ_next hb] at h
        rw [run_succ_next hb'] at h'
        exact ih ht h h'
      · rw [run_succ_done hb, Except.ok.injEq] at h
        rw [run_succ_done hb', Except.ok.injEq] at h'
        rw [← h, ← h']
        exact hc

end Loop

end Sui.Library

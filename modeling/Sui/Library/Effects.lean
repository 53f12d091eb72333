import Sui.Library.Checked

/-!
# Computations with a state that may stop

Code that changes a state and may stop with an error is an `EStateM`: what it changed before it stopped stays changed. `Ensures` is
the rule of pre- and postconditions, one for the result and one for the state that is left behind by an error.
-/

namespace Sui.Library

variable {ε σ α β : Type}

namespace Effects

/-- From the state `s`, a result satisfies `post` and an error `stop`, each with the state that is left. -/
def Ensures (x : EStateM ε σ α) (s : σ) (post : α → σ → Prop) (stop : ε → σ → Prop) : Prop :=
  match x s with
  | .ok a t => post a t
  | .error e t => stop e t

variable {x : EStateM ε σ α} {f : α → EStateM ε σ β} {s t u : σ} {a : α} {b : β} {e : ε} {post : α → σ → Prop}
  {stop : ε → σ → Prop}

/-- A sequence returned: both parts did. -/
theorem bind_ok : (x >>= f) s = .ok b u ↔ ∃ a t, x s = .ok a t ∧ f a t = .ok b u := by
  simp only [bind, EStateM.bind]
  cases x s <;> simp

/-- A sequence stopped: the first part did, or it returned and the second did. -/
theorem bind_error : (x >>= f) s = .error e u ↔ x s = .error e u ∨ ∃ a t, x s = .ok a t ∧ f a t = .error e u := by
  simp only [bind, EStateM.bind]
  cases x s <;> simp

theorem bind_of_ok (h : x s = .ok a t) : (x >>= f) s = f a t := by
  simp only [bind, EStateM.bind, h]

theorem bind_of_error (h : x s = .error e t) : (x >>= f) s = .error e t := by
  simp only [bind, EStateM.bind, h]

/-- A computation without effects. -/
def lift (x : Except ε α) : EStateM ε σ α := fun s =>
  match x with
  | .ok a => .ok a s
  | .error e => .error e s

@[simp] theorem lift_ok {x : Except ε α} : (lift x : EStateM ε σ α) s = .ok a t ↔ x = .ok a ∧ s = t := by
  cases x <;> simp [lift]

theorem lift_error {x : Except ε α} : (lift x : EStateM ε σ α) s = .error e t ↔ x = .error e ∧ s = t := by
  cases x <;> simp [lift]

namespace Ensures

/-- The rule of sequences. -/
theorem bind {post' : β → σ → Prop} (h : Ensures x s (fun a t => Ensures (f a) t post' stop) stop) :
    Ensures (x >>= f) s post' stop := by
  unfold Ensures at h ⊢
  cases hx : x s with
  | ok =>
    rw [bind_of_ok hx]
    rw [hx] at h
    exact h
  | error =>
    rw [bind_of_error hx]
    rw [hx] at h
    exact h

/-- The rule of consequence. -/
theorem mono {post' : α → σ → Prop} {stop' : ε → σ → Prop} (h : Ensures x s post stop) (hpost : ∀ a t, post a t → post' a t)
    (hstop : ∀ e t, stop e t → stop' e t) : Ensures x s post' stop' := by
  unfold Ensures at h ⊢
  cases hx : x s with
  | ok a t =>
    rw [hx] at h
    exact hpost a t h
  | error e t =>
    rw [hx] at h
    exact hstop e t h

theorem pure (h : post a s) : Ensures (pure a) s post stop := h

theorem get {post : σ → σ → Prop} (h : post s s) : Ensures get s post stop := h

theorem modify {g : σ → σ} {post : Unit → σ → Prop} (h : post () (g s)) : Ensures (modify g) s post stop := h

theorem throw (h : stop e s) : Ensures (throw e) s post stop := h

theorem lift {x : Except ε α} (hok : ∀ a, x = .ok a → post a s) (herror : ∀ e, x = .error e → stop e s) :
    Ensures (Effects.lift x) s post stop := by
  cases x with
  | ok a => exact hok a rfl
  | error e => exact herror e rfl

theorem ok (hx : x s = .ok a t) (h : post a t) : Ensures x s post stop := by
  rw [Ensures, hx]
  exact h

theorem error (hx : x s = .error e t) (h : stop e t) : Ensures x s post stop := by
  rw [Ensures, hx]
  exact h

theorem of_ok (h : Ensures x s post stop) (hx : x s = .ok a t) : post a t := by
  unfold Ensures at h
  rw [hx] at h
  exact h

theorem of_error (h : Ensures x s post stop) (hx : x s = .error e t) : stop e t := by
  unfold Ensures at h
  rw [hx] at h
  exact h

end Ensures

end Effects

end Sui.Library

import Sui.Library.Ordered

/-!
# Computations that may panic

Code with assertions is an `Except`: `ok` with the result, `error` with the assertion that failed. Here, how such computations
and a loop over a list (`List.foldlM`) are taken apart, and the invariant rules for loops.
-/

namespace Sui.Library

open List

variable {ε α β γ : Type}

theorem mem_concat {l : List α} {a b : α} : a ∈ l ++ [b] ↔ a ∈ l ∨ a = b := by
  rw [mem_append, mem_singleton]

namespace Checked

variable {f : α → Except ε β} {x : Except ε α}

/-- A sequence returned: both parts did. -/
theorem bind_ok {b : β} : (x >>= f) = .ok b ↔ ∃ a, x = .ok a ∧ f a = .ok b := by
  cases x with
  | error => simp [bind, Except.bind]
  | ok => simp [bind, Except.bind]

variable {e : ε}

/-- A sequence panicked: the first part did, or it returned and the second did. -/
theorem bind_error : (x >>= f) = .error e ↔ x = .error e ∨ ∃ a, x = .ok a ∧ f a = .error e := by
  cases x with
  | error => simp [bind, Except.bind]
  | ok => simp [bind, Except.bind]

@[simp] theorem ok_bind (a : α) (f : α → Except ε β) : (Except.ok a >>= f) = f a := rfl

@[simp] theorem error_bind (e : ε) (f : α → Except ε β) : (Except.error e >>= f) = .error e := rfl

@[simp] theorem pure_eq_ok (a : α) : (pure a : Except ε α) = .ok a := rfl

variable {a : α}

theorem pure_ok {b : α} : (pure a : Except ε α) = .ok b ↔ a = b := by rw [pure_eq_ok, Except.ok.injEq]

/-- A computation has one result. -/
theorem ok_unique {b : α} (h : x = .ok a) (h' : x = .ok b) : a = b := Except.ok.inj (h.symm.trans h')

/-- Whether a computation panicked with `e` can be decided without comparing results. -/
instance decidableEqError [DecidableEq ε] (x : Except ε α) (e : ε) : Decidable (x = .error e) :=
  match x with
  | .ok _ => .isFalse nofun
  | .error e' => decidable_of_iff (e' = e) ⟨congrArg _, Except.error.inj⟩

/-- An assertion of the source: it returns when the condition holds and panics with `e` when it does not. -/
def assert (c : Bool) (e : ε) : Except ε Unit := if c then .ok () else .error e

variable {c : Bool}

@[simp] theorem assert_ok {u : Unit} : assert c e = .ok u ↔ c = true := by
  cases c <;> simp [assert]

theorem assert_error {e' : ε} : assert c e = .error e' ↔ c = false ∧ e = e' := by
  cases c <;> simp [assert]

@[simp] theorem assert_true (e : ε) : assert true e = .ok () := rfl

/-- Every error of a computation satisfies `P`. -/
def ErrorsIn (P : ε → Prop) (x : Except ε α) : Prop := ∀ e, x = .error e → P e

variable {P : ε → Prop}

theorem ErrorsIn.ok (a : α) : ErrorsIn P (.ok a : Except ε α) := nofun

theorem ErrorsIn.imp {Q : ε → Prop} (h : ErrorsIn P x) (hpq : ∀ e, P e → Q e) : ErrorsIn Q x := fun e he => hpq e (h e he)

theorem ErrorsIn.assert (h : c = false → P e) : ErrorsIn P (assert c e) := by
  intro e' he
  obtain ⟨hc, rfl⟩ := assert_error.mp he
  exact h hc

theorem ErrorsIn.ite {p : Prop} [Decidable p] (h : ¬ p → P e) : ErrorsIn P (if p then .ok a else .error e) := by
  split
  · exact .ok a
  · exact fun _ he => Except.error.inj he ▸ h ‹_›

theorem ErrorsIn.bind (hx : ErrorsIn P x) (hf : ∀ a, x = .ok a → ErrorsIn P (f a)) : ErrorsIn P (x >>= f) := by
  intro e h
  rcases bind_error.mp h with h | ⟨a, ha, h⟩
  · exact hx e h
  · exact hf a ha e h

/-- What a computation guarantees: of the error it ends with, and of the result that it returns. -/
def Meets (P : ε → Prop) (Q : α → Prop) (x : Except ε α) : Prop := ErrorsIn P x ∧ ∀ a, x = .ok a → Q a

theorem Meets.ok {Q : α → Prop} (h : Q a) : Meets P Q (.ok a) := ⟨.ok a, fun _ ha => Except.ok.inj ha ▸ h⟩

theorem Meets.imp {Q R : α → Prop} (h : Meets P Q x) (hqr : ∀ a, Q a → R a) : Meets P R x :=
  ⟨h.1, fun a ha => hqr a (h.2 a ha)⟩

theorem Meets.bind {Q : α → Prop} {R : β → Prop} (hx : Meets P Q x) (hf : ∀ a, Q a → Meets P R (f a)) :
    Meets P R (x >>= f) := by
  refine ⟨.bind hx.1 fun a ha => (hf a (hx.2 a ha)).1, fun b hb => ?_⟩
  obtain ⟨a, ha, hb⟩ := bind_ok.mp hb
  exact (hf a (hx.2 a ha)).2 b hb

/-- Unwrapping: `expect` and `unwrap_or_else(panic)` of the source. -/
def expect (x : Option α) (e : ε) : Except ε α := x.elim (.error e) .ok

@[simp] theorem expect_some (a : α) (e : ε) : expect (some a) e = .ok a := rfl

@[simp] theorem expect_ok {x : Option α} : expect x e = .ok a ↔ x = some a := by
  cases x <;> simp [expect]

theorem ErrorsIn.expect {x : Option α} (h : x = none → P e) : ErrorsIn P (expect x e) := by
  intro e' he
  cases x with
  | some => cases he
  | none => exact Except.error.inj he ▸ h rfl

@[simp] theorem mapError_ok {δ : Type} {f : ε → δ} : x.mapError f = .ok a ↔ x = .ok a := by
  cases x <;> simp [Except.mapError]

theorem mapError_error {δ : Type} {f : ε → δ} {e : δ} : x.mapError f = .error e ↔ ∃ e', x = .error e' ∧ f e' = e := by
  cases x <;> simp [Except.mapError]

/-- A closed computation that ends with the error `e`, by evaluation. -/
theorem eq_error [DecidableEq ε]
    (h : (match x with | .error e' => decide (e' = e) | .ok _ => false) = true) : x = .error e := by
  cases x with
  | error => rw [of_decide_eq_true h]
  | ok => exact absurd h nofun

/-- A computation that returns a value which passes a test, from one evaluation of both. -/
theorem exists_ok (p : α → Bool) (h : (match x with | .ok a => p a | .error _ => false) = true) :
    ∃ a, x = .ok a ∧ p a = true := by
  cases x with
  | error => exact absurd h Bool.false_ne_true
  | ok a => exact ⟨a, rfl, h⟩

variable {l : List α}

section

variable {f : β → α → Except ε β} {b b' : β} (P : List α → β → Prop)

/-- The invariant rule for a loop. The invariant may speak of the elements already processed. -/
theorem Meets.foldlM {E : ε → Prop} (h0 : P [] b)
    (hstep : ∀ pre a post c, l = pre ++ a :: post → P pre c → Meets E (P (pre ++ [a])) (f c a)) :
    Meets E (P l) (l.foldlM f b) := by
  -- the induction is on what is left of the list, with the processed part as a parameter
  suffices H : ∀ (post pre : List α) (c : β), l = pre ++ post → P pre c → Meets E (P l) (post.foldlM f c) from H l [] b rfl h0
  intro post
  induction post with
  | nil =>
    intro pre c hl hc
    exact .ok (by rw [hl, append_nil]; exact hc)
  | cons a post ih =>
    intro pre c hl hc
    rw [foldlM_cons]
    exact (hstep pre a post c hl hc).bind fun c' hc' => ih (pre ++ [a]) c' (by simp [hl]) hc'

/-- The invariant rule for a loop that returned. -/
theorem foldlM_invariant (h : l.foldlM f b = .ok b') (h0 : P [] b)
    (hstep : ∀ pre a post c c', l = pre ++ a :: post → P pre c → f c a = .ok c' → P (pre ++ [a]) c') : P l b' := by
  refine (Meets.foldlM (E := fun _ => True) P h0 fun pre a post c hl hc => ⟨fun _ _ => trivial, ?_⟩).2 b' h
  exact fun c' hc' => hstep pre a post c c' hl hc hc'

/-- What each step of a loop that returned establishes still holds at the end, if the steps after it keep it. -/
theorem foldlM_each {I : β → Prop} {Q : α → β → Prop} (h : l.foldlM f b = .ok b') (h0 : I b)
    (hstep : ∀ a c c', I c → f c a = .ok c' → I c' ∧ Q a c' ∧ ∀ x, Q x c → Q x c') : I b' ∧ ∀ a ∈ l, Q a b' := by
  refine foldlM_invariant (fun done c => I c ∧ ∀ a ∈ done, Q a c) h ⟨h0, nofun⟩ ?_
  rintro pre a post c c' - ⟨hc, hpre⟩ hfc
  obtain ⟨hc', ha, hkeep⟩ := hstep a c c' hc hfc
  refine ⟨hc', fun x hx => ?_⟩
  rcases mem_concat.mp hx with hx | rfl
  · exact hkeep x (hpre x hx)
  · exact ha

/-- The errors of a loop are those of its steps, in states that satisfy the invariant. -/
theorem ErrorsIn.foldlM {Q : ε → Prop} (h0 : P [] b)
    (hstep : ∀ pre a post c c', l = pre ++ a :: post → P pre c → f c a = .ok c' → P (pre ++ [a]) c')
    (herror : ∀ pre a post c, l = pre ++ a :: post → P pre c → ErrorsIn Q (f c a)) : ErrorsIn Q (l.foldlM f b) :=
  (Meets.foldlM P h0 fun pre a post c hl hc => ⟨herror pre a post c hl hc, fun c' => hstep pre a post c c' hl hc⟩).1

/-- The invariant rule for a loop every step of which returns: the loop returns. -/
theorem foldlM_total (h0 : P [] b)
    (hstep : ∀ pre a post c, l = pre ++ a :: post → P pre c → ∃ c', f c a = .ok c' ∧ P (pre ++ [a]) c') :
    ∃ b', l.foldlM f b = .ok b' ∧ P l b' := by
  have h : Meets (fun _ => False) (P l) (l.foldlM f b) := by
    refine .foldlM P h0 fun pre a post c hl hc => ?_
    obtain ⟨c', hfc, hc'⟩ := hstep pre a post c hl hc
    rw [hfc]
    exact .ok hc'
  cases hrun : l.foldlM f b with
  | error e => exact (h.1 e hrun).elim
  | ok b' => exact ⟨b', rfl, h.2 b' hrun⟩

end

/-- A loop that maps returned: every element did. -/
theorem mapM_ok {l' : List β} : l.mapM f = .ok l' ↔ List.Forall₂ (fun a b => f a = .ok b) l l' := by
  induction l generalizing l' with
  | nil =>
    rw [mapM_nil, pure_eq_ok, Except.ok.injEq, forall₂_nil_left_iff]
    exact eq_comm
  | cons a l ih =>
    rw [mapM_cons, bind_ok, forall₂_cons_left_iff]
    constructor
    · rintro ⟨b, hb, hrest⟩
      rw [bind_ok] at hrest
      obtain ⟨bs, hbs, hl⟩ := hrest
      exact ⟨b, bs, hb, ih.mp hbs, (Except.ok.inj hl).symm⟩
    · rintro ⟨b, bs, hb, hbs, rfl⟩
      exact ⟨b, hb, by rw [ih.mpr hbs]; rfl⟩

/-- A loop that maps returned: each element did. -/
theorem exists_of_mapM {l' : List β} (h : l.mapM f = .ok l') (ha : a ∈ l) : ∃ b ∈ l', f a = .ok b :=
  exists_of_forall₂ (mapM_ok.mp h).flip ha

/-- What a loop that maps returned is what it returned for the elements. -/
theorem mem_mapM {l' : List β} (h : l.mapM f = .ok l') {b : β} : b ∈ l' ↔ ∃ a ∈ l, f a = .ok b := by
  refine ⟨exists_of_forall₂ (mapM_ok.mp h), ?_⟩
  rintro ⟨a, ha, hb⟩
  obtain ⟨b', hb', hab⟩ := exists_of_mapM h ha
  exact ok_unique hb hab ▸ hb'

theorem mapM_congr {g : α → Except ε β} (h : ∀ a ∈ l, f a = g a) : l.mapM f = l.mapM g := by
  induction l with
  | nil => rfl
  | cons a l ih =>
    rw [mapM_cons, mapM_cons, h a mem_cons_self, ih fun x hx => h x (mem_cons_of_mem _ hx)]

/-- A loop that maps returns if every element does, and its results are related to the elements as each of them is. -/
theorem mapM_forall₂ {R : α → β → Prop} (h : ∀ a ∈ l, ∃ b, f a = .ok b ∧ R a b) :
    ∃ l', l.mapM f = .ok l' ∧ List.Forall₂ R l l' := by
  induction l with
  | nil => exact ⟨[], rfl, .nil⟩
  | cons a l ih =>
    obtain ⟨b, hb, hR⟩ := h a mem_cons_self
    obtain ⟨l', hl', hall⟩ := ih fun x hx => h x (mem_cons_of_mem _ hx)
    exact ⟨b :: l', by rw [mapM_cons, hb, ok_bind, hl']; rfl, .cons hR hall⟩

/-- A loop that maps returns if every element does. -/
theorem mapM_total (h : ∀ a ∈ l, ∃ b, f a = .ok b) : ∃ l', l.mapM f = .ok l' := by
  obtain ⟨l', hl', -⟩ := mapM_forall₂ (R := fun _ _ => True) fun a ha => (h a ha).imp fun _ hb => ⟨hb, trivial⟩
  exact ⟨l', hl'⟩

/-- A loop that maps returns what its function returns. -/
theorem mapM_eq {g : α → β} (h : ∀ a ∈ l, f a = .ok (g a)) : l.mapM f = .ok (l.map g) := by
  rw [mapM_ok, forall₂_map_right_iff, forall₂_same]
  exact h

/-- The errors of a loop that maps are those of its elements. -/
theorem ErrorsIn.mapM (h : ∀ a ∈ l, ErrorsIn P (f a)) : ErrorsIn P (l.mapM f) := by
  induction l with
  | nil => exact .ok []
  | cons a l ih =>
    rw [mapM_cons]
    exact .bind (h a mem_cons_self) fun _ _ => .bind (ih fun x hx => h x (mem_cons_of_mem _ hx)) fun _ _ => .ok _

/-- A loop without a result returned: every element did. -/
theorem forM_ok {f : α → Except ε Unit} {u : Unit} : l.forM f = .ok u ↔ ∀ a ∈ l, f a = .ok () := by
  induction l with
  | nil => exact iff_of_true rfl fun a ha => absurd ha not_mem_nil
  | cons a l ih =>
    rw [forM_eq_forM, forM_cons, bind_ok, forall_mem_cons, ← ih]
    exact ⟨fun ⟨_, ha, hl⟩ => ⟨ha, hl⟩, fun ⟨ha, hl⟩ => ⟨(), ha, hl⟩⟩

/-- The errors of a loop without a result are those of its elements. -/
theorem ErrorsIn.forM {f : α → Except ε Unit} (h : ∀ a ∈ l, ErrorsIn P (f a)) : ErrorsIn P (l.forM f) := by
  induction l with
  | nil => exact .ok _
  | cons a l ih =>
    rw [forM_eq_forM, forM_cons]
    exact .bind (h a mem_cons_self) fun _ _ => ih fun x hx => h x (mem_cons_of_mem _ hx)

/-- A loop that filters with a test that always returns is the filter. -/
theorem filterM_eq {f : α → Except ε Bool} {p : α → Bool} (h : ∀ a ∈ l, f a = .ok (p a)) : l.filterM f = .ok (l.filter p) := by
  have haux : ∀ acc, l.filterAuxM f acc = .ok ((l.filter p).reverse ++ acc) := by
    induction l with
    | nil => intro acc; rfl
    | cons a l ih =>
      intro acc
      rw [filterAuxM, h a mem_cons_self, ok_bind, ih fun x hx => h x (mem_cons_of_mem _ hx)]
      cases hp : p a <;> simp [hp]
  rw [filterM, haux []]
  simp

end Checked

end Sui.Library

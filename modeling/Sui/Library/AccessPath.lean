import Mathlib.Data.Set.Basic
import Mathlib.Data.List.Basic

/-!
# Paths and the edges that cover them

References that each stand for a path, a list of labels. An edge from `p` to `q` holds the words by which the path of `q` may
extend the path of `p`; the edges are sound when they hold every word by which it does.
-/

namespace Sui.Library.AccessPath

variable {R L : Type}

/-- Every live reference whose path extends the path of another is reached from it by an edge that holds the word between them. -/
def Sound (live : R → Prop) (path : R → List L) (edge : R → R → List L → Prop) : Prop :=
  ∀ p q, live p → live q → ∀ w, path q = path p ++ w → edge p q w

variable {live live' : R → Prop} {path path' : R → List L} {edge edge' : R → R → List L → Prop}

/-- Fewer references, and the same words or more between them. -/
theorem Sound.mono (h : Sound live path edge) (hlive : ∀ r, live' r → live r)
    (hedge : ∀ p q w, live' p → live' q → edge p q w → edge' p q w) : Sound live' path edge' := by
  intro p q hp hq w hw
  exact hedge p q w hp hq (h p q (hlive p hp) (hlive q hq) w hw)

/-- References under new names: each name stands for a reference with the same path, and the edges follow the references. -/
theorem Sound.rename {S : Type} {live' : S → Prop} {path' : S → List L} {edge' : S → S → List L → Prop}
    (h : Sound live path edge) (name : S → R → Prop) (hname : ∀ s, live' s → ∃ r, live r ∧ name s r)
    (hpath : ∀ s r, name s r → path' s = path r)
    (hedge : ∀ s t p q w, live' s → live' t → name s p → name t q → edge p q w → edge' s t w) : Sound live' path' edge' := by
  intro s t hs ht w hw
  obtain ⟨p, hp, hsp⟩ := hname s hs
  obtain ⟨q, hq, htq⟩ := hname t ht
  rw [hpath s p hsp, hpath t q htq] at hw
  exact hedge s t p q w hs ht hsp htq (h p q hp hq w hw)

/-- What is added for a new reference `n` whose path extends that of `s` by `e`: the word to `s` extended by `e`, and what is
left of a word from `s` after `e` and of `e` after a word from `s`. -/
structure Extends (live : R → Prop) (edge edge' : R → R → List L → Prop) (s n : R) (e : List L) : Prop where
  concat : ∀ x u, live x → edge x s u → edge' x n (u ++ e)
  behind : ∀ x v w, live x → edge s x v → e = v ++ w → edge' x n w
  ahead : ∀ x w, live x → edge s x (e ++ w) → edge' n x w

/-- New references, each of which extends a live one and gets the edges of `Extends`, and whose edges to one another are sound. -/
theorem Sound.extend (h : Sound live path edge) (new : R → Prop) (hlive : ∀ r, live' r → live r ∨ new r)
    (hpath : ∀ r, live r → path' r = path r) (hedge : ∀ p q w, live p → live q → edge p q w → edge' p q w)
    (hnew : ∀ n, new n → ∃ s e, live s ∧ path' n = path s ++ e ∧ Extends live edge edge' s n e)
    (hself : Sound new path' edge') : Sound live' path' edge' := by
  intro p q hp hq w hw
  rcases hlive p hp with hp | hp
  · rcases hlive q hq with hq | hq
    · rw [hpath p hp, hpath q hq] at hw
      exact hedge p q w hp hq (h p q hp hq w hw)
    · obtain ⟨s, e, hs, hn, hext⟩ := hnew q hq
      rw [hn, hpath p hp] at hw
      -- the path of the old reference ends before or after the path of the source
      rcases List.append_eq_append_iff.mp hw with ⟨v, hv, he⟩ | ⟨u, hu, rfl⟩
      · exact hext.behind p v w hp (h s p hs hp v hv) he
      · exact hext.concat p u hp (h p s hp hs u hu)
  · rcases hlive q hq with hq | hq
    · obtain ⟨s, e, hs, hn, hext⟩ := hnew p hp
      rw [hn, hpath q hq, List.append_assoc] at hw
      exact hext.ahead q w hq (h s q hs hq (e ++ w) hw)
    · exact hself p q hp hq w hw

end Sui.Library.AccessPath

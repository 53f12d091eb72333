import Mathlib

/-!
# Ordered sets and maps

`BTreeMap` and `BTreeSet` of the source. The map is the standard library's extensional tree map, the set is a `Finset`; here,
the iteration of a set in order, its first and last element, and the lookups of a map stated with equality of keys instead of
`compare`.
-/

namespace Sui.Library

open List Std.ExtTreeMap

/-- Comparing in a linear order returns `eq` on equal elements only. -/
instance lawfulEqOrd {α : Type*} [LinearOrder α] : Std.LawfulEqOrd α where
  eq_of_compare h := compare_eq_iff_eq.mp h

/-- Comparing in a linear order is transitive. -/
instance transCmp {α : Type*} [LinearOrder α] : Std.TransCmp (compare : α → α → Ordering) := inferInstance

/-- An ordered map. -/
abbrev BTreeMap (K V : Type) [LinearOrder K] := Std.ExtTreeMap K V compare

/-- An ordered set. -/
abbrev BTreeSet (K : Type) := Finset K

namespace BTreeSet

variable {α : Type} [LinearOrder α]

/-- The elements of a set in ascending order: the order in which a loop over the set visits them. -/
def iter (s : BTreeSet α) : List α :=
  Quot.liftOn s.val (List.insertionSort (· ≤ ·)) fun _ _ h =>
    List.Perm.eq_of_pairwise' (List.pairwise_insertionSort _ _) (List.pairwise_insertionSort _ _)
      ((List.perm_insertionSort _ _).trans (h.trans (List.perm_insertionSort _ _).symm))

/-- The iteration visits the elements of the set, each as often as the set holds it. -/
theorem coe_iter (s : BTreeSet α) : (iter s : Multiset α) = s.val := by
  obtain ⟨m, hm⟩ := s
  induction m using Quot.inductionOn with
  | h => exact Quot.sound (perm_insertionSort _ _)

variable {s : BTreeSet α}

@[simp] theorem mem_iter {a : α} : a ∈ iter s ↔ a ∈ s := by
  rw [← Multiset.mem_coe, coe_iter, Finset.mem_val]

theorem nodup_iter (s : BTreeSet α) : (iter s).Nodup := by
  rw [← Multiset.coe_nodup, coe_iter]
  exact s.nodup

theorem pairwise_iter (s : BTreeSet α) : (iter s).Pairwise (· ≤ ·) := by
  obtain ⟨m, hm⟩ := s
  induction m using Quot.inductionOn with
  | h => exact pairwise_insertionSort _ _

@[simp] theorem toFinset_iter (s : BTreeSet α) : (iter s).toFinset = s := by
  ext a
  simp

@[simp] theorem iter_eq_nil : iter s = [] ↔ s = ∅ := by
  rw [eq_nil_iff_forall_not_mem, Finset.eq_empty_iff_forall_notMem]
  simp

/-- The last element: `last` of the source. -/
def last? (s : BTreeSet α) : Option α := (iter s).getLast?

theorem last?_eq_none : last? s = none ↔ s = ∅ := by
  simp [last?, getLast?_eq_none_iff]

theorem last?_eq_some {a : α} (h : last? s = some a) : a ∈ s ∧ ∀ b ∈ s, b ≤ a := by
  obtain ⟨l, hl⟩ := getLast?_eq_some_iff.mp h
  have hp := pairwise_iter s
  rw [hl, pairwise_append] at hp
  refine ⟨mem_iter.mp (by rw [hl]; simp), fun b hb => ?_⟩
  have hb' := mem_iter.mpr hb
  rw [hl, mem_append, mem_singleton] at hb'
  rcases hb' with hb' | rfl
  · exact hp.2.2 b hb' a mem_cons_self
  · exact le_refl _

/-- The iteration of a set that has one element more than another one. -/
theorem perm_iter_cons {s t : BTreeSet α} {a : α} (ha : a ∉ s) (h : ∀ b, b ∈ t ↔ b = a ∨ b ∈ s) : (iter t).Perm (a :: iter s) := by
  refine (perm_ext_iff_of_nodup (nodup_iter t) (nodup_cons.mpr ⟨mt mem_iter.mp ha, nodup_iter s⟩)).mpr fun b => ?_
  rw [mem_iter, mem_cons, mem_iter, h b]

/-- Removing first elements while a downward closed condition holds removes all elements with the condition. -/
theorem mem_takeWhile_iter {p : α → Bool} (hp : ∀ a b, a ≤ b → p b = true → p a = true) {a : α} :
    a ∈ (iter s).takeWhile p ↔ a ∈ s ∧ p a = true := by
  suffices H : ∀ l : List α, l.Pairwise (· ≤ ·) → (a ∈ l.takeWhile p ↔ a ∈ l ∧ p a = true) by
    rw [H _ (pairwise_iter s), mem_iter]
  intro l hl
  induction l with
  | nil => simp
  | cons x l ih =>
    rw [pairwise_cons] at hl
    by_cases hx : p x = true
    · rw [takeWhile_cons_of_pos hx, mem_cons, mem_cons, ih hl.2]
      constructor
      · rintro (rfl | ⟨ha, hpa⟩)
        · exact ⟨.inl rfl, hx⟩
        · exact ⟨.inr ha, hpa⟩
      · rintro ⟨rfl | ha, hpa⟩
        · exact .inl rfl
        · exact .inr ⟨ha, hpa⟩
    · rw [takeWhile_cons_of_neg hx]
      refine ⟨fun h => absurd h not_mem_nil, ?_⟩
      rintro ⟨ha, hpa⟩
      rcases mem_cons.mp ha with rfl | ha
      · exact absurd hpa hx
      · exact absurd (hp x a (hl.1 a ha) hpa) hx

/-- An ascending list of the elements of a set is its iteration. -/
theorem iter_eq_of_pairwise {l : List α} (hl : l.Pairwise (· < ·)) (h : ∀ a, a ∈ l ↔ a ∈ s) : iter s = l := by
  have hnodup : l.Nodup := hl.imp fun hab => ne_of_lt hab
  have hperm : (iter s).Perm l := (perm_ext_iff_of_nodup (nodup_iter s) hnodup).mpr fun a => by rw [mem_iter, h]
  exact hperm.eq_of_pairwise' (pairwise_iter s) (hl.imp fun hab => le_of_lt hab)

end BTreeSet

namespace BTreeMap

variable {K V : Type} [LinearOrder K]

theorem get_insert (m : BTreeMap K V) (k k' : K) (v : V) : (m.insert k v)[k']? = if k = k' then some v else m[k']? := by
  rw [Std.ExtTreeMap.getElem?_insert]
  simp only [Std.LawfulEqCmp.compare_eq_iff_eq]

theorem get_erase (m : BTreeMap K V) (k k' : K) : (m.erase k)[k']? = if k = k' then none else m[k']? := by
  rw [getElem?_erase]
  simp only [Std.LawfulEqCmp.compare_eq_iff_eq]

theorem get_modify (m : BTreeMap K V) (k k' : K) (f : V → V) :
    (m.modify k f)[k']? = if k = k' then m[k']?.map f else m[k']? := by
  rw [Std.ExtTreeMap.getElem?_modify]
  simp only [Std.LawfulEqCmp.compare_eq_iff_eq]
  split_ifs with h
  · rw [h]
  · rfl

@[simp] theorem get_empty (k : K) : (∅ : BTreeMap K V)[k]? = none :=
  getElem?_empty

variable {m : BTreeMap K V} {k : K}

/-- What holds of every entry holds after an insertion, if it holds of the new entry. -/
theorem forall_insert {P : K → V → Prop} {v : V} (h : ∀ k v, m[k]? = some v → P k v) (hv : P k v) :
    ∀ k' v', (m.insert k v)[k']? = some v' → P k' v' := by
  intro k' v' hget
  rw [get_insert] at hget
  split_ifs at hget with heq
  · exact heq ▸ Option.some.inj hget ▸ hv
  · exact h k' v' hget

theorem forall_erase {P : K → V → Prop} (h : ∀ k v, m[k]? = some v → P k v) (k : K) :
    ∀ k' v', (m.erase k)[k']? = some v' → P k' v' := by
  intro k' v' hget
  rw [get_erase] at hget
  split at hget
  · cases hget
  · exact h k' v' hget

@[simp] theorem mem_toList {v : V} : (k, v) ∈ m.toList ↔ m[k]? = some v :=
  mem_toList_iff_getElem?_eq_some

@[simp] theorem toList_empty : (∅ : BTreeMap K V).toList = [] := toList_eq_nil_iff.mpr rfl

/-- A loop over a map visits its keys in ascending order, each once. -/
theorem pairwise_toList (m : BTreeMap K V) : m.toList.Pairwise fun a b => a.1 < b.1 := by
  refine ordered_keys_toList.imp ?_
  intro a b h
  exact compare_lt_iff_lt.mp h

theorem nodup_toList (m : BTreeMap K V) : (m.toList.map Prod.fst).Nodup := by
  rw [map_fst_toList_eq_keys]
  exact nodup_keys

variable {α : Type}

/-- A map with the entries of a list inserted one after the other: the last entry of a key wins. -/
theorem get_foldl_insert (f : α → K) (g : α → V) (l : List α) (m : BTreeMap K V) (k : K) :
    (l.foldl (fun m x => m.insert (f x) (g x)) m)[k]? = ((l.reverse.find? fun x => f x = k).map g).or m[k]? := by
  induction l generalizing m with
  | nil => simp
  | cons x l ih =>
    rw [foldl_cons, ih, get_insert, reverse_cons, find?_append]
    cases hf : l.reverse.find? fun x => f x = k with
    | some => simp
    | none =>
      by_cases hk : f x = k
      · simp [hk]
      · simp [hk]

variable {f : α → K} {l : List α}

/-- What is found under a key after the insertions was there before or is one of the entries. -/
theorem get_foldl_insert_some {g : α → V} {v : V} (h : (l.foldl (fun m x => m.insert (f x) (g x)) m)[k]? = some v) :
    m[k]? = some v ∨ ∃ x ∈ l, f x = k ∧ g x = v := by
  rw [get_foldl_insert] at h
  cases hf : l.reverse.find? fun x => f x = k with
  | none =>
    rw [hf] at h
    exact .inl (by simpa using h)
  | some x =>
    rw [hf] at h
    refine .inr ⟨x, mem_reverse.mp (mem_of_find?_eq_some hf), by simpa using find?_some hf, ?_⟩
    simpa using h

/-- After the insertions a key has an entry iff it had one before or has one in the list. -/
theorem isSome_foldl_insert (f : α → K) (g : α → V) (l : List α) (m : BTreeMap K V) (k : K) :
    (l.foldl (fun m x => m.insert (f x) (g x)) m)[k]?.isSome ↔ m[k]?.isSome ∨ ∃ x ∈ l, f x = k := by
  rw [get_foldl_insert, Option.isSome_or, Option.isSome_map, Bool.or_eq_true, find?_isSome]
  simp only [mem_reverse, decide_eq_true_eq]
  exact or_comm

/-- The insertions of entries that are determined by their keys. -/
theorem get_foldl_insert_mem {g : α → V} (F : K → V) (hF : ∀ x ∈ l, g x = F (f x))
    (m : BTreeMap K V) (hk : k ∈ l.map f) : (l.foldl (fun m x => m.insert (f x) (g x)) m)[k]? = some (F k) := by
  rw [get_foldl_insert]
  obtain ⟨x, hx, hfx⟩ := mem_map.mp hk
  cases hf : l.reverse.find? fun x => f x = k with
  | some y =>
    have hy : y ∈ l := mem_reverse.mp (mem_of_find?_eq_some hf)
    have hfy : f y = k := by simpa using find?_some hf
    rw [Option.map_some, Option.some_or, hF y hy, hfy]
  | none =>
    rw [find?_eq_none] at hf
    exact absurd (by simpa using hfx) (hf x (mem_reverse.mpr hx))

/-- The insertions do not touch the other keys. -/
theorem get_foldl_insert_not_mem {g : α → V} (m : BTreeMap K V)
    (hk : k ∉ l.map f) : (l.foldl (fun m x => m.insert (f x) (g x)) m)[k]? = m[k]? := by
  have hnone : (l.reverse.find? fun x => f x = k) = none := by
    rw [find?_eq_none]
    intro x hx hfx
    exact hk (mem_map.mpr ⟨x, mem_reverse.mp hx, by simpa using hfx⟩)
  rw [get_foldl_insert, hnone, Option.map_none, Option.none_or]

/-- The entries of a map inserted into another one. -/
theorem get_foldl_insert_toList (m m' : BTreeMap K V) (k : K) :
    (m'.toList.foldl (fun m p => m.insert p.1 p.2) m)[k]? = m'[k]?.or m[k]? := by
  rw [get_foldl_insert]
  congr 1
  cases hf : m'.toList.reverse.find? fun p => p.1 = k with
  | some p =>
    have hp : p ∈ m'.toList := mem_reverse.mp (mem_of_find?_eq_some hf)
    have hk : p.1 = k := by simpa using find?_some hf
    exact (hk ▸ mem_toList.mp hp).symm
  | none =>
    rw [find?_eq_none] at hf
    symm
    by_contra hne
    obtain ⟨v, hv⟩ := Option.ne_none_iff_exists'.mp hne
    exact hf (k, v) (mem_reverse.mpr (mem_toList.mpr hv)) (by simp)

theorem get_foldl_erase (l : List K) (m : BTreeMap K V) (k : K) :
    (l.foldl (fun m x => m.erase x) m)[k]? = if k ∈ l then none else m[k]? := by
  induction l generalizing m with
  | nil => simp
  | cons x l ih =>
    rw [foldl_cons, ih, get_erase]
    by_cases hl : k ∈ l
    · simp [hl]
    · by_cases hx : x = k
      · simp [hx]
      · simp [hl, hx, Ne.symm hx]

/-- The keys of a map, as a set. -/
def keySet (m : BTreeMap K V) : BTreeSet K := m.keys.toFinset

@[simp] theorem mem_keySet : k ∈ keySet m ↔ m[k]?.isSome := by
  rw [keySet, List.mem_toFinset, Std.ExtTreeMap.mem_keys, Std.ExtTreeMap.mem_iff_isSome_getElem?]

theorem keySet_insert (m : BTreeMap K V) (k : K) (v : V) : keySet (m.insert k v) = insert k (keySet m) := by
  ext x
  rw [mem_keySet, get_insert, Finset.mem_insert, mem_keySet]
  by_cases h : k = x
  · simp [h]
  · simp [h, Ne.symm h]

/-- A key that is removed. -/
theorem size_erase {v : V} (h : m[k]? = some v) : (m.erase k).size + 1 = m.size := by
  have hmem : k ∈ m := mem_iff_isSome_getElem?.mpr (by rw [h]; rfl)
  have hpos : m.size ≠ 0 := by
    rw [← length_keys, Ne, length_eq_zero_iff]
    exact ne_nil_of_mem (mem_keys.mpr hmem)
  rw [Std.ExtTreeMap.size_erase, if_pos (Std.ExtTreeMap.contains_iff_mem.mpr hmem)]
  omega

/-- A map is empty if it has no entry. -/
theorem eq_empty_iff : m = ∅ ↔ ∀ k : K, m[k]? = none := by
  rw [eq_empty_iff_forall_not_mem]
  refine forall_congr' fun k => ?_
  rw [mem_iff_isSome_getElem?, Option.not_isSome_iff_eq_none]

/-- An ascending list of the entries of a map is its iteration. -/
theorem toList_eq_of_pairwise {l : List (K × V)} (hl : l.Pairwise fun a b => a.1 < b.1)
    (h : ∀ k v, (k, v) ∈ l ↔ m[k]? = some v) : m.toList = l := by
  have hperm : m.toList.Perm l := by
    refine (perm_ext_iff_of_nodup ((pairwise_toList m).imp ?_) (hl.imp ?_)).mpr fun ⟨k, v⟩ => by rw [mem_toList, h]
    · intro a b hab heq
      exact absurd (heq ▸ hab) (lt_irrefl _)
    · intro a b hab heq
      exact absurd (heq ▸ hab) (lt_irrefl _)
  refine List.Perm.eq_of_pairwise ?_ (pairwise_toList m) hl hperm
  intro a b _ _ hab hba
  exact absurd (hab.trans hba) (lt_irrefl _)

/-- The map of entries that come in ascending order of their keys. -/
theorem toList_foldl_insert (g : α → V) (hl : l.Pairwise fun a b => f a < f b) :
    (l.foldl (fun m x => m.insert (f x) (g x)) (∅ : BTreeMap K V)).toList = l.map fun x => (f x, g x) := by
  have hnodup : (l.map f).Nodup := pairwise_map.mpr (hl.imp fun h => ne_of_lt h)
  refine toList_eq_of_pairwise (pairwise_map.mpr hl) fun k v => ?_
  constructor
  · intro h
    obtain ⟨x, hx, hkv⟩ := mem_map.mp h
    obtain ⟨rfl, rfl⟩ := Prod.mk.inj hkv
    obtain ⟨v, hv⟩ := Option.isSome_iff_exists.mp ((isSome_foldl_insert f g l ∅ (f x)).mpr (.inr ⟨x, hx, rfl⟩))
    rcases get_foldl_insert_some hv with h | ⟨y, hy, hfy, rfl⟩
    · simp at h
    · rw [hv, inj_on_of_nodup_map hnodup hy hx hfy]
  · intro h
    rcases get_foldl_insert_some h with h | ⟨x, hx, rfl, rfl⟩
    · simp at h
    · exact mem_map_of_mem hx

theorem keySet_erase (m : BTreeMap K V) (k : K) : keySet (m.erase k) = (keySet m).erase k := by
  ext x
  rw [mem_keySet, get_erase, Finset.mem_erase, mem_keySet]
  by_cases h : k = x
  · simp [h]
  · simp [h, Ne.symm h]

end BTreeMap

/-- A property that each step of a fold can only add. -/
theorem foldl_iff {α β : Type} {f : β → α → β} (P : β → Prop) (Q : α → Prop) (h : ∀ b a, P (f b a) ↔ P b ∨ Q a) (l : List α) (b : β) :
    P (l.foldl f b) ↔ P b ∨ ∃ a ∈ l, Q a := by
  induction l generalizing b with
  | nil => simp
  | cons a l ih => rw [foldl_cons, ih, h, exists_mem_cons_iff, or_assoc]

/-- A relation that is a function of the left list. -/
theorem forall₂_iff_eq_map {α β : Type} {f : α → β} {l : List α} {l' : List β} :
    List.Forall₂ (fun a b => b = f a) l l' ↔ l' = l.map f := by
  induction l generalizing l' with
  | nil => simp
  | cons a l ih => cases l' <;> simp [ih]

/-- Lists that are related by what two functions make of their elements. -/
theorem map_eq_of_forall₂ {α β γ : Type} {f : α → γ} {g : β → γ} {l : List α} {l' : List β}
    (h : List.Forall₂ (fun a b => g b = f a) l l') : l'.map g = l.map f :=
  forall₂_iff_eq_map.mp (forall₂_map_right_iff.mpr h)

/-- Each element of the second of two related lists is related to one of the first. -/
theorem exists_of_forall₂ {α β : Type} {R : α → β → Prop} {l : List α} {l' : List β} (h : List.Forall₂ R l l') {b : β}
    (hb : b ∈ l') : ∃ a ∈ l, R a b := by
  induction h with
  | nil => cases hb
  | cons hxy _ ih =>
    rcases mem_cons.mp hb with rfl | hb
    · exact ⟨_, mem_cons_self, hxy⟩
    · obtain ⟨a, ha, hab⟩ := ih hb
      exact ⟨a, mem_cons_of_mem _ ha, hab⟩

/-- The first part of two lists is a part of the first, or the first and a part of the second. -/
theorem prefix_append_cases {α : Type} {l a b : List α} (h : l <+: a ++ b) : l <+: a ∨ ∃ l', l = a ++ l' ∧ l' <+: b := by
  obtain ⟨r, hr⟩ := h
  rcases append_eq_append_iff.mp hr with ⟨c, rfl, -⟩ | ⟨c, rfl, rfl⟩
  · exact .inl (prefix_append _ _)
  · exact .inr ⟨c, rfl, prefix_append _ _⟩

end Sui.Library

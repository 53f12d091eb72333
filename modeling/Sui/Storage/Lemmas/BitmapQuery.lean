import Mathlib.Data.Finset.Lattice.Basic
import Mathlib.Tactic.Linarith
import Sui.Storage.BitmapQuery

/-!
# Rounds of a bitmap query

What a round does to its leaves, its terms and its output, for both directions at once: positions are compared through
`ScanDirection.key`.
-/

namespace Sui.InvertedIndex

open Library List ScanDirection

variable {K E : Type}

/-! ## Positions -/

namespace ScanDirection

variable {d : ScanDirection}

theorem key_injective : Function.Injective d.key := by
  intro a b h
  cases d <;> simpa [key] using h

theorem key_boundInDirection (a b : Nat) : d.key (boundInDirection a b d) = min (d.key a) (d.key b) := by
  cases d with
  | ascending => simp [key, boundInDirection]
  | descending => simp [key, boundInDirection, min_neg_neg]

theorem frontierAdvanced_some {p q : Nat} : frontierAdvanced (some p) q d = true ↔ d.key p < d.key q := by
  cases d <;> simp [frontierAdvanced, key]

/-- A reduction with the bound of the direction is the first element in the direction. -/
theorem reduce_bound {l : List Nat} {m : Nat} (h : reduce (boundInDirection · · d) l = some m) :
    m ∈ l ∧ ∀ x ∈ l, d.key m ≤ d.key x := by
  have hfold : ∀ (l : List Nat) (a : Nat), (l.foldl (boundInDirection · · d) a ∈ a :: l) ∧
      ∀ x ∈ a :: l, d.key (l.foldl (boundInDirection · · d) a) ≤ d.key x := by
    intro l
    induction l with
    | nil =>
      intro a
      simp
    | cons b l ih =>
      intro a
      obtain ⟨hmem, hle⟩ := ih (boundInDirection a b d)
      have hmin := key_boundInDirection (d := d) a b
      have hbound : boundInDirection a b d = a ∨ boundInDirection a b d = b := by
        rcases min_choice (d.key a) (d.key b) with h | h
        · exact .inl (key_injective (hmin.trans h))
        · exact .inr (key_injective (hmin.trans h))
      refine ⟨?_, ?_⟩
      · rw [foldl_cons]
        rcases mem_cons.mp hmem with h | h
        · rw [h]
          rcases hbound with h | h <;> simp [h]
        · exact mem_cons_of_mem _ (mem_cons_of_mem _ h)
      · intro x hx
        rw [foldl_cons]
        have hhead := hle _ mem_cons_self
        rcases mem_cons.mp hx with rfl | hx
        · exact hhead.trans (hmin.le.trans (min_le_left _ _))
        · rcases mem_cons.mp hx with rfl | hx
          · exact hhead.trans (hmin.le.trans (min_le_right _ _))
          · exact hle x (mem_cons_of_mem _ hx)
  cases l with
  | nil => exact absurd h nofun
  | cons a l =>
    obtain rfl := Option.some.inj h
    exact hfold l a

theorem reduce_isSome {α : Type} {f : α → α → α} {l : List α} (h : l ≠ []) : ∃ m, reduce f l = some m := by
  cases l with
  | nil => exact absurd rfl h
  | cons => exact ⟨_, rfl⟩

end ScanDirection

namespace Request

variable {req : Request} {b b' : Nat}

section

variable (h : req.InRange b)

include h

/-- The edges of a bucket of the range do not saturate. -/
theorem bucketEdges_eq : bucketEdges req b = match req.direction with
    | .ascending => (max (b * req.bucketSize) req.range.start, min ((b + 1) * req.bucketSize) req.range.stop)
    | .descending => (min ((b + 1) * req.bucketSize) req.range.stop, max (b * req.bucketSize) req.range.start) := by
  have hstop := req.range.stop_lt
  have hmul : (b + 1) * req.bucketSize = b * req.bucketSize + req.bucketSize := Nat.succ_mul _ _
  simp only [InRange] at h
  have hlow : min (b * req.bucketSize) (2 ^ 64 - 1) = b * req.bucketSize := by omega
  have hhigh : min (min (b * req.bucketSize + req.bucketSize) (2 ^ 64 - 1)) req.range.stop =
      min ((b + 1) * req.bucketSize) req.range.stop := by omega
  cases hd : req.direction <;> simp only [bucketEdges, hd, hlow, hhigh]

theorem pre_lt_post : req.direction.key (bucketEdges req b).1 < req.direction.key (bucketEdges req b).2 := by
  rw [bucketEdges_eq h]
  simp only [InRange] at h
  cases req.direction <;> simp only [key] <;> omega

theorem post_le_pre (h' : req.InRange b') (hb : req.direction.key b < req.direction.key b') :
    req.direction.key (bucketEdges req b).2 ≤ req.direction.key (bucketEdges req b').1 := by
  rw [bucketEdges_eq h, bucketEdges_eq h']
  cases hd : req.direction with
  | ascending =>
    have hle : b + 1 ≤ b' := by simp only [key, hd] at hb; omega
    have hmul := Nat.mul_le_mul_right req.bucketSize hle
    simp only [key]
    omega
  | descending =>
    have hle : b' + 1 ≤ b := by simp only [key, hd] at hb; omega
    have hmul := Nat.mul_le_mul_right req.bucketSize hle
    simp only [key]
    omega

theorem floor_le_pre : req.direction.key req.requestFloor ≤ req.direction.key (bucketEdges req b).1 := by
  rw [bucketEdges_eq h]
  cases hd : req.direction <;> simp only [key, requestFloor, hd] <;> omega

theorem post_le_terminus : req.direction.key (bucketEdges req b).2 ≤ req.direction.key req.terminus := by
  rw [bucketEdges_eq h]
  cases hd : req.direction <;> simp only [key, terminus, hd] <;> omega

end

end Request

/-! ## The snapshot -/

/-- The bitmap of a leaf on the floor. -/
def Snapshot.bitmap (s : Snapshot) (i : Nat) : Option RoaringBitmap :=
  if s.onFloor[i]?.getD false then s.bitmaps[i]?.getD none else none

/-- The snapshot still has the bitmaps `orig` for the slots that are to come. -/
structure Snapshot.Holds (s : Snapshot) (orig : Nat → Option RoaringBitmap) (slots : List Nat) : Prop where
  off : ∀ i, s.onFloor[i]?.getD false = false → orig i = none
  refs : ∀ i, s.onFloor[i]?.getD false = true → slots.count i ≤ s.remainingRefs[i]?.getD 0
  bitmaps : ∀ i, s.onFloor[i]?.getD false = true → 0 < s.remainingRefs[i]?.getD 0 → s.bitmaps[i]?.getD none = orig i

variable {orig : Nat → Option RoaringBitmap} {s : Snapshot}

theorem takeSnapshotBitmap_holds {i : Nat} {slots : List Nat} (h : s.Holds orig (i :: slots)) :
    (takeSnapshotBitmap s i).1 = orig i ∧ (takeSnapshotBitmap s i).2.Holds orig slots := by
  unfold takeSnapshotBitmap
  split
  · rename_i hon
    have hcount := h.refs i hon
    rw [count_cons_self] at hcount
    have hlen : i < s.remainingRefs.length := by
      rcases lt_or_ge i s.remainingRefs.length with hlt | hge
      · exact hlt
      · rw [List.getElem?_eq_none hge] at hcount
        simp at hcount
    have hbit := h.bitmaps i hon (by omega)
    have hset : ∀ (j n : Nat), (s.remainingRefs.set i n)[j]?.getD 0 = if i = j then n else s.remainingRefs[j]?.getD 0 := by
      intro j n
      rw [List.getElem?_set]
      split_ifs with hij
      · subst hij
        simp
      · rfl
    have hrefs : ∀ j, s.onFloor[j]?.getD false = true →
        slots.count j ≤ (s.remainingRefs.set i (s.remainingRefs[i]?.getD 0 - 1))[j]?.getD 0 := by
      intro j hj
      rw [hset]
      split_ifs with hij
      · subst hij
        omega
      · have hle := h.refs j hj
        rwa [count_cons_of_ne hij] at hle
    dsimp only
    split
    · refine ⟨hbit, h.off, hrefs, ?_⟩
      intro j hj hpos
      rw [hset] at hpos
      split_ifs at hpos with hij
      · subst hij
        exact hbit
      · exact h.bitmaps j hj hpos
    · refine ⟨hbit, h.off, hrefs, ?_⟩
      intro j hj hpos
      rw [hset] at hpos
      split_ifs at hpos with hij
      · omega
      · rw [List.getElem?_set_ne hij]
        exact h.bitmaps j hj hpos
  · rename_i hoff
    have hoff : s.onFloor[i]?.getD false = false := by simpa using hoff
    refine ⟨(h.off i hoff).symm, h.off, ?_, h.bitmaps⟩
    intro j hj
    have hle := h.refs j hj
    have hij : i ≠ j := fun hij => by
      subst hij
      rw [hoff] at hj
      exact absurd hj nofun
    rwa [count_cons_of_ne hij] at hle

theorem takeSnapshotBitmaps_holds (is slots : List Nat) (h : s.Holds orig (is ++ slots)) :
    (takeSnapshotBitmaps s is).1 = is.map orig ∧ (takeSnapshotBitmaps s is).2.Holds orig slots := by
  induction is generalizing s with
  | nil => exact ⟨rfl, h⟩
  | cons _ _ ih =>
    obtain ⟨hbit, h'⟩ := takeSnapshotBitmap_holds h
    obtain ⟨hbits, h''⟩ := ih h'
    simp only [takeSnapshotBitmaps, map_cons, hbit, hbits]
    exact ⟨trivial, h''⟩

/-- The slots of the satisfiable terms, in the order in which they are taken. -/
def slots (terms : List TermSpec) : List Nat :=
  terms.flatMap fun t => if t.unsatisfiable then [] else t.includes ++ t.excludes

theorem countOnFloorRefs_eq (terms : List TermSpec) (onFloor : List Bool) {i : Nat} (hi : onFloor[i]?.getD false = true) :
    (countOnFloorRefs terms onFloor)[i]?.getD 0 = (slots terms).count i := by
  have hlen : i < onFloor.length := by
    rcases lt_or_ge i onFloor.length with h | h
    · exact h
    · rw [List.getElem?_eq_none h] at hi
      exact absurd hi nofun
  have hslots : ∀ (l : List Nat) (refs : List Nat), refs.length = onFloor.length →
      (l.foldl (fun refs i => if onFloor[i]?.getD false then refs.modify i (· + 1) else refs) refs).length = onFloor.length ∧
      (l.foldl (fun refs i => if onFloor[i]?.getD false then refs.modify i (· + 1) else refs) refs)[i]?.getD 0 =
        refs[i]?.getD 0 + l.count i := by
    intro l
    induction l with
    | nil =>
      intro refs hrefs
      exact ⟨hrefs, rfl⟩
    | cons j l ih =>
      intro refs hrefs
      rw [foldl_cons]
      split_ifs with hoff
      · obtain ⟨h1, h2⟩ := ih (refs.modify j (· + 1)) (by rw [length_modify]; exact hrefs)
        refine ⟨h1, h2.trans ?_⟩
        rw [List.getElem?_modify]
        by_cases hij : j = i
        · subst hij
          rw [count_cons_self, List.getElem?_eq_getElem (hrefs ▸ hlen)]
          simp
          omega
        · rw [count_cons_of_ne hij]
          simp [hij]
      · obtain ⟨h1, h2⟩ := ih refs hrefs
        refine ⟨h1, h2.trans ?_⟩
        have hij : j ≠ i := fun hij => hoff (hij ▸ hi)
        rw [count_cons_of_ne hij]
  have hterms : ∀ (ts : List TermSpec) (refs : List Nat), refs.length = onFloor.length →
      (ts.foldl (fun refs term => if term.unsatisfiable then refs else (term.includes ++ term.excludes).foldl
        (fun refs i => if onFloor[i]?.getD false then refs.modify i (· + 1) else refs) refs) refs)[i]?.getD 0 =
        refs[i]?.getD 0 + (slots ts).count i := by
    intro ts
    induction ts with
    | nil =>
      intro refs _
      rfl
    | cons t ts ih =>
      intro refs hrefs
      have hcons : slots (t :: ts) = (if t.unsatisfiable then [] else t.includes ++ t.excludes) ++ slots ts := rfl
      rw [foldl_cons, hcons, count_append]
      split
      · rw [ih refs hrefs]
        simp
      · obtain ⟨h1, h2⟩ := hslots (t.includes ++ t.excludes) refs hrefs
        rw [ih _ h1, h2]
        omega
  rw [countOnFloorRefs, hterms terms _ length_replicate]
  simp [hlen]

/-! ## The terms at a bucket -/

/-- A non-empty bitmap with the members of a predicate, or none if it has no members. -/
def Bits (r : Option RoaringBitmap) (P : Nat → Prop) : Prop :=
  match r with
  | none => ∀ o, ¬ P o
  | some bm => bm.Nonempty ∧ ∀ o, o ∈ bm ↔ P o

variable {P Q : Nat → Prop}

theorem Bits.congr {r : Option RoaringBitmap} (h : Bits r P) (hPQ : ∀ o, P o ↔ Q o) : Bits r Q := by
  have hfun : P = Q := funext fun o => propext (hPQ o)
  exact hfun ▸ h

theorem Bits.or_none {a : Option RoaringBitmap} (ha : Bits a P) (hb : Bits none Q) : Bits a fun o => P o ∨ Q o :=
  ha.congr fun o => ⟨.inl, fun h => h.elim id fun hq => absurd hq (hb o)⟩

theorem Bits.or_some (a : Option RoaringBitmap) (bm : RoaringBitmap) : Bits a P → Bits (some bm) Q →
    Bits (some (match a with | none => bm | some a => a ∪ bm)) fun o => P o ∨ Q o := by
  intro ha hb
  cases a with
  | none => exact hb.congr fun o => ⟨.inr, fun h => h.elim (fun hp => absurd hp (ha o)) id⟩
  | some =>
    obtain ⟨hane, hmem⟩ := ha
    refine ⟨hane.inl, fun o => ?_⟩
    rw [Finset.mem_union, hmem o, hb.2 o]

/-- The intersection of the includes, of which there is one unless it is begun. -/
theorem intersectIncludes_spec (l : List (Option RoaringBitmap)) (acc : Option RoaringBitmap) (h : acc ≠ none ∨ l ≠ []) :
    (∀ r, intersectIncludes acc l = some r → ∀ o, o ∈ r ↔ (∀ a ∈ acc, o ∈ a) ∧ ∀ x ∈ l, ∃ bm, x = some bm ∧ o ∈ bm) ∧
      (intersectIncludes acc l = none → none ∈ l) := by
  induction l generalizing acc with
  | nil =>
    refine ⟨fun r hr o => ?_, fun hnone => absurd hnone (h.resolve_right (absurd rfl))⟩
    simp [show acc = some r from hr]
  | cons x l ih =>
    cases x with
    | none => exact ⟨fun r hr => absurd hr nofun, fun _ => mem_cons_self⟩
    | some bm =>
      clear h
      obtain ⟨hsome, hnone⟩ := ih (some (match acc with | none => bm | some a => a ∩ bm)) (.inl nofun)
      refine ⟨fun r hr o => ?_, fun h => mem_cons_of_mem _ (hnone h)⟩
      rw [hsome r hr o, forall_mem_cons]
      cases acc <;> simp [and_assoc]

theorem mem_foldl_sdiff (l : List RoaringBitmap) (a : RoaringBitmap) (o : Nat) :
    o ∈ l.foldl (fun acc exclude => acc \ exclude) a ↔ o ∈ a ∧ ∀ bm ∈ l, o ∉ bm := by
  induction l generalizing a with
  | nil => simp
  | cons b l ih =>
    rw [foldl_cons, ih, Finset.mem_sdiff, forall_mem_cons, and_assoc]

theorem evalTermAtBucket_bits {includes : List (Option RoaringBitmap)} (excludes : List (Option RoaringBitmap))
    (hne : includes ≠ []) :
    Bits (evalTermAtBucket includes excludes) fun o =>
      (∀ x ∈ includes, ∃ bm, x = some bm ∧ o ∈ bm) ∧ ∀ bm, some bm ∈ excludes → o ∉ bm := by
  obtain ⟨hsome, hnone⟩ := intersectIncludes_spec includes none (.inr hne)
  unfold evalTermAtBucket
  cases hi : intersectIncludes none includes with
  | none =>
    rintro o ⟨hall, -⟩
    obtain ⟨bm, hbm, -⟩ := hall none (hnone hi)
    exact absurd hbm nofun
  | some acc =>
    have hmem : ∀ o, o ∈ (excludes.filterMap id).foldl (fun acc exclude => acc \ exclude) acc ↔
        (∀ x ∈ includes, ∃ bm, x = some bm ∧ o ∈ bm) ∧ ∀ bm, some bm ∈ excludes → o ∉ bm := by
      intro o
      rw [mem_foldl_sdiff, hsome acc hi o]
      simp
    simp only [Option.bind_eq_bind, Option.bind_some]
    split
    · rename_i hnonempty
      exact ⟨hnonempty, hmem⟩
    · rename_i hempty
      intro o ho
      exact hempty ⟨o, (hmem o).mpr ho⟩

/-- The offsets that a term matches at a bucket, from the contents of its leaves. -/
def TermSpec.MatchesAt (content : Nat → Nat → RoaringBitmap) (t : TermSpec) (b o : Nat) : Prop :=
  (∀ i ∈ t.includes, o ∈ content i b) ∧ ∀ i ∈ t.excludes, o ∉ content i b

/-- The bitmap of a leaf in the snapshot is its content at the bucket. -/
def Agrees (orig : Nat → Option RoaringBitmap) (content : Nat → Nat → RoaringBitmap) (b i : Nat) : Prop :=
  orig i = some (content i b) ∨ (orig i = none ∧ content i b = ∅)

variable {content : Nat → Nat → RoaringBitmap}

theorem evalTermAtBucket_matchesAt {b : Nat}
    {t : TermSpec} (hne : t.includes ≠ []) (hi : ∀ i ∈ t.includes, Agrees orig content b i)
    (he : ∀ i ∈ t.excludes, Agrees orig content b i) :
    Bits (evalTermAtBucket (t.includes.map orig) (t.excludes.map orig)) (t.MatchesAt content b) := by
  refine (evalTermAtBucket_bits (t.excludes.map orig) (by simpa using hne)).congr fun o => and_congr ?_ ?_
  · rw [forall_mem_map]
    refine forall₂_congr fun i hmem => ?_
    rcases hi i hmem with h | ⟨h, hempty⟩
    · simp [h]
    · simp [h, hempty]
  · constructor
    · intro hall i hmem ho
      rcases he i hmem with h | ⟨-, hempty⟩
      · exact hall _ (mem_map.mpr ⟨i, hmem, h⟩) ho
      · rw [hempty] at ho
        exact absurd ho (Finset.notMem_empty o)
    · intro hall bm hbm
      obtain ⟨i, hmem, h⟩ := mem_map.mp hbm
      rcases he i hmem with h' | ⟨h', -⟩
      · rw [h', Option.some.injEq] at h
        exact h ▸ hall i hmem
      · rw [h'] at h
        exact absurd h nofun

/-- The loop over the terms gives the union of what the satisfiable terms match. -/
theorem evalTerms_bits {b : Nat} {terms : List TermSpec} (hs : s.Holds orig (slots terms)) (hne : ∀ t ∈ terms, t.includes ≠ [])
    (hagree : ∀ t ∈ terms, t.unsatisfiable = false → ∀ i ∈ t.includes ++ t.excludes, Agrees orig content b i) :
    Bits (evalTerms s terms) fun o => ∃ t ∈ terms, t.unsatisfiable = false ∧ t.MatchesAt content b o := by
  -- the fold with the matches of the terms before as its accumulator
  suffices hfold : ∀ (terms : List TermSpec) (acc : Option RoaringBitmap) (s : Snapshot) (P : Nat → Prop),
      s.Holds orig (slots terms) → (∀ t ∈ terms, t.includes ≠ []) →
      (∀ t ∈ terms, t.unsatisfiable = false → ∀ i ∈ t.includes ++ t.excludes, Agrees orig content b i) → Bits acc P →
      Bits (terms.foldl evalTerm (acc, s)).1
        (fun o => P o ∨ ∃ t ∈ terms, t.unsatisfiable = false ∧ t.MatchesAt content b o) by
    refine (hfold terms none s (fun _ => False) hs hne hagree (fun _ h => h)).congr fun o => ?_
    simp
  intro terms
  induction terms with
  | nil =>
    intro acc s P _ _ _ hacc
    exact hacc.congr (by simp)
  | cons t terms ih =>
    intro acc s P hs hne hagree hacc
    have hne' : ∀ t ∈ terms, t.includes ≠ [] := fun x hx => hne x (mem_cons_of_mem _ hx)
    have hagree' : ∀ t ∈ terms, t.unsatisfiable = false → ∀ i ∈ t.includes ++ t.excludes, Agrees orig content b i :=
      fun x hx => hagree x (mem_cons_of_mem _ hx)
    have hcons : slots (t :: terms) = (if t.unsatisfiable then [] else t.includes ++ t.excludes) ++ slots terms := rfl
    rw [foldl_cons, evalTerm]
    cases hu : t.unsatisfiable with
    | true =>
      rw [hcons, hu] at hs
      refine (ih acc s P (by simpa using hs) hne' hagree' hacc).congr fun o => ?_
      simp [hu]
    | false =>
      rw [hcons, hu] at hs
      simp only [Bool.false_eq_true, if_false, append_assoc] at hs ⊢
      obtain ⟨hincl, hs1⟩ := takeSnapshotBitmaps_holds t.includes _ hs
      obtain ⟨hexcl, hs2⟩ := takeSnapshotBitmaps_holds t.excludes _ hs1
      have hterm : Bits (evalTermAtBucket (t.includes.map orig) (t.excludes.map orig)) (t.MatchesAt content b) :=
        evalTermAtBucket_matchesAt (hne t mem_cons_self)
          (fun i hi => hagree t mem_cons_self hu i (mem_append_left _ hi))
          (fun i hi => hagree t mem_cons_self hu i (mem_append_right _ hi))
      rw [hincl, hexcl]
      cases hev : evalTermAtBucket (t.includes.map orig) (t.excludes.map orig) with
      | none =>
        rw [hev] at hterm
        refine (ih acc _ _ hs2 hne' hagree' (hacc.or_none hterm)).congr fun o => ?_
        simp [hu, or_assoc]
      | some bm =>
        rw [hev] at hterm
        refine (ih _ _ _ hs2 hne' hagree' (.or_some acc bm hacc hterm)).congr fun o => ?_
        simp [hu, or_assoc]

end Sui.InvertedIndex

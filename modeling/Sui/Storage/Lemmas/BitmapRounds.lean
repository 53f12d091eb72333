import Sui.Storage.Lemmas.BitmapQuery

/-!
# Runs of a bitmap query

The invariant of the rounds. Up to the last floor bucket the output holds every match; of what is behind it, every active leaf has
the rest of its content still to yield, and the watermarks do not pass it.
-/

namespace Sui.InvertedIndex

open Library Checked List InvertedIndex ScanDirection Request Snapshot

variable {E : Type} {req : Request}

/-! ## The output -/

/-- A bucket up to the last floor bucket. -/
def Past (req : Request) (last : Option Nat) (b : Nat) : Prop :=
  ∃ f, last = some f ∧ req.direction.key b ≤ req.direction.key f

theorem not_past_none (b : Nat) : ¬ Past req none b := fun ⟨_, h, _⟩ => absurd h nofun

variable {b : Nat}

theorem past_some {f : Nat} : Past req (some f) b ↔ req.direction.key b ≤ req.direction.key f := by
  simp [Past]

theorem Past.lt {last : Option Nat} {f : Nat} (h : Past req last b) (hf : ¬ Past req last f) :
    req.direction.key b < req.direction.key f := by
  obtain ⟨f0, rfl, hb⟩ := h
  rw [past_some] at hf
  omega

/-- What a filter finds when it undoes a constructor. -/
theorem mem_filterMap_undo {α β : Type} {f : α → Option β} {g : β → α} (h : ∀ a b, f a = some b ↔ a = g b) {l : List α} {b : β} :
    b ∈ l.filterMap f ↔ g b ∈ l := by
  simp only [mem_filterMap, h, exists_eq_right]

theorem mem_items {out : List (Watermarked (Nat × RoaringBitmap))} {x : Nat × RoaringBitmap} : x ∈ items out ↔ .item x ∈ out :=
  mem_filterMap_undo fun y z => by cases y <;> simp

/-- The output so far, for a query with the matches `V`. -/
structure OutOk (req : Request) (V : Nat → RoaringBitmap) (last lastEmitted : Option Nat)
    (out : List (Watermarked (Nat × RoaringBitmap))) : Prop where
  items_iff : ∀ b bm, .item (b, bm) ∈ out ↔ req.InRange b ∧ Past req last b ∧ (V b).Nonempty ∧ bm = V b
  items_ordered : (items out).Pairwise fun x y => req.direction.key x.1 < req.direction.key y.1
  marks_ordered : (watermarks out).Pairwise fun p q => req.direction.key p < req.direction.key q
  marks_last : (watermarks out).getLast? = lastEmitted
  marks_after : ∀ pre p, pre ++ [.watermark p] <+: out → ∀ b, req.InRange b → (V b).Nonempty →
    req.direction.key (bucketEdges req b).1 < req.direction.key p → .item (b, V b) ∈ pre

theorem OutOk.nil (V : Nat → RoaringBitmap) : OutOk req V none none [] where
  items_iff b bm := by simp [Past]
  items_ordered := List.Pairwise.nil
  marks_ordered := List.Pairwise.nil
  marks_last := rfl
  marks_after pre p h := absurd (prefix_nil.mp h) (by simp)

variable {V : Nat → RoaringBitmap} {last lastEmitted : Option Nat} {out : List (Watermarked (Nat × RoaringBitmap))}

/-- A watermark is emitted before which nothing is left. If it does not advance the frontier, it is the last one already. -/
theorem OutOk.emit (h : OutOk req V last lastEmitted out) {p : Nat}
    (hp : ∀ b, req.InRange b → (V b).Nonempty → req.direction.key (bucketEdges req b).1 < req.direction.key p → Past req last b)
    (hle : ∀ q, lastEmitted = some q → req.direction.key q ≤ req.direction.key p) :
    (emit req lastEmitted out p).1 = some p ∧ OutOk req V last (some p) (emit req lastEmitted out p).2 := by
  unfold InvertedIndex.emit
  split_ifs with hadv
  · refine ⟨rfl, ?_, ?_, ?_, ?_, ?_⟩
    · intro b bm
      rw [← h.items_iff b bm]
      simp
    · simpa [items] using h.items_ordered
    · have hmarks : watermarks (out ++ [.watermark p]) = watermarks out ++ [p] := by simp [watermarks]
      have : Trans (fun p q => req.direction.key p < req.direction.key q) (fun p q => req.direction.key p < req.direction.key q)
          fun p q => req.direction.key p < req.direction.key q := ⟨lt_trans⟩
      rw [hmarks, ← isChain_iff_pairwise, isChain_append]
      refine ⟨isChain_iff_pairwise.mpr h.marks_ordered, isChain_singleton _, ?_⟩
      intro q hq x hx
      obtain rfl := Option.some.inj hx
      rw [Option.mem_def, h.marks_last] at hq
      rwa [hq, frontierAdvanced_some] at hadv
    · simp [watermarks]
    · intro pre q hpre b hb hV hlt
      rcases prefix_concat_iff.mp hpre with heq | hpre
      · obtain ⟨rfl, hq⟩ := append_inj' heq rfl
        obtain rfl : q = p := by simpa using hq
        exact (h.items_iff b (V b)).mpr ⟨hb, hp b hb hV hlt, hV, rfl⟩
      · exact h.marks_after pre q hpre b hb hV hlt
  · cases hl : lastEmitted with
    | none =>
      rw [hl] at hadv
      exact absurd rfl hadv
    | some q =>
      rw [hl, frontierAdvanced_some] at hadv
      have heq : q = p := key_injective (le_antisymm (hle q hl) (not_lt.mp hadv))
      subst heq
      exact ⟨rfl, hl ▸ h⟩

variable {f : Nat}

/-- The floor bucket is done: its item is emitted if it has matches, and none are before it. -/
theorem OutOk.item (h : OutOk req V last lastEmitted out) (hf : req.InRange f) (hnew : ¬ Past req last f)
    (hgap : ∀ b, req.InRange b → ¬ Past req last b → req.direction.key b < req.direction.key f → ¬ (V b).Nonempty)
    {r : Option RoaringBitmap} (hr : Bits r (· ∈ V f)) : OutOk req V (some f) lastEmitted (emitItem out f r) := by
  have hpast : ∀ b, req.InRange b → (V b).Nonempty → (Past req (some f) b ↔ Past req last b ∨ b = f) := by
    intro b hb hV
    rw [past_some]
    constructor
    · intro hle
      by_cases hb' : Past req last b
      · exact .inl hb'
      · rcases lt_or_eq_of_le hle with hlt | heq
        · exact absurd hV (hgap b hb hb' hlt)
        · exact .inr (key_injective heq)
    · rintro (hb' | rfl)
      · exact (hb'.lt hnew).le
      · exact le_rfl
  have hiff : ∀ b bm, req.InRange b ∧ Past req (some f) b ∧ (V b).Nonempty ∧ bm = V b ↔
      .item (b, bm) ∈ out ∨ (V f).Nonempty ∧ b = f ∧ bm = V f := by
    intro b bm
    rw [h.items_iff b bm]
    constructor
    · rintro ⟨hb, hb', hV, hbm⟩
      rcases (hpast b hb hV).mp hb' with hb' | rfl
      · exact .inl ⟨hb, hb', hV, hbm⟩
      · exact .inr ⟨hV, rfl, hbm⟩
    · rintro (⟨hb, hb', hV, hbm⟩ | ⟨hV, rfl, hbm⟩)
      · exact ⟨hb, (hpast b hb hV).mpr (.inl hb'), hV, hbm⟩
      · exact ⟨hf, past_some.mpr le_rfl, hV, hbm⟩
  cases r with
  | none =>
    have hempty : ¬ (V f).Nonempty := fun ⟨o, ho⟩ => hr o ho
    refine ⟨fun b bm => ?_, h.items_ordered, h.marks_ordered, h.marks_last, h.marks_after⟩
    rw [hiff, or_iff_left fun hV => hempty hV.1]
    rfl
  | some bm0 =>
    obtain ⟨hne, hmem⟩ := hr
    obtain rfl : bm0 = V f := Finset.ext hmem
    change OutOk req V (some f) lastEmitted (out ++ [.item (f, V f)])
    have hitems : items (out ++ [.item (f, V f)]) = items out ++ [(f, V f)] := by simp [items]
    have hmarks : watermarks (out ++ [.item (f, V f)]) = watermarks out := by simp [watermarks]
    refine ⟨fun b bm => ?_, ?_, hmarks ▸ h.marks_ordered, hmarks ▸ h.marks_last, ?_⟩
    · rw [hiff, mem_append, mem_singleton, Watermarked.item.injEq, Prod.mk.injEq, and_iff_right hne]
    · rw [hitems, pairwise_append]
      refine ⟨h.items_ordered, pairwise_singleton _ _, ?_⟩
      rintro ⟨b, bm⟩ hb x hx
      obtain rfl := mem_singleton.mp hx
      exact ((h.items_iff b bm).mp (mem_items.mp hb)).2.1.lt hnew
    · intro pre p hpre b hb hV hlt
      rcases prefix_concat_iff.mp hpre with heq | hpre
      · exact absurd (append_inj' heq rfl).2 (by simp)
      · exact h.marks_after pre p hpre b hb hV hlt

/-! ## Leaves and terms -/

/-- A leaf with nothing left behind the last floor bucket. -/
def Exhausted (req : Request) (content : Nat → RoaringBitmap) (last : Option Nat) : Prop :=
  ∀ b, req.InRange b → ¬ Past req last b → ¬ (content b).Nonempty

variable {content : Nat → RoaringBitmap}

theorem Exhausted.mono (h : Exhausted req content last) (hf : ¬ Past req last f) : Exhausted req content (some f) := by
  intro b hb hb'
  refine h b hb fun hpast => hb' (past_some.mpr (hpast.lt hf).le)

/-- An active leaf: it yields what is left of its content, and neither its front nor a watermark is behind that. -/
structure LeafOk (req : Request) (content : Nat → RoaringBitmap) (last lastEmitted : Option Nat) (l : LeafState E) : Prop where
  ordered : l.leaf.buckets.Pairwise fun x y => req.direction.key x.1 < req.direction.key y.1
  correct : ∀ x ∈ l.leaf.buckets, req.InRange x.1 ∧ x.2 = content x.1 ∧ ¬ Past req last x.1
  complete : ∀ b, req.InRange b → ¬ Past req last b → (content b).Nonempty → (∃ bm, (b, bm) ∈ l.leaf.buckets) ∨
    (l.leaf.error.isSome ∧ ∀ x ∈ l.leaf.buckets, req.direction.key x.1 < req.direction.key b)
  front_le_content : ∀ b, req.InRange b → ¬ Past req last b → (content b).Nonempty →
    req.direction.key l.front ≤ req.direction.key (bucketEdges req b).1
  front_le_bucket : ∀ x ∈ l.leaf.buckets, req.direction.key l.front ≤ req.direction.key (bucketEdges req x.1).1
  emitted_le : ∀ p, lastEmitted = some p → req.direction.key p ≤ req.direction.key l.front
  floor_le : req.direction.key req.requestFloor ≤ req.direction.key l.front

/-- The leaf of an index is active. -/
def IsActive (leaves : List (LeafState E)) (i : Nat) : Prop := ∃ l, leaves[i]? = some l ∧ l.unreferenced = false

/-- A satisfiable term has its leaves, apart from excludes that are at their end; another has an include at its end. -/
structure TermOk (req : Request) (content : Nat → Nat → RoaringBitmap) (last : Option Nat) (leaves : List (LeafState E))
    (t : TermSpec) : Prop where
  anchored : t.includes ≠ []
  includes : t.unsatisfiable = false → ∀ i ∈ t.includes, IsActive leaves i
  excludes : t.unsatisfiable = false → ∀ i ∈ t.excludes, IsActive leaves i ∨ Exhausted req (content i) last
  exhausted : t.unsatisfiable = true → ∃ i ∈ t.includes, Exhausted req (content i) last

/-- The buckets before a bucket of a leaf are before it in the range as well. -/
theorem pre_le_pre {b' : Nat} (hb : req.InRange b) (hb' : req.InRange b') (h : req.direction.key b ≤ req.direction.key b') :
    req.direction.key (bucketEdges req b).1 ≤ req.direction.key (bucketEdges req b').1 := by
  rcases lt_or_eq_of_le h with h | h
  · exact (pre_lt_post hb).le.trans (post_le_pre hb hb' h)
  · rw [key_injective h]

variable {l : LeafState E}

section

variable (h : LeafOk req content last lastEmitted l)

include h

section

variable {bm : RoaringBitmap} {rest : List (Nat × RoaringBitmap)} (hl : l.leaf.buckets = (b, bm) :: rest)

include hl

theorem LeafOk.head_le_bucket {x : Nat × RoaringBitmap} (hx : x ∈ l.leaf.buckets) :
    req.direction.key b ≤ req.direction.key x.1 := by
  have hord := h.ordered
  rw [hl, pairwise_cons] at hord
  rw [hl] at hx
  rcases mem_cons.mp hx with rfl | hx
  · exact le_rfl
  · exact (hord.1 x hx).le

theorem LeafOk.head_le {b' : Nat} (hb' : req.InRange b') (hpast : ¬ Past req last b') (hne : (content b').Nonempty) :
    req.direction.key b ≤ req.direction.key b' := by
  rcases h.complete b' hb' hpast hne with ⟨bm', hmem⟩ | ⟨-, hall⟩
  · exact h.head_le_bucket hl hmem
  · exact (hall (b, bm) (by simp [hl])).le

end

/-- What a peek says of an active leaf: it stands on a bucket, it fails, or nothing is left. -/
theorem LeafOk.peek (hu : l.unreferenced = false) : ((peekLeaf req l).head = some .eof ∧ Exhausted req content last) ∨
      (LeafOk req content last lastEmitted (peekLeaf req l) ∧ (peekLeaf req l).leaf = l.leaf ∧
        ((∃ b bm rest, l.leaf.buckets = (b, bm) :: rest ∧ (peekLeaf req l).head = some (.bucket b) ∧
          (peekLeaf req l).front = (bucketEdges req b).1) ∨
        ∃ e, l.leaf.buckets = [] ∧ l.leaf.error = some e ∧ (peekLeaf req l).head = some .error)) := by
  cases hb : l.leaf.buckets with
  | nil =>
    cases he : l.leaf.error with
    | none =>
      refine .inl ⟨by simp [peekLeaf, hu, hb, he], ?_⟩
      intro b hin hpast hne
      rcases h.complete b hin hpast hne with ⟨bm, hmem⟩ | ⟨herr, -⟩
      · rw [hb] at hmem
        exact absurd hmem not_mem_nil
      · rw [he] at herr
        exact absurd herr nofun
    | some e =>
      have hpeek : peekLeaf req l = { l with head := some .error } := by simp [peekLeaf, hu, hb, he]
      rw [hpeek]
      exact .inr ⟨⟨h.ordered, h.correct, h.complete, h.front_le_content, h.front_le_bucket, h.emitted_le, h.floor_le⟩, rfl,
        .inr ⟨e, rfl, rfl, rfl⟩⟩
  | cons x rest =>
    obtain ⟨b, bm⟩ := x
    have hpeek : peekLeaf req l = { l with front := (bucketEdges req b).1, head := some (.bucket b) } := by
      simp [peekLeaf, hu, hb]
    have hmem : (b, bm) ∈ l.leaf.buckets := by simp [hb]
    have hin := (h.correct _ hmem).1
    rw [hpeek]
    refine .inr ⟨⟨h.ordered, h.correct, h.complete, ?_, ?_, ?_, ?_⟩, rfl, .inl ⟨b, bm, rest, rfl, rfl, rfl⟩⟩
    · intro b' hb' hpast hne
      exact pre_le_pre hin hb' (h.head_le hb hb' hpast hne)
    · intro x hx
      exact pre_le_pre hin (h.correct x hx).1 (h.head_le_bucket hb hx)
    · intro p hp
      exact (h.emitted_le p hp).trans (h.front_le_bucket _ hmem)
    · exact floor_le_pre hin

theorem LeafOk.exhausted (hu : l.unreferenced = false)
    (heof : (peekLeaf req l).head = some .eof) : Exhausted req content last := by
  rcases h.peek hu with ⟨-, hex⟩ | ⟨-, -, ⟨b, bm, rest, -, hb, -⟩ | ⟨e, -, -, he⟩⟩
  · exact hex
  · exact absurd (hb.symm.trans heof) (by simp)
  · exact absurd (he.symm.trans heof) (by simp)

end

/-! ## Between two rounds -/

/-- The state between two rounds of a query with the leaves' contents `content` and the value `V`. -/
structure Running (req : Request) (content : Nat → Nat → RoaringBitmap) (V : Nat → RoaringBitmap) (last : Option Nat)
    (st : EvalState E) : Prop where
  lastInRange : ∀ f, last = some f → req.InRange f
  leaves : ∀ i l, st.leaves[i]? = some l → l.unreferenced = false → LeafOk req (content i) last st.lastEmitted l
  terms : ∀ t ∈ st.terms, TermOk req content last st.leaves t
  value : ∀ b o, o ∈ V b ↔ ∃ t ∈ st.terms, t.MatchesAt content b o
  out : OutOk req V last st.lastEmitted st.out
  emitted : ∀ f, last = some f → ∃ p, st.lastEmitted = some p ∧ req.direction.key (bucketEdges req f).2 ≤ req.direction.key p
  bounded : ∀ p, st.lastEmitted = some p → req.direction.key p ≤ req.direction.key req.terminus

variable {content : Nat → Nat → RoaringBitmap} {st : EvalState E} {i : Nat}

theorem getElem?_settleLeaves (h : (settleLeaves req st)[i]? = some l) : ∃ l0, st.leaves[i]? = some l0 ∧
      l = if isReferenced (settleTerms req st) i (peekLeaf req l0) then peekLeaf req l0
        else { peekLeaf req l0 with unreferenced := true } := by
  rw [settleLeaves, recomputeUnreferenced, getElem?_mapIdx, getElem?_map] at h
  cases h0 : st.leaves[i]? with
  | none =>
    rw [h0] at h
    exact absurd h nofun
  | some l0 =>
    rw [h0] at h
    exact ⟨l0, rfl, (Option.some.inj h).symm⟩

theorem peekLeaf_frame (l : LeafState E) : (peekLeaf req l).unreferenced = l.unreferenced ∧ (peekLeaf req l).leaf = l.leaf := by
  unfold peekLeaf
  split
  · exact ⟨rfl, rfl⟩
  · split
    · exact ⟨rfl, rfl⟩
    · split <;> exact ⟨rfl, rfl⟩

@[simp] theorem peekLeaf_unreferenced (l : LeafState E) : (peekLeaf req l).unreferenced = l.unreferenced := (peekLeaf_frame l).1

@[simp] theorem peekLeaf_leaf (l : LeafState E) : (peekLeaf req l).leaf = l.leaf := (peekLeaf_frame l).2

/-- A leaf that is active after the peeks was active before, and is referred to by a satisfiable term. -/
theorem active_settleLeaves (h : (settleLeaves req st)[i]? = some l) (hu : l.unreferenced = false) :
    ∃ l0, st.leaves[i]? = some l0 ∧ l0.unreferenced = false ∧ l = peekLeaf req l0 ∧ (peekLeaf req l0).head ≠ some .eof := by
  obtain ⟨l0, hl0, rfl⟩ := getElem?_settleLeaves h
  split at hu
  · rename_i href
    refine ⟨l0, hl0, by simpa using hu, if_pos href, ?_⟩
    intro heof
    simp only [isReferenced, any_eq_true, Bool.and_eq_true] at href
    obtain ⟨t, -, -, j, -, -, hne⟩ := href
    simp [heof] at hne
  · exact absurd hu nofun

/-- What an active leaf is after the peeks. -/
theorem Running.settled_leaf (h : Running req content V last st)
    (hl : (settleLeaves req st)[i]? = some l) (hu : l.unreferenced = false) :
    LeafOk req (content i) last st.lastEmitted l ∧
      ((∃ b bm rest, l.leaf.buckets = (b, bm) :: rest ∧ l.head = some (.bucket b) ∧ l.front = (bucketEdges req b).1) ∨
        ∃ e, l.leaf.buckets = [] ∧ l.leaf.error = some e ∧ l.head = some .error) := by
  obtain ⟨l0, hl0, hu0, rfl, hne⟩ := active_settleLeaves hl hu
  rcases (h.leaves i l0 hl0 hu0).peek hu0 with ⟨heof, -⟩ | ⟨hok, hleaf, hhead⟩
  · exact absurd heof hne
  · refine ⟨hok, ?_⟩
    rw [hleaf]
    exact hhead

theorem markUnsatisfiable_refs (leaves : List (LeafState E)) (t : TermSpec) :
    (markUnsatisfiable leaves t).includes = t.includes ∧ (markUnsatisfiable leaves t).excludes = t.excludes := by
  unfold markUnsatisfiable
  split <;> exact ⟨rfl, rfl⟩

variable {t : TermSpec}

/-- An active leaf that is not at its end and that a satisfiable term refers to stays active. -/
theorem isActive_settleLeaves (ht : t ∈ settleTerms req st) (hsat : t.unsatisfiable = false)
    (hi : i ∈ t.includes ++ t.excludes) {l0 : LeafState E} (hl0 : st.leaves[i]? = some l0) (hu : l0.unreferenced = false)
    (hne : (peekLeaf req l0).head ≠ some .eof) : IsActive (settleLeaves req st) i := by
  have href : isReferenced (settleTerms req st) i (peekLeaf req l0) = true := by
    simp only [isReferenced, any_eq_true, Bool.and_eq_true]
    refine ⟨t, ht, by simp [hsat], i, hi, ⟨by simp, by simpa using hu⟩, ?_⟩
    simpa using hne
  refine ⟨peekLeaf req l0, ?_, by simpa using hu⟩
  rw [settleLeaves, recomputeUnreferenced, getElem?_mapIdx, getElem?_map, hl0]
  simp [href]

theorem headAt_peek {l0 : LeafState E} (hl0 : st.leaves[i]? = some l0) :
    headAt (st.leaves.map (peekLeaf req)) i = (peekLeaf req l0).head := by
  rw [headAt, getElem?_map, hl0]
  rfl

section

variable (h : Running req content V last st)

include h

/-- What a term is after the peeks. -/
theorem Running.settled_term (ht : t ∈ settleTerms req st) : TermOk req content last (settleLeaves req st) t := by
  obtain ⟨t0, ht0, rfl⟩ := mem_map.mp ht
  have hok := h.terms t0 ht0
  obtain ⟨hincl, hexcl⟩ := markUnsatisfiable_refs (st.leaves.map (peekLeaf req)) t0
  have hsat : (markUnsatisfiable (st.leaves.map (peekLeaf req)) t0).unsatisfiable = false →
      t0.unsatisfiable = false ∧ ∀ i ∈ t0.includes, headAt (st.leaves.map (peekLeaf req)) i ≠ some .eof := by
    intro hu
    unfold markUnsatisfiable at hu
    split at hu
    · exact absurd hu nofun
    · rename_i hno
      refine ⟨hu, ?_⟩
      intro i hi heof
      apply hno
      simp only [hu, Bool.not_false, Bool.true_and, any_eq_true]
      exact ⟨i, hi, by simp [heof]⟩
  refine ⟨by rw [hincl]; exact hok.anchored, ?_, ?_, ?_⟩
  · intro hu i hi
    obtain ⟨hu0, hnoeof⟩ := hsat hu
    rw [hincl] at hi
    obtain ⟨l0, hl0, hul0⟩ := hok.includes hu0 i hi
    refine isActive_settleLeaves ht hu (by simp [hincl, hi]) hl0 hul0 ?_
    rw [← headAt_peek hl0]
    exact hnoeof i hi
  · intro hu i hi
    obtain ⟨hu0, -⟩ := hsat hu
    rw [hexcl] at hi
    rcases hok.excludes hu0 i hi with ⟨l0, hl0, hul0⟩ | hex
    · by_cases heof : (peekLeaf req l0).head = some .eof
      · exact .inr ((h.leaves i l0 hl0 hul0).exhausted hul0 heof)
      · exact .inl (isActive_settleLeaves ht hu (by simp [hexcl, hi]) hl0 hul0 heof)
    · exact .inr hex
  · intro hu
    rw [hincl]
    cases hu0 : t0.unsatisfiable with
    | true => exact hok.exhausted hu0
    | false =>
      unfold markUnsatisfiable at hu
      split_ifs at hu with hany
      · simp only [hu0, Bool.not_false, Bool.true_and, any_eq_true, beq_iff_eq] at hany
        obtain ⟨i, hi, heof⟩ := hany
        obtain ⟨l0, hl0, hul0⟩ := hok.includes hu0 i hi
        rw [headAt_peek hl0] at heof
        exact ⟨i, hi, (h.leaves i l0 hl0 hul0).exhausted hul0 heof⟩
      · rw [hu0] at hu
        exact absurd hu nofun

/-- The terms after the peeks have the same value. -/
theorem Running.settled_value (b o : Nat) : o ∈ V b ↔ ∃ t ∈ settleTerms req st, t.MatchesAt content b o := by
  rw [h.value b o, settleTerms]
  simp only [mem_map, exists_exists_and_eq_and]
  refine exists_congr fun t => and_congr_right fun _ => ?_
  obtain ⟨hincl, hexcl⟩ := markUnsatisfiable_refs (st.leaves.map (peekLeaf req)) t
  simp only [TermSpec.MatchesAt, hincl, hexcl]

/-- A match behind the last floor bucket is in all the includes of a satisfiable term. -/
theorem Running.match_includes (hb : req.InRange b) (hpast : ¬ Past req last b)
    {o : Nat} (ho : o ∈ V b) : ∃ t ∈ settleTerms req st, t.unsatisfiable = false ∧ t.MatchesAt content b o := by
  obtain ⟨t, ht, hm⟩ := (h.settled_value b o).mp ho
  refine ⟨t, ht, ?_, hm⟩
  cases hu : t.unsatisfiable with
  | false => rfl
  | true =>
    obtain ⟨i, hi, hex⟩ := (h.settled_term ht).exhausted hu
    exact absurd ⟨o, hm.1 i hi⟩ (hex b hb hpast)

/-- A match behind the last floor bucket lies in the content of an active leaf. -/
theorem Running.match_active (hb : req.InRange b) (hpast : ¬ Past req last b)
    (hV : (V b).Nonempty) : ∃ i l, (settleLeaves req st)[i]? = some l ∧ l.unreferenced = false ∧ (content i b).Nonempty := by
  obtain ⟨o, ho⟩ := hV
  obtain ⟨t, ht, hu, hm⟩ := h.match_includes hb hpast ho
  have hok := h.settled_term ht
  obtain ⟨i, hi⟩ := exists_mem_of_ne_nil _ hok.anchored
  obtain ⟨l, hl, hul⟩ := hok.includes hu i hi
  exact ⟨i, l, hl, hul, o, hm.1 i hi⟩

end

/-! ## A round -/

/-- The active leaves of a round. -/
def activeLeaves (req : Request) (st : EvalState E) : List (LeafState E) := (settleLeaves req st).filter fun l => !l.unreferenced

theorem mem_activeLeaves :
    l ∈ activeLeaves req st ↔ ∃ i : Nat, (settleLeaves req st)[i]? = some l ∧ l.unreferenced = false := by
  rw [activeLeaves, mem_filter, mem_iff_getElem?]
  simp

/-- No active leaf stands before the bucket. -/
def NoneBefore (req : Request) (st : EvalState E) (f : Nat) : Prop :=
  ∀ (i : Nat) (l : LeafState E) (b : Nat), (settleLeaves req st)[i]? = some l → l.unreferenced = false →
    l.head = some (.bucket b) → req.direction.key f ≤ req.direction.key b

/-- The result of a scan of a query with the value `V`. -/
structure Finished (req : Request) (V : Nat → RoaringBitmap) (r : ScanResult E) : Prop where
  sound : ∀ b bm, (b, bm) ∈ items r.out → req.InRange b ∧ (V b).Nonempty ∧ bm = V b
  items_ordered : (items r.out).Pairwise fun x y => req.direction.key x.1 < req.direction.key y.1
  marks_ordered : (watermarks r.out).Pairwise fun p q => req.direction.key p < req.direction.key q
  marks_after : ∀ pre p, pre ++ [.watermark p] <+: r.out → ∀ b, req.InRange b → (V b).Nonempty →
    req.direction.key (bucketEdges req b).1 < req.direction.key p → (b, V b) ∈ items pre
  completed : r.errors = none → (∀ b, req.InRange b → (V b).Nonempty → (b, V b) ∈ items r.out) ∧
    (watermarks r.out).getLast? = some req.terminus
  failed : ∀ es, r.errors = some es → es ≠ [] ∧ ∃ p, (watermarks r.out).getLast? = some p ∧
    req.direction.key req.requestFloor ≤ req.direction.key p ∧ ∀ b, req.InRange b → (V b).Nonempty →
      ((b, V b) ∈ items r.out ∧ req.direction.key (bucketEdges req b).2 ≤ req.direction.key p) ∨
      ((b, V b) ∉ items r.out ∧ req.direction.key p ≤ req.direction.key (bucketEdges req b).1)

/-- A scan's result from the state of its output. -/
theorem OutOk.finished (h : OutOk req V last lastEmitted out) {errors : Option (List E)}
    (hcompleted : errors = none → (∀ b, req.InRange b → (V b).Nonempty → Past req last b) ∧ lastEmitted = some req.terminus)
    (hfailed : ∀ es, errors = some es → es ≠ [] ∧ ∃ p, lastEmitted = some p ∧
      req.direction.key req.requestFloor ≤ req.direction.key p ∧ ∀ b, req.InRange b → (V b).Nonempty →
        (Past req last b → req.direction.key (bucketEdges req b).2 ≤ req.direction.key p) ∧
        (¬ Past req last b → req.direction.key p ≤ req.direction.key (bucketEdges req b).1)) :
    Finished req V ⟨out, errors⟩ where
  sound b bm hmem := by
    obtain ⟨hb, -, hV, hbm⟩ := (h.items_iff b bm).mp (mem_items.mp hmem)
    exact ⟨hb, hV, hbm⟩
  items_ordered := h.items_ordered
  marks_ordered := h.marks_ordered
  marks_after pre p hpre b hb hV hlt := mem_items.mpr (h.marks_after pre p hpre b hb hV hlt)
  completed herr := by
    obtain ⟨hpast, hlast⟩ := hcompleted herr
    refine ⟨fun b hb hV => mem_items.mpr ((h.items_iff b _).mpr ⟨hb, hpast b hb hV, hV, rfl⟩), ?_⟩
    rw [← hlast]
    exact h.marks_last
  failed es hes := by
    obtain ⟨hne, p, hp, hfloor, hall⟩ := hfailed es hes
    refine ⟨hne, p, h.marks_last.trans hp, hfloor, ?_⟩
    intro b hb hV
    by_cases hpast : Past req last b
    · exact .inl ⟨mem_items.mpr ((h.items_iff b _).mpr ⟨hb, hpast, hV, rfl⟩), (hall b hb hV).1 hpast⟩
    · refine .inr ⟨fun hmem => ?_, (hall b hb hV).2 hpast⟩
      exact hpast ((h.items_iff b _).mp (mem_items.mp hmem)).2.1

variable {floorPos : Nat}
  (hfloor : reduce (boundInDirection · · req.direction) ((activeLeaves req st).map LeafState.front) = some floorPos)
  (hf : reduce (boundInDirection · · req.direction) ((activeLeaves req st).filterMap headBucket) = some f)

section

variable (h : Running req content V last st)

include h

include hfloor in
/-- The floor of a round is the front of an active leaf, and none is before it. Its watermark does not pass a match. -/
theorem Running.floor : (∀ l ∈ activeLeaves req st, req.direction.key floorPos ≤ req.direction.key l.front) ∧
      req.direction.key req.requestFloor ≤ req.direction.key floorPos ∧
      (∀ p, st.lastEmitted = some p → req.direction.key p ≤ req.direction.key floorPos) ∧
      (∀ b, req.InRange b → (V b).Nonempty → ¬ Past req last b →
        req.direction.key floorPos ≤ req.direction.key (bucketEdges req b).1) ∧
      (emit req st.lastEmitted st.out floorPos).1 = some floorPos ∧
      OutOk req V last (some floorPos) (emit req st.lastEmitted st.out floorPos).2 := by
  obtain ⟨hmem, hle⟩ := reduce_bound hfloor
  obtain ⟨l0, hl0, rfl⟩ := mem_map.mp hmem
  obtain ⟨i0, hi0, hu0⟩ := mem_activeLeaves.mp hl0
  have hok0 := (h.settled_leaf hi0 hu0).1
  have hbefore : ∀ b, req.InRange b → (V b).Nonempty → ¬ Past req last b →
      req.direction.key l0.front ≤ req.direction.key (bucketEdges req b).1 := by
    intro b hb hV hpast
    obtain ⟨i, l, hl, hu, hne⟩ := h.match_active hb hpast hV
    exact (hle _ (mem_map_of_mem (mem_activeLeaves.mpr ⟨i, hl, hu⟩))).trans
      ((h.settled_leaf hl hu).1.front_le_content b hb hpast hne)
  refine ⟨fun l hl => hle _ (mem_map_of_mem hl), hok0.floor_le, hok0.emitted_le, hbefore, h.out.emit ?_ hok0.emitted_le⟩
  intro b hb hV hlt
  by_contra hpast
  exact absurd (hbefore b hb hV hpast) (not_le.mpr hlt)

section

variable (herr : (settleLeaves req st).filterMap headError = [])

include herr

/-- Without errors every active leaf stands on a bucket. -/
theorem Running.head_of_no_error (hl : (settleLeaves req st)[i]? = some l) (hu : l.unreferenced = false) :
    ∃ b bm rest, l.leaf.buckets = (b, bm) :: rest ∧ l.head = some (.bucket b) ∧ l.front = (bucketEdges req b).1 := by
  rcases (h.settled_leaf hl hu).2 with hb | ⟨e, -, he, hhead⟩
  · exact hb
  · have hmem : e ∈ (settleLeaves req st).filterMap headError :=
      mem_filterMap.mpr ⟨l, mem_of_getElem? hl, by simp [headError, hu, hhead, he]⟩
    rw [herr] at hmem
    exact absurd hmem not_mem_nil

include hf in
/-- The bucket of the floor is the head of an active leaf, and no active leaf stands before it. -/
theorem Running.floorBucket : (∃ (i : Nat) (l : LeafState E) (bm : RoaringBitmap) (rest : List (Nat × RoaringBitmap)),
      (settleLeaves req st)[i]? = some l ∧ l.unreferenced = false ∧ l.leaf.buckets = (f, bm) :: rest ∧
        l.head = some (.bucket f) ∧ l.front = (bucketEdges req f).1) ∧ NoneBefore req st f := by
  obtain ⟨hmem, hle⟩ := reduce_bound hf
  obtain ⟨l, hl, hhead⟩ := mem_filterMap.mp hmem
  obtain ⟨i, hi, hu⟩ := mem_activeLeaves.mp hl
  obtain ⟨b, bm, rest, hb, hhd, hfront⟩ := h.head_of_no_error herr hi hu
  obtain rfl : b = f := by simpa [headBucket, hhd] using hhead
  refine ⟨⟨i, l, bm, rest, hi, hu, hb, hhd, hfront⟩, ?_⟩
  intro j l' b' hl' hu' hhd'
  exact hle b' (mem_filterMap.mpr ⟨l', mem_activeLeaves.mpr ⟨j, hl', hu'⟩, by simp [headBucket, hhd']⟩)

section

variable (hin : req.InRange f) (hnew : ¬ Past req last f) (hle : NoneBefore req st f)

include hin hnew hle

/-- The snapshot of a leaf at the floor bucket is its content there. -/
theorem Running.agrees (ht : t ∈ settleTerms req st) (hu : t.unsatisfiable = false) (hi : i ∈ t.includes ++ t.excludes) :
    Agrees (takeSnapshot f (settleTerms req st) (settleLeaves req st)).bitmap content f i := by
  have hok := h.settled_term ht
  by_cases hact : IsActive (settleLeaves req st) i
  · obtain ⟨l, hl, hul⟩ := hact
    obtain ⟨b, bm, rest, hb, hhd, -⟩ := h.head_of_no_error herr hl hul
    have hlok := (h.settled_leaf hl hul).1
    by_cases hbf : b = f
    · subst hbf
      have hon : isOnFloor b l = true := by simp [isOnFloor, hul, hhd]
      have hbm : bm = content i b := (hlok.correct (b, bm) (by simp [hb])).2.1
      exact .inl (by simp [bitmap, takeSnapshot, hl, hon, hb, hbm])
    · have hoff : isOnFloor f l = false := by simp [isOnFloor, hul, hhd, hbf]
      refine .inr ⟨by simp [bitmap, takeSnapshot, hl, hoff], Finset.not_nonempty_iff_eq_empty.mp fun hne => hbf ?_⟩
      exact key_injective (le_antisymm (hlok.head_le hb hin hnew hne) (hle i l b hl hul hhd))
  · have hex : Exhausted req (content i) last := by
      rcases mem_append.mp hi with hi | hi
      · exact absurd (hok.includes hu i hi) hact
      · exact (hok.excludes hu i hi).resolve_left hact
    refine .inr ⟨?_, Finset.not_nonempty_iff_eq_empty.mp (hex f hin hnew)⟩
    cases hl : (settleLeaves req st)[i]? with
    | none => simp [bitmap, takeSnapshot, hl]
    | some l =>
      have hul : l.unreferenced = true := by
        cases hul : l.unreferenced with
        | true => rfl
        | false => exact absurd ⟨l, hl, hul⟩ hact
      simp [bitmap, takeSnapshot, hl, isOnFloor, hul]

/-- The terms at the floor bucket evaluate to the value of the query there. -/
theorem Running.eval :
    Bits (evalTerms (takeSnapshot f (settleTerms req st) (settleLeaves req st)) (settleTerms req st)) (· ∈ V f) := by
  have hholds : (takeSnapshot f (settleTerms req st) (settleLeaves req st)).Holds
      (takeSnapshot f (settleTerms req st) (settleLeaves req st)).bitmap (slots (settleTerms req st)) := by
    refine ⟨?_, ?_, ?_⟩
    · intro i hi
      simp [bitmap, hi]
    · intro i hi
      exact (countOnFloorRefs_eq _ _ hi).ge
    · intro i hi _
      simp [bitmap, hi]
  refine (evalTerms_bits hholds (fun t ht => (h.settled_term ht).anchored)
    fun t ht hu i hi => h.agrees herr hin hnew hle ht hu hi).congr fun o => ?_
  constructor
  · rintro ⟨t, ht, -, hm⟩
    exact (h.settled_value f o).mpr ⟨t, ht, hm⟩
  · intro ho
    exact h.match_includes hin hnew ho

/-- An active leaf after the floor bucket is done. -/
theorem Running.advanced_leaf (hl : (settleLeaves req st)[i]? = some l) (hu : l.unreferenced = false) :
    LeafOk req (content i) (some f) (some (bucketEdges req f).2) (advance f (bucketEdges req f).2 l) := by
  have hok := (h.settled_leaf hl hu).1
  obtain ⟨b, bm, rest, hb, hhd, hfront⟩ := h.head_of_no_error herr hl hu
  have hold : ∀ b', ¬ Past req (some f) b' → ¬ Past req last b' ∧ req.direction.key f < req.direction.key b' := by
    intro b' hb'
    rw [past_some, not_le] at hb'
    refine ⟨fun hpast => ?_, hb'⟩
    have hlt := hpast.lt hnew
    omega
  by_cases hbf : b = f
  · subst hbf
    have hord := hok.ordered
    rw [hb, pairwise_cons] at hord
    have hadv : advance b (bucketEdges req b).2 l =
        { l with front := (bucketEdges req b).2, leaf := { l.leaf with buckets := rest } } := by
      simp [advance, isOnFloor, hu, hhd, hb]
    have hmem : ∀ x ∈ rest, x ∈ l.leaf.buckets := fun x hx => by simp [hb, hx]
    rw [hadv]
    refine ⟨hord.2, ?_, ?_, ?_, ?_, ?_, ?_⟩
    · intro x hx
      obtain ⟨hxin, hxc, -⟩ := hok.correct x (hmem x hx)
      refine ⟨hxin, hxc, ?_⟩
      rw [past_some, not_le]
      exact hord.1 x hx
    · intro b' hb' hpast hne
      obtain ⟨hpast', hlt⟩ := hold b' hpast
      rcases hok.complete b' hb' hpast' hne with ⟨bm', hmem'⟩ | ⟨herr', hall⟩
      · rw [hb] at hmem'
        rcases mem_cons.mp hmem' with heq | hmem'
        · obtain ⟨rfl, -⟩ := Prod.mk.inj heq
          exact absurd hlt (lt_irrefl _)
        · exact .inl ⟨bm', hmem'⟩
      · exact .inr ⟨herr', fun x hx => hall x (hmem x hx)⟩
    · intro b' hb' hpast _
      exact post_le_pre hin hb' (hold b' hpast).2
    · intro x hx
      exact post_le_pre hin (hok.correct x (hmem x hx)).1 (hord.1 x hx)
    · intro p hp
      rw [Option.some.inj hp]
    · exact (floor_le_pre hin).trans (pre_lt_post hin).le
  · have hadv : advance f (bucketEdges req f).2 l = l := by simp [advance, isOnFloor, hu, hhd, hbf]
    have hlt : req.direction.key f < req.direction.key b :=
      lt_of_le_of_ne (hle i l b hl hu hhd) fun heq => hbf (key_injective heq.symm)
    have hbin := (hok.correct (b, bm) (by simp [hb])).1
    rw [hadv]
    refine ⟨hok.ordered, ?_, ?_, ?_, hok.front_le_bucket, ?_, hok.floor_le⟩
    · intro x hx
      obtain ⟨hxin, hxc, -⟩ := hok.correct x hx
      refine ⟨hxin, hxc, ?_⟩
      rw [past_some, not_le]
      exact hlt.trans_le (hok.head_le_bucket hb hx)
    · intro b' hb' hpast hne
      exact hok.complete b' hb' (hold b' hpast).1 hne
    · intro b' hb' hpast hne
      exact hok.front_le_content b' hb' (hold b' hpast).1 hne
    · intro p hp
      rw [← Option.some.inj hp, hfront]
      exact post_le_pre hin hbin hlt

end

end

end

theorem advance_unreferenced (f post : Nat) (l : LeafState E) : (advance f post l).unreferenced = l.unreferenced := by
  unfold advance
  split <;> rfl

theorem isActive_advance {post : Nat} {leaves : List (LeafState E)} (h : IsActive leaves i) :
    IsActive (leaves.map (advance f post)) i := by
  obtain ⟨l, hl, hu⟩ := h
  exact ⟨advance f post l, by rw [getElem?_map, hl]; rfl, by rw [advance_unreferenced]; exact hu⟩

/-- A round that goes on takes a bucket from a leaf. -/
theorem bucketsLeft_advance {post : Nat} (hl : (settleLeaves req st)[i]? = some l)
    (hon : isOnFloor f l = true) (hne : l.leaf.buckets ≠ []) (terms : List TermSpec) (lastEmitted : Option Nat)
    (out : List (Watermarked (Nat × RoaringBitmap))) :
    bucketsLeft (⟨(settleLeaves req st).map (advance f post), terms, lastEmitted, out⟩ : EvalState E) < bucketsLeft st := by
  have hsame : (settleLeaves req st).map (fun l => l.leaf.buckets.length) = st.leaves.map fun l => l.leaf.buckets.length := by
    refine ext_getElem? fun j => ?_
    rw [getElem?_map, settleLeaves, recomputeUnreferenced, getElem?_mapIdx, getElem?_map, getElem?_map]
    cases st.leaves[j]? with
    | none => rfl
    | some =>
      simp only [Option.map_some]
      split <;> simp
  rw [bucketsLeft, bucketsLeft, ← hsame, map_map]
  refine sum_lt_sum _ _ ?_ ⟨l, mem_of_getElem? hl, ?_⟩
  · intro x _
    simp only [Function.comp_apply, advance]
    split
    · simp
    · exact le_rfl
  · simp only [Function.comp_apply, advance, hon, if_true, length_tail]
    exact Nat.sub_lt (length_pos_iff.mpr hne) Nat.one_pos

section

variable (h : Running req content V last st)

include h

/-- The round without active leaves completes the scan. -/
theorem Running.completed (hact : activeLeaves req st = []) :
    Finished req V (⟨(emit req st.lastEmitted st.out req.terminus).2, none⟩ : ScanResult E) := by
  have hpast : ∀ b, req.InRange b → (V b).Nonempty → Past req last b := by
    intro b hb hV
    by_contra hpast
    obtain ⟨i, l, hl, hu, -⟩ := h.match_active hb hpast hV
    have hmem : l ∈ activeLeaves req st := mem_activeLeaves.mpr ⟨i, hl, hu⟩
    rw [hact] at hmem
    exact absurd hmem not_mem_nil
  obtain ⟨-, hout⟩ := h.out.emit (fun b hb hV _ => hpast b hb hV) h.bounded
  exact hout.finished (fun _ => ⟨hpast, rfl⟩) nofun

include hfloor in
/-- A round with errors ends the scan at the floor. -/
theorem Running.failed {errors : List E} (herr : errors ≠ []) :
    Finished req V (⟨(emit req st.lastEmitted st.out floorPos).2, some errors⟩ : ScanResult E) := by
  obtain ⟨hle, hlow, hemitted, hbefore, hemit, hout⟩ := h.floor hfloor
  refine hout.finished nofun ?_
  intro es hes
  obtain rfl := Option.some.inj hes
  refine ⟨herr, floorPos, rfl, hlow, fun b hb hV => ⟨?_, hbefore b hb hV⟩⟩
  rintro ⟨f, hf, hbf⟩
  obtain ⟨p, hp, hpost⟩ := h.emitted f hf
  have hfin := h.lastInRange f hf
  have hpostle : req.direction.key (bucketEdges req b).2 ≤ req.direction.key (bucketEdges req f).2 := by
    rcases lt_or_eq_of_le hbf with hlt | heq
    · exact (post_le_pre hb hfin hlt).trans (pre_lt_post hfin).le
    · rw [key_injective heq]
  exact hpostle.trans (hpost.trans (hemitted p hp))

include hfloor hf in
/-- The state after a round that evaluates its floor bucket. -/
theorem Running.next (herr : (settleLeaves req st).filterMap headError = [])
    {out' : List (Watermarked (Nat × RoaringBitmap))} (hout' : out' = emitItem (emit req st.lastEmitted st.out floorPos).2 f
      (evalTerms (takeSnapshot f (settleTerms req st) (settleLeaves req st)) (settleTerms req st))) :
    Running req content V (some f) ⟨(settleLeaves req st).map (advance f (bucketEdges req f).2), settleTerms req st,
      (emit req (emit req st.lastEmitted st.out floorPos).1 out' (bucketEdges req f).2).1,
      (emit req (emit req st.lastEmitted st.out floorPos).1 out' (bucketEdges req f).2).2⟩ := by
  obtain ⟨hle, -, -, hbefore, hemit, hout⟩ := h.floor hfloor
  obtain ⟨⟨i0, l0, bm0, rest0, hl0, hu0, hb0, hhd0, hfront0⟩, hnone⟩ := h.floorBucket hf herr
  have hok0 := (h.settled_leaf hl0 hu0).1
  obtain ⟨hin, -, hnew⟩ := hok0.correct (f, bm0) (by simp [hb0])
  -- no leaf has a bucket between the last floor bucket and this one
  have hgap : ∀ b, req.InRange b → ¬ Past req last b → req.direction.key b < req.direction.key f → ¬ (V b).Nonempty := by
    intro b hb hpast hlt hV
    obtain ⟨i, l, hl, hu, hne⟩ := h.match_active hb hpast hV
    obtain ⟨b', bm, rest, hb', hhd, -⟩ := h.head_of_no_error herr hl hu
    have h1 := (h.settled_leaf hl hu).1.head_le hb' hb hpast hne
    have h2 := hnone i l b' hl hu hhd
    omega
  have hitem := hout.item hin hnew hgap (h.eval herr hin hnew hnone)
  rw [← hout'] at hitem
  obtain ⟨hlast, hout2⟩ := hitem.emit (p := (bucketEdges req f).2) (by
      intro b hb _ hlt
      by_contra hpast
      rw [past_some, not_le] at hpast
      exact absurd (post_le_pre hin hb hpast) (not_le.mpr hlt))
    (by
      intro q hq
      obtain rfl := Option.some.inj hq
      have h1 := hle l0 (mem_activeLeaves.mpr ⟨i0, hl0, hu0⟩)
      rw [hfront0] at h1
      exact h1.trans (pre_lt_post hin).le)
  rw [hemit]
  refine ⟨?_, ?_, ?_, h.settled_value, ?_, ?_, ?_⟩
  · intro f' hf'
    exact Option.some.inj hf' ▸ hin
  · intro i l hl hu
    dsimp only at hl ⊢
    rw [getElem?_map] at hl
    obtain ⟨l1, hl1, rfl⟩ := Option.map_eq_some_iff.mp hl
    rw [advance_unreferenced] at hu
    rw [hlast]
    exact h.advanced_leaf herr hin hnew hnone hl1 hu
  · intro t ht
    have hok := h.settled_term ht
    refine ⟨hok.anchored, fun hu i hi => isActive_advance (hok.includes hu i hi), ?_, ?_⟩
    · intro hu i hi
      exact (hok.excludes hu i hi).imp isActive_advance fun hex => hex.mono hnew
    · intro hu
      obtain ⟨i, hi, hex⟩ := hok.exhausted hu
      exact ⟨i, hi, hex.mono hnew⟩
  · dsimp only
    rw [hlast]
    exact hout2
  · intro f' hf'
    obtain rfl := Option.some.inj hf'
    exact ⟨_, hlast, le_rfl⟩
  · intro p hp
    dsimp only at hp
    rw [hlast] at hp
    obtain rfl := Option.some.inj hp
    exact post_le_terminus hin

/-- A round goes on to a state of the invariant with fewer buckets left, or ends the scan. -/
theorem Running.round :
    (∃ st', round req st = .ok (.next st') ∧ (∃ f, Running req content V (some f) st') ∧ bucketsLeft st' < bucketsLeft st) ∨
      ∃ r, round req st = .ok (.done r) ∧ Finished req V r := by
  unfold InvertedIndex.round
  cases hact : activeLeaves req st with
  | nil =>
    refine .inr ⟨_, ?_, h.completed hact⟩
    rw [activeLeaves] at hact
    simp [hact]
  | cons l0 =>
    have hne : activeLeaves req st ≠ [] := by simp [hact]
    obtain ⟨floorPos, hfloor⟩ : ∃ p, reduce (boundInDirection · · req.direction)
        ((activeLeaves req st).map LeafState.front) = some p := reduce_isSome (by simpa using hne)
    have hfloor' := hfloor
    rw [activeLeaves] at hfloor'
    have hempty : ((settleLeaves req st).filter fun l => !l.unreferenced).isEmpty = false := by
      rw [← activeLeaves, hact]
      rfl
    simp only [hempty, Bool.false_eq_true, if_false, hfloor', expect_some, ok_bind]
    cases herr : (settleLeaves req st).filterMap headError with
    | cons e es =>
      have hne : e :: es ≠ [] := by simp
      exact .inr ⟨_, rfl, h.failed hfloor hne⟩
    | nil =>
      left
      have hbuckets : (activeLeaves req st).filterMap headBucket ≠ [] := by
        obtain ⟨i, hi, hu⟩ := mem_activeLeaves.mp (hact ▸ mem_cons_self : l0 ∈ activeLeaves req st)
        obtain ⟨b, bm, rest', -, hhd, -⟩ := h.head_of_no_error herr hi hu
        simp [hact, headBucket, hhd]
      obtain ⟨f, hf⟩ : ∃ f, reduce (boundInDirection · · req.direction) ((activeLeaves req st).filterMap headBucket) = some f :=
        reduce_isSome hbuckets
      have hf' := hf
      rw [activeLeaves] at hf'
      simp only [isEmpty_nil, Bool.not_true, Bool.false_eq_true, if_false, hf', expect_some, ok_bind, pure_eq_ok]
      refine ⟨_, rfl, ⟨f, h.next hfloor hf herr rfl⟩, ?_⟩
      obtain ⟨⟨i, l, bm, rest', hl, hu, hb, hhd, -⟩, -⟩ := h.floorBucket hf herr
      exact bucketsLeft_advance hl (by simp [isOnFloor, hu, hhd]) (by simp [hb]) _ _ _

/-- A scan from a state of the invariant ends. -/
theorem Running.run {fuel : Nat} (hfuel : bucketsLeft st < fuel) :
    ∃ r, Loop.run .outOfFuel (InvertedIndex.round req) fuel st = .ok r ∧ Finished req V r := by
  refine Loop.run_total (fun st : EvalState E => ∃ last, Running req content V last st) (Finished req V) bucketsLeft ⟨last, h⟩ hfuel ?_
  rintro st ⟨last, h⟩
  rcases h.round with ⟨st', hround, ⟨f, hrun⟩, hlt⟩ | hdone
  · exact .inl ⟨st', hround, ⟨some f, hrun⟩, hlt⟩
  · exact .inr hdone

end

/-! ## The start of a scan -/

variable {K : Type}

theorem mem_foldr_union {α : Type} (l : List α) (f : α → RoaringBitmap) (o : Nat) :
    o ∈ (l.map f).foldr (· ∪ ·) ∅ ↔ ∃ x ∈ l, o ∈ f x := by
  induction l with
  | nil => simp
  | cons a l ih => simp [ih]

variable {t : BitmapTerm K}

theorem mem_includedKeys {key : K} : key ∈ t.includedKeys ↔ .incl key ∈ t.literals :=
  mem_filterMap_undo fun x k => by cases x <;> simp

theorem mem_excludedKeys {key : K} : key ∈ t.excludedKeys ↔ .excl key ∈ t.literals :=
  mem_filterMap_undo fun x k => by cases x <;> simp

theorem BitmapTerm.mem_value {content : K → Nat → RoaringBitmap} {b o : Nat} : o ∈ t.value content b ↔
      (∀ key, .incl key ∈ t.literals → o ∈ content key b) ∧ ∀ key, .excl key ∈ t.literals → o ∉ content key b := by
  simp only [BitmapTerm.value, Finset.mem_filter, mem_foldr_union, mem_includedKeys, mem_excludedKeys, and_iff_right_iff_imp]
  rintro ⟨hincl, -⟩
  obtain ⟨key, hkey⟩ := t.anchored
  exact ⟨key, hkey, hincl key hkey⟩

/-- A term and its references into a list of keys. -/
structure SpecOf (keys : List K) (literals : List (BitmapLiteral K)) (s : TermSpec) : Prop where
  includes : ∀ key, .incl key ∈ literals → ∃ i ∈ s.includes, keys[i]? = some key
  excludes : ∀ key, .excl key ∈ literals → ∃ i ∈ s.excludes, keys[i]? = some key
  of_includes : ∀ i ∈ s.includes, ∃ key, keys[i]? = some key ∧ .incl key ∈ literals
  of_excludes : ∀ i ∈ s.excludes, ∃ key, keys[i]? = some key ∧ .excl key ∈ literals
  satisfiable : s.unsatisfiable = false

variable {s : TermSpec}

/-- References into a list of keys, one for each key with a property. -/
def Refers (keys : List K) (P : K → Prop) (refs : List Nat) : Prop :=
  (∀ key, P key → ∃ i ∈ refs, keys[i]? = some key) ∧ ∀ i ∈ refs, ∃ key, keys[i]? = some key ∧ P key

variable {literals : List (BitmapLiteral K)}

theorem specOf_iff {keys : List K} : SpecOf keys literals s ↔
    Refers keys (fun key => .incl key ∈ literals) s.includes ∧ Refers keys (fun key => .excl key ∈ literals) s.excludes ∧
      s.unsatisfiable = false := by
  constructor
  · intro h
    exact ⟨⟨h.includes, h.of_includes⟩, ⟨h.excludes, h.of_excludes⟩, h.satisfiable⟩
  · rintro ⟨⟨hincl, hincl'⟩, ⟨hexcl, hexcl'⟩, hsat⟩
    exact ⟨hincl, hexcl, hincl', hexcl', hsat⟩

section

variable {keys keys' : List K} {P : K → Prop} {refs : List Nat} (h : Refers keys P refs)

include h

theorem Refers.mono (hkeys : keys <+: keys') : Refers keys' P refs := by
  obtain ⟨rest, rfl⟩ := hkeys
  have hget : ∀ (i : Nat) (key : K), keys[i]? = some key → (keys ++ rest)[i]? = some key := by
    intro i key hi
    rw [List.getElem?_append_left (List.getElem?_eq_some_iff.mp hi).1]
    exact hi
  refine ⟨fun key hkey => ?_, fun i hi => ?_⟩
  · obtain ⟨i, hi, hk⟩ := h.1 key hkey
    exact ⟨i, hi, hget i key hk⟩
  · obtain ⟨key, hk, hmem⟩ := h.2 i hi
    exact ⟨key, hget i key hk, hmem⟩

theorem Refers.concat {j : Nat} {key : K} (hj : keys[j]? = some key) : Refers keys (fun k => P k ∨ k = key) (refs ++ [j]) := by
  refine ⟨?_, fun i hi => ?_⟩
  · rintro k (hk | rfl)
    · obtain ⟨i, hi, hik⟩ := h.1 k hk
      exact ⟨i, mem_append_left _ hi, hik⟩
    · exact ⟨j, mem_append_right _ (mem_singleton_self _), hj⟩
  · rcases mem_concat.mp hi with hi | rfl
    · obtain ⟨k, hik, hk⟩ := h.2 i hi
      exact ⟨k, hik, .inl hk⟩
    · exact ⟨key, hj, .inr rfl⟩

end

theorem SpecOf.mono {keys keys' : List K} (h : SpecOf keys literals s) (hkeys : keys <+: keys') : SpecOf keys' literals s := by
  obtain ⟨hincl, hexcl, hsat⟩ := specOf_iff.mp h
  exact specOf_iff.mpr ⟨hincl.mono hkeys, hexcl.mono hkeys, hsat⟩

variable [DecidableEq K]

theorem keyIndex_spec (keys : List K) (key : K) :
    keys <+: (keyIndex keys key).1 ∧ (keyIndex keys key).1[(keyIndex keys key).2]? = some key := by
  unfold keyIndex
  split
  · rename_i i hi
    obtain ⟨hlt, hkey, -⟩ := idxOf?_eq_some_iff.mp hi
    exact ⟨prefix_rfl, by rw [getElem?_eq_getElem hlt, hkey]⟩
  · exact ⟨prefix_append _ _, by simp⟩

variable {keys : List K}

/-- A literal adds its key to the references of its term. -/
theorem SpecOf.addLiteral (h : SpecOf keys literals s) (x : BitmapLiteral K) : keys <+: (addLiteral (keys, s) x).1 ∧
      SpecOf (addLiteral (keys, s) x).1 (literals ++ [x]) (addLiteral (keys, s) x).2 := by
  obtain ⟨hincl, hexcl, hsat⟩ := specOf_iff.mp h
  cases x with
  | incl key =>
    obtain ⟨hpre, hget⟩ := keyIndex_spec keys key
    refine ⟨hpre, specOf_iff.mpr ⟨?_, ?_, hsat⟩⟩
    · simpa [InvertedIndex.addLiteral] using (hincl.mono hpre).concat hget
    · simpa [InvertedIndex.addLiteral] using hexcl.mono hpre
  | excl key =>
    obtain ⟨hpre, hget⟩ := keyIndex_spec keys key
    refine ⟨hpre, specOf_iff.mpr ⟨?_, ?_, hsat⟩⟩
    · simpa [InvertedIndex.addLiteral] using hincl.mono hpre
    · simpa [InvertedIndex.addLiteral] using (hexcl.mono hpre).concat hget

theorem SpecOf.foldl_addLiteral (l literals : List (BitmapLiteral K)) (h : SpecOf keys literals s) :
    keys <+: (l.foldl InvertedIndex.addLiteral (keys, s)).1 ∧
      SpecOf (l.foldl InvertedIndex.addLiteral (keys, s)).1 (literals ++ l) (l.foldl InvertedIndex.addLiteral (keys, s)).2 := by
  induction l generalizing keys s literals with
  | nil => exact ⟨prefix_rfl, by simpa using h⟩
  | cons x l ih =>
    obtain ⟨hpre, hspec⟩ := h.addLiteral x
    obtain ⟨hpre', hspec'⟩ := ih (literals ++ [x]) hspec
    exact ⟨hpre.trans hpre', by simpa using hspec'⟩

/-- The specs of a query are its terms over the shared list of keys. -/
theorem buildTermSpecs_spec (terms : List (BitmapTerm K)) :
    List.Forall₂ (fun (t : BitmapTerm K) s => SpecOf (buildTermSpecs terms).keys t.literals s) terms (buildTermSpecs terms).terms := by
  -- the fold with the terms before as its accumulator
  suffices hfold : ∀ (l pre : List (BitmapTerm K)) (q : DedupedQuery K),
      List.Forall₂ (fun (t : BitmapTerm K) s => SpecOf q.keys t.literals s) pre q.terms →
      List.Forall₂ (fun (t : BitmapTerm K) s => SpecOf (l.foldl addTerm q).keys t.literals s) (pre ++ l) (l.foldl addTerm q).terms by
    exact hfold terms [] ⟨[], []⟩ .nil
  intro l
  induction l with
  | nil =>
    intro pre q h
    simpa using h
  | cons t l ih =>
    intro pre q h
    have hempty : SpecOf q.keys [] ⟨[], [], false⟩ := ⟨by simp, by simp, by simp, by simp, rfl⟩
    obtain ⟨hpre, hspec⟩ := hempty.foldl_addLiteral t.literals []
    have hnext := ih (pre ++ [t]) (addTerm q t) (rel_append (h.imp fun t s hs => hs.mono hpre) (.cons hspec .nil))
    simpa using hnext

/-- The contents of the leaves by their indices. -/
def contentAt (keys : List K) (content : K → Nat → RoaringBitmap) (i : Nat) : Nat → RoaringBitmap :=
  match keys[i]? with
  | some key => content key
  | none => fun _ => ∅

omit [DecidableEq K] in
theorem contentAt_eq {content : K → Nat → RoaringBitmap} {key : K} (h : keys[i]? = some key) :
    contentAt keys content i = content key := by
  simp [contentAt, h]

omit [DecidableEq K] in
theorem Refers.forall_iff {content : K → Nat → RoaringBitmap} {P : K → Prop} {refs : List Nat} (h : Refers keys P refs)
    (Q : (Nat → RoaringBitmap) → Prop) : (∀ i ∈ refs, Q (contentAt keys content i)) ↔ ∀ key, P key → Q (content key) := by
  refine ⟨fun hall key hkey => ?_, fun hall i hi => ?_⟩
  · obtain ⟨i, hi, hik⟩ := h.1 key hkey
    have ho := hall i hi
    rwa [contentAt_eq hik] at ho
  · obtain ⟨key, hik, hkey⟩ := h.2 i hi
    rw [contentAt_eq hik]
    exact hall key hkey

omit [DecidableEq K] in
theorem SpecOf.matchesAt {content : K → Nat → RoaringBitmap}
    (h : SpecOf keys t.literals s) (b o : Nat) : s.MatchesAt (contentAt keys content) b o ↔ o ∈ t.value content b := by
  obtain ⟨hincl, hexcl, -⟩ := specOf_iff.mp h
  rw [BitmapTerm.mem_value]
  exact and_congr (hincl.forall_iff fun c => o ∈ c b) (hexcl.forall_iff fun c => o ∉ c b)

/-- The state before the first round. -/
theorem start_running {content : K → Nat → RoaringBitmap} {source : K → Leaf E} {query : BitmapQuery K}
    (hserves : ∀ key ∈ (buildTermSpecs query.terms).keys, (source key).Serves req (content key)) :
    Running req (contentAt (buildTermSpecs query.terms).keys content) (query.value content) none (start source query req) := by
  have hspecs := buildTermSpecs_spec query.terms
  refine ⟨nofun, ?_, ?_, ?_, OutOk.nil _, nofun, nofun⟩
  · intro i l hl _
    simp only [start, getElem?_map, Option.map_eq_some_iff] at hl
    obtain ⟨key, hkey, rfl⟩ := hl
    have hs := hserves key (mem_of_getElem? hkey)
    rw [contentAt_eq hkey]
    refine ⟨hs.ordered, ?_, ?_, ?_, ?_, nofun, le_rfl⟩
    · intro x hx
      obtain ⟨hin, hx⟩ := hs.correct x hx
      exact ⟨hin, hx, not_past_none _⟩
    · intro b hb _ hne
      exact hs.complete b hb hne
    · intro b hb _ _
      exact floor_le_pre hb
    · intro x hx
      exact floor_le_pre (hs.correct x hx).1
  · intro s hs
    obtain ⟨t, -, hspec⟩ := exists_of_forall₂ hspecs hs
    have hactive : ∀ (i : Nat) (key : K), (buildTermSpecs query.terms).keys[i]? = some key →
        IsActive (start source query req).leaves i := by
      intro i key hi
      exact ⟨⟨source key, false, req.requestFloor, none⟩, by simp [start, hi], rfl⟩
    refine ⟨?_, ?_, ?_, ?_⟩
    · obtain ⟨key, hkey⟩ := t.anchored
      obtain ⟨i, hi, -⟩ := hspec.includes key hkey
      exact ne_nil_of_mem hi
    · intro _ i hi
      obtain ⟨key, hik, -⟩ := hspec.of_includes i hi
      exact hactive i key hik
    · intro _ i hi
      obtain ⟨key, hik, -⟩ := hspec.of_excludes i hi
      exact .inl (hactive i key hik)
    · intro hu
      exact absurd (hspec.satisfiable.symm.trans hu) nofun
  · intro b o
    rw [BitmapQuery.value, mem_foldr_union]
    constructor
    · rintro ⟨t, ht, ho⟩
      obtain ⟨s, hs, hspec⟩ := exists_of_forall₂ hspecs.flip ht
      exact ⟨s, hs, (hspec.matchesAt b o).mpr ho⟩
    · rintro ⟨s, hs, hm⟩
      obtain ⟨t, ht, hspec⟩ := exists_of_forall₂ hspecs hs
      exact ⟨t, ht, (hspec.matchesAt b o).mp hm⟩

end Sui.InvertedIndex

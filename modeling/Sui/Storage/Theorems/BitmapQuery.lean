import Sui.Storage.Lemmas.BitmapRounds

/-!
# Bitmap queries are exact and can be resumed

The output of a scan against the value of the query: the items, the watermarks between them, and what a second scan from the last
watermark adds after a failure.
-/

namespace Sui.InvertedIndex

open Library ScanDirection

variable {K E : Type} [DecidableEq K]

/-- A request for what is left of a request behind a watermark. -/
structure Request.Resumes (req' req : Request) (p : Nat) : Prop where
  bucketSize : req'.bucketSize = req.bucketSize
  direction : req'.direction = req.direction
  start : req'.range.start = match req.direction with | .ascending => p | .descending => req.range.start
  stop : req'.range.stop = match req.direction with | .ascending => req.range.stop | .descending => p

variable {req' req : Request}

/-- The buckets of the rest are the buckets of the request that end behind the watermark. -/
theorem Request.Resumes.inRange_iff {p : Nat} (h : req'.Resumes req p)
    (hp : req.direction.key req.requestFloor ≤ req.direction.key p) (b : Nat) :
    req'.InRange b ↔ req.InRange b ∧ req.direction.key p < req.direction.key (bucketEdges req b).2 := by
  have hstart := h.start
  have hstop := h.stop
  have hsub : req'.InRange b → req.InRange b := by
    simp only [InRange, h.bucketSize]
    cases hd : req.direction <;> simp only [hd, key, requestFloor] at hp hstart hstop <;> omega
  rw [← and_iff_right_of_imp hsub]
  refine and_congr_right fun hb => ?_
  rw [bucketEdges_eq hb]
  simp only [InRange, h.bucketSize] at hb ⊢
  cases hd : req.direction <;> simp only [hd, key] at hstart hstop ⊢ <;> omega

/-- The items of a scan are buckets of the range with exactly the value of the query, in order; a watermark at `p` comes after
every match that begins before `p`. A scan that completes has all the matches. After one that fails, a scan of the rest from the
last watermark yields exactly the other matches. -/
theorem evalBitmapQuery_exact (content : K → Nat → RoaringBitmap) (query : BitmapQuery K) (req : Request) (source : K → Leaf E)
    (hserves : ∀ key ∈ (buildTermSpecs query.terms).keys, (source key).Serves req (content key)) :
    ∃ r, evalBitmapQuery source query req = .ok r ∧
      (∀ b bm, (b, bm) ∈ items r.out → req.InRange b ∧ (query.value content b).Nonempty ∧ bm = query.value content b) ∧
      (items r.out).Pairwise (fun x y => req.direction.key x.1 < req.direction.key y.1) ∧
      (watermarks r.out).Pairwise (fun p q => req.direction.key p < req.direction.key q) ∧
      (∀ pre p, pre ++ [.watermark p] <+: r.out → ∀ b, req.InRange b → (query.value content b).Nonempty →
        req.direction.key (bucketEdges req b).1 < req.direction.key p → (b, query.value content b) ∈ items pre) ∧
      (r.errors = none → (∀ b, req.InRange b → (query.value content b).Nonempty → (b, query.value content b) ∈ items r.out) ∧
        (watermarks r.out).getLast? = some req.terminus) ∧
      ∀ es, r.errors = some es → ∃ p, (watermarks r.out).getLast? = some p ∧
        ∀ (req' : Request) (source' : K → Leaf E) (r' : ScanResult E), req'.Resumes req p →
          (∀ key ∈ (buildTermSpecs query.terms).keys, (source' key).Serves req' (content key)) →
          evalBitmapQuery source' query req' = .ok r' → r'.errors = none →
          ∀ b bm, (b, bm) ∈ items r'.out ↔
            (req.InRange b ∧ (query.value content b).Nonempty ∧ bm = query.value content b) ∧ (b, bm) ∉ items r.out := by
  obtain ⟨r, hr, hfin⟩ := (start_running hserves).run (Nat.lt_succ_self _)
  refine ⟨r, hr, hfin.sound, hfin.items_ordered, hfin.marks_ordered, hfin.marks_after, hfin.completed, ?_⟩
  intro es hes
  obtain ⟨-, p, hp, hfloor, hall⟩ := hfin.failed es hes
  refine ⟨p, hp, ?_⟩
  intro req' source' r' hres hserves' hr' hnone b bm
  obtain ⟨r'', hr'', hfin'⟩ := (start_running hserves').run (Nat.lt_succ_self _)
  obtain rfl := Except.ok.inj (hr'.symm.trans hr'')
  constructor
  · intro hmem
    obtain ⟨hb', hV, rfl⟩ := hfin'.sound b bm hmem
    obtain ⟨hb, hlt⟩ := (hres.inRange_iff hfloor b).mp hb'
    refine ⟨⟨hb, hV, rfl⟩, ?_⟩
    rcases hall b hb hV with ⟨-, hle⟩ | ⟨hnot, -⟩
    · exact absurd hle (not_le.mpr hlt)
    · exact hnot
  · rintro ⟨⟨hb, hV, rfl⟩, hnot⟩
    rcases hall b hb hV with ⟨hmem, -⟩ | ⟨-, hle⟩
    · exact absurd hmem hnot
    · have hb' := (hres.inRange_iff hfloor b).mpr ⟨hb, hle.trans_lt (Request.pre_lt_post hb)⟩
      exact (hfin'.completed hnone).1 b hb' hV

/-- The members of one key without those of another. -/
def differenceQuery : BitmapQuery Bool := ⟨[⟨[.incl true, .excl false], true, by simp⟩], by simp⟩

/-- Two buckets of ten members. -/
def twoBuckets : Request := ⟨⟨0, 20, by decide, by decide⟩, 10, .ascending⟩

def twoKeys : Bool → Nat → RoaringBitmap
  | true, 0 => {1, 2}
  | true, 1 => {5}
  | false, 0 => {2}
  | false, 1 => {3}
  | _, _ => ∅

/-- The source of the first key fails after its first bucket. -/
def failingSource : Bool → Leaf Unit
  | true => ⟨[(0, {1, 2})], some ()⟩
  | false => ⟨[(0, {2}), (1, {3})], none⟩

/-- A scan yields the first bucket and stops at its end. -/
theorem evalBitmapQuery_exact_failing : ∃ r : ScanResult Unit, (∀ key, (failingSource key).Serves twoBuckets (twoKeys key)) ∧
    evalBitmapQuery failingSource differenceQuery twoBuckets = .ok r ∧ r.errors = some [()] ∧
    r.out = [.watermark 0, .item (0, {1}), .watermark 10] ∧
    (watermarks r.out).Pairwise fun p q => twoBuckets.direction.key p < twoBuckets.direction.key q := by
  have hrange : ∀ b, twoBuckets.InRange b → b = 0 ∨ b = 1 := by
    intro b hb
    simp only [twoBuckets, Request.InRange] at hb
    omega
  have hserves : ∀ key, (failingSource key).Serves twoBuckets (twoKeys key) := by
    intro key
    cases key with
    | false =>
      refine ⟨by decide, by decide, fun b hb _ => .inl ?_⟩
      rcases hrange b hb with rfl | rfl
      · exact ⟨{2}, by decide⟩
      · exact ⟨{3}, by decide⟩
    | true =>
      refine ⟨by decide, by decide, fun b hb _ => ?_⟩
      rcases hrange b hb with rfl | rfl
      · exact .inl ⟨{1, 2}, by decide⟩
      · exact .inr (by decide)
  obtain ⟨r, hr, -, -, hmarks, -⟩ := evalBitmapQuery_exact twoKeys differenceQuery twoBuckets failingSource fun key _ => hserves key
  have heval : evalBitmapQuery failingSource differenceQuery twoBuckets =
      .ok ⟨[.watermark 0, .item (0, {1}), .watermark 10], some [()]⟩ := by rfl
  obtain rfl := Except.ok.inj (hr.symm.trans heval)
  exact ⟨_, hserves, heval, rfl, rfl, hmarks⟩

end Sui.InvertedIndex

import Sui.Execution.CoinReservations
import Sui.Library.Loop

/-!
# Circular ownership

`check_circular_ownership` of `sui-move-natives/src/object_runtime/mod.rs`. The map from a transferred object to the object that
owns it grows by one entry at a time, and only the owners above the new entry are walked.
-/

namespace Sui.CircularOwnership

open Library Checked BTreeMap Relation CircularOwnership List

/-- `ExecutionError`, and a walk that does not end. -/
inductive Error where
  | circularObjectOwnership (object : ObjectID)
  | endlessWalk
deriving DecidableEq, Repr

/-- The inner loop: from one owner to the next, until the object itself is met or an object that the map does not hold. -/
def walk (objectOwnerMap : BTreeMap ObjectID ObjectID) (id newOwner : ObjectID) : Except Error (Option ObjectID) :=
  Loop.run .endlessWalk (fun cur => .ok <|
    if cur = id then .done (some cur)
    else match objectOwnerMap[cur]? with
      | some parent => .next parent
      | none => .done none) (objectOwnerMap.size + 1) newOwner

/-- The body of the loop over the transfers. -/
def checkTransfer (objectOwnerMap : BTreeMap ObjectID ObjectID) : ObjectID × Owner → Except Error (BTreeMap ObjectID ObjectID)
  | (id, .objectOwner newOwner) => do
    let objectOwnerMap := objectOwnerMap.erase id
    match ← walk objectOwnerMap id newOwner with
    | some object => .error (.circularObjectOwnership object)
    | none => return objectOwnerMap.insert id newOwner
  | (id, _) => return objectOwnerMap.erase id

def checkCircularOwnership (transfers : List (ObjectID × Owner)) : Except Error Unit := do
  let _ ← transfers.foldlM checkTransfer ∅

/-! ## One more edge -/

section Edges

variable {α : Type} {r : α → α → Prop} {a b x y : α}

theorem reach_of_edge (h : ReflTransGen (fun x y => r x y ∨ x = a ∧ y = b) x y) :
    ReflTransGen r x y ∨ ReflTransGen r x a ∧ ReflTransGen r b y := by
  induction h with
  | refl => exact .inl .refl
  | tail _ hedge ih =>
    rcases hedge with hr | ⟨rfl, rfl⟩
    · exact ih.imp (·.tail hr) fun ⟨hx, hb⟩ => ⟨hx, hb.tail hr⟩
    · exact .inr ⟨ih.elim id (·.1), .refl⟩

/-- A cycle that was not there passes through the new edge. -/
theorem reach_of_new_cycle (hr : ¬TransGen r x x) (h : TransGen (fun x y => r x y ∨ x = a ∧ y = b) x x) : ReflTransGen r b a := by
  obtain ⟨y, hxy, hr' | ⟨rfl, rfl⟩⟩ := TransGen.tail'_iff.mp h
  · rcases reach_of_edge hxy with hold | ⟨hxa, hby⟩
    · exact absurd (.tail' hold hr') hr
    · exact (hby.tail hr').trans hxa
  · exact (reach_of_edge hxy).elim id (·.1)

end Edges

/-! ## The check -/

variable {r : ObjectID → ObjectID → Prop} {map : BTreeMap ObjectID ObjectID}

variable (r map) in
/-- The map holds the edges of a relation that has no cycle. -/
structure Tracks : Prop where
  edge : ∀ a b, map[a]? = some b ↔ r a b
  acyclic : ∀ x, ¬TransGen r x x

open Classical in
/-- The walk ends, as fewer owners are left, and finds the object if the new owner reaches it. -/
theorem Tracks.walk (h : Tracks r map) (id newOwner : ObjectID) : ∃ found, walk map id newOwner = .ok found ∧
    found = if ReflTransGen r newOwner id then some id else none := by
  refine Loop.run_total (fun cur => ReflTransGen r newOwner id ↔ ReflTransGen r cur id) _
    (fun cur => ((keySet map).filter (ReflTransGen r cur)).card) Iff.rfl ?_ fun cur hcur => ?_
  · have hkeys : (keySet map).card = map.size := by
      rw [keySet, toFinset_card_of_nodup Std.ExtTreeMap.nodup_keys, Std.ExtTreeMap.length_keys]
    exact Nat.lt_succ_of_le ((Finset.card_filter_le _ _).trans hkeys.le)
  · by_cases hid : cur = id
    · exact .inr ⟨some cur, by rw [if_pos hid], by rw [if_pos (hcur.mpr (hid ▸ .refl)), hid]⟩
    · rw [if_neg hid]
      cases hparent : map[cur]? with
      | none =>
        refine .inr ⟨none, rfl, (if_neg fun hreach => ?_).symm⟩
        rcases (hcur.mp hreach).cases_head with heq | ⟨c, hc, -⟩
        · exact hid heq
        · exact absurd ((h.edge cur c).mpr hc) (by simp [hparent])
      | some parent =>
        have hedge := (h.edge cur parent).mp hparent
        refine .inl ⟨parent, rfl, hcur.trans ⟨fun hreach => ?_, fun hreach => hreach.head hedge⟩, ?_⟩
        · rcases hreach.cases_head with heq | ⟨c, hc, hrest⟩
          · exact absurd heq hid
          · obtain rfl := Option.some.inj (hparent.symm.trans ((h.edge cur c).mpr hc))
            exact hrest
        · refine Finset.card_lt_card ((Finset.ssubset_iff_of_subset fun k hk => ?_).mpr ⟨cur, ?_, ?_⟩)
          · exact Finset.mem_filter.mpr ((Finset.mem_filter.mp hk).imp_right (ReflTransGen.head hedge))
          · exact Finset.mem_filter.mpr ⟨mem_keySet.mpr (by rw [hparent]; rfl), .refl⟩
          · exact fun hmem => h.acyclic cur (.head' hedge (Finset.mem_filter.mp hmem).2)

/-- The object `owner` is the new owner of the object `id`. -/
def Owned (transfers : List (ObjectID × Owner)) (id owner : ObjectID) : Prop := (id, .objectOwner owner) ∈ transfers

variable {transfers : List (ObjectID × Owner)} {t : ObjectID × Owner}

/-- One transfer of an object that has not been transferred before. -/
theorem Tracks.checkTransfer (h : Tracks (Owned transfers) map) (hid : t.1 ∉ transfers.map Prod.fst) :
    Meets (fun e => ∃ x, e = .circularObjectOwnership x ∧ TransGen (Owned (transfers ++ [t])) x x)
      (Tracks (Owned (transfers ++ [t]))) (checkTransfer map t) := by
  obtain ⟨id, recipient⟩ := t
  have hnew : ∀ o, ¬Owned transfers id o := fun o ho => hid (mem_map.mpr ⟨_, ho, rfl⟩)
  have herase : Tracks (Owned transfers) (map.erase id) := by
    refine ⟨fun a b => ?_, h.acyclic⟩
    rw [get_erase]
    split_ifs with ha
    · exact iff_of_false nofun (ha ▸ hnew b)
    · exact h.edge a b
  by_cases hrecipient : ∃ newOwner, recipient = .objectOwner newOwner
  · obtain ⟨newOwner, rfl⟩ := hrecipient
    have howned : Owned (transfers ++ [(id, .objectOwner newOwner)]) = fun a b => Owned transfers a b ∨ a = id ∧ b = newOwner := by
      ext a b
      simp [Owned]
    obtain ⟨found, hwalk, hfound⟩ := herase.walk id newOwner
    rw [checkTransfer, hwalk, ok_bind, hfound, howned]
    split_ifs with hreach
    · refine ⟨fun e he => ⟨id, (Except.error.inj he).symm, ?_⟩, nofun⟩
      exact .head' (.inr ⟨rfl, rfl⟩) (ReflTransGen.mono (fun _ _ => .inl) _ _ hreach)
    · refine .ok ⟨fun a b => ?_, fun x hx => hreach (reach_of_new_cycle (h.acyclic x) hx)⟩
      rw [get_insert]
      split_ifs with ha
      · rw [Option.some_inj, ← ha]
        exact ⟨fun hb => .inr ⟨rfl, hb.symm⟩, fun hb => (hb.resolve_left (hnew b)).2.symm⟩
      · exact (herase.edge a b).trans (or_iff_left fun hb => ha hb.1.symm).symm
  · have howned : Owned (transfers ++ [(id, recipient)]) = Owned transfers := by
      ext a b
      refine mem_concat.trans (or_iff_left fun heq => hrecipient ⟨b, (Prod.mk.inj heq).2.symm⟩)
    have hcheck : checkTransfer map (id, recipient) = .ok (map.erase id) := by
      cases recipient <;> first | rfl | exact absurd ⟨_, rfl⟩ hrecipient
    rw [hcheck, howned]
    exact .ok herase

/-- The check returns for transfers of distinct objects, with the error exactly if the new owners have a cycle, and the object
it names is on one. -/
theorem checkCircularOwnership_exact (hids : (transfers.map Prod.fst).Nodup) :
    (checkCircularOwnership transfers = .ok () ∧ ¬∃ x, TransGen (Owned transfers) x x) ∨
    ∃ x, checkCircularOwnership transfers = .error (.circularObjectOwnership x) ∧ TransGen (Owned transfers) x x := by
  have hrun : Meets (fun e => ∃ x, e = .circularObjectOwnership x ∧ TransGen (Owned transfers) x x) (Tracks (Owned transfers))
      (transfers.foldlM checkTransfer ∅) := by
    refine Meets.foldlM (fun pre => Tracks (Owned pre)) ⟨?_, ?_⟩ fun pre t post map hpre h => ?_
    · exact fun a b => iff_of_false (by simp) not_mem_nil
    · intro x hx
      obtain ⟨_, hedge, -⟩ := TransGen.head'_iff.mp hx
      exact not_mem_nil hedge
    · subst hpre
      rw [map_append, nodup_append] at hids
      obtain ⟨herror, hok⟩ := h.checkTransfer (t := t) fun hmem => hids.2.2 _ hmem _ (mem_cons_self ..) rfl
      refine ⟨herror.imp fun e ⟨x, he, hx⟩ => ⟨x, he, TransGen.mono (fun a b hedge => ?_) _ _ hx⟩, hok⟩
      rw [append_cons]
      exact mem_append_left post hedge
  rw [checkCircularOwnership]
  cases hfold : transfers.foldlM checkTransfer ∅ with
  | ok map => exact .inl ⟨rfl, fun ⟨x, hx⟩ => (hrun.2 map hfold).acyclic x hx⟩
  | error e =>
    obtain ⟨x, rfl, hx⟩ := hrun.1 e hfold
    exact .inr ⟨x, rfl, hx⟩

/-- Two objects that are transferred to each other. -/
theorem checkCircularOwnership_swap :
    ∃ x, checkCircularOwnership [(1, .objectOwner 2), (2, .objectOwner 1)] = .error (.circularObjectOwnership x) ∧
      TransGen (Owned [(1, .objectOwner 2), (2, .objectOwner 1)]) x x := by
  refine (checkCircularOwnership_exact (by decide)).resolve_left fun h => h.2 ⟨1, .tail (.single (b := 2) ?_) ?_⟩
  · exact mem_cons_self ..
  · exact mem_cons_of_mem _ (mem_cons_self ..)

end Sui.CircularOwnership

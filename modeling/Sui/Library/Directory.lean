import Sui.Library.Ordered

/-!
# Directories

Entries with an id and an owner are live or retired, and an index finds the owner of a live entry by its id. An id is never used
twice and an owner has at most one live entry. An entry that moves between places only permutes the lists.
-/

namespace Sui.Library

open List

namespace BTreeMap

variable {K V : Type} [LinearOrder K]

/-- The values of a map, in the order of the keys. -/
def values (m : BTreeMap K V) : List V := m.toList.map Prod.snd

variable {m : BTreeMap K V}

@[simp] theorem mem_values {v : V} : v ∈ values m ↔ ∃ k : K, m[k]? = some v := by
  simp [values]

@[simp] theorem values_empty : values (∅ : BTreeMap K V) = [] := by simp [values]

theorem toList_nodup (m : BTreeMap K V) : m.toList.Nodup := List.Nodup.of_map _ (nodup_toList m)

/-- A new key adds its entry. -/
theorem values_insert_perm {k : K} (h : m[k]? = none) (v : V) : (values (m.insert k v)).Perm (v :: values m) := by
  have hperm : (m.insert k v).toList.Perm ((k, v) :: m.toList) := by
    refine (perm_ext_iff_of_nodup (toList_nodup _) (nodup_cons.mpr ⟨?_, toList_nodup m⟩)).mpr ?_
    · rw [mem_toList, h]
      nofun
    · rintro ⟨k', v'⟩
      rw [mem_toList, get_insert, mem_cons, mem_toList]
      by_cases hk : k = k'
      · subst hk
        simp [h, eq_comm]
      · simp [hk, Ne.symm hk]
  exact hperm.map Prod.snd

/-- A key that is removed takes its entry out. -/
theorem values_erase_perm {k : K} {v : V} (h : m[k]? = some v) : (values m).Perm (v :: values (m.erase k)) := by
  have hperm : m.toList.Perm ((k, v) :: (m.erase k).toList) := by
    refine (perm_ext_iff_of_nodup (toList_nodup _) (nodup_cons.mpr ⟨?_, toList_nodup _⟩)).mpr ?_
    · rw [mem_toList, get_erase, if_pos rfl]
      nofun
    · rintro ⟨k', v'⟩
      rw [mem_toList, mem_cons, mem_toList, get_erase]
      by_cases hk : k = k'
      · subst hk
        simp [h, eq_comm]
      · simp [hk, Ne.symm hk]
  exact hperm.map Prod.snd

/-- The value of a key is replaced. -/
theorem values_update_perm {k : K} {v : V} (h : m[k]? = some v) (w : V) :
    ∃ rest, (values m).Perm (v :: rest) ∧ (values (m.insert k w)).Perm (w :: rest) := by
  refine ⟨values (m.erase k), values_erase_perm h, ?_⟩
  have hsame : m.insert k w = (m.erase k).insert k w := by
    refine Std.ExtTreeMap.ext_getElem? fun k' => ?_
    rw [get_insert, get_insert, get_erase]
    split <;> rfl
  rw [hsame]
  exact values_insert_perm (by rw [get_erase, if_pos rfl]) w

end BTreeMap

/-- A directory of live entries, each with its id and its owner, of retired ids, and of the index of the live ones. -/
structure Directory {K A : Type} [LinearOrder K] (live : List (K × A)) (retired : List K) (index : BTreeMap K A) : Prop where
  ids : (live.map Prod.fst ++ retired).Nodup
  owners : (live.map Prod.snd).Nodup
  index_iff : ∀ (k : K) (a : A), index[k]? = some a ↔ (k, a) ∈ live

namespace Directory

variable {K A : Type} [LinearOrder K] {live live' : List (K × A)} {retired retired' : List K} {index : BTreeMap K A} {k : K} {a : A}

theorem perm (h : Directory live retired index) (hlive : live'.Perm live) (hretired : retired'.Perm retired) :
    Directory live' retired' index where
  ids := ((hlive.map Prod.fst).append hretired).nodup_iff.mpr h.ids
  owners := (hlive.map Prod.snd).nodup_iff.mpr h.owners
  index_iff k a := by rw [h.index_iff, hlive.mem_iff]

/-- A new entry of an owner that has none. -/
theorem register (h : Directory live retired index) (hk : k ∉ live.map Prod.fst) (hr : k ∉ retired) (ha : a ∉ live.map Prod.snd) :
    Directory ((k, a) :: live) retired (index.insert k a) where
  ids := by
    rw [map_cons, cons_append, nodup_cons]
    exact ⟨fun hin => (mem_append.mp hin).elim hk hr, h.ids⟩
  owners := nodup_cons.mpr ⟨ha, h.owners⟩
  index_iff k' a' := by
    rw [BTreeMap.get_insert, mem_cons, Prod.mk.injEq]
    split
    · rename_i heq
      subst heq
      have hnot : (k, a') ∉ live := fun hin => hk (mem_map_of_mem hin)
      simp [hnot, eq_comm]
    · rename_i hne
      simp [h.index_iff, Ne.symm hne]

/-- A live entry retires. -/
theorem retire (h : Directory ((k, a) :: live) retired index) : Directory live (k :: retired) (index.erase k) where
  ids := by
    refine (perm_middle.nodup_iff).mpr ?_
    exact h.ids
  owners := (nodup_cons.mp h.owners).2
  index_iff k' a' := by
    have hids := h.ids
    rw [map_cons, cons_append, nodup_cons] at hids
    rw [BTreeMap.get_erase]
    split
    · rename_i heq
      subst heq
      have hnot : (k, a') ∉ live := fun hin => hids.1 (mem_append_left _ (mem_map.mpr ⟨_, hin, rfl⟩))
      simp [hnot]
    · rename_i hne
      rw [h.index_iff, mem_cons, Prod.mk.injEq]
      simp [Ne.symm hne]

/-- A live entry is in the index, and its id is not retired. -/
theorem of_mem (h : Directory live retired index) (hmem : (k, a) ∈ live) : index[k]? = some a ∧ k ∉ retired :=
  ⟨(h.index_iff k a).mpr hmem, fun hr => (nodup_append.mp h.ids).2.2 _ (mem_map_of_mem hmem) _ hr rfl⟩

end Directory

end Sui.Library

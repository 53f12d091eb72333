import Sui.Types.Crypto

/-!
# What a certificate says

The weights of a committee, when signatures form a certificate and what the certificate holds.
-/

namespace Sui.Types

open Library Checked List AuthoritySignInfo

namespace EpochCommittee

variable (c : EpochCommittee)

theorem pairwise_names : c.names.Pairwise (· < ·) := by
  rw [names, pairwise_map]
  exact c.sorted

theorem nodup_names : c.names.Nodup := c.pairwise_names.imp fun h => ne_of_lt h

variable {a : AuthorityName}

theorem weight_of_mem {w : Nat} (h : (a, w) ∈ c.votingRights) : c.weight a = w := by
  obtain ⟨l1, l2, heq⟩ := append_of_mem h
  have hlookup : c.votingRights.lookup a = some w := by
    refine List.lookup_eq_some_iff.mpr ⟨l1, l2, heq, ?_⟩
    intro p hp
    have hsorted := c.sorted
    rw [heq, pairwise_append] at hsorted
    simpa using ne_of_gt (hsorted.2.2 p hp (a, w) mem_cons_self)
  rw [weight, hlookup]
  rfl

theorem mem_names_of_weight_pos (h : 0 < c.weight a) : a ∈ c.names := by
  unfold weight at h
  cases hl : c.votingRights.lookup a with
  | none => simp [hl] at h
  | some =>
    obtain ⟨l1, l2, heq, -⟩ := List.lookup_eq_some_iff.mp hl
    simp [names, heq]

theorem weight_eq_zero (h : a ∉ c.names) : c.weight a = 0 :=
  Nat.eq_zero_of_not_pos fun hpos => h (c.mem_names_of_weight_pos hpos)

theorem authorityIndex_eq_some {i : Nat} : c.authorityIndex a = some i ↔ c.authorityByIndex i = some a := by
  unfold authorityIndex authorityByIndex
  rw [List.idxOf?_eq_some_iff, List.getElem?_eq_some_iff]
  constructor
  · rintro ⟨h, heq, -⟩
    exact ⟨h, heq⟩
  · rintro ⟨h, heq⟩
    refine ⟨h, heq, fun j hj hja => ?_⟩
    exact absurd ((pairwise_iff_getElem.mp c.pairwise_names) j i (hj.trans h) h hj) (by simp [heq, hja])

theorem authorityIndex_isSome : (c.authorityIndex a).isSome ↔ a ∈ c.names := by
  unfold authorityIndex
  rw [isSome_idxOf?]

/-- The index of an authority grows with its name. -/
theorem authorityIndex_lt {a b : AuthorityName} {i j : Nat} (ha : c.authorityIndex a = some i) (hb : c.authorityIndex b = some j)
    (hab : a < b) : i < j := by
  obtain ⟨hi, rfl⟩ := List.getElem?_eq_some_iff.mp (c.authorityIndex_eq_some.mp ha)
  obtain ⟨hj, rfl⟩ := List.getElem?_eq_some_iff.mp (c.authorityIndex_eq_some.mp hb)
  by_contra hij
  rcases Nat.lt_or_eq_of_le (Nat.le_of_not_lt hij) with h | rfl
  · exact absurd ((pairwise_iff_getElem.mp c.pairwise_names) j i hj hi h) (Nat.lt_asymm hab)
  · exact absurd hab (Nat.lt_irrefl _)

theorem authorityByIndex_inj {i j : Nat} (hi : c.authorityByIndex i = some a) (hj : c.authorityByIndex j = some a) : i = j :=
  Option.some.inj ((c.authorityIndex_eq_some.mpr hi).symm.trans (c.authorityIndex_eq_some.mpr hj))

theorem publicKey_ok {a k : AuthorityName} : c.publicKey a = .ok k ↔ a ∈ c.names ∧ a = k := by
  unfold publicKey
  split <;> simp_all

end EpochCommittee

namespace Committee

variable (c : Committee)

theorem sum_names : ∑ a ∈ c.names.toFinset, c.weight a = totalVotingPower := by
  have hweights : c.names.map c.weight = c.votingRights.map Prod.snd := by
    rw [EpochCommittee.names, map_map]
    exact map_congr_left fun r hr => c.weight_of_mem hr
  rw [sum_toFinset _ c.nodup_names, hweights, c.total]

/-- The weights of a set of authorities add up to at most the total voting power. -/
theorem sum_weight_le (s : Finset AuthorityName) : ∑ a ∈ s, c.weight a ≤ totalVotingPower := by
  have hinter : ∑ a ∈ s, c.weight a = ∑ a ∈ s ∩ c.names.toFinset, c.weight a := by
    refine (Finset.sum_subset Finset.inter_subset_left ?_).symm
    intro a ha hnot
    exact c.weight_eq_zero fun hmem => hnot (Finset.mem_inter.mpr ⟨ha, mem_toFinset.mpr hmem⟩)
  rw [hinter, ← c.sum_names]
  exact Finset.sum_le_sum_of_subset Finset.inter_subset_right

end Committee

variable {T Sig Agg : Type} {scheme : AggregateScheme AuthorityName (T × EpochId) Sig Agg} {strength : Bool}

variable {committee : EpochCommittee}

/-- A signature is valid if its authority has voting rights and it verifies. -/
theorem AuthoritySignInfo.verifySecure_ok {s : AuthoritySignInfo Sig} {data : T} {u : Unit} :
    s.verifySecure scheme data committee = .ok u ↔ s.epoch = committee.epoch ∧ 0 < committee.weight s.authority ∧
        scheme.verify s.authority (data, committee.epoch) s.signature = true := by
  unfold verifySecure
  simp only [bind_ok, assert_ok, decide_eq_true_eq, EpochCommittee.publicKey_ok, exists_and_left, exists_const]
  constructor
  · rintro ⟨hepoch, hweight, key, ⟨-, rfl⟩, hverify⟩
    exact ⟨hepoch, hweight, hepoch ▸ hverify⟩
  · rintro ⟨hepoch, hweight, hverify⟩
    exact ⟨hepoch, hweight, _, ⟨committee.mem_names_of_weight_pos hweight, rfl⟩, hepoch.symm ▸ hverify⟩

variable (scheme strength committee) in
/-- The certificate holds a valid signature of each of the signers, who are members of the committee with the stake of the
threshold. -/
structure Certifies (data : T) (cert : AuthorityQuorumSignInfo Agg) (signers : List AuthorityName) : Prop where
  epoch : cert.epoch = committee.epoch
  authorities : cert.signersMap.iter.map committee.authorityByIndex = signers.map some
  nodup : signers.Nodup
  members : ∀ a ∈ signers, a ∈ committee.names
  stake : Committee.threshold strength ≤ (signers.map committee.weight).sum
  signatures : ∃ sigs, List.Forall₂ (fun a s => scheme.verify a (data, committee.epoch) s = true) signers sigs ∧
    scheme.aggregate sigs = .ok cert.signature

namespace AuthorityQuorumSignInfo

theorem addSigner_ok {acc acc' : Nat × List AuthorityName} {i : Nat} :
    addSigner committee acc i = .ok acc' ↔ ∃ a, committee.authorityByIndex i = some a ∧ 0 < committee.weight a ∧
      acc' = ((acc.1 + committee.weight a) % 2 ^ 64, acc.2 ++ [a]) := by
  unfold addSigner
  simp only [bind_ok, expect_ok, assert_ok, decide_eq_true_eq, EpochCommittee.publicKey_ok, pure_eq_ok,
    Except.ok.injEq, exists_and_left, exists_const]
  constructor
  · rintro ⟨a, ha, hpos, key, ⟨-, rfl⟩, rfl⟩
    exact ⟨a, ha, hpos, rfl⟩
  · rintro ⟨a, ha, hpos, rfl⟩
    exact ⟨a, ha, hpos, a, ⟨committee.mem_names_of_weight_pos hpos, rfl⟩, rfl⟩

/-- The loop collects the keys of the signers, and a weight that is at most theirs: a sum that wraps is smaller. -/
theorem foldlM_addSigner {indices : List Nat} {acc : Nat × List AuthorityName}
    (h : indices.foldlM (addSigner committee) (0, []) = .ok acc) :
    indices.map committee.authorityByIndex = acc.2.map some ∧ acc.1 ≤ (acc.2.map committee.weight).sum := by
  refine foldlM_invariant (fun pre acc => pre.map committee.authorityByIndex = acc.2.map some ∧
    acc.1 ≤ (acc.2.map committee.weight).sum) h ⟨rfl, le_rfl⟩ ?_
  rintro pre i post acc acc' - ⟨hkeys, hweight⟩ hstep
  obtain ⟨a, ha, -, rfl⟩ := addSigner_ok.mp hstep
  refine ⟨by simp [hkeys, ha], (Nat.mod_le _ _).trans ?_⟩
  simpa using hweight

variable {cert : AuthorityQuorumSignInfo Agg}

/-- A certificate that verifies holds a valid signature of each of its signers. -/
theorem certifies_of_verifySecure {data : T}
    (h : cert.verifySecure scheme strength data committee = .ok ()) : ∃ signers, Certifies scheme strength committee data cert signers := by
  unfold verifySecure at h
  simp only [bind_ok, assert_ok, decide_eq_true_eq, exists_and_left, exists_const, Prod.exists] at h
  obtain ⟨hepoch, weight, keys, hfold, hstake, hverify⟩ := h
  obtain ⟨hkeys, hweight⟩ := foldlM_addSigner hfold
  obtain ⟨sigs, hsigs, hagg⟩ := scheme.sound hverify
  have hmem : ∀ a ∈ keys, ∃ i ∈ cert.signersMap.iter, committee.authorityByIndex i = some a := by
    intro a ha
    have : some a ∈ cert.signersMap.iter.map committee.authorityByIndex := by
      rw [hkeys]
      exact mem_map_of_mem ha
    exact mem_map.mp this
  refine ⟨keys, hepoch, hkeys, ?_, ?_, hstake.trans hweight, sigs, hepoch ▸ hsigs, hagg⟩
  · refine List.Nodup.of_map some ?_
    rw [← hkeys]
    refine (BTreeSet.nodup_iter _).map_on ?_
    intro i hi j hj hij
    have hi' : committee.authorityByIndex i ∈ keys.map some := hkeys ▸ mem_map_of_mem hi
    obtain ⟨a, -, ha⟩ := mem_map.mp hi'
    exact committee.authorityByIndex_inj ha.symm (hij ▸ ha.symm)
  · intro a ha
    obtain ⟨i, -, hi⟩ := hmem a ha
    exact mem_of_getElem? hi

/-- The loop that collects the indices of the signers. -/
theorem foldlM_addIndex {keys : List AuthorityName} {acc map : BTreeSet Nat} : keys.foldlM (addIndex committee) acc = .ok map ↔
      (∀ a ∈ keys, a ∈ committee.names) ∧ ∀ i, i ∈ map ↔ i ∈ acc ∨ ∃ a ∈ keys, committee.authorityIndex a = some i := by
  induction keys generalizing acc with
  | nil =>
    simp only [foldlM_nil, pure_ok, not_mem_nil, false_and, exists_false, or_false, false_implies, implies_true, true_and]
    rw [eq_comm, Finset.ext_iff]
  | cons a _ ih =>
    simp only [foldlM_cons, addIndex, bind_ok, expect_ok, pure_ok, forall_mem_cons, exists_mem_cons_iff]
    constructor
    · rintro ⟨acc', ⟨i, hi, rfl⟩, hrest⟩
      obtain ⟨hmem, hmap⟩ := ih.mp hrest
      refine ⟨⟨committee.authorityIndex_isSome.mp (by rw [hi]; rfl), hmem⟩, fun j => ?_⟩
      rw [hmap, Finset.mem_insert, hi, Option.some.injEq, eq_comm (a := j), or_comm (a := i = j), or_assoc]
    · rintro ⟨⟨ha, hmem⟩, hmap⟩
      obtain ⟨i, hi⟩ := Option.isSome_iff_exists.mp (committee.authorityIndex_isSome.mpr ha)
      refine ⟨insert i acc, ⟨i, hi, rfl⟩, ih.mpr ⟨hmem, fun j => ?_⟩⟩
      rw [hmap, Finset.mem_insert, hi, Option.some.injEq, eq_comm]
      tauto

/-- The set of the indices of members, as the list of the members in ascending order. -/
theorem iter_map_authorityByIndex {keys : List AuthorityName} {map : BTreeSet Nat}
    (hsorted : keys.Pairwise (· < ·)) (hmem : ∀ a ∈ keys, a ∈ committee.names) :
    (∀ i, i ∈ map ↔ ∃ a ∈ keys, committee.authorityIndex a = some i) ↔
      map.iter.map committee.authorityByIndex = keys.map some := by
  have hindex : ∀ a ∈ keys, committee.authorityIndex a = some ((committee.authorityIndex a).getD 0) := by
    intro a ha
    obtain ⟨i, hi⟩ := Option.isSome_iff_exists.mp (committee.authorityIndex_isSome.mpr (hmem a ha))
    rw [hi, Option.getD_some]
  constructor
  · intro hmap
    have hiter : map.iter = keys.map fun a => (committee.authorityIndex a).getD 0 := by
      refine BTreeSet.iter_eq_of_pairwise ?_ fun i => ?_
      · rw [pairwise_map]
        exact hsorted.imp_of_mem fun ha hb hab => committee.authorityIndex_lt (hindex _ ha) (hindex _ hb) hab
      · rw [hmap, mem_map]
        refine exists_congr fun a => and_congr_right fun ha => ?_
        rw [hindex a ha, Option.some.injEq, Option.getD_some]
    rw [hiter, map_map]
    exact map_congr_left fun a ha => committee.authorityIndex_eq_some.mp (hindex a ha)
  · intro hmap i
    rw [← BTreeSet.mem_iter]
    constructor
    · intro hi
      have hi' : committee.authorityByIndex i ∈ keys.map some := hmap ▸ mem_map_of_mem hi
      obtain ⟨a, ha, hai⟩ := mem_map.mp hi'
      exact ⟨a, ha, committee.authorityIndex_eq_some.mpr hai.symm⟩
    · rintro ⟨a, ha, hai⟩
      have ha' : some a ∈ map.iter.map committee.authorityByIndex := hmap ▸ mem_map_of_mem ha
      obtain ⟨j, hj, hja⟩ := mem_map.mp ha'
      exact committee.authorityByIndex_inj (committee.authorityIndex_eq_some.mp hai) hja ▸ hj

/-- The certificate of signatures in ascending order of their authorities. -/
theorem newFromAuthSignInfos_ok {committee : Committee} {infos : List (AuthoritySignInfo Sig)}
    (hsorted : infos.Pairwise fun a b => a.authority < b.authority) :
    newFromAuthSignInfos scheme strength infos committee = .ok cert ↔ (∀ a ∈ infos, a.epoch = committee.epoch) ∧
      Committee.threshold strength ≤ (infos.map fun a => committee.weight a.authority).sum ∧
      (∀ a ∈ infos, a.authority ∈ committee.names) ∧ cert.epoch = committee.epoch ∧
      cert.signersMap.iter.map committee.authorityByIndex = infos.map (fun a => some a.authority) ∧
      scheme.aggregate (infos.map AuthoritySignInfo.signature) = .ok cert.signature := by
  have hkeys : (infos.map authority).Pairwise (· < ·) := pairwise_map.mpr hsorted
  unfold newFromAuthSignInfos
  simp only [BTreeMap.toList_foldl_insert AuthoritySignInfo.signature hsorted, map_map, Function.comp_def, bind_ok,
    assert_ok, decide_eq_true_eq, all_eq_true, exists_and_left, exists_const, pure_ok]
  refine and_congr_right fun _ => and_congr_right fun _ => ?_
  constructor
  · rintro ⟨map, hfold, sig, hsig, rfl⟩
    obtain ⟨hmem, hmap⟩ := foldlM_addIndex.mp hfold
    simp only [Finset.notMem_empty, false_or] at hmap
    refine ⟨by simpa using hmem, rfl, ?_, ?_⟩
    · simpa [Function.comp_def] using (iter_map_authorityByIndex hkeys hmem).mp hmap
    · cases hagg : scheme.aggregate (infos.map AuthoritySignInfo.signature) with
      | error => simp [hagg, Except.mapError] at hsig
      | ok => simpa [hagg, Except.mapError] using hsig
  · rintro ⟨hmem, hepoch, hmap, hagg⟩
    have hmem' : ∀ a ∈ infos.map authority, a ∈ committee.names := by simpa using hmem
    refine ⟨cert.signersMap, foldlM_addIndex.mpr ⟨hmem', ?_⟩, cert.signature, ?_, ?_⟩
    · simp only [Finset.notMem_empty, false_or]
      refine (iter_map_authorityByIndex hkeys hmem').mpr ?_
      simpa [Function.comp_def] using hmap
    · rw [hagg]
      rfl
    · rw [← hepoch]

end AuthorityQuorumSignInfo

end Sui.Types

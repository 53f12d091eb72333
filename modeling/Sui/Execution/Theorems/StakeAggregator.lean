import Sui.Execution.Lemmas.StakeAggregator

/-!
# What the stake aggregator guarantees

A certificate holds valid signatures of a quorum, whatever was inserted. That a quorum of valid signatures gets one is not
guaranteed: what an authority outside the committee inserted stays, and no certificate can be made of it.
-/

namespace Sui.Types

open Library Checked BTreeMap List Types.StakeAggregator AuthoritySignInfo Types.Committee

namespace StakeAggregator

theorem insertsGeneric_ok {S : Type} [BEq S] (strength : Bool) (committee : Committee) (votes : List (AuthorityName × S)) :
    ∃ agg, (new committee).insertsGeneric strength votes = .ok agg ∧ agg.Balanced ∧ agg.committee = committee := by
  refine foldlM_total (fun _ (agg : StakeAggregator S) => agg.Balanced ∧ agg.committee = committee)
    ⟨balanced_new committee, rfl⟩ ?_
  intro pre vote post agg _ hagg
  obtain ⟨r, hr, hspec⟩ := insertGeneric_ok strength hagg.1 vote.1 vote.2
  exact ⟨r.2, by rw [hr]; rfl, (hspec.balanced hagg.1).1, (hspec.balanced hagg.1).2.trans hagg.2⟩

end StakeAggregator

namespace MultiStakeAggregator

variable {K V Sig Agg : Type} [LinearOrder K] {scheme : AggregateScheme AuthorityName (V × EpochId) Sig Agg} {strength : Bool}

/-- Every aggregator in it is as it should be. -/
def Sound (multi : MultiStakeAggregator K V Sig) : Prop :=
  ∀ (k : K) (entry : V × StakeAggregator (AuthoritySignInfo Sig)), multi.stakeMaps[k]? = some entry →
    entry.2.Sound ∧ entry.2.committee = multi.committee

variable {multi : MultiStakeAggregator K V Sig}

theorem Sound.insert (h : multi.Sound) {k : K} {v : V}
    {agg : StakeAggregator (AuthoritySignInfo Sig)} (hagg : agg.Sound ∧ agg.committee = multi.committee) :
    ({ multi with stakeMaps := multi.stakeMaps.insert k (v, agg) } : MultiStakeAggregator K V Sig).Sound := forall_insert h hagg

variable (scheme strength) in
theorem insert_ok (h : multi.Sound) (k : K) (envelope : Envelope V Sig) :
    ∃ r multi', multi.insert scheme strength k envelope = .ok (r, multi') ∧ multi'.Sound ∧ multi'.committee = multi.committee ∧
      ∀ cert, r = .quorumReached cert → ∃ signers, Certifies scheme strength multi.committee envelope.data cert signers := by
  unfold insert
  cases hentry : multi.stakeMaps[k]? with
  | some entry =>
    obtain ⟨hsound, hcommittee⟩ := h k entry hentry
    obtain ⟨⟨r, agg⟩, hr, hspec⟩ := StakeAggregator.insert_ok scheme strength hsound.balanced envelope
    refine ⟨r, _, by dsimp only; rw [hr]; rfl, h.insert ?_, rfl, fun cert hcert => ⟨_, hcommittee ▸ hspec.certifies hsound hcert⟩⟩
    exact ⟨(hspec.sound hsound).1, (hspec.sound hsound).2.trans hcommittee⟩
  | none =>
    have hsound : (StakeAggregator.new multi.committee : StakeAggregator (AuthoritySignInfo Sig)).Sound :=
      sound_new multi.committee
    obtain ⟨⟨r, agg⟩, hr, hspec⟩ := StakeAggregator.insert_ok scheme strength hsound.balanced envelope
    dsimp only
    rw [hr, ok_bind]
    cases r with
    | failed => exact ⟨_, _, rfl, h, rfl, nofun⟩
    | quorumReached cert => exact ⟨_, _, rfl, h.insert (hspec.sound hsound), rfl, fun cert hcert => ⟨_, hspec.certifies hsound hcert⟩⟩
    | notEnoughVotes => exact ⟨_, _, rfl, h.insert (hspec.sound hsound), rfl, nofun⟩

variable (scheme strength) in
theorem inserts_ok (committee : Committee) (envelopes : List (K × Envelope V Sig)) :
    ∃ multi, (new committee).inserts scheme strength envelopes = .ok multi ∧ multi.Sound ∧ multi.committee = committee := by
  refine foldlM_total (fun _ (multi : MultiStakeAggregator K V Sig) => multi.Sound ∧ multi.committee = committee)
    ⟨by simp [Sound, new], rfl⟩ ?_
  rintro pre ⟨k, envelope⟩ post multi _ hmulti
  obtain ⟨r, multi', hr, hsound, hcommittee, -⟩ := insert_ok scheme strength hmulti.1 k envelope
  exact ⟨multi', by rw [hr]; rfl, hsound, hcommittee.trans hmulti.2⟩

end MultiStakeAggregator

/-- After every sequence of inserts the votes are the stake of the authorities held, and a certificate that an insert returns
holds valid signatures of distinct members with the stake of the threshold; in the aggregator of one message these are the
authorities it holds then. -/
theorem aggregator_certificates_sound (committee : Committee) (strength : Bool) :
    (∀ (S : Type) [BEq S] (votes : List (AuthorityName × S)), ∃ agg,
      (StakeAggregator.new committee).insertsGeneric strength votes = .ok agg ∧
      agg.totalVotes = ∑ a ∈ keySet agg.data, committee.weight a) ∧
    (∀ (T Sig Agg : Type) (scheme : AggregateScheme AuthorityName (T × EpochId) Sig Agg) (envelopes : List (Envelope T Sig)), ∃ agg,
      (StakeAggregator.new committee).inserts scheme strength envelopes = .ok agg ∧
      agg.totalVotes = ∑ a ∈ keySet agg.data, committee.weight a ∧
      ∀ envelope, ∃ r agg', agg.insert scheme strength envelope = .ok (r, agg') ∧ ∀ cert, r = .quorumReached cert →
        Certifies scheme strength committee envelope.data cert agg'.authorities) ∧
    (∀ (K V Sig Agg : Type) [LinearOrder K] (scheme : AggregateScheme AuthorityName (V × EpochId) Sig Agg)
      (envelopes : List (K × Envelope V Sig)), ∃ multi, (MultiStakeAggregator.new committee).inserts scheme strength envelopes = .ok multi ∧
      (∀ (k : K) (entry : V × StakeAggregator (AuthoritySignInfo Sig)), multi.stakeMaps[k]? = some entry →
        entry.2.totalVotes = ∑ a ∈ keySet entry.2.data, committee.weight a) ∧
      ∀ k envelope, ∃ r multi', multi.insert scheme strength k envelope = .ok (r, multi') ∧ ∀ cert, r = .quorumReached cert →
        ∃ signers, Certifies scheme strength committee envelope.data cert signers) := by
  refine ⟨?_, ?_, ?_⟩
  · intro S _ votes
    obtain ⟨agg, hrun, hbalanced, rfl⟩ := insertsGeneric_ok strength committee votes
    exact ⟨agg, hrun, hbalanced⟩
  · intro T Sig Agg scheme envelopes
    obtain ⟨agg, hrun, hsound, rfl⟩ := inserts_ok scheme strength committee envelopes
    refine ⟨agg, hrun, hsound.balanced, fun envelope => ?_⟩
    obtain ⟨⟨r, agg'⟩, hr, hspec⟩ := insert_ok scheme strength hsound.balanced envelope
    exact ⟨r, agg', hr, fun cert hcert => hspec.certifies hsound hcert⟩
  · intro K V Sig Agg _ scheme envelopes
    obtain ⟨multi, hrun, hsound, rfl⟩ := MultiStakeAggregator.inserts_ok scheme strength committee envelopes
    refine ⟨multi, hrun, fun k entry hentry => ?_, fun k envelope => ?_⟩
    · rw [← (hsound k entry hentry).2]
      exact (hsound k entry hentry).1.balanced
    · obtain ⟨r, multi', hr, -, -, hcert⟩ := MultiStakeAggregator.insert_ok scheme strength hsound k envelope
      exact ⟨r, multi', hr, hcert⟩

/-! ## Whether a quorum is recognised -/

namespace StakeAggregator

variable {T Sig Agg : Type} (scheme : AggregateScheme AuthorityName (T × EpochId) Sig Agg) (strength : Bool) (committee : Committee)
  (data : T) (sigs : List (AuthoritySignInfo Sig))

/-- The first signature of an authority in a sequence. -/
def firstSignature (a : AuthorityName) : Option (AuthoritySignInfo Sig) :=
  sigs.find? fun s => s.authority = a

/-- The members whose first signature is valid for the data. -/
def firstValid : List AuthorityName :=
  committee.names.filter fun a => (firstSignature sigs a).any fun s => (s.verifySecure scheme data committee).isOk

def validStake : Nat :=
  ((firstValid scheme committee data sigs).map committee.weight).sum

/-- The aggregator after signatures of the data were inserted. -/
def insertsOf : Except StakeOverflow (StakeAggregator (AuthoritySignInfo Sig)) :=
  (new committee).inserts scheme strength (sigs.map fun s => ⟨data, s⟩)

/-- One of the inserts of the sequence returned a certificate. -/
def QuorumReturned : Prop :=
  ∃ pre s post agg r, sigs = pre ++ s :: post ∧ insertsOf scheme strength committee data pre = .ok agg ∧
    agg.insert scheme strength ⟨data, s⟩ = .ok r ∧ r.1.isQuorumReached = true

/-- What the aggregator holds after a sequence of signatures of the data. -/
structure Tracks (agg : StakeAggregator (AuthoritySignInfo Sig)) : Prop where
  sound : agg.Sound
  committee_eq : agg.committee = committee
  inserted : ∀ (a : AuthorityName) (s : AuthoritySignInfo Sig), agg.data[a]? = some s → s ∈ sigs
  valid : ∀ (a : AuthorityName) (s : AuthoritySignInfo Sig), firstSignature sigs a = some s →
    s.verifySecure scheme data committee = .ok () → agg.data[a]? = some s
  unknown : ∀ s ∈ sigs, s.epoch = committee.epoch → s.authority ∉ committee.names → agg.data[s.authority]?.isSome

theorem firstSignature_concat (s : AuthoritySignInfo Sig) (a : AuthorityName) :
    firstSignature (sigs ++ [s]) a = (firstSignature sigs a).or (if s.authority = a then some s else none) := by
  unfold firstSignature
  rw [List.find?_append]
  by_cases h : s.authority = a <;> simp [h]

variable {scheme strength committee data sigs} {s : AuthoritySignInfo Sig}

theorem firstSignature_concat_eq_some {a : AuthorityName} {s' : AuthoritySignInfo Sig} :
    firstSignature (sigs ++ [s]) a = some s' ↔
      firstSignature sigs a = some s' ∨ firstSignature sigs a = none ∧ s.authority = a ∧ s = s' := by
  rw [firstSignature_concat, Option.or_eq_some_iff]
  simp

/-- A signature that is stored as a new entry. -/
theorem Tracks.stored {agg agg' : StakeAggregator (AuthoritySignInfo Sig)}
    (h : Tracks scheme committee data sigs agg) (hnone : agg.data[s.authority]? = none)
    (hdata : agg'.data = agg.data.insert s.authority s) (hsound : agg'.Sound) (hcommittee : agg'.committee = committee) :
    Tracks scheme committee data (sigs ++ [s]) agg' := by
  refine ⟨hsound, hcommittee, ?_, ?_, ?_⟩
  · rw [hdata]
    exact forall_insert (fun a s' hs' => mem_append_left _ (h.inserted a s' hs')) (by simp)
  · intro a s' hfirst hvalid
    rw [hdata, get_insert]
    rcases firstSignature_concat_eq_some.mp hfirst with hf | ⟨-, ha, rfl⟩
    · have hheld := h.valid a s' hf hvalid
      split_ifs with ha
      · rw [← ha, hnone] at hheld
        exact absurd hheld nofun
      · exact hheld
    · exact if_pos ha
  · intro s' hs' hepoch hnot
    rw [hdata, get_insert]
    split_ifs with hne
    · rfl
    · rcases mem_append.mp hs' with hmem | hmem
      · exact h.unknown s' hmem hepoch hnot
      · exact absurd (by rw [mem_singleton.mp hmem]) hne

variable {agg : StakeAggregator (AuthoritySignInfo Sig)}

/-- Nothing is held for an authority without a signature. -/
theorem Tracks.get_eq_none (h : Tracks scheme committee data sigs agg) (hfirst : firstSignature sigs s.authority = none) :
    agg.data[s.authority]? = none := by
  by_contra hsome
  obtain ⟨s0, hs0⟩ := Option.ne_none_iff_exists'.mp hsome
  unfold firstSignature at hfirst
  exact absurd (by simp [(h.sound.keyed _ s0 hs0).1]) (List.find?_eq_none.mp hfirst s0 (h.inserted _ s0 hs0))

/-- A signature that is not stored: it is of another epoch, or its authority is held already. -/
theorem Tracks.skipped (h : Tracks scheme committee data sigs agg)
    (hskip : s.epoch ≠ committee.epoch ∨ agg.data[s.authority]?.isSome) : Tracks scheme committee data (sigs ++ [s]) agg := by
  refine ⟨h.sound, h.committee_eq, fun a s' hs' => mem_append_left _ (h.inserted a s' hs'), ?_, ?_⟩
  · intro a s' hfirst hvalid
    rcases firstSignature_concat_eq_some.mp hfirst with hf | ⟨hf, rfl, rfl⟩
    · exact h.valid a s' hf hvalid
    · rcases hskip with hepoch | hsome
      · exact absurd (verifySecure_ok.mp hvalid).1 hepoch
      · rw [h.get_eq_none hf] at hsome
        exact absurd hsome nofun
  · intro s' hs' hepoch hnot
    rcases mem_concat.mp hs' with hmem | rfl
    · exact h.unknown s' hmem hepoch hnot
    · exact hskip.resolve_left fun hne => hne hepoch

variable {r : InsertResult (AuthorityQuorumSignInfo Agg) × StakeAggregator (AuthoritySignInfo Sig)}

section

variable (h : Tracks scheme committee data sigs agg)

include h

/-- Taking out what is not valid happens only if all that is held is of members. -/
theorem Tracks.certify (hr : Certify scheme strength agg data r) : Tracks scheme committee data sigs r.2 := by
  rcases hr.left with heq | ⟨⟨first, hfirst⟩, hrem⟩
  · exact heq ▸ h
  · have hmembers := ((aggregated_ok h.sound).mp hfirst).2.1
    refine ⟨hrem.sound h.sound, hrem.committee.trans h.committee_eq, fun a s hs => h.inserted a s ((hrem.held a s).mp hs).1, ?_, ?_⟩
    · intro a s hs hvalid
      exact (hrem.held a s).mpr ⟨h.valid a s hs hvalid, h.committee_eq.symm ▸ hvalid⟩
    · intro s hs hepoch hnot
      obtain ⟨s0, hs0⟩ := Option.isSome_iff_exists.mp (h.unknown s hs hepoch hnot)
      have hheld : s.authority ∈ agg.authorities := mem_map.mpr ⟨_, mem_toList.mpr hs0, rfl⟩
      exact absurd (h.committee_eq ▸ hmembers _ hheld) hnot

theorem Tracks.insertGeneric (hepoch : s.epoch = agg.committee.epoch)
    {g : InsertResult (BTreeMap AuthorityName (AuthoritySignInfo Sig)) × StakeAggregator (AuthoritySignInfo Sig)}
    (hg : InsertGeneric strength agg s.authority s g) : Tracks scheme committee data (sigs ++ [s]) g.2 := by
  obtain ⟨hsound, hcommittee⟩ := hg.sound h.sound hepoch
  have hcommittee' := hcommittee.trans h.committee_eq
  cases hg with
  | repeated _ hd => exact h.skipped (.inr (by rw [hd]; rfl))
  | unknown hd => exact h.stored hd rfl hsound hcommittee'
  | quorum _ hd => exact h.stored hd rfl hsound hcommittee'
  | notEnough _ hd => exact h.stored hd rfl hsound hcommittee'

theorem Tracks.insert (hr : Inserted scheme strength agg ⟨data, s⟩ r) : Tracks scheme committee data (sigs ++ [s]) r.2 := by
  cases hr with
  | wrongEpoch hne => exact h.skipped (.inl (h.committee_eq ▸ hne))
  | notCounted _ _ hepoch hg => exact h.insertGeneric hepoch hg
  | notEnough _ _ _ hepoch hg => exact h.insertGeneric hepoch hg
  | certify _ _ _ hepoch hg hcertify => exact (h.insertGeneric hepoch hg).certify hcertify

end

variable (scheme strength committee data) in
/-- Every sequence of inserts returns. -/
theorem insertsOf_ok (sigs : List (AuthoritySignInfo Sig)) :
    ∃ agg, insertsOf scheme strength committee data sigs = .ok agg ∧ Tracks scheme committee data sigs agg := by
  induction sigs using List.reverseRecOn with
  | nil => exact ⟨new committee, rfl, sound_new committee, rfl, by simp [new], by simp [firstSignature], by simp⟩
  | append_singleton _ s ih =>
    obtain ⟨agg, hrun, htracks⟩ := ih
    obtain ⟨r, hr, hspec⟩ := insert_ok scheme strength htracks.sound.balanced ⟨data, s⟩
    refine ⟨r.2, ?_, htracks.insert hspec⟩
    unfold insertsOf inserts at hrun ⊢
    rw [map_append, foldlM_append, hrun, ok_bind, map_singleton, foldlM_cons, hr]
    rfl

/-- An earlier insert returned a certificate, or the last one did. -/
theorem quorumReturned_concat
    (hrun : insertsOf scheme strength committee data sigs = .ok agg) (hr : agg.insert scheme strength ⟨data, s⟩ = .ok r) :
    QuorumReturned scheme strength committee data (sigs ++ [s]) ↔
      QuorumReturned scheme strength committee data sigs ∨ r.1.isQuorumReached = true := by
  constructor
  · rintro ⟨pre, s', post, agg', r', heq, hrun', hr', hquorum⟩
    rcases eq_nil_or_concat post with rfl | ⟨post, s'', rfl⟩
    · obtain ⟨rfl, hs⟩ := append_inj' heq rfl
      obtain rfl : s = s' := by simpa using hs
      obtain rfl := ok_unique hrun hrun'
      obtain rfl := ok_unique hr hr'
      exact .inr hquorum
    · have heq' : sigs ++ [s] = (pre ++ s' :: post) ++ [s''] := by simpa using heq
      obtain ⟨rfl, -⟩ := append_inj' heq' rfl
      exact .inl ⟨pre, s', post, agg', r', rfl, hrun', hr', hquorum⟩
  · rintro (⟨pre, s', post, agg', r', rfl, hrun', hr', hquorum⟩ | hquorum)
    · exact ⟨pre, s', post ++ [s], agg', r', by simp, hrun', hr', hquorum⟩
    · exact ⟨sigs, s, [], agg, r, rfl, hrun, hr, hquorum⟩

theorem mem_firstValid {a : AuthorityName} : a ∈ firstValid scheme committee data sigs ↔
      a ∈ committee.names ∧ ∃ s, firstSignature sigs a = some s ∧ s.verifySecure scheme data committee = .ok () := by
  unfold firstValid
  rw [mem_filter, Option.any_eq_true]
  refine and_congr_right fun _ => exists_congr fun s => and_congr_right fun _ => ?_
  cases s.verifySecure scheme data committee <;> simp [Except.isOk, Except.toBool]

/-- The signature at which the stake grows is valid and the first one of its authority. -/
theorem first_of_validStake_lt (h : validStake scheme committee data sigs < validStake scheme committee data (sigs ++ [s])) :
    firstSignature sigs s.authority = none ∧ s.verifySecure scheme data committee = .ok () := by
  by_contra hnot
  refine absurd h (Nat.not_lt.mpr (le_of_eq ?_))
  have heq : firstValid scheme committee data (sigs ++ [s]) = firstValid scheme committee data sigs := by
    unfold firstValid
    refine filter_congr fun a _ => ?_
    rw [firstSignature_concat]
    cases hf : firstSignature sigs a with
    | some => rfl
    | none =>
      rw [Option.none_or]
      split_ifs with ha
      · cases hv : s.verifySecure scheme data committee with
        | error => simp [hv, Except.isOk, Except.toBool]
        | ok => exact absurd ⟨ha ▸ hf, hv⟩ hnot
      · rfl
  rw [validStake, heq, validStake]

/-- The stake of the members with a valid first signature is part of the votes. -/
theorem Tracks.validStake_le
    (h : Tracks scheme committee data sigs agg) : validStake scheme committee data sigs ≤ agg.totalVotes := by
  have hnodup : (firstValid scheme committee data sigs).Nodup := committee.nodup_names.filter _
  rw [validStake, ← sum_toFinset _ hnodup, h.sound.balanced, h.committee_eq]
  refine Finset.sum_le_sum_of_subset fun a ha => ?_
  obtain ⟨-, s, hs, hvalid⟩ := mem_firstValid.mp (mem_toFinset.mp ha)
  rw [mem_keySet, h.valid a s hs hvalid]
  rfl

/-- Whether what is held forms a certificate. -/
theorem aggregated_isOk (h : agg.Sound) :
    (∃ cert, agg.aggregated scheme strength = .ok cert) ↔ threshold strength ≤ agg.totalVotes ∧
      (∀ a ∈ agg.authorities, a ∈ agg.committee.names) ∧
      ∃ sig, scheme.aggregate (agg.data.toList.map fun e => e.2.signature) = .ok sig := by
  constructor
  · rintro ⟨cert, hcert⟩
    obtain ⟨hstake, hmem, -, -, hagg⟩ := (aggregated_ok h).mp hcert
    exact ⟨hstake, hmem, _, hagg⟩
  · rintro ⟨hstake, hmem, sig, hagg⟩
    have hsorted : agg.authorities.Pairwise (· < ·) := pairwise_map.mpr (pairwise_toList _)
    refine ⟨⟨agg.committee.epoch, sig, (agg.authorities.filterMap agg.committee.authorityIndex).toFinset⟩,
      (aggregated_ok h).mpr ⟨hstake, hmem, rfl, ?_, hagg⟩⟩
    refine (AuthorityQuorumSignInfo.iter_map_authorityByIndex hsorted hmem).mp fun i => ?_
    rw [mem_toFinset, mem_filterMap]

/-- What remains forms a certificate if its votes reach the threshold. -/
theorem Remaining.aggregated_isOk {agg' : StakeAggregator (AuthoritySignInfo Sig)} (h : Remaining scheme data agg agg')
    (hagg : agg.Sound) (ht : threshold strength ≤ agg'.totalVotes) :
    ∃ cert, agg'.aggregated scheme strength = .ok cert := by
  have hsound := h.sound hagg
  refine (StakeAggregator.aggregated_isOk hsound).mpr ⟨ht, ?_, ?_⟩
  · intro a ha
    obtain ⟨e, he, rfl⟩ := mem_map.mp ha
    have hs := mem_toList.mp he
    have hv := verifySecure_ok.mp ((h.held e.1 e.2).mp hs).2
    rw [h.committee, ← (hsound.keyed e.1 e.2 hs).1]
    exact agg.committee.mem_names_of_weight_pos hv.2.1
  · have hne : agg'.authorities ≠ [] := by
      intro hnil
      have hsum := sum_authorities hsound.balanced
      rw [hnil] at hsum
      have hpos : 0 < threshold strength := by cases strength <;> decide
      simp only [map_nil, sum_nil] at hsum
      omega
    obtain ⟨sig, hsig, -⟩ := scheme.complete hne (h.verified hagg)
    exact ⟨sig, hsig⟩

section

variable (h : Tracks scheme committee data sigs agg)

include h

/-- Once the members with a valid first signature reach the threshold, an insert returns a certificate if what is held forms one. -/
theorem Tracks.certify_isQuorumReached (ht : threshold strength ≤ validStake scheme committee data sigs)
    (hr : Certify scheme strength agg data r) :
    r.1.isQuorumReached = true ↔ ∃ cert, agg.aggregated scheme strength = .ok cert := by
  have hleft : threshold strength ≤ r.2.totalVotes := ht.trans (h.certify hr).validStake_le
  cases hr with
  | failed e he => simp [InsertResult.isQuorumReached, he]
  | verified cert hcert => exact ⟨fun _ => ⟨cert, hcert⟩, fun _ => rfl⟩
  | evictedEnough first _ _ hfirst => exact ⟨fun _ => ⟨first, hfirst⟩, fun _ => rfl⟩
  | evictedFailed _ _ _ _ hrem ht' he =>
    obtain ⟨cert, hcert⟩ := hrem.aggregated_isOk h.sound ht'
    exact absurd (hcert.symm.trans he) nofun
  | evictedNotEnough _ _ _ _ _ _ hlt => exact absurd hlt (Nat.not_lt.mpr hleft)

/-- All that is held is of members if and only if no signature of the epoch was by another authority. -/
theorem Tracks.members_iff :
    (∀ a ∈ agg.authorities, a ∈ agg.committee.names) ↔ ∀ s ∈ sigs, s.epoch = committee.epoch → s.authority ∈ committee.names := by
  rw [h.committee_eq]
  constructor
  · intro hmem s hs hepoch
    by_contra hnot
    obtain ⟨s0, hs0⟩ := Option.isSome_iff_exists.mp (h.unknown s hs hepoch hnot)
    exact hnot (hmem _ (mem_map.mpr ⟨_, mem_toList.mpr hs0, rfl⟩))
  · intro hsigs a ha
    obtain ⟨e, he, rfl⟩ := mem_map.mp ha
    have hs := mem_toList.mp he
    obtain ⟨hauth, hepoch⟩ := h.sound.keyed e.1 e.2 hs
    exact hauth ▸ hsigs e.2 (h.inserted e.1 e.2 hs) (h.committee_eq ▸ hepoch)

/-- An insert returns a certificate only if no signature of the epoch was by an outsider. -/
theorem members_of_isQuorumReached (hr : Inserted scheme strength agg ⟨data, s⟩ r) (hquorum : r.1.isQuorumReached = true) :
    ∀ s' ∈ sigs ++ [s], s'.epoch = committee.epoch → s'.authority ∈ committee.names := by
  cases hr with
  | wrongEpoch => cases hquorum
  | notCounted => cases hquorum
  | notEnough => cases hquorum
  | certify _ agg' _ hepoch hg hcertify =>
    have htracks := h.insertGeneric hepoch hg
    refine htracks.members_iff.mp ?_
    cases hcertify with
    | failed => cases hquorum
    | verified _ hcert => exact ((aggregated_ok htracks.sound).mp hcert).2.1
    | evictedEnough _ _ _ hfirst => exact ((aggregated_ok htracks.sound).mp hfirst).2.1
    | evictedFailed => cases hquorum
    | evictedNotEnough => cases hquorum

end

/-- After a signature of the epoch by an outsider no insert returns a certificate. -/
theorem not_quorumReturned_of_unknown (sigs : List (AuthoritySignInfo Sig))
    (hepoch : s.epoch = committee.epoch) (hnot : s.authority ∉ committee.names) :
    ¬ QuorumReturned scheme strength committee data (s :: sigs) := by
  rintro ⟨pre, s', post, agg, r, heq, hrun, hr, hquorum⟩
  obtain ⟨agg', hrun', htracks⟩ := insertsOf_ok scheme strength committee data pre
  obtain rfl := ok_unique hrun hrun'
  obtain ⟨r', hr', hspec⟩ := insert_ok scheme strength htracks.sound.balanced ⟨data, s'⟩
  obtain rfl := ok_unique hr hr'
  have hmem : s ∈ pre ++ [s'] := by
    cases pre <;> obtain ⟨rfl, -⟩ := List.cons.inj heq <;> exact mem_cons_self
  exact hnot (members_of_isQuorumReached htracks hspec hquorum s hmem hepoch)

/-- When the members with a valid first signature reach the threshold, a certificate has been returned if and only if one was
returned before, or no signature was by an authority outside the committee and what is held can be aggregated. -/
theorem quorumReturned_iff (sigs : List (AuthoritySignInfo Sig)) (s : AuthoritySignInfo Sig)
    (hbefore : validStake scheme committee data sigs < Committee.threshold strength)
    (hreach : Committee.threshold strength ≤ validStake scheme committee data (sigs ++ [s])) :
    QuorumReturned scheme strength committee data (sigs ++ [s]) ↔ QuorumReturned scheme strength committee data sigs ∨
      (∀ s' ∈ sigs, s'.epoch = committee.epoch → s'.authority ∈ committee.names) ∧
      ∃ agg sig, insertsOf scheme strength committee data sigs = .ok agg ∧
        scheme.aggregate ((agg.data.insert s.authority s).toList.map fun e => e.2.signature) = .ok sig := by
  obtain ⟨hfirst, hvalid⟩ := first_of_validStake_lt (hbefore.trans_le hreach)
  obtain ⟨agg, hrun, htracks⟩ := insertsOf_ok scheme strength committee data sigs
  obtain ⟨r, hr, hspec⟩ := insert_ok scheme strength htracks.sound.balanced ⟨data, s⟩
  obtain ⟨hepoch, hweight, -⟩ := verifySecure_ok.mp hvalid
  have hnone := htracks.get_eq_none hfirst
  rw [quorumReturned_concat hrun hr]
  refine or_congr_right ?_
  cases hspec with
  | wrongEpoch hne => exact absurd (htracks.committee_eq ▸ hepoch) hne
  | notCounted _ _ _ hg =>
    cases hg with
    | repeated _ hd => exact absurd (hd.symm.trans hnone) nofun
    | unknown _ hw => exact absurd (htracks.committee_eq ▸ hw) (Nat.ne_of_gt hweight)
  | notEnough _ _ _ hepoch' hg =>
    have hle := (htracks.insertGeneric hepoch' hg).validStake_le
    cases hg with
    | notEnough _ _ _ _ ht => exact absurd (hreach.trans hle) (Nat.not_le.mpr ht)
  | certify votes agg' r hepoch' hg hcertify =>
    have htracks' := htracks.insertGeneric hepoch' hg
    rw [htracks'.certify_isQuorumReached hreach hcertify, aggregated_isOk htracks'.sound, htracks'.members_iff]
    cases hg with
    | quorum _ _ _ _ ht =>
      constructor
      · rintro ⟨-, hmem, sig, hsig⟩
        exact ⟨fun s' hs' => hmem s' (mem_append_left _ hs'), agg, sig, hrun, hsig⟩
      · rintro ⟨hmem, agg', sig, hrun', hsig⟩
        obtain rfl := ok_unique hrun hrun'
        refine ⟨ht, fun s' hs' hepoch'' => ?_, sig, hsig⟩
        rcases mem_concat.mp hs' with hs' | rfl
        · exact hmem s' hs' hepoch''
        · exact committee.mem_names_of_weight_pos hweight

/-- Four members with a quarter of the votes each. -/
def fourMembers : Committee := ⟨⟨0, [(1, 2500), (2, 2500), (3, 2500), (4, 2500)], by decide⟩, by decide⟩

/-- A scheme in which the signature of a number is its sum with the key. -/
def sumScheme : AggregateScheme AuthorityName (Nat × EpochId) Nat Nat := .ofSigning fun k m => k + m.1

/-- Member 1 sends a signature that is not valid, and members 2, 3 and 4 reach the threshold with valid ones. -/
theorem quorumReturned_iff_invalid :
    QuorumReturned sumScheme true fourMembers 7 ([⟨0, 1, 0⟩, ⟨0, 2, 9⟩, ⟨0, 3, 10⟩] ++ [⟨0, 4, 11⟩]) := by
  refine (quorumReturned_iff [⟨0, 1, 0⟩, ⟨0, 2, 9⟩, ⟨0, 3, 10⟩] ⟨0, 4, 11⟩ (by decide +kernel) (by decide +kernel)).mpr
    (.inr ⟨by decide, ?_⟩)
  obtain ⟨agg, hrun, hsig⟩ := exists_ok (x := insertsOf sumScheme true fourMembers 7 [⟨0, 1, 0⟩, ⟨0, 2, 9⟩, ⟨0, 3, 10⟩])
    (fun agg => (sumScheme.aggregate ((agg.data.insert 4 ⟨0, 4, 11⟩).toList.map fun e => e.2.signature)).isOk) (by decide +kernel)
  cases hagg : sumScheme.aggregate ((agg.data.insert 4 ⟨0, 4, 11⟩).toList.map fun e => e.2.signature) with
  | ok sig => exact ⟨agg, sig, hrun, hagg⟩
  | error =>
    rw [hagg] at hsig
    cases hsig

/-- A signature of 9, which is not a member, and valid ones of members with three quarters of the votes: no insert returns a
certificate. -/
theorem quorumReturned_blocked :
    Committee.threshold true ≤ validStake sumScheme fourMembers 7 [⟨0, 9, 16⟩, ⟨0, 1, 8⟩, ⟨0, 2, 9⟩, ⟨0, 3, 10⟩] ∧
      ¬ QuorumReturned sumScheme true fourMembers 7 [⟨0, 9, 16⟩, ⟨0, 1, 8⟩, ⟨0, 2, 9⟩, ⟨0, 3, 10⟩] :=
  ⟨by decide +kernel, not_quorumReturned_of_unknown _ rfl (by decide)⟩

end StakeAggregator

end Sui.Types

import Sui.Execution.StakeAggregator
import Sui.Types.Lemmas.Crypto

/-!
# What an insert into the aggregator does

The count of votes is the stake of the authorities that are held, through every path of an insert: a vote is added with its stake,
and a signature that is taken out takes its stake with it.
-/

namespace Sui.Types

open Library Checked BTreeMap List Types.Committee

namespace StakeAggregator

/-- The votes are the weights of the authorities that are held. -/
def Balanced {S : Type} (agg : StakeAggregator S) : Prop :=
  agg.totalVotes = ∑ a ∈ keySet agg.data, agg.committee.weight a

variable {S : Type} {agg : StakeAggregator S}

theorem Balanced.le (h : agg.Balanced) : agg.totalVotes ≤ totalVotingPower :=
  h ▸ agg.committee.sum_weight_le _

theorem balanced_new (committee : Committee) : (new committee : StakeAggregator S).Balanced := by
  have hempty : keySet (∅ : BTreeMap AuthorityName S) = ∅ := by
    ext a
    simp
  simp only [Balanced, new, hempty, Finset.sum_empty]

/-- What `insert_generic` does. -/
inductive InsertGeneric {S : Type} [BEq S] (strength : Bool) (agg : StakeAggregator S) (authority : AuthorityName) (s : S) :
    InsertResult (BTreeMap AuthorityName S) × StakeAggregator S → Prop
  | repeated (oc : S) : agg.data[authority]? = some oc →
      InsertGeneric strength agg authority s (.failed (.stakeAggregatorRepeatedSigner authority (oc != s)), agg)
  | unknown : agg.data[authority]? = none → agg.committee.weight authority = 0 → InsertGeneric strength agg authority s
        (.failed .invalidAuthenticator, { agg with data := agg.data.insert authority s })
  | quorum (votes : Nat) : agg.data[authority]? = none → 0 < agg.committee.weight authority →
      votes = agg.totalVotes + agg.committee.weight authority → threshold strength ≤ votes →
      InsertGeneric strength agg authority s
        (.quorumReached (agg.data.insert authority s), ⟨agg.data.insert authority s, votes, agg.committee⟩)
  | notEnough (votes : Nat) : agg.data[authority]? = none → 0 < agg.committee.weight authority →
      votes = agg.totalVotes + agg.committee.weight authority → votes < threshold strength →
      InsertGeneric strength agg authority s
        (.notEnoughVotes 0 [], ⟨agg.data.insert authority s, votes, agg.committee⟩)

theorem sum_keySet_insert {data : BTreeMap AuthorityName S} {a : AuthorityName} (h : data[a]? = none) (s : S)
    (w : AuthorityName → Nat) :
    ∑ b ∈ keySet (data.insert a s), w b = w a + ∑ b ∈ keySet data, w b := by
  rw [keySet_insert, Finset.sum_insert]
  rw [mem_keySet, h]
  exact Bool.false_ne_true

/-- An insert into a balanced aggregator returns, and stays within the total voting power. -/
theorem insertGeneric_ok [BEq S] (strength : Bool) (h : agg.Balanced) (authority : AuthorityName) (s : S) :
    ∃ r, agg.insertGeneric strength authority s = .ok r ∧ InsertGeneric strength agg authority s r := by
  unfold insertGeneric
  cases hd : agg.data[authority]? with
  | some oc => exact ⟨_, rfl, .repeated oc hd⟩
  | none =>
    dsimp only
    by_cases hw : 0 < agg.committee.weight authority
    · have hsum : agg.totalVotes + agg.committee.weight authority ≤ totalVotingPower := by
        rw [h, add_comm, ← sum_keySet_insert hd s]
        exact agg.committee.sum_weight_le _
      have hlt : agg.totalVotes + agg.committee.weight authority < 2 ^ 64 := lt_of_le_of_lt hsum (by decide)
      rw [if_pos hw, Word.add_eq hlt, ok_bind]
      by_cases ht : threshold strength ≤ agg.totalVotes + agg.committee.weight authority
      · rw [if_pos ht]
        exact ⟨_, rfl, .quorum _ hd hw rfl ht⟩
      · rw [if_neg ht]
        exact ⟨_, rfl, .notEnough _ hd hw rfl (Nat.lt_of_not_le ht)⟩
    · rw [if_neg hw]
      exact ⟨_, rfl, .unknown hd (Nat.eq_zero_of_not_pos hw)⟩

/-- The aggregator stays balanced. -/
theorem InsertGeneric.balanced [BEq S] {strength : Bool} {authority : AuthorityName} {s : S}
    {r : InsertResult (BTreeMap AuthorityName S) × StakeAggregator S} (h : InsertGeneric strength agg authority s r)
    (hagg : agg.Balanced) : r.2.Balanced ∧ r.2.committee = agg.committee := by
  cases h with
  | repeated => exact ⟨hagg, rfl⟩
  | unknown hd hw =>
    refine ⟨?_, rfl⟩
    unfold Balanced at hagg ⊢
    rw [sum_keySet_insert hd, hw, zero_add, hagg]
  | quorum _ hd _ hv =>
    refine ⟨?_, rfl⟩
    unfold Balanced at hagg ⊢
    rw [sum_keySet_insert hd, hv, hagg, add_comm]
  | notEnough _ hd _ hv =>
    refine ⟨?_, rfl⟩
    unfold Balanced at hagg ⊢
    rw [sum_keySet_insert hd, hv, hagg, add_comm]

/-! ## Aggregators of signatures -/

variable {T Sig Agg : Type} {scheme : AggregateScheme AuthorityName (T × EpochId) Sig Agg} {strength : Bool}

/-- The authorities that are held. -/
def authorities {S : Type} (agg : StakeAggregator S) : List AuthorityName := agg.data.toList.map Prod.fst

theorem sum_authorities (h : agg.Balanced) : (agg.authorities.map agg.committee.weight).sum = agg.totalVotes := by
  rw [h, keySet, ← Std.ExtTreeMap.map_fst_toList_eq_keys, sum_toFinset _ (nodup_toList _)]
  rfl

/-- An aggregator of signatures as inserts leave it: balanced, and each signature under its own authority. -/
structure Sound (agg : StakeAggregator (AuthoritySignInfo Sig)) : Prop where
  balanced : agg.Balanced
  keyed : ∀ (a : AuthorityName) (s : AuthoritySignInfo Sig), agg.data[a]? = some s → s.authority = a ∧ s.epoch = agg.committee.epoch

theorem sound_new (committee : Committee) : (new committee : StakeAggregator (AuthoritySignInfo Sig)).Sound :=
  ⟨balanced_new committee, by simp [new]⟩

variable {agg : StakeAggregator (AuthoritySignInfo Sig)} {cert : AuthorityQuorumSignInfo Agg}

/-- When what is held forms a certificate. -/
theorem aggregated_ok (h : agg.Sound) : agg.aggregated scheme strength = .ok cert ↔
      threshold strength ≤ agg.totalVotes ∧ (∀ a ∈ agg.authorities, a ∈ agg.committee.names) ∧
      cert.epoch = agg.committee.epoch ∧
      cert.signersMap.iter.map agg.committee.authorityByIndex = agg.authorities.map some ∧
      scheme.aggregate (agg.data.toList.map fun e => e.2.signature) = .ok cert.signature := by
  have hkeyed : ∀ e ∈ agg.data.toList, e.2.authority = e.1 ∧ e.2.epoch = agg.committee.epoch := fun e he =>
    h.keyed e.1 e.2 (mem_toList.mp he)
  have hauth : (agg.data.toList.map Prod.snd).map AuthoritySignInfo.authority = agg.authorities := by
    rw [map_map, authorities]
    exact map_congr_left fun e he => (hkeyed e he).1
  have hsorted : (agg.data.toList.map Prod.snd).Pairwise fun a b => a.authority < b.authority := by
    rw [← pairwise_map (f := AuthoritySignInfo.authority) (R := (· < ·)), hauth, authorities, pairwise_map]
    exact pairwise_toList _
  have hsum : ((agg.data.toList.map Prod.snd).map fun a => agg.committee.weight a.authority).sum = agg.totalVotes := by
    rw [← sum_authorities h.balanced, ← hauth, map_map, map_map, map_map]
    rfl
  have hmem : (∀ a ∈ agg.data.toList.map Prod.snd, a.authority ∈ agg.committee.names) ↔
      ∀ a ∈ agg.authorities, a ∈ agg.committee.names := by
    simp only [← hauth, forall_mem_map]
  have hmap : (agg.data.toList.map Prod.snd).map (fun a => some a.authority) = agg.authorities.map some := by
    rw [← hauth, map_map, map_map, map_map]
    rfl
  have hepoch : ∀ a ∈ agg.data.toList.map Prod.snd, a.epoch = agg.committee.epoch := by
    rw [forall_mem_map]
    exact fun e he => (hkeyed e he).2
  unfold aggregated
  rw [AuthorityQuorumSignInfo.newFromAuthSignInfos_ok hsorted, hsum, hmem, hmap, map_map]
  exact and_iff_right hepoch

variable (scheme) in
/-- What is left after the signatures that are not valid were taken out. -/
structure Remaining (data : T) (agg agg' : StakeAggregator (AuthoritySignInfo Sig)) : Prop where
  committee : agg'.committee = agg.committee
  balanced : agg'.Balanced
  held : ∀ (a : AuthorityName) (s : AuthoritySignInfo Sig),
    agg'.data[a]? = some s ↔ agg.data[a]? = some s ∧ s.verifySecure scheme data agg.committee = .ok ()

variable {data : T}

section

variable {agg' : StakeAggregator (AuthoritySignInfo Sig)} (h : Remaining scheme data agg agg') (hagg : agg.Sound)

include h hagg

theorem Remaining.sound : agg'.Sound :=
  ⟨h.balanced, fun a s hs => h.committee ▸ hagg.keyed a s ((h.held a s).mp hs).1⟩

theorem Remaining.verified : List.Forall₂ (fun a s => scheme.verify a (data, agg'.committee.epoch) s = true) agg'.authorities
    (agg'.data.toList.map fun e => e.2.signature) := by
  rw [authorities, forall₂_map_left_iff, forall₂_map_right_iff, forall₂_same]
  rintro ⟨a, s⟩ he
  have hs := mem_toList.mp he
  have hv := AuthoritySignInfo.verifySecure_ok.mp ((h.held a s).mp hs).2
  rw [h.committee, ← ((h.sound hagg).keyed a s hs).1]
  exact hv.2.2

/-- What remains is valid signature by signature, so it certifies the data without another verification. -/
theorem Remaining.certifies (hcert : agg'.aggregated scheme strength = .ok cert) :
    Certifies scheme strength agg'.committee data cert agg'.authorities := by
  have hsound := h.sound hagg
  obtain ⟨hstake, hmem, hepoch, hmap, hagg'⟩ := (aggregated_ok hsound).mp hcert
  exact ⟨hepoch, hmap, nodup_toList _, hmem, by rw [sum_authorities hsound.balanced]; exact hstake, _, h.verified hagg, hagg'⟩

end

variable (scheme) in
/-- The loop over the signatures returns, with exactly the valid ones left. -/
theorem foldlM_evict (hagg : agg.Balanced) (data : T) :
    ∃ acc, agg.data.toList.foldlM (evict scheme data) (agg, 0, []) = .ok acc ∧ Remaining scheme data agg acc.1 := by
  -- what was taken out and what is left make up the votes there were, so neither counter leaves its range
  have hloop := foldlM_total (f := evict scheme data) (l := agg.data.toList) (b := (agg, 0, []))
    (fun pre acc => acc.1.committee = agg.committee ∧ acc.1.Balanced ∧ acc.2.1 + acc.1.totalVotes = agg.totalVotes ∧
      ∀ (a : AuthorityName) (s : AuthoritySignInfo Sig), acc.1.data[a]? = some s ↔
        agg.data[a]? = some s ∧ ((a, s) ∈ pre → s.verifySecure scheme data agg.committee = .ok ()))
    ⟨rfl, hagg, by simp, by simp⟩ ?_
  · obtain ⟨acc, hfold, hc, hb, -, hheld⟩ := hloop
    refine ⟨acc, hfold, hc, hb, fun a s => ?_⟩
    rw [hheld, mem_toList]
    exact ⟨fun h => ⟨h.1, h.2 h.1⟩, fun h => ⟨h.1, fun _ => h.2⟩⟩
  · rintro pre ⟨name, sig⟩ post acc hl ⟨hc, hb, hvotes, hheld⟩
    have hnodup : (name, sig) ∉ pre := by
      have := (pairwise_toList agg.data)
      rw [hl, pairwise_append] at this
      exact fun hmem => absurd (this.2.2 _ hmem _ mem_cons_self) (lt_irrefl _)
    have hmem : agg.data[name]? = some sig := mem_toList.mp (by simp [hl])
    cases hv : sig.verifySecure scheme data acc.1.committee with
    | ok =>
      refine ⟨acc, by rw [evict, hv]; rfl, hc, hb, hvotes, fun a s => ?_⟩
      rw [hheld, mem_append, mem_singleton, or_imp, and_iff_left (b := _ = _ → _)]
      rintro ⟨⟩
      exact hc ▸ hv
    | error =>
      have hacc : acc.1.data[name]? = some sig := (hheld name sig).mpr ⟨hmem, fun hpre => absurd hpre hnodup⟩
      have hkey : name ∈ keySet acc.1.data := by
        rw [mem_keySet, hacc]
        rfl
      have hsum : acc.1.committee.weight name + ∑ a ∈ (keySet acc.1.data).erase name, acc.1.committee.weight a =
          acc.1.totalVotes := by
        rw [hb]
        exact Finset.add_sum_erase _ _ hkey
      have hlt : agg.totalVotes < 2 ^ 64 := lt_of_le_of_lt hagg.le (by decide)
      have hevict : evict scheme data acc (name, sig) = .ok (⟨acc.1.data.erase name,
          acc.1.totalVotes - acc.1.committee.weight name, acc.1.committee⟩, acc.2.1 + acc.1.committee.weight name,
          acc.2.2 ++ [name]) := by
        rw [evict, hv]
        dsimp only
        rw [Word.sub_eq (by omega), ok_bind, Word.add_eq (by omega)]
        rfl
      refine ⟨_, hevict, hc, ?_, by dsimp only; omega, ?_⟩
      · unfold Balanced
        rw [keySet_erase]
        dsimp only
        omega
      · intro a s
        dsimp only
        rw [get_erase]
        by_cases ha : name = a
        · subst ha
          rw [if_pos rfl]
          refine ⟨nofun, fun h => ?_⟩
          obtain rfl : sig = s := Option.some.inj (hmem.symm.trans h.1)
          have hok : sig.verifySecure scheme data acc.1.committee = .ok () := hc ▸ h.2 (by simp)
          exact absurd (hok.symm.trans hv) nofun
        · rw [if_neg ha, hheld, mem_append, mem_singleton, or_imp, and_iff_left (b := _ = _ → _)]
          exact fun heq => absurd (Prod.mk.inj heq).1.symm ha

variable (scheme strength agg data) in
/-- What `insert` does once the stake of what is held reaches the threshold. -/
inductive Certify : InsertResult (AuthorityQuorumSignInfo Agg) × StakeAggregator (AuthoritySignInfo Sig) → Prop
  | failed (e : SuiError) : agg.aggregated scheme strength = .error e → Certify (.failed e, agg)
  | verified (cert : AuthorityQuorumSignInfo Agg) : agg.aggregated scheme strength = .ok cert →
      cert.verifySecure scheme strength data agg.committee = .ok () → Certify (.quorumReached cert, agg)
  | evictedEnough (first cert : AuthorityQuorumSignInfo Agg) (agg' : StakeAggregator (AuthoritySignInfo Sig)) :
      agg.aggregated scheme strength = .ok first → Remaining scheme data agg agg' →
      agg'.aggregated scheme strength = .ok cert → Certify (.quorumReached cert, agg')
  | evictedFailed (first : AuthorityQuorumSignInfo Agg) (e : SuiError) (agg' : StakeAggregator (AuthoritySignInfo Sig)) :
      agg.aggregated scheme strength = .ok first → Remaining scheme data agg agg' →
      threshold strength ≤ agg'.totalVotes → agg'.aggregated scheme strength = .error e →
      Certify (.failed e, agg')
  | evictedNotEnough (first : AuthorityQuorumSignInfo Agg) (agg' : StakeAggregator (AuthoritySignInfo Sig))
      (badVotes : Nat) (badAuthorities : List AuthorityName) : agg.aggregated scheme strength = .ok first →
      Remaining scheme data agg agg' → agg'.totalVotes < threshold strength →
      Certify (.notEnoughVotes badVotes badAuthorities, agg')

variable (scheme strength) in
theorem certify_ok (hagg : agg.Balanced) (data : T) :
    ∃ r, agg.certify scheme strength data = .ok r ∧ Certify scheme strength agg data r := by
  unfold certify
  cases hfirst : agg.aggregated scheme strength with
  | error e => exact ⟨_, rfl, .failed e hfirst⟩
  | ok first =>
    dsimp only
    cases hv : first.verifySecure scheme strength data agg.committee with
    | ok => exact ⟨_, rfl, .verified first hfirst hv⟩
    | error e =>
      obtain ⟨⟨agg', badVotes, badAuthorities⟩, hfold, hrem⟩ := foldlM_evict scheme hagg data
      dsimp only
      unfold evictInvalid
      rw [hfold, ok_bind]
      dsimp only
      by_cases ht : threshold strength ≤ agg'.totalVotes
      · rw [if_pos ht]
        cases hcert : agg'.aggregated scheme strength with
        | error e => exact ⟨_, rfl, .evictedFailed first e agg' hfirst hrem ht hcert⟩
        | ok cert => exact ⟨_, rfl, .evictedEnough first cert agg' hfirst hrem hcert⟩
      · rw [if_neg ht]
        exact ⟨_, rfl, .evictedNotEnough first agg' badVotes badAuthorities hfirst hrem (Nat.lt_of_not_le ht)⟩

variable {r : InsertResult (AuthorityQuorumSignInfo Agg) × StakeAggregator (AuthoritySignInfo Sig)}

/-- The aggregator that is left is the one there was, or what remains of it. -/
theorem Certify.left (h : Certify scheme strength agg data r) :
    r.2 = agg ∨ (∃ first, agg.aggregated scheme strength = .ok first) ∧ Remaining scheme data agg r.2 := by
  cases h with
  | failed => exact Or.inl rfl
  | verified => exact Or.inl rfl
  | evictedEnough first _ _ hfirst hrem => exact Or.inr ⟨⟨first, hfirst⟩, hrem⟩
  | evictedFailed first _ _ hfirst hrem => exact Or.inr ⟨⟨first, hfirst⟩, hrem⟩
  | evictedNotEnough first _ _ _ hfirst hrem => exact Or.inr ⟨⟨first, hfirst⟩, hrem⟩

theorem Certify.sound
    (h : Certify scheme strength agg data r) (hagg : agg.Sound) : r.2.Sound ∧ r.2.committee = agg.committee := by
  rcases h.left with heq | ⟨-, hrem⟩
  · rw [heq]
    exact ⟨hagg, rfl⟩
  · exact ⟨hrem.sound hagg, hrem.committee⟩

theorem Certify.certifies (h : Certify scheme strength agg data r) (hagg : agg.Sound)
    (hr : r.1 = .quorumReached cert) : Certifies scheme strength r.2.committee data cert r.2.authorities := by
  cases h with
  | failed => cases hr
  | verified _ hcert hv =>
    cases hr
    obtain ⟨signers, hsigners⟩ := AuthorityQuorumSignInfo.certifies_of_verifySecure hv
    have hmap := ((aggregated_ok hagg).mp hcert).2.2.2.1
    have heq : signers = agg.authorities := map_injective_iff.mpr (Option.some_injective _) (hsigners.authorities.symm.trans hmap)
    exact heq ▸ hsigners
  | evictedEnough _ _ _ _ hrem hcert =>
    cases hr
    exact hrem.certifies hagg hcert
  | evictedFailed => cases hr
  | evictedNotEnough => cases hr

variable (scheme strength agg) in
/-- What `insert` does. -/
inductive Inserted (envelope : Envelope T Sig) :
    InsertResult (AuthorityQuorumSignInfo Agg) × StakeAggregator (AuthoritySignInfo Sig) → Prop
  | wrongEpoch : envelope.authSignature.epoch ≠ agg.committee.epoch →
      Inserted envelope (.failed (.wrongEpoch agg.committee.epoch envelope.authSignature.epoch), agg)
  | notCounted (error : SuiError) (agg' : StakeAggregator (AuthoritySignInfo Sig)) :
      envelope.authSignature.epoch = agg.committee.epoch →
      InsertGeneric strength agg envelope.authSignature.authority envelope.authSignature (.failed error, agg') →
      Inserted envelope (.failed error, agg')
  | notEnough (badVotes : Nat) (badAuthorities : List AuthorityName) (agg' : StakeAggregator (AuthoritySignInfo Sig)) :
      envelope.authSignature.epoch = agg.committee.epoch →
      InsertGeneric strength agg envelope.authSignature.authority envelope.authSignature
        (.notEnoughVotes badVotes badAuthorities, agg') →
      Inserted envelope (.notEnoughVotes badVotes badAuthorities, agg')
  | certify (votes : BTreeMap AuthorityName (AuthoritySignInfo Sig)) (agg' : StakeAggregator (AuthoritySignInfo Sig))
      (r : InsertResult (AuthorityQuorumSignInfo Agg) × StakeAggregator (AuthoritySignInfo Sig)) :
      envelope.authSignature.epoch = agg.committee.epoch →
      InsertGeneric strength agg envelope.authSignature.authority envelope.authSignature (.quorumReached votes, agg') →
      Certify scheme strength agg' envelope.data r → Inserted envelope r

variable (scheme strength) in
theorem insert_ok (hagg : agg.Balanced) (envelope : Envelope T Sig) :
    ∃ r, agg.insert scheme strength envelope = .ok r ∧ Inserted scheme strength agg envelope r := by
  unfold insert
  by_cases hepoch : agg.committee.epoch = envelope.authSignature.epoch
  · obtain ⟨⟨g, agg'⟩, hg, hspec⟩ := insertGeneric_ok strength hagg envelope.authSignature.authority
      envelope.authSignature
    simp only [ne_eq, hepoch, not_true_eq_false, if_false, hg, ok_bind]
    cases g with
    | quorumReached votes =>
      obtain ⟨r, hr, hcertify⟩ := certify_ok scheme strength (hspec.balanced hagg).1 envelope.data
      exact ⟨r, hr, .certify votes agg' r hepoch.symm hspec hcertify⟩
    | failed error => exact ⟨_, rfl, .notCounted error agg' hepoch.symm hspec⟩
    | notEnoughVotes badVotes badAuthorities => exact ⟨_, rfl, .notEnough badVotes badAuthorities agg' hepoch.symm hspec⟩
  · simp only [ne_eq, hepoch, not_false_eq_true, if_true]
    exact ⟨_, rfl, .wrongEpoch (Ne.symm hepoch)⟩

/-- An insert of a signature under its own authority keeps the aggregator as it should be. -/
theorem InsertGeneric.sound {s : AuthoritySignInfo Sig}
    {r : InsertResult (BTreeMap AuthorityName (AuthoritySignInfo Sig)) × StakeAggregator (AuthoritySignInfo Sig)}
    (h : InsertGeneric strength agg s.authority s r) (hagg : agg.Sound) (hepoch : s.epoch = agg.committee.epoch) :
    r.2.Sound ∧ r.2.committee = agg.committee := by
  obtain ⟨hbalanced, hcommittee⟩ := h.balanced hagg.balanced
  have hkeyed : ∀ (a : AuthorityName) (s' : AuthoritySignInfo Sig), (agg.data.insert s.authority s)[a]? = some s' →
      s'.authority = a ∧ s'.epoch = agg.committee.epoch := forall_insert hagg.keyed ⟨rfl, hepoch⟩
  refine ⟨⟨hbalanced, ?_⟩, hcommittee⟩
  cases h with
  | repeated => exact hagg.keyed
  | unknown => exact hkeyed
  | quorum => exact hkeyed
  | notEnough => exact hkeyed

theorem Inserted.sound {envelope : Envelope T Sig}
    (h : Inserted scheme strength agg envelope r) (hagg : agg.Sound) : r.2.Sound ∧ r.2.committee = agg.committee := by
  cases h with
  | wrongEpoch => exact ⟨hagg, rfl⟩
  | notCounted _ _ hepoch hg => exact hg.sound hagg hepoch
  | notEnough _ _ _ hepoch hg => exact hg.sound hagg hepoch
  | certify _ _ _ hepoch hg hcertify =>
    obtain ⟨hsound, hcommittee⟩ := hg.sound hagg hepoch
    exact ⟨(hcertify.sound hsound).1, (hcertify.sound hsound).2.trans hcommittee⟩

theorem Inserted.certifies {envelope : Envelope T Sig} (h : Inserted scheme strength agg envelope r) (hagg : agg.Sound)
    (hr : r.1 = .quorumReached cert) : Certifies scheme strength agg.committee envelope.data cert r.2.authorities := by
  rw [← (h.sound hagg).2]
  cases h with
  | wrongEpoch => cases hr
  | notCounted => cases hr
  | notEnough => cases hr
  | certify _ _ _ hepoch hg hcertify => exact hcertify.certifies (hg.sound hagg hepoch).1 hr

variable (scheme strength) in
/-- Every sequence of inserts returns, with an aggregator that is as it should be. -/
theorem inserts_ok (committee : Committee) (envelopes : List (Envelope T Sig)) :
    ∃ agg, (new committee).inserts scheme strength envelopes = .ok agg ∧ agg.Sound ∧ agg.committee = committee := by
  refine foldlM_total (fun _ (agg : StakeAggregator (AuthoritySignInfo Sig)) => agg.Sound ∧ agg.committee = committee) ⟨sound_new committee, rfl⟩ ?_
  intro pre envelope post agg _ hagg
  obtain ⟨r, hr, hspec⟩ := insert_ok scheme strength hagg.1.balanced envelope
  exact ⟨r.2, by rw [hr]; rfl, (hspec.sound hagg.1).1, (hspec.sound hagg.1).2.trans hagg.2⟩

end StakeAggregator

end Sui.Types

import Sui.Types.Checkpoint
import Sui.Types.Lemmas.Crypto

/-!
# What certifies a summary and when a committee can be made
-/

namespace Sui.Types

open Library Checked

variable {Sig Agg : Type} {scheme : AggregateScheme AuthorityName (CheckpointSummary × EpochId) Sig Agg}

/-- A summary whose signature verifies is certified by a quorum of the committee, whose epoch is its own. -/
theorem CertifiedCheckpointSummary.certifies_of_verify {c : CertifiedCheckpointSummary Agg} {committee : EpochCommittee}
    (h : c.verifyAuthoritySignatures scheme committee = .ok ()) :
    c.epoch = committee.epoch ∧ ∃ signers, Certifies scheme true committee c.data c.authSig signers := by
  simp only [verifyAuthoritySignatures, bind_ok, assert_ok, decide_eq_true_eq, exists_const] at h
  obtain ⟨signers, hsigners⟩ := AuthorityQuorumSignInfo.certifies_of_verifySecure h.2
  exact ⟨h.1.trans hsigners.epoch, signers, hsigners⟩

/-- When `Committee::new` makes a committee: a total that is not zero leaves no room for an empty list or for zero rights alone. -/
theorem newCommittee_ok {isPublicKey : AuthorityName → Bool} {epoch : Nat} {votingRights : BTreeMap AuthorityName Nat}
    {committee : EpochCommittee} :
    newCommittee isPublicKey epoch votingRights = .ok committee ↔
      (votingRights.toList.map Prod.snd).sum % 2 ^ 64 = totalVotingPower ∧
      (∀ right ∈ votingRights.toList, isPublicKey right.1 = true) ∧
      committee.epoch = epoch ∧ committee.votingRights = votingRights.toList := by
  unfold newCommittee
  simp only [bind_ok, assert_ok, decide_eq_true_eq, List.all_eq_true, pure_ok, exists_const]
  constructor
  · rintro ⟨-, -, htotal, hkeys, rfl⟩
    exact ⟨htotal, hkeys, rfl, rfl⟩
  · rintro ⟨htotal, hkeys, rfl, hrights⟩
    have hnonempty : votingRights.toList ≠ [] := by
      intro h
      simp [h, totalVotingPower] at htotal
    have hany : ∃ right ∈ votingRights.toList, right.2 ≠ 0 := by
      by_contra hall
      push Not at hall
      have hsum : (votingRights.toList.map Prod.snd).sum = 0 := by
        refine List.sum_eq_zero ?_
        intro x hx
        obtain ⟨right, hright, rfl⟩ := List.mem_map.mp hx
        exact hall right hright
      simp [hsum, totalVotingPower] at htotal
    obtain ⟨right, hright, hne⟩ := hany
    refine ⟨by simpa using hnonempty, List.any_eq_true.mpr ⟨right, hright, by simp [hne]⟩, htotal, hkeys, ?_⟩
    obtain ⟨_, rights, _⟩ := committee
    subst hrights
    rfl

end Sui.Types

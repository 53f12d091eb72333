import Sui.Library.Dag

/-!
# A commit rule with two thresholds

A slot is a round and an author; faulty authors may have several nodes in it. The nodes of the next round vote: for the nodes of
the slot they link to, and against the others. A view commits a node with a quorum of votes for it, and skips the slot when a
quorum has voted and each of its nodes has a quorum against it. Otherwise an anchor of a later round decides, by the votes in
its history and a lower threshold.
-/

namespace Sui.Library

/-- A DAG with a lower threshold for certificates: a certificate and a quorum share an honest member, and what two quorums
share is still a certificate. -/
structure SlotRule (ρ ι : Type) extends QuorumDag ρ ι where
  certification : ℕ
  certification_pos : 0 < certification
  certificate_meets : Quorum.weight members.weight members.all + members.faults < certification + quorum
  certificate_survives : Quorum.weight members.weight members.all + members.faults + certification ≤ quorum + quorum

namespace SlotRule

variable {ρ ι : Type} (R : SlotRule ρ ι)

/-- The nodes of a slot. -/
def SlotNode (r : ℕ) (a : ι) (L : ρ) : Prop := L ∈ R.dag.nodes ∧ R.dag.round L = r ∧ R.dag.author L = a

/-- `n` is a node of the next round with a link to `L`. -/
def Vote (L n : ρ) : Prop := n ∈ R.dag.nodes ∧ R.dag.round n = R.dag.round L + 1 ∧ L ∈ R.dag.parents n

/-- The history of `A` has votes for `L` of the lower threshold. -/
def Certified (A L : ρ) : Prop := R.members.Heavy R.dag R.certification fun n => R.dag.Reach A n ∧ R.Vote L n

variable {g : ℕ}

/-- A view has a quorum of votes for a node of the slot. -/
def Commits (V : R.dag.View g) (r : ℕ) (a : ι) (L : ρ) : Prop :=
  R.SlotNode r a L ∧ R.members.Heavy R.dag R.quorum fun n => n ∈ V.carrier ∧ R.Vote L n

/-- A view has a quorum of votes against a node of round `r`. -/
def Rejects (V : R.dag.View g) (r : ℕ) (L : ρ) : Prop :=
  R.members.Heavy R.dag R.quorum fun n => n ∈ V.carrier ∧ R.dag.round n = r + 1 ∧ L ∉ R.dag.parents n

/-- A view has a quorum of votes, and a quorum against each node of the slot. -/
def Skips (V : R.dag.View g) (r : ℕ) (a : ι) : Prop :=
  R.members.Heavy R.dag R.quorum (fun n => n ∈ V.carrier ∧ R.dag.round n = r + 1) ∧
    ∀ L ∈ V.carrier, R.SlotNode r a L → R.Rejects V r L

variable {R} {g' : ℕ} {V : R.dag.View g} {V' : R.dag.View g'} {r : ℕ} {a : ι} {L L' A : ρ}

theorem quorums_meet : Quorum.weight R.members.weight R.members.all + R.members.faults < R.quorum + R.quorum := by
  have := R.certificate_survives
  have := R.certification_pos
  omega

/-- A view that skips a slot has a quorum against every node of it, also against those that it does not have. -/
theorem Skips.rejects (h : R.Skips V r a) (hg : g < r) (hL : R.SlotNode r a L) : R.Rejects V r L := by
  by_cases hv : L ∈ V.carrier
  · exact h.2 L hv hL
  · refine Members.Heavy.mono ?_ h.1
    rintro n ⟨hn, hr⟩
    refine ⟨hn, hr, fun hp => hv (V.closed hn hp ?_)⟩
    rw [hL.2.1]
    exact hg

section

variable (h : R.Commits V r a L)

include h

/-- A quorum for a node and a quorum against it do not exist at the same time. -/
theorem not_rejects_of_commits : ¬ R.Rejects V' r L := by
  intro h'
  obtain ⟨n, ⟨-, hv⟩, -, -, hn⟩ := Members.exists_common R.single (k := r + 1)
    (fun n hn => ⟨hn.2.1, by rw [hn.2.2.1, h.1.2.1]⟩) (fun n hn => ⟨V'.node hn.1, hn.2.1⟩) h.2 h' quorums_meet
  exact hn hv.2.2

/-- No two nodes of a slot have votes of a quorum and votes of the lower threshold. -/
theorem eq_of_heavy_votes {P : ρ → Prop} (hL' : R.SlotNode r a L')
    (h' : R.members.Heavy R.dag R.certification fun n => P n ∧ R.Vote L' n) : L = L' := by
  have hmeet := R.certificate_meets
  obtain ⟨n, ⟨-, hv⟩, ⟨-, hv'⟩⟩ := Members.exists_common R.single (k := r + 1)
    (fun n hn => ⟨hn.2.1, by rw [hn.2.2.1, h.1.2.1]⟩) (fun n hn => ⟨hn.2.1, by rw [hn.2.2.1, hL'.2.1]⟩) h.2 h' (by omega)
  exact R.one_parent hv.2.2 hv'.2.2 (h.1.2.2.trans hL'.2.2.symm)

/-- Two views commit the same node. -/
theorem eq_of_commits (h' : R.Commits V' r a L') : L = L' := by
  have hmeet := R.certificate_survives
  have hle : R.certification ≤ R.quorum := by
    by_contra hlt
    have hw : R.quorum ≤ Quorum.weight R.members.weight R.members.all :=
      le_trans h.2 (Quorum.weight_mono (Members.authors_subset _))
    omega
  exact eq_of_heavy_votes h h'.1 (h'.2.le hle)

/-- No view skips a slot that another one commits. -/
theorem not_skips_of_commits (hg : g' < r) : ¬ R.Skips V' r a := fun h' =>
  not_rejects_of_commits h (h'.rejects hg h.1)

/-- A committed node is certified in the history of every anchor. -/
theorem certified_of_commits (hA : A ∈ V'.carrier) (hr : r + 2 ≤ R.dag.round A) (hg : g' < r + 1) : R.Certified A L := by
  have hcommon := Members.heavy_common R.single (k := r + 1) (fun n hn => ⟨hn.2.1, by rw [hn.2.2.1, h.1.2.1]⟩)
    (fun n hn => ⟨V'.node hn.2.1, hn.2.2⟩) h.2 (R.reach_heavy V' hA (k := r + 1) hg (by omega)) R.certificate_survives
  exact Members.Heavy.mono (fun n hn => ⟨hn.2.1, hn.1.2⟩) hcommon

/-- No other node of the slot is certified in any history. -/
theorem eq_of_certified (hL' : R.SlotNode r a L') (hc : R.Certified A L') : L = L' :=
  eq_of_heavy_votes h hL' hc

end

/-- No node of a skipped slot is certified in any history. -/
theorem not_certified_of_skips (h : R.Skips V r a) (hg : g < r) (hL : R.SlotNode r a L) : ¬ R.Certified A L := by
  intro hc
  obtain ⟨n, ⟨-, hv⟩, -, -, hn⟩ := Members.exists_common R.single (k := r + 1)
    (fun n hn => ⟨hn.2.1, by rw [hn.2.2.1, hL.2.1]⟩) (fun n hn => ⟨V.node hn.1, hn.2.1⟩) hc (h.rejects hg hL) R.certificate_meets
  exact hn hv.2.2

/-- A certified node is in every view that has the anchor. -/
theorem mem_of_certified (hA : A ∈ V.carrier) (hL : R.SlotNode r a L) (hc : R.Certified A L) (hg : g < r) : L ∈ V.carrier := by
  obtain ⟨n, hreach, hv⟩ := Members.Heavy.exists hc R.certification_pos
  refine V.mem_of_reach hA (hreach.tail hv.2.2) ?_
  rw [hL.2.1]
  exact hg

end SlotRule

end Sui.Library

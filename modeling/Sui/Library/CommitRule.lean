import Sui.Library.Dag

/-!
# A commit rule with certificates

One leader for each round of a DAG. A node of the next round votes for a leader node it links to; a node two rounds on that
links to a quorum of votes is a certificate. A leader is committed by a quorum of certificates and skipped by a quorum of nodes
without a link to its author; otherwise the first leader committed three rounds on or later decides it, by whether a certificate
is in its history.
-/

namespace Sui.Library

/-- A leader for each round of a DAG in which two quorums share an honest member. -/
structure CommitRule (ρ ι : Type) extends QuorumDag ρ ι where
  leader : ℕ → ι
  quorums_meet : Quorum.weight members.weight members.all + members.faults < quorum + quorum

namespace CommitRule

variable {ρ ι : Type} (R : CommitRule ρ ι)

/-- The nodes the leader of round `r` may be committed with. -/
def LeaderNode (r : ℕ) (L : ρ) : Prop := R.dag.round L = r ∧ R.dag.author L = R.leader r

/-- `n` is a node of the next round with a link to `L`. -/
def Vote (L n : ρ) : Prop := n ∈ R.dag.nodes ∧ R.dag.round n = R.dag.round L + 1 ∧ L ∈ R.dag.parents n

/-- `c` is a node two rounds on with links to a quorum of votes for `L`. -/
def Certificate (L c : ρ) : Prop :=
  c ∈ R.dag.nodes ∧ R.dag.round c = R.dag.round L + 2 ∧ R.members.Heavy R.dag R.quorum fun v => v ∈ R.dag.parents c ∧ R.Vote L v

/-- `n` is a node of the round after `r` without a link to any node of the leader of round `r`. -/
def Blame (r : ℕ) (n : ρ) : Prop :=
  n ∈ R.dag.nodes ∧ R.dag.round n = r + 1 ∧ ∀ p ∈ R.dag.parents n, R.dag.author p ≠ R.leader r

/-- A certificate for `L` is in the history of `A`. -/
def Certified (A L : ρ) : Prop := ∃ c, R.dag.Reach A c ∧ R.Certificate L c

variable {g : ℕ}

/-- A view has a quorum of certificates for `L`. -/
def Support (V : R.dag.View g) (L : ρ) : Prop :=
  R.members.Heavy R.dag R.quorum fun c => c ∈ V.carrier ∧ R.Certificate L c

/-- A view has a quorum of nodes that blame the leader of round `r`. -/
def Blamed (V : R.dag.View g) (r : ℕ) : Prop :=
  R.members.Heavy R.dag R.quorum fun n => n ∈ V.carrier ∧ R.Blame r n

/-- What a view decides about the leader of a round: `some L` commits the node `L`, `none` skips the leader. -/
inductive Decides (V : R.dag.View g) : ℕ → Option ρ → Prop
  | directCommit {r L} : R.LeaderNode r L → L ∈ V.carrier → R.Support V L → Decides V r (some L)
  | directSkip {r} : R.Blamed V r → Decides V r none
  | indirectCommit {r r' A L} : r + 3 ≤ r' → Decides V r' (some A) →
      (∀ k, r + 3 ≤ k → k < r' → Decides V k none) → R.LeaderNode r L → L ∈ V.carrier → R.Certified A L →
      Decides V r (some L)
  | indirectSkip {r r' A} : r + 3 ≤ r' → Decides V r' (some A) →
      (∀ k, r + 3 ≤ k → k < r' → Decides V k none) → (∀ L ∈ V.carrier, R.LeaderNode r L → ¬ R.Certified A L) →
      Decides V r none

variable {R} {V : R.dag.View g} {r : ℕ} {L : ρ}

/-- The node committed is one of the leader, in the view. -/
theorem Decides.leaderNode (h : R.Decides V r (some L)) : R.LeaderNode r L ∧ L ∈ V.carrier := by
  cases h with
  | directCommit hl hv => exact ⟨hl, hv⟩
  | indirectCommit _ _ _ hl hv => exact ⟨hl, hv⟩

/-- Two leader nodes with certificates are the same node: the quorums of votes share a vote. -/
theorem eq_of_certificates {L' c c' : ρ} (hl : R.LeaderNode r L) (hl' : R.LeaderNode r L')
    (hc : R.Certificate L c) (hc' : R.Certificate L' c') : L = L' := by
  obtain ⟨v, ⟨-, hv⟩, ⟨-, hv'⟩⟩ := Members.exists_common R.single (k := r + 1)
    (fun v hv => ⟨hv.2.1, by rw [hv.2.2.1, hl.1]⟩) (fun v hv => ⟨hv.2.1, by rw [hv.2.2.1, hl'.1]⟩)
    hc.2.2 hc'.2.2 R.quorums_meet
  exact R.one_parent hv.2.2 hv'.2.2 (hl.2.trans hl'.2.symm)

/-- A leader with a certificate is not blamed by a quorum. -/
theorem not_blamed_of_certificate {c : ρ} (hl : R.LeaderNode r L) (hc : R.Certificate L c) : ¬ R.Blamed V r := by
  intro hb
  obtain ⟨v, ⟨-, hv⟩, ⟨-, hb⟩⟩ := Members.exists_common R.single (k := r + 1)
    (fun v hv => ⟨hv.2.1, by rw [hv.2.2.1, hl.1]⟩) (fun v hv => ⟨hv.2.1, hv.2.2.1⟩) hc.2.2 hb R.quorums_meet
  exact hb.2.2 L hv.2.2 hl.2

variable {g' : ℕ} {V' : R.dag.View g'}

/-- A leader with a quorum of certificates has one in the history of every node three rounds on or later. -/
theorem certified_of_support {A : ρ} (hl : R.LeaderNode r L)
    (hs : R.Support V L) (hA : A ∈ V'.carrier) (hr : r + 3 ≤ R.dag.round A) (hg : g' < r) : R.Certified A L := by
  obtain ⟨c, ⟨-, hc⟩, ⟨hreach, -, -⟩⟩ := Members.exists_common R.single (k := r + 2)
    (fun c hc => ⟨hc.2.1, by rw [hc.2.2.1, hl.1]⟩) (fun c hc => ⟨V'.node hc.2.1, hc.2.2⟩)
    hs (R.reach_heavy V' hA (k := r + 2) (by omega) (by omega)) R.quorums_meet
  exact ⟨c, hreach, hc⟩

/-- A certified leader node is in every view that has the anchor. -/
theorem mem_of_certified {A : ρ} (hl : R.LeaderNode r L) (hc : R.Certified A L)
    (hA : A ∈ V.carrier) (hg : g < r) : L ∈ V.carrier := by
  obtain ⟨c, hreach, hcert⟩ := hc
  obtain ⟨v, hv, hvote⟩ := Members.Heavy.exists hcert.2.2 R.quorum_pos
  have hrL := hl.1
  have hL : R.dag.Reach A L := (hreach.tail hv).tail hvote.2.2
  exact V.mem_of_reach hA hL (by omega)

theorem Support.certificate (h : R.Support V L) : ∃ c, R.Certificate L c := by
  obtain ⟨c, hc⟩ := Members.Heavy.exists h R.quorum_pos
  exact ⟨c, hc.2⟩

variable {d : Option ρ}

/-- A decision of one view and a direct commit of another view agree. -/
theorem eq_of_directCommit (hl : R.LeaderNode r L) (hs : R.Support V L) (hd : R.Decides V' r d) (hg : g' < r) : d = some L := by
  obtain ⟨c, hc⟩ := hs.certificate
  cases hd with
  | directCommit hl' _ hs' =>
    obtain ⟨c', hc'⟩ := hs'.certificate
    rw [eq_of_certificates hl' hl hc' hc]
  | directSkip hb => exact absurd hb (not_blamed_of_certificate hl hc)
  | indirectCommit _ _ _ hl' _ hcert =>
    obtain ⟨c', -, hc'⟩ := hcert
    rw [eq_of_certificates hl' hl hc' hc]
  | indirectSkip _ hA _ hnone =>
    have hAr := hA.leaderNode.1.1
    have hcert := certified_of_support hl hs hA.leaderNode.2 (by omega) hg
    exact absurd hcert (hnone L (mem_of_certified hl hcert hA.leaderNode.2 hg) hl)

/-- A decision of one view and a direct skip of another view agree. -/
theorem eq_of_directSkip (hb : R.Blamed V r) (hd : R.Decides V' r d) : d = none := by
  cases hd with
  | directCommit hl _ hs =>
    obtain ⟨c, hc⟩ := hs.certificate
    exact absurd hb (not_blamed_of_certificate hl hc)
  | directSkip => rfl
  | indirectCommit _ _ _ hl _ hcert =>
    obtain ⟨c, -, hc⟩ := hcert
    exact absurd hb (not_blamed_of_certificate hl hc)
  | indirectSkip => rfl

/-- The first leader that a view commits from some round on is `A1`, if the view decides so up to its round. -/
theorem anchor_eq {s r1 r2 : ℕ} {A1 A2 : ρ} (h1 : s ≤ r1) (h2 : s ≤ r2)
    (ih : ∀ d, R.Decides V r1 d → some A1 = d) (ihk : ∀ k, s ≤ k → k < r1 → ∀ d, R.Decides V k d → none = d)
    (hA2 : R.Decides V r2 (some A2)) (hbelow : ∀ k, s ≤ k → k < r2 → R.Decides V k none) : A1 = A2 := by
  rcases lt_trichotomy r1 r2 with hlt | rfl | hgt
  · exact absurd (ih none (hbelow r1 h1 hlt)) (by simp)
  · exact Option.some.inj (ih _ hA2)
  · exact absurd (ihk r2 h2 hgt _ hA2) (by simp)

/-- Agreement: whatever two views decide about the leader of a round is the same. -/
theorem agreement {d' : Option ρ} (hg : g < r) (hg' : g' < r) (h : R.Decides V r d) (h' : R.Decides V' r d') : d = d' := by
  -- the induction is on the first decision: the anchors it uses are at higher rounds
  induction h generalizing d' with
  | directCommit hl _ hs => exact (eq_of_directCommit hl hs h' hg').symm
  | directSkip hb => exact (eq_of_directSkip hb h').symm
  | @indirectCommit r r1 A1 L hr hA hbelow hl hv hcert ih ihk =>
    cases h' with
    | directCommit hl' _ hs' => exact eq_of_directCommit hl' hs' (.indirectCommit hr hA hbelow hl hv hcert) hg
    | directSkip hb' => exact eq_of_directSkip hb' (.indirectCommit hr hA hbelow hl hv hcert)
    | indirectCommit _ _ _ hl' _ hcert' =>
      obtain ⟨c, -, hc⟩ := hcert
      obtain ⟨c', -, hc'⟩ := hcert'
      rw [eq_of_certificates hl hl' hc hc']
    | indirectSkip hr' hA' hbelow' hnone =>
      have hAA := anchor_eq hr hr' (fun d hd => ih (by omega) (by omega) hd)
        (fun k h1 h2 d hd => ihk k h1 h2 (by omega) (by omega) hd) hA' hbelow'
      subst hAA
      exact absurd hcert (hnone L (mem_of_certified hl hcert hA'.leaderNode.2 hg') hl)
  | @indirectSkip r r1 A1 hr hA hbelow hnone ih ihk =>
    cases h' with
    | directCommit hl' _ hs' => exact eq_of_directCommit hl' hs' (.indirectSkip hr hA hbelow hnone) hg
    | directSkip => rfl
    | indirectCommit hr' hA' hbelow' hl' _ hcert' =>
      have hAA := anchor_eq hr hr' (fun d hd => ih (by omega) (by omega) hd)
        (fun k h1 h2 d hd => ihk k h1 h2 (by omega) (by omega) hd) hA' hbelow'
      subst hAA
      exact absurd hcert' (hnone _ (mem_of_certified hl' hcert' hA.leaderNode.2 hg) hl')
    | indirectSkip => rfl

end CommitRule

end Sui.Library

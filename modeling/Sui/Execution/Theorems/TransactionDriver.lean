import Sui.Execution.Lemmas.TransactionDriver

/-!
# What the acknowledgments decide

Which answers of the validators make waiting for acknowledgments succeed, and which make the driver give up.
-/

namespace Sui.TransactionDriver

open Library BTreeMap Acknowledgments List TransactionDriverError Finset
open Sui.Types (AuthorityName totalVotingPower quorumThreshold validityThreshold)

variable {Data : Type} {committee : Types.Committee} {answers : Answers Data}
  {seen : Finset AuthorityName} {acks : Acknowledgments} {result : Except TransactionDriverError Types.Digest}

variable (committee answers seen) in
/-- The answers of different kinds add up to at most the total voting power. -/
theorem sum_stakeOf_le (kinds : Finset AnswerKind) :
    ∑ kind ∈ kinds, stakeOf committee answers seen kind ≤ totalVotingPower := by
  have hdisjoint : Set.PairwiseDisjoint (kinds : Set AnswerKind) (answered answers seen) := by
    intro kind _ kind' _ hne
    refine disjoint_left.mpr ?_
    intro a ha hb
    exact hne ((mem_answered.mp ha).2.symm.trans (mem_answered.mp hb).2)
  unfold stakeOf
  rw [← sum_biUnion hdisjoint]
  exact committee.sum_weight_le _

/-! ## The end of the loop -/

theorem Represents.submissionRetriable_iff (h : Represents committee answers seen acks) :
    acks.submissionRetriable = true ↔ ∃ d, quorumThreshold ≤
      stakeOf committee answers seen (.executed d) + (stakeOf committee answers seen .retriable + stakeOf committee answers seen .reasonNotFound) := by
  rw [submissionRetriable, retriableWeight, h.votes_retriable, h.votes_reasonNotFound, Bool.or_eq_true,
    decide_eq_true_eq, any_eq_true]
  constructor
  · rintro (hquorum | ⟨⟨d, aggregator⟩, hmem, hquorum⟩)
    · exact ⟨0, hquorum.trans (Nat.le_add_left _ _)⟩
    · rw [decide_eq_true_eq, h.votes_digest (mem_toList.mp hmem)] at hquorum
      exact ⟨d, hquorum⟩
  · rintro ⟨d, hquorum⟩
    rcases (answered answers seen (.executed d)).eq_empty_or_nonempty with hempty | ⟨a, ha⟩
    · rw [stakeOf, hempty, sum_empty, Nat.zero_add] at hquorum
      exact .inl hquorum
    · obtain ⟨aggregator, hsome⟩ := h.exists_digest ha
      refine .inr ⟨(d, aggregator), mem_toList.mpr hsome, ?_⟩
      rw [decide_eq_true_eq, h.votes_digest hsome]
      exact hquorum

/-- When everybody has answered and the loop was not left, there is little stake behind the errors. -/
theorem Undecided.errors_low (h : Undecided committee answers committee.names.toFinset acks) :
    stakeOf committee answers committee.names.toFinset .retriable + stakeOf committee answers committee.names.toFinset .nonRetriable <
      validityThreshold := by
  have htotal : acks.totalWeight = totalVotingPower := by rw [h.represents.totalWeight_eq, committee.sum_names]
  have hnonempty : committee.names.toFinset.Nonempty := by
    by_contra hempty
    have hsum := committee.sum_names
    rw [not_nonempty_iff_eq_empty.mp hempty, sum_empty] at hsum
    cases hsum
  have hnone := h.early hnonempty
  rw [earlyError, htotal, if_pos (by decide), h.represents.votes_nonRetriable, h.represents.votes_retriable] at hnone
  split at hnone
  · cases hnone
  · split at hnone
    · cases hnone
    · omega

/-- If no digest can reach a quorum, there are two. -/
theorem Represents.two_digests (h : Represents committee answers committee.names.toFinset acks)
    (hlow : stakeOf committee answers committee.names.toFinset .nonRetriable < validityThreshold)
    (hforked : ¬ acks.submissionRetriable = true) :
    ∃ a ∈ committee.names, ∃ b ∈ committee.names, ∃ d e, d ≠ e ∧
      answerKind (answers a) = .executed d ∧ answerKind (answers b) = .executed e := by
  by_contra hnone
  push Not at hnone
  -- all who answered with a digest answered with the same one
  have hone : ∃ d, acks.executedWeight ≤ stakeOf committee answers committee.names.toFinset (.executed d) := by
    rw [h.executedWeight_eq]
    by_cases hexecuted : ∃ a ∈ committee.names, (answerKind (answers a)).isExecuted = true
    · obtain ⟨a, hmem, ha⟩ := hexecuted
      refine ⟨(answerKind (answers a)).digest, Finset.sum_le_sum_of_subset ?_⟩
      intro b hb
      obtain ⟨hseen, hb⟩ := Finset.mem_filter.mp hb
      refine mem_answered.mpr ⟨hseen, AnswerKind.eq_executed.mpr ⟨hb, ?_⟩⟩
      by_contra hne
      exact hnone a hmem b (mem_toFinset.mp hseen) _ _ (Ne.symm hne) (AnswerKind.eq_executed.mpr ⟨ha, rfl⟩)
        (AnswerKind.eq_executed.mpr ⟨hb, rfl⟩)
    · refine ⟨0, ?_⟩
      rw [Finset.filter_eq_empty_iff.mpr fun a ha hexec => hexecuted ⟨a, mem_toFinset.mp ha, hexec⟩, Finset.sum_empty]
      exact Nat.zero_le _
  obtain ⟨d, hd⟩ := hone
  have htotal : acks.totalWeight = totalVotingPower := by rw [h.totalWeight_eq, committee.sum_names]
  rw [totalWeight, h.votes_reasonNotFound, h.votes_nonRetriable, h.votes_retriable] at htotal
  refine hforked (h.submissionRetriable_iff.mpr ⟨d, ?_⟩)
  unfold quorumThreshold
  unfold validityThreshold at hlow
  unfold totalVotingPower at htotal
  omega

/-- A digest with a quorum is what is returned. -/
theorem WaitResult.ok_iff {all : Finset AuthorityName} (h : WaitResult committee answers all result) (d : Types.Digest) :
    result = .ok d ↔ quorumThreshold ≤ stakeOf committee answers all (.executed d) := by
  -- the errors with which the loop is left early have so much stake that no digest has a quorum
  have herrors : stakeOf committee answers all .retriable + stakeOf committee answers all .nonRetriable +
      stakeOf committee answers all (.executed d) ≤ totalVotingPower := by
    have hsum := sum_stakeOf_le committee answers all {.retriable, .nonRetriable, .executed d}
    rw [sum_insert (by simp), sum_pair (by simp), ← Nat.add_assoc] at hsum
    exact hsum
  unfold quorumThreshold
  unfold totalVotingPower at herrors
  cases h with
  | certified d' hquorum =>
    refine ⟨fun heq => Except.ok.inj heq ▸ hquorum, fun hd => ?_⟩
    by_contra hne
    have hsum := sum_stakeOf_le committee answers all {.executed d', .executed d}
    rw [sum_pair fun heq => hne (congrArg Except.ok (AnswerKind.executed.inj heq))] at hsum
    unfold totalVotingPower at hsum
    unfold quorumThreshold at hquorum
    omega
  | rejected _ _ hseen hvalidity =>
    have hmono := stakeOf_mono committee answers .nonRetriable hseen
    unfold validityThreshold at hvalidity
    simp only [reduceCtorEq, false_iff]
    omega
  | aborted _ _ hseen _ _ hvalidity =>
    have hmono := stakeOf_mono committee answers .nonRetriable hseen
    have hmono' := stakeOf_mono committee answers .retriable hseen
    unfold validityThreshold at hvalidity
    simp only [reduceCtorEq, false_iff]
    omega
  | retriable _ hacks =>
    simp only [reduceCtorEq, false_iff]
    exact Nat.not_le.mpr (hacks.low d)
  | forked _ hacks =>
    simp only [reduceCtorEq, false_iff]
    exact Nat.not_le.mpr (hacks.low d)

/-- Whatever the validators answer and in whatever order, waiting returns: the digest with a quorum if there is one, a rejection
only with validity stake behind it, and a fork only with two digests of which none can reach a quorum. -/
theorem waitForAcknowledgments_decides (committee : Types.Committee) (answers : Answers Data) (order : List AuthorityName)
    (horder : order.Perm committee.names) :
    ∃ result, waitForAcknowledgments committee (order.map fun a => (a, answers a)) = .ok result ∧
      (∀ d, result = .ok d ↔ quorumThreshold ≤ stakeOf committee answers committee.names.toFinset (.executed d)) ∧
      (∀ nonRetriable retriable, result = .error (.rejectedByValidators nonRetriable retriable) →
        validityThreshold ≤ stakeOf committee answers committee.names.toFinset .nonRetriable) ∧
      (∀ observed nonRetriable retriable, result = .error (.forkedExecution observed nonRetriable retriable) →
        (∃ a ∈ committee.names, ∃ b ∈ committee.names, ∃ d e, d ≠ e ∧
          answerKind (answers a) = .executed d ∧ answerKind (answers b) = .executed e) ∧
        ∀ d, stakeOf committee answers committee.names.toFinset (.executed d) +
          (stakeOf committee answers committee.names.toFinset .retriable +
            stakeOf committee answers committee.names.toFinset .reasonNotFound) < quorumThreshold) := by
  obtain ⟨result, hresult, hcase⟩ := waitForAcknowledgments_result answers horder
  refine ⟨result, hresult, hcase.ok_iff, ?_, ?_⟩
  · rintro nonRetriable retriable rfl
    cases hcase with
    | rejected _ _ hseen hvalidity => exact hvalidity.trans (stakeOf_mono _ _ _ hseen)
  · rintro observed nonRetriable retriable rfl
    cases hcase with
    | forked _ hacks hforked =>
      refine ⟨hacks.represents.two_digests (Nat.lt_of_le_of_lt (Nat.le_add_left _ _) hacks.errors_low) hforked, ?_⟩
      intro d
      by_contra hquorum
      exact hforked (hacks.represents.submissionRetriable_iff.mpr ⟨d, Nat.le_of_not_lt hquorum⟩)

/-! ## Giving up -/

variable (committee answers result) in
/-- The error is given up on only if validity stake answered with errors that are not retriable or no digest can reach a quorum, and
`Aborted` is never given up on. -/
def FailsForGoodRightly : Prop :=
  ∀ e, result = .error e → (e.isSubmissionRetriable = false →
      validityThreshold ≤ stakeOf committee answers committee.names.toFinset .nonRetriable ∨
        ∃ observed nonRetriable retriable, e = .forkedExecution observed nonRetriable retriable) ∧
    ∀ nonRetriable retriable observed, e = .aborted nonRetriable retriable observed → e.isSubmissionRetriable = true

theorem failsForGoodRightly_of_retriable {e : TransactionDriverError} (h : e.isSubmissionRetriable = true) :
    FailsForGoodRightly committee answers (.error e) := by
  rintro e' ⟨⟩
  exact ⟨fun hfalse => absurd (h.symm.trans hfalse) (by simp), fun _ _ _ _ => h⟩

/-- No answer is a retriable error and some, with less than validity stake, are errors that are not; and the rejections without a
reason are what keeps a quorum possible. -/
structure OnlyNonRetriable (committee : Types.Committee) (answers : Answers Data) : Prop where
  retriable : answered answers committee.names.toFinset .retriable = ∅
  nonRetriable : (answered answers committee.names.toFinset .nonRetriable).Nonempty
  minority : stakeOf committee answers committee.names.toFinset .nonRetriable < validityThreshold
  low : ∀ d, stakeOf committee answers committee.names.toFinset (.executed d) < quorumThreshold
  possible : ∃ d, quorumThreshold ≤ stakeOf committee answers committee.names.toFinset (.executed d) +
    stakeOf committee answers committee.names.toFinset .reasonNotFound

section Errors

variable {errors : List (AuthorityName × Nat × TransactionRequestError)}

theorem addRequestError_ne_empty {m : BTreeMap String (List AuthorityName × Nat × ErrorCategory)}
    {e : AuthorityName × Nat × TransactionRequestError} : addRequestError m e ≠ ∅ := by
  intro hempty
  have hget := eq_empty_iff.mp hempty e.2.2.format
  simp [addRequestError] at hget

theorem mem_aggregateRequestErrors {retriable : Bool} (h : ∀ e ∈ errors, e.2.2.isSubmissionRetriable = retriable) :
    ∀ entry ∈ (aggregateRequestErrors errors).errors, entry.2.2.2.isSubmissionRetriable = retriable := by
  have hfold : ∀ (key : String) value, (errors.foldl addRequestError ∅)[key]? = some value →
      value.2.2.isSubmissionRetriable = retriable := by
    refine foldlRecOn (motive := fun m => ∀ (key : String) value, m[key]? = some value →
      value.2.2.isSubmissionRetriable = retriable) errors addRequestError ?_ ?_
    · intro key value hget
      rw [get_empty] at hget
      cases hget
    · intro m hm e he
      refine forall_insert hm ?_
      cases hold : m[e.2.2.format]? with
      | none => exact h e he
      | some old => exact hm _ old hold
  intro entry hentry
  exact hfold _ _ (mem_toList.mp (mem_mergeSort.mp hentry))

theorem aggregateRequestErrors_eq_nil : (aggregateRequestErrors errors).errors = [] ↔ errors = [] := by
  rw [aggregateRequestErrors, ← length_eq_zero_iff, length_mergeSort, length_eq_zero_iff, Std.ExtTreeMap.toList_eq_nil_iff]
  constructor
  · intro hempty
    cases errors with
    | nil => rfl
    | cons e rest =>
      have hfold : (e :: rest).foldl addRequestError ∅ ≠ ∅ := by
        refine foldlRecOn (motive := fun m => m ≠ ∅) rest addRequestError ?_ fun m _ e' _ => ?_
        · exact addRequestError_ne_empty
        · exact addRequestError_ne_empty
      exact absurd hempty hfold
  · rintro rfl
    rfl

end Errors

/-- `Aborted` is retriable if there is a retriable error, or no error at all. -/
theorem Represents.aborted_retriable (h : Represents committee answers seen acks) :
    (aborted acks.nonRetriableErrors acks.retriableErrors acks.observedEffectsDigests).isSubmissionRetriable = true ↔
      (answered answers seen .retriable).Nonempty ∨ answered answers seen .nonRetriable = ∅ := by
  have hretriable := (h .retriable).1.statusByAuthority_eq_nil
  have hnonRetriable := (h .nonRetriable).1.statusByAuthority_eq_nil
  rw [← aggregateRequestErrors_eq_nil] at hretriable hnonRetriable
  have hcategory : ∀ entry ∈ acks.retriableErrors.errors, entry.2.2.2.isSubmissionRetriable = true :=
    mem_aggregateRequestErrors fun e he => (h .retriable).2 _ _ (StatusAggregator.mem_statusByAuthority he)
  have hcategory' : ∀ entry ∈ acks.nonRetriableErrors.errors, entry.2.2.2.isSubmissionRetriable = false :=
    mem_aggregateRequestErrors fun e he => (h .nonRetriable).2 _ _ (StatusAggregator.mem_statusByAuthority he)
  rw [nonempty_iff_ne_empty, ne_eq, ← hretriable, ← hnonRetriable, isSubmissionRetriable, categorize, firstCategory]
  change _ ↔ ¬ acks.retriableErrors.errors = [] ∨ acks.nonRetriableErrors.errors = []
  cases hr : acks.retriableErrors.errors with
  | cons entry => simpa using hcategory entry (by simp [hr])
  | nil =>
    cases hn : acks.nonRetriableErrors.errors with
    | cons entry => simpa using hcategory' entry (by simp [hn])
    | nil => simp [ErrorCategory.isSubmissionRetriable]

/-- The driver gives up rightly unless nobody answered with a retriable error, somebody with less than validity stake with one
that is not, and rejections without a reason keep a quorum possible. -/
theorem failsForGoodRightly_iff (committee : Types.Committee) (answers : Answers Data) (order : List AuthorityName)
    (horder : order.Perm committee.names) :
    ∃ result, waitForAcknowledgments committee (order.map fun a => (a, answers a)) = .ok result ∧
      (FailsForGoodRightly committee answers result ↔ ¬ OnlyNonRetriable committee answers) := by
  obtain ⟨result, hresult, hcase⟩ := waitForAcknowledgments_result answers horder
  refine ⟨result, hresult, ?_⟩
  cases hcase with
  | certified d hquorum =>
    refine iff_of_true ?_ fun hbad => absurd hquorum (Nat.not_le.mpr (hbad.low d))
    rintro e ⟨⟩
  | rejected _ _ hseen hvalidity =>
    have hall := hvalidity.trans (stakeOf_mono committee answers _ hseen)
    refine iff_of_true ?_ fun hbad => absurd hall (Nat.not_le.mpr hbad.minority)
    rintro e ⟨⟩
    exact ⟨fun _ => .inl hall, by simp⟩
  | aborted seen _ hseen hacks hlow hvalidity =>
    have hnonempty : (answered answers seen .retriable).Nonempty := by
      by_contra hempty
      rw [stakeOf, not_nonempty_iff_eq_empty.mp hempty, sum_empty, Nat.zero_add] at hvalidity
      exact absurd hvalidity (Nat.not_le.mpr hlow)
    refine iff_of_true ?_ fun hbad => ?_
    · exact failsForGoodRightly_of_retriable (hacks.aborted_retriable.mpr (.inl hnonempty))
    · exact (hnonempty.mono (answered_mono hseen)).ne_empty hbad.retriable
  | retriable _ hacks hretriable =>
    have hlow := Nat.lt_of_le_of_lt (Nat.le_add_left _ _) hacks.errors_low
    constructor
    · intro hrightly hbad
      have hfalse := hacks.represents.aborted_retriable.not.mpr
        (not_or.mpr ⟨not_nonempty_iff_eq_empty.mpr hbad.retriable, hbad.nonRetriable.ne_empty⟩)
      exact hfalse ((hrightly _ rfl).2 _ _ _ rfl)
    · intro hgood
      refine failsForGoodRightly_of_retriable (hacks.represents.aborted_retriable.mpr ?_)
      by_contra hbad
      rw [not_or, not_nonempty_iff_eq_empty, ← ne_eq, ← nonempty_iff_ne_empty] at hbad
      obtain ⟨d, hd⟩ := hacks.represents.submissionRetriable_iff.mp hretriable
      have hzero : stakeOf committee answers committee.names.toFinset .retriable = 0 := by rw [stakeOf, hbad.1, sum_empty]
      exact hgood ⟨hbad.1, hbad.2, hlow, hacks.low, d, by rwa [hzero, Nat.zero_add] at hd⟩
  | forked _ hacks hforked =>
    refine iff_of_true ?_ fun hbad => ?_
    · rintro e ⟨⟩
      exact ⟨fun _ => .inr ⟨_, _, _, rfl⟩, by simp⟩
    · obtain ⟨d, hd⟩ := hbad.possible
      exact hforked (hacks.represents.submissionRetriable_iff.mpr ⟨d, hd.trans (Nat.add_le_add_left (Nat.le_add_left _ _) _)⟩)

/-! ## Three validators -/

def threeValidators : Types.Committee := ⟨⟨0, [(1, 3000), (2, 3500), (3, 3500)], by decide⟩, by decide⟩

/-- A validator rejects the transaction, the others have forgotten why they rejected it. -/
def forgottenReasons : Answers Unit
  | 1 => .ok (.rejected (some ⟨.lockConflict, "conflict", none⟩))
  | _ => .ok (.rejected none)

/-- One validator has forgotten the reason, one has seen the status expire. -/
def lateAnswers : Answers Unit
  | 3 => .ok (.expired 0 none)
  | a => forgottenReasons a

/-- Two validators have executed the transaction. -/
def executedByTwo : Answers Unit
  | 1 => forgottenReasons 1
  | _ => .ok (.executed 7 none)

theorem executedByTwo_certified :
    ∃ result, waitForAcknowledgments threeValidators ([3, 1, 2].map fun a => (a, executedByTwo a)) = .ok result ∧ result = .ok 7 := by
  obtain ⟨result, hresult, hok, -⟩ := waitForAcknowledgments_decides threeValidators executedByTwo [3, 1, 2] (by decide)
  exact ⟨result, hresult, (hok 7).mpr (by decide +kernel)⟩

theorem lateAnswers_failsForGoodRightly :
    ∃ result, waitForAcknowledgments threeValidators ([1, 2, 3].map fun a => (a, lateAnswers a)) = .ok result ∧
      FailsForGoodRightly threeValidators lateAnswers result := by
  obtain ⟨result, hresult, hiff⟩ := failsForGoodRightly_iff threeValidators lateAnswers [1, 2, 3] (by decide)
  refine ⟨result, hresult, hiff.mpr fun hbad => ?_⟩
  exact absurd hbad.retriable (by decide +kernel)

/-- The driver gives up because of one validator with less than validity stake. -/
theorem minority_fails_for_good : ∃ nonRetriable retriable observed,
      waitForAcknowledgments threeValidators ([1, 2, 3].map fun a => (a, forgottenReasons a)) =
        .ok (.error (.aborted nonRetriable retriable observed)) ∧
      stakeOf threeValidators forgottenReasons threeValidators.names.toFinset .nonRetriable = 3000 ∧
      driveTransaction [.error (.aborted nonRetriable retriable observed), .ok ()] =
        some (.error (.aborted nonRetriable retriable observed)) := by
  refine ⟨⟨[("conflict", [1], 3000, .lockConflict)], 3000⟩, ⟨[], 0⟩, ⟨[]⟩, ?_, ?_, ?_⟩
  · decide +kernel
  · decide +kernel
  · decide +kernel

end Sui.TransactionDriver

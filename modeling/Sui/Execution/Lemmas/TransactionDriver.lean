import Sui.Execution.TransactionDriver
import Sui.Types.Lemmas.Crypto

/-!
# What the aggregators hold

The aggregators hold the authorities that have answered, by the kind of their answer, with the stake of each kind. From this, all the
ways in which waiting for acknowledgments ends.
-/

namespace Sui.TransactionDriver

open Library BTreeMap List Acknowledgments StatusAggregator
open Sui.Types (AuthorityName totalVotingPower quorumThreshold validityThreshold)

/-! ## Kinds of answers -/

/-- What the aggregation makes of an answer. -/
inductive AnswerKind where
  | executed (effectsDigest : Types.Digest)
  | nonRetriable
  | retriable
  | reasonNotFound
deriving DecidableEq, Repr

def AnswerKind.ofError (category : ErrorCategory) : AnswerKind :=
  if category.isSubmissionRetriable then .retriable else .nonRetriable

variable {Data : Type}

/-- An answer of every validator. -/
abbrev Answers (Data : Type) := AuthorityName → Except SuiError (WaitForEffectsResponse Data)

def answerKind : Except SuiError (WaitForEffectsResponse Data) → AnswerKind
  | .ok (.executed effectsDigest _) => .executed effectsDigest
  | .ok (.rejected (some e)) => .ofError e.category
  | .ok (.rejected none) => .reasonNotFound
  | .ok (.expired _ _) => .retriable
  | .error e => .ofError e.category

/-- The digest of an answer, or 0. -/
def AnswerKind.digest : AnswerKind → Types.Digest
  | .executed effectsDigest => effectsDigest
  | _ => 0

def AnswerKind.isExecuted : AnswerKind → Bool
  | .executed _ => true
  | _ => false

variable {d : Types.Digest}

theorem AnswerKind.eq_executed {kind : AnswerKind} : kind = .executed d ↔ kind.isExecuted = true ∧ kind.digest = d := by
  cases kind <;> simp [isExecuted, digest]

theorem AnswerKind.ofError_ne_executed {category : ErrorCategory} : ofError category ≠ .executed d := by
  unfold ofError
  split <;> exact nofun

section

variable (committee : Types.Committee) (answers : Answers Data)

def answered (seen : Finset AuthorityName) (kind : AnswerKind) : Finset AuthorityName :=
  seen.filter fun a => answerKind (answers a) = kind

/-- The stake behind the answers of a kind. -/
def stakeOf (seen : Finset AuthorityName) (kind : AnswerKind) : Nat := ∑ a ∈ answered answers seen kind, committee.weight a

end

variable {committee : Types.Committee} {answers : Answers Data}
  {seen : Finset AuthorityName} {name : AuthorityName} {kind : AnswerKind}

variable {a : AuthorityName}

theorem mem_answered : a ∈ answered answers seen kind ↔ a ∈ seen ∧ answerKind (answers a) = kind :=
  Finset.mem_filter

variable {seen' : Finset AuthorityName}

theorem answered_mono (h : seen ⊆ seen') : answered answers seen kind ⊆ answered answers seen' kind :=
  Finset.filter_subset_filter _ h

variable (committee answers kind) in
theorem stakeOf_mono (h : seen ⊆ seen') : stakeOf committee answers seen kind ≤ stakeOf committee answers seen' kind :=
  Finset.sum_le_sum_of_subset (answered_mono h)

theorem answered_insert_of_ne (h : answerKind (answers name) ≠ kind) :
    answered answers (insert name seen) kind = answered answers seen kind := by
  rw [answered, Finset.filter_insert, if_neg h]
  rfl

/-! ## One aggregator -/

/-- The aggregator holds the authorities of a set, with their stake. -/
structure StatusAggregator.Collects {T : Type} (aggregator : StatusAggregator T) (committee : Types.Committee)
    (s : Finset AuthorityName) : Prop where
  committee_eq : aggregator.committee = committee
  keys : keySet aggregator.statuses = s
  votes : aggregator.totalVotes = ∑ a ∈ s, committee.weight a

namespace StatusAggregator

variable {T : Type} {self : StatusAggregator T} {s : Finset AuthorityName}

theorem Collects.new : (StatusAggregator.new committee : StatusAggregator T).Collects committee ∅ := by
  refine ⟨rfl, ?_, rfl⟩
  ext a
  simp [StatusAggregator.new]

theorem stakeByIndex_eq_weight {index : Nat} (h : committee.authorityIndex name = some index) :
    stakeByIndex committee index = some (committee.weight name) := by
  have hname := committee.authorityIndex_eq_some.mp h
  rw [Types.EpochCommittee.authorityByIndex, Types.EpochCommittee.names, List.getElem?_map, Option.map_eq_some_iff] at hname
  obtain ⟨⟨a, w⟩, hget, rfl⟩ := hname
  rw [stakeByIndex, hget, Option.map_some, committee.weight_of_mem (mem_of_getElem? hget)]

theorem Collects.insert (h : self.Collects committee s) (hname : name ∈ committee.names) (hnew : name ∉ s) (status : T) :
    (self.insert name status).Collects committee (Insert.insert name s) := by
  obtain ⟨index, hindex⟩ := Option.isSome_iff_exists.mp (committee.authorityIndex_isSome.mpr hname)
  have hstatus : ¬ self.statuses[name]?.isSome = true := by
    rw [← mem_keySet, h.keys]
    exact hnew
  have hinsert : self.insert name status = ⟨self.committee, self.totalVotes + committee.weight name, self.statuses.insert name status⟩ := by
    simp only [StatusAggregator.insert, h.committee_eq, hindex, if_neg hstatus, stakeByIndex_eq_weight hindex, Option.getD_some]
  rw [hinsert]
  refine ⟨h.committee_eq, ?_, ?_⟩
  · rw [keySet_insert, h.keys]
  · rw [Finset.sum_insert hnew, h.votes, Nat.add_comm]

/-- What is found in an aggregator after an insertion. -/
theorem mem_statuses_insert {status status' : T} (h : (self.insert name status).statuses[a]? = some status') :
    status' = status ∨ self.statuses[a]? = some status' := by
  have hget : (self.statuses.insert name status)[a]? = some status' → status' = status ∨ self.statuses[a]? = some status' := by
    rw [get_insert]
    split
    · intro heq
      exact .inl (Option.some.inj heq).symm
    · exact .inr
  unfold insert at h
  split at h
  · exact .inr h
  · split at h
    · exact hget h
    · exact hget h

theorem mem_statusByAuthority {entry : AuthorityName × Nat × T} (h : entry ∈ self.statusByAuthority) :
    self.statuses[entry.1]? = some entry.2.2 := by
  obtain ⟨e, he, rfl⟩ := mem_map.mp h
  exact mem_toList.mp he

theorem Collects.statusByAuthority_eq_nil (h : self.Collects committee s) : self.statusByAuthority = [] ↔ s = ∅ := by
  rw [statusByAuthority, map_eq_nil_iff, ← h.keys, Std.ExtTreeMap.toList_eq_nil_iff, eq_empty_iff,
    Finset.eq_empty_iff_forall_notMem]
  simp

end StatusAggregator

/-! ## All aggregators -/

/-- The aggregator of a kind of answers holds the authorities of a set, each with an error of this kind. -/
def Acknowledgments.Collects (acks : Acknowledgments) (committee : Types.Committee) (s : Finset AuthorityName) : AnswerKind → Prop
  | .executed d => (acks.effectsDigestAggregators[d]?.getD (.new committee)).Collects committee s
  | .nonRetriable =>
    acks.nonRetriableErrorsAggregator.Collects committee s ∧
      ∀ (a : AuthorityName) (e : TransactionRequestError), acks.nonRetriableErrorsAggregator.statuses[a]? = some e → e.isSubmissionRetriable = false
  | .retriable =>
    acks.retriableErrorsAggregator.Collects committee s ∧
      ∀ (a : AuthorityName) (e : TransactionRequestError), acks.retriableErrorsAggregator.statuses[a]? = some e → e.isSubmissionRetriable = true
  | .reasonNotFound => acks.reasonNotFoundAggregator.Collects committee s

variable (committee answers seen) in
/-- The aggregators hold the authorities that have answered. -/
def Represents (acks : Acknowledgments) : Prop :=
  ∀ kind, acks.Collects committee (answered answers seen kind) kind

variable {acks : Acknowledgments}

theorem Represents.new : Represents committee answers ∅ (.new committee) := by
  intro kind
  rw [answered, Finset.filter_empty]
  have hstatuses : ∀ (a : AuthorityName) (e : TransactionRequestError),
      (StatusAggregator.new committee).statuses[a]? ≠ some e := by simp [StatusAggregator.new]
  cases kind with
  | executed => exact StatusAggregator.Collects.new
  | nonRetriable => exact ⟨StatusAggregator.Collects.new, fun a e h => absurd h (hstatuses a e)⟩
  | retriable => exact ⟨StatusAggregator.Collects.new, fun a e h => absurd h (hstatuses a e)⟩
  | reasonNotFound => exact StatusAggregator.Collects.new

section Step

variable {s : Finset AuthorityName} (hname : name ∈ committee.names) (hnew : name ∉ s)

variable {response : Except SuiError (WaitForEffectsResponse Data)}

/-- A response changes the aggregator of its own kind only. -/
theorem Acknowledgments.Collects.record_of_ne (hkind : answerKind response ≠ kind) (h : acks.Collects committee s kind) :
    (acks.record committee name response).Collects committee s kind := by
  have herror : ∀ e : TransactionRequestError, .ofError e.categorize ≠ kind → (acks.addError name e).Collects committee s kind := by
    intro e hne
    unfold AnswerKind.ofError at hne
    unfold addError TransactionRequestError.isSubmissionRetriable
    split at hne <;> rename_i hcase
    · rw [if_pos hcase]
      cases kind <;> first | exact h | exact absurd rfl hne
    · rw [if_neg hcase]
      cases kind <;> first | exact h | exact absurd rfl hne
  rcases response with e | (⟨d, details⟩ | (_ | e) | ⟨epoch, round⟩)
  · exact herror (.aborted e) hkind
  · cases kind with
    | executed d' =>
      have hne : d ≠ d' := fun heq => hkind (congrArg _ heq)
      simp only [record, Acknowledgments.Collects, get_insert, if_neg hne]
      exact h
    | nonRetriable => exact h
    | retriable => exact h
    | reasonNotFound => exact h
  · cases kind <;> first | exact h | exact absurd rfl hkind
  · exact herror (.rejectedAtValidator e) hkind
  · cases kind <;> first | exact h | exact absurd rfl hkind

include hname hnew

/-- An error goes to the authorities with an error of its kind. -/
theorem Acknowledgments.Collects.addError (e : TransactionRequestError) (h : acks.Collects committee s (.ofError e.categorize)) :
    (acks.addError name e).Collects committee (insert name s) (.ofError e.categorize) := by
  unfold AnswerKind.ofError at h ⊢
  unfold Acknowledgments.addError TransactionRequestError.isSubmissionRetriable
  split at h <;> rename_i hcase
  · rw [if_pos hcase, if_pos hcase]
    refine ⟨h.1.insert hname hnew e, ?_⟩
    intro a e' hget
    rcases mem_statuses_insert hget with rfl | hget
    · exact hcase
    · exact h.2 a e' hget
  · rw [if_neg hcase, if_neg hcase]
    refine ⟨h.1.insert hname hnew e, ?_⟩
    intro a e' hget
    rcases mem_statuses_insert hget with rfl | hget
    · exact Bool.eq_false_iff.mpr hcase
    · exact h.2 a e' hget

/-- A response goes to the authorities with a response of its kind. -/
theorem Acknowledgments.Collects.record (h : acks.Collects committee s (answerKind response)) :
    (acks.record committee name response).Collects committee (insert name s) (answerKind response) := by
  rcases response with e | (⟨d, details⟩ | (_ | e) | ⟨epoch, round⟩)
  · exact Acknowledgments.Collects.addError hname hnew (.aborted e) h
  · simp only [answerKind, record, Acknowledgments.Collects, get_insert, if_true, Option.getD_some]
    exact StatusAggregator.Collects.insert h hname hnew ()
  · exact StatusAggregator.Collects.insert h hname hnew ()
  · exact Acknowledgments.Collects.addError hname hnew (.rejectedAtValidator e) h
  · exact Acknowledgments.Collects.addError hname hnew (.statusExpired epoch (round.getD 0)) h

end Step

/-- The step of the loop: the aggregators hold the next authority too. -/
theorem Represents.record (h : Represents committee answers seen acks) (hname : name ∈ committee.names) (hnew : name ∉ seen) :
    Represents committee answers (insert name seen) (acks.record committee name (answers name)) := by
  intro kind
  by_cases hkind : answerKind (answers name) = kind
  · subst hkind
    rw [answered, Finset.filter_insert, if_pos rfl, ← answered]
    exact (h _).record hname fun hmem => hnew (mem_answered.mp hmem).1
  · rw [answered_insert_of_ne hkind]
    exact (h kind).record_of_ne hkind

/-! ## Stake -/

section Stake

variable (h : Represents committee answers seen acks)

include h

theorem Represents.votes_digest {aggregator : StatusAggregator Unit}
    (hget : acks.effectsDigestAggregators[d]? = some aggregator) :
    aggregator.totalVotes = stakeOf committee answers seen (.executed d) := by
  have hcollects := h (.executed d)
  rw [Acknowledgments.Collects, hget, Option.getD_some] at hcollects
  exact hcollects.votes

/-- There is an aggregator for every digest that was answered. -/
theorem Represents.exists_digest (ha : a ∈ answered answers seen (.executed d)) :
    ∃ aggregator, acks.effectsDigestAggregators[d]? = some aggregator := by
  cases hget : acks.effectsDigestAggregators[d]? with
  | some aggregator => exact ⟨aggregator, rfl⟩
  | none =>
    have hcollects := h (.executed d)
    rw [Acknowledgments.Collects, hget, Option.getD_none] at hcollects
    rw [← hcollects.keys, StatusAggregator.Collects.new.keys] at ha
    exact absurd ha (Finset.notMem_empty a)

theorem Represents.executedWeight_eq :
    acks.executedWeight = ∑ a ∈ seen.filter fun a => (answerKind (answers a)).isExecuted = true, committee.weight a := by
  have hvotes : acks.effectsDigestAggregators.toList.map (·.2.totalVotes) =
      (acks.effectsDigestAggregators.toList.map Prod.fst).map fun d => stakeOf committee answers seen (.executed d) := by
    rw [map_map]
    refine map_congr_left ?_
    rintro ⟨d, aggregator⟩ hmem
    exact h.votes_digest (mem_toList.mp hmem)
  have hkeys : ∀ a ∈ seen.filter fun a => (answerKind (answers a)).isExecuted = true,
      (answerKind (answers a)).digest ∈ (acks.effectsDigestAggregators.toList.map Prod.fst).toFinset := by
    intro a ha
    obtain ⟨hseen, hexecuted⟩ := Finset.mem_filter.mp ha
    obtain ⟨aggregator, hget⟩ := h.exists_digest (mem_answered.mpr ⟨hseen, AnswerKind.eq_executed.mpr ⟨hexecuted, rfl⟩⟩)
    exact mem_toFinset.mpr (mem_map.mpr ⟨_, mem_toList.mpr hget, rfl⟩)
  rw [executedWeight, hvotes, ← sum_toFinset _ (nodup_toList _), ← Finset.sum_fiberwise_of_maps_to hkeys]
  refine Finset.sum_congr rfl ?_
  intro d _
  refine Finset.sum_congr ?_ fun _ _ => rfl
  ext a
  rw [mem_answered, Finset.mem_filter, Finset.mem_filter, AnswerKind.eq_executed, and_assoc]

theorem Represents.votes_nonRetriable : acks.nonRetriableErrorsAggregator.totalVotes = stakeOf committee answers seen .nonRetriable :=
  (h .nonRetriable).1.votes

theorem Represents.votes_retriable : acks.retriableErrorsAggregator.totalVotes = stakeOf committee answers seen .retriable :=
  (h .retriable).1.votes

theorem Represents.votes_reasonNotFound : acks.reasonNotFoundAggregator.totalVotes = stakeOf committee answers seen .reasonNotFound :=
  StatusAggregator.Collects.votes (h .reasonNotFound)

/-- The weight of all answers is the stake of those who have answered. -/
theorem Represents.totalWeight_eq : acks.totalWeight = ∑ a ∈ seen, committee.weight a := by
  rw [totalWeight, h.executedWeight_eq, h.votes_reasonNotFound, h.votes_nonRetriable, h.votes_retriable]
  simp only [stakeOf, answered, Finset.sum_filter, ← Finset.sum_add_distrib]
  refine Finset.sum_congr rfl ?_
  intro a _
  cases answerKind (answers a) <;> simp [AnswerKind.isExecuted]

theorem Represents.totalWeight_le : acks.totalWeight ≤ totalVotingPower := by
  rw [h.totalWeight_eq]
  exact committee.sum_weight_le seen

/-- A digest is certified if its stake has reached a quorum. -/
theorem Represents.certified_eq (hname : name ∈ seen) :
    acks.certified (answers name) = none ∧ (∀ d, answerKind (answers name) = .executed d →
      stakeOf committee answers seen (.executed d) < quorumThreshold) ∨
    ∃ d, acks.certified (answers name) = some d ∧ quorumThreshold ≤ stakeOf committee answers seen (.executed d) := by
  rcases hanswer : answers name with e | (⟨d, details⟩ | (_ | e) | ⟨epoch, round⟩)
  · exact .inl ⟨rfl, fun d hd => absurd hd AnswerKind.ofError_ne_executed⟩
  · have hmem : name ∈ answered answers seen (.executed d) := mem_answered.mpr ⟨hname, by rw [hanswer]; rfl⟩
    obtain ⟨aggregator, hget⟩ := h.exists_digest hmem
    simp only [certified, hget, Option.filter_some, reachedQuorumThreshold, h.votes_digest hget,
      answerKind, AnswerKind.executed.injEq, forall_eq']
    by_cases hquorum : quorumThreshold ≤ stakeOf committee answers seen (.executed d)
    · exact .inr ⟨d, by simp [hquorum], hquorum⟩
    · exact .inl ⟨by simp [hquorum], Nat.lt_of_not_le hquorum⟩
  · exact .inl ⟨rfl, by simp [answerKind]⟩
  · exact .inl ⟨rfl, fun d hd => absurd hd AnswerKind.ofError_ne_executed⟩
  · exact .inl ⟨rfl, by simp [answerKind]⟩

end Stake

/-! ## The loop -/

variable (committee answers seen acks) in
/-- The authorities that have answered decide nothing. -/
structure Undecided : Prop where
  represents : Represents committee answers seen acks
  low : ∀ d, stakeOf committee answers seen (.executed d) < quorumThreshold
  early : seen.Nonempty → acks.earlyError (totalVotingPower - acks.totalWeight) = none

variable (committee answers) in
/-- How waiting for the answers of `all` ends. -/
inductive WaitResult (all : Finset AuthorityName) : Except TransactionDriverError Types.Digest → Prop
  | certified (d : Types.Digest) (hquorum : quorumThreshold ≤ stakeOf committee answers all (.executed d)) :
      WaitResult all (.ok d)
  | rejected (seen : Finset AuthorityName) (acks : Acknowledgments) (hseen : seen ⊆ all)
      (hvalidity : validityThreshold ≤ stakeOf committee answers seen .nonRetriable) :
      WaitResult all (.error (.rejectedByValidators acks.nonRetriableErrors acks.retriableErrors))
  | aborted (seen : Finset AuthorityName) (acks : Acknowledgments) (hseen : seen ⊆ all)
      (hacks : Represents committee answers seen acks)
      (hlow : stakeOf committee answers seen .nonRetriable < validityThreshold)
      (hvalidity : validityThreshold ≤
        stakeOf committee answers seen .retriable + stakeOf committee answers seen .nonRetriable) :
      WaitResult all (.error (.aborted acks.nonRetriableErrors acks.retriableErrors acks.observedEffectsDigests))
  | retriable (acks : Acknowledgments) (hacks : Undecided committee answers all acks) (hretriable : acks.submissionRetriable = true) :
      WaitResult all (.error (.aborted acks.nonRetriableErrors acks.retriableErrors acks.observedEffectsDigests))
  | forked (acks : Acknowledgments) (hacks : Undecided committee answers all acks) (hforked : ¬ acks.submissionRetriable = true) :
      WaitResult all (.error (.forkedExecution acks.observedEffectsDigests acks.nonRetriableErrors acks.retriableErrors))

/-- The error after the loop. -/
theorem Undecided.finalError (h : Undecided committee answers seen acks) : WaitResult committee answers seen (.error acks.finalError) := by
  unfold Acknowledgments.finalError
  split
  · exact .retriable acks h ‹_›
  · exact .forked acks h ‹_›

/-- The error with which the loop is left early. -/
theorem Represents.earlyError_some {all : Finset AuthorityName} (h : Represents committee answers seen acks) (hseen : seen ⊆ all)
    {e : TransactionDriverError} (he : acks.earlyError (totalVotingPower - acks.totalWeight) = some e) :
    WaitResult committee answers all (.error e) := by
  unfold earlyError at he
  split at he
  · split at he
    · rename_i hvalidity
      cases he
      exact .rejected seen acks hseen (h.votes_nonRetriable ▸ hvalidity)
    · rename_i hlow
      split at he
      · rename_i hcase
        cases he
        refine .aborted seen acks hseen h (h.votes_nonRetriable ▸ Nat.lt_of_not_le hlow) ?_
        rw [← h.votes_retriable, ← h.votes_nonRetriable]
        exact hcase.2
      · cases he
  · cases he

/-- The run lemma: the loop returns, in one of these ways. -/
theorem awaitResponses_result {rest : List AuthorityName} (h : Undecided committee answers seen acks)
    (hnodup : rest.Nodup) (hrest : ∀ a ∈ rest, a ∈ committee.names ∧ a ∉ seen) :
    ∃ result, awaitResponses committee (rest.map fun a => (a, answers a)) acks = .ok result ∧
      WaitResult committee answers (seen ∪ rest.toFinset) result := by
  induction rest generalizing seen acks with
  | nil =>
    refine ⟨_, rfl, ?_⟩
    rw [toFinset_nil, Finset.union_empty]
    exact h.finalError
  | cons name rest ih =>
    obtain ⟨hname, hnew⟩ := hrest name mem_cons_self
    have hall : seen ∪ (name :: rest).toFinset = insert name seen ∪ rest.toFinset := by
      rw [toFinset_cons, Finset.union_insert, Finset.insert_union]
    have hnext := h.represents.record hname hnew
    rw [map_cons, awaitResponses, hall]
    rcases hnext.certified_eq (Finset.mem_insert_self name seen) with ⟨hnone, hlow'⟩ | ⟨d, hsome, hquorum⟩
    · have hlowNext : ∀ d, stakeOf committee answers (insert name seen) (.executed d) < quorumThreshold := by
        intro d
        by_cases hkind : answerKind (answers name) = .executed d
        · exact hlow' d hkind
        · rw [stakeOf, answered_insert_of_ne hkind]
          exact h.low d
      simp only [hnone, Word.sub_eq hnext.totalWeight_le, Checked.ok_bind]
      cases hcase : (acks.record committee name (answers name)).earlyError
          (totalVotingPower - (acks.record committee name (answers name)).totalWeight) with
      | some e => exact ⟨_, rfl, hnext.earlyError_some Finset.subset_union_left hcase⟩
      | none =>
        refine ih ⟨hnext, hlowNext, fun _ => hcase⟩ (nodup_cons.mp hnodup).2 ?_
        intro a ha
        refine ⟨(hrest a (mem_cons_of_mem _ ha)).1, ?_⟩
        rw [Finset.mem_insert, not_or]
        refine ⟨?_, (hrest a (mem_cons_of_mem _ ha)).2⟩
        rintro rfl
        exact (nodup_cons.mp hnodup).1 ha
    · simp only [hsome]
      exact ⟨_, rfl, .certified d (hquorum.trans (stakeOf_mono _ _ _ Finset.subset_union_left))⟩

variable (answers) in
/-- Waiting returns, whatever the order in which the validators answer. -/
theorem waitForAcknowledgments_result {order : List AuthorityName} (horder : order.Perm committee.names) :
    ∃ result, waitForAcknowledgments committee (order.map fun a => (a, answers a)) = .ok result ∧
      WaitResult committee answers committee.names.toFinset result := by
  have hlow : ∀ d, stakeOf committee answers ∅ (.executed d) < quorumThreshold := by
    intro d
    rw [stakeOf, answered, Finset.filter_empty, Finset.sum_empty]
    decide
  obtain ⟨result, hresult, hcase⟩ := awaitResponses_result ⟨Represents.new, hlow, by simp⟩
    (horder.nodup_iff.mpr committee.nodup_names) (fun a ha => ⟨horder.mem_iff.mp ha, Finset.notMem_empty a⟩)
  rw [Finset.empty_union, toFinset_eq_of_perm _ _ horder] at hcase
  exact ⟨result, hresult, hcase⟩

end Sui.TransactionDriver

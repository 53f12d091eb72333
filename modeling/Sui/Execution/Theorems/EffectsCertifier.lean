import Sui.Execution.EffectsCertifier
import Sui.Execution.Theorems.TransactionDriver

/-!
# Which effects a client gets

The digest is certified by a quorum; the effects that come with it are those of this digest only if their sender says so truly.
-/

namespace Sui.TransactionDriver

open Library Checked
open Sui.Types (AuthorityName quorumThreshold validityThreshold)

/-- The events and objects that are returned match the effects. -/
structure QuorumTransactionResponse.Matches (digests : Digests) (response : QuorumTransactionResponse) : Prop where
  events : ∀ events, response.events = some events →
    response.effects.eventsDigest = some (digests.events events) ∨ response.effects.eventsDigest = none ∧ events = []
  inputs : ∀ objects, response.inputObjects = some objects →
    ∀ o ∈ objects, digests.computeObjectReference o ∈ response.effects.oldObjectMetadata
  outputs : ∀ objects, response.outputObjects = some objects →
    ∀ o ∈ objects, digests.computeObjectReference o ∈ response.effects.allChangedObjects

variable {digests : Digests} {data : ExecutedData}
  {query : AuthorityName → Option (Except SuiError (WaitForEffectsResponse ExecutedData))}

theorem verifyObjects_ok {objects : List Object} {refs : List ObjectRef} (h : digests.verifyObjects objects refs = .ok ()) :
    ∀ objects', (if objects = [] then none else some objects) = some objects' →
      ∀ o ∈ objects', digests.computeObjectReference o ∈ refs := by
  intro objects' hsome o ho
  obtain rfl := Option.some.inj (Option.ite_none_left_eq_some.mp hsome).2
  have hfind := of_decide_eq_true (assert_ok.mp h) o ho
  exact List.mem_reverse.mp (List.mem_of_find?_eq_some hfind)

theorem matches_of_verifyExecutedData (h : digests.verifyExecutedData data = .ok ()) :
    (getQuorumTransactionResponse data).Matches digests := by
  simp only [Digests.verifyExecutedData, bind_ok] at h
  obtain ⟨_, hevents, _, hinputs, houtputs⟩ := h
  refine ⟨?_, verifyObjects_ok hinputs, verifyObjects_ok houtputs⟩
  intro events hsome
  change data.events = some events at hsome
  change data.effects.eventsDigest = _ ∨ data.effects.eventsDigest = none ∧ _
  rw [hsome] at hevents
  cases hdigest : data.effects.eventsDigest with
  | none =>
    rw [hdigest] at hevents
    exact .inr ⟨rfl, of_decide_eq_true (assert_ok.mp hevents)⟩
  | some =>
    rw [hdigest] at hevents
    exact .inl (congrArg some (of_decide_eq_true (assert_ok.mp hevents)).symm)

/-- The answer of a validator: an answer with details has the effects of the digest that it names. -/
def Truthful (digests : Digests) (answer : Option (Except SuiError (WaitForEffectsResponse ExecutedData))) : Prop :=
  ∀ d details, answer = some (.ok (.executed d (some details))) → digests.effects details.effects = d

/-- The data are for the digest, and their events and objects pass the safe client. -/
def Verified (digests : Digests) (d : Types.Digest) (data : ExecutedData) : Prop :=
  digests.effects data.effects = d ∧ digests.verifyExecutedData data = .ok ()

/-- The full effects of a truthful answer are verified. -/
theorem getFullEffects_ok {answer : Option (Except SuiError (WaitForEffectsResponse ExecutedData))} (htruthful : Truthful digests answer)
    {d : Types.Digest} (h : digests.getFullEffects answer = .ok (d, data)) : Verified digests d data := by
  unfold Digests.getFullEffects at h
  split at h
  · rename_i details hanswer
    cases h
    obtain ⟨answer, rfl, hwait⟩ := Option.map_eq_some_iff.mp hanswer
    rcases answer with e | (⟨d', _ | details⟩ | e | ⟨epoch, round⟩)
    · cases hwait
    · cases hwait
    · simp only [Digests.waitForEffects, bind_ok] at hwait
      obtain ⟨_, hverify, hwait⟩ := hwait
      cases hwait
      exact ⟨htruthful _ _ rfl, hverify⟩
    · cases hwait
    · cases hwait
  all_goals cases h

variable (hquery : ∀ a, Truthful digests (query a))

include hquery in
/-- What the loop returns for the certified digest is verified, if the first result is. -/
theorem retryFullEffects_ok {c : Types.Digest} {clients : List AuthorityName} {retrier : RequestRetrier} {target : AuthorityName}
    {result : Except TransactionRequestError (Types.Digest × ExecutedData)} {response : QuorumTransactionResponse}
    (hfirst : ∀ d data, result = .ok (d, data) → Verified digests d data)
    (h : retryFullEffects digests query c clients retrier target result = .ok response) :
    ∃ data, response = getQuorumTransactionResponse data ∧ Verified digests c data := by
  induction clients generalizing retrier target result with
  | nil =>
    unfold retryFullEffects at h
    rcases result with e | ⟨d, data⟩
    · obtain ⟨_, -, h⟩ := bind_ok.mp h
      cases h
    · dsimp only at h
      split_ifs at h with heq
      cases h
      exact ⟨data, rfl, heq ▸ hfirst d data rfl⟩
  | cons name rest ih =>
    have hnext : ∀ d data, digests.getFullEffects (query name) = .ok (d, data) → Verified digests d data :=
      fun _ _ => getFullEffects_ok (hquery name)
    unfold retryFullEffects at h
    rcases result with e | ⟨d, data⟩
    · obtain ⟨_, -, h⟩ := bind_ok.mp h
      exact ih hnext h
    · dsimp only at h
      split_ifs at h with heq
      · cases h
        exact ⟨data, rfl, heq ▸ hfirst d data rfl⟩
      · exact ih hnext h

/-- The first result is verified, if the submission came with verified effects or with none. -/
theorem firstFullEffects_ok {rankedClients clients : List AuthorityName} {currentTarget target : AuthorityName} {submitted : SubmitTxResult}
    {first : AuthorityName × Option (Except SuiError (WaitForEffectsResponse ExecutedData))}
    {result : Except TransactionRequestError (Types.Digest × ExecutedData)}
    (hsubmitted : ∀ d details, submitted = .executed d (some details) → Verified digests d details)
    (htruthful : Truthful digests first.2)
    (h : firstFullEffects digests rankedClients currentTarget submitted first = .ok (clients, target, result)) :
    ∀ d data, result = .ok (d, data) → Verified digests d data := by
  rintro d data rfl
  unfold firstFullEffects at h
  split at h
  · rename_i hsome
    cases h
    unfold SubmitTxResult.fullEffects at hsome
    split at hsome
    · cases hsome
      exact hsubmitted _ _ rfl
    · cases hsome
  · cases h
  · obtain ⟨-, -, hfull⟩ := by simpa only [Except.ok.injEq, Prod.mk.injEq] using h
    exact getFullEffects_ok htruthful hfull

/-- A quorum has an honest member. -/
theorem exists_honest {committee : Types.Committee} {answers : Answers ExecutedData} {honest : Finset AuthorityName} {kind : AnswerKind}
    (hdishonest : ∑ a ∈ committee.names.toFinset \ honest, committee.weight a < validityThreshold)
    (hquorum : quorumThreshold ≤ stakeOf committee answers committee.names.toFinset kind) :
    ∃ a ∈ honest, answerKind (answers a) = kind := by
  by_contra hnone
  push Not at hnone
  have hsub : answered answers committee.names.toFinset kind ⊆ committee.names.toFinset \ honest := by
    intro a ha
    obtain ⟨hmem, hkind⟩ := mem_answered.mp ha
    exact Finset.mem_sdiff.mpr ⟨hmem, fun hhonest => hnone a hhonest hkind⟩
  have hle := hquorum.trans ((Finset.sum_le_sum_of_subset hsub).trans hdishonest.le)
  exact absurd hle (by decide)

def TransactionEffects.fields (e : TransactionEffects) :=
  (e.transactionDigest, e.executedEpoch, e.eventsDigest, e.oldObjectMetadata, e.allChangedObjects, e.otherFields)

theorem TransactionEffects.fields_injective : Function.Injective fields := by
  rintro ⟨⟩ ⟨⟩ h
  simpa [fields] using h

def exampleDigests : Digests where
  effects e := Encodable.encode e.fields
  events l := Encodable.encode l
  object o := Encodable.encode (o.id, o.version, o.contents)
  effects_injective := Encodable.encode_injective.comp TransactionEffects.fields_injective

def effectsOf (transaction : Types.Digest) : ExecutedData := ⟨⟨transaction, 0, none, [], [], 0⟩, none, [], []⟩

/-- All validators have executed transaction 42. -/
def acknowledged : Answers ExecutedData := fun _ => .ok (.executed (exampleDigests.effects (effectsOf 42).effects) none)

/-- The first validator is asked for the full effects and sends these. -/
def receivedFrom (data : ExecutedData) : Except DriverPanic (Except TransactionDriverError QuorumTransactionResponse) :=
  getCertifiedFinalizedEffects exampleDigests (fun _ => none) threeValidators [1, 2, 3] 1 (.submitted 0)
    ([1, 2, 3].map fun a => (a, acknowledged a)) (1, some (.ok (.executed (exampleDigests.effects (effectsOf 42).effects) (some data))))

end Sui.TransactionDriver

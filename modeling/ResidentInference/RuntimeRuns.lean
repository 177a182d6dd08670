import ResidentInference.DecodeStep
import ResidentInference.SchedulerResults

/-! The runtime as a pool: its workers obey the laws of the loop, and a decode step of a request
that may draft a block commits a run of its target. -/
namespace ResidentInference
open StateTransition

namespace PersistentDecodeRuntime

/-- Block sizes that let a step make progress. -/
structure ValidBlocks (rt : PersistentDecodeRuntime) : Prop where
  blockSize : 1 ≤ rt.config.blockSize
  minBlock : ∀ policy, rt.adaptivePolicy = some policy → 1 ≤ policy.minBlock

instance (rt : PersistentDecodeRuntime) : Decidable rt.ValidBlocks :=
  decidable_of_iff (1 ≤ rt.config.blockSize ∧ ∀ policy ∈ rt.adaptivePolicy, 1 ≤ policy.minBlock)
    ⟨fun h => ⟨h.1, h.2⟩, fun h => ⟨h.blockSize, h.minBlock⟩⟩

variable {rt : PersistentDecodeRuntime}

theorem decode_requestId {idx : Nat} {c c' : KVCache} {r r' : RequestState} {t : DecodeStepTrace}
    (h : rt.decodeProcess idx c r = (.ok (r', t), c')) : r'.requestId = r.requestId := by
  obtain ⟨spec, _, htok, _⟩ := decode_tokens h
  exact (RequestState.requestId_eq htok :)

theorem workers_lawful (rt : PersistentDecodeRuntime) : rt.workers.Lawful where
  prefillId h := RequestState.requestId_eq (prefill_tokens h).1
  prefillFinished h := RequestState.finished_eq (prefill_tokens h).1
  decodeId h := decode_requestId h
  resultId _ _ := rfl

/-! ### Submission -/

theorem submit_blockSize (h : rt.ValidBlocks) (r : RequestState) :
    1 ≤ rt.effectiveBlockSize (rt.submit r) := by
  have hb := h.blockSize
  unfold effectiveBlockSize submit
  cases rt.adaptivePolicy with
  | none => exact hb
  | some policy => exact hb

theorem submit_unfinished {requests : List RequestState} (h : ∀ r ∈ requests, r.Fresh) :
    ∀ r ∈ requests.map rt.submit, rt.workers.finished r = false := by
  intro r hr
  obtain ⟨r₀, hr₀, rfl⟩ := List.mem_map.mp hr
  exact (RequestState.finished_eq (rt.submit_tokens r₀)).trans (h r₀ hr₀).unfinished

theorem submit_ids (rt : PersistentDecodeRuntime) (requests : List RequestState) :
    (requests.map rt.submit).map rt.workers.requestId =
      requests.map RequestState.requestId := by
  rw [List.map_map]
  exact List.map_congr_left fun r _ =>
    RequestState.requestId_eq (rt.submit_tokens r)

/-- The requests in flight at the start are the submitted ones. -/
theorem submitted_of_start {requests : List RequestState} {r : RequestState}
    (h : r ∈ (rt.start requests).bag) : ∃ r₀ ∈ requests, rt.submit r₀ = r := by
  have hbag : (rt.start requests).bag = (requests.map rt.submit : Multiset RequestState) :=
    rt.workers.bag_start _ _
  rw [hbag, Multiset.mem_coe] at h
  exact List.mem_map.mp h

/-- A run that returns leaves no request behind, and its results are in ascending order of the
ids, one for each request. -/
theorem Returns.ended {requests : List RequestState} (hfresh : ∀ r ∈ requests, r.Fresh)
    {results : List DecodeResult} (h : rt.Returns requests results) :
    ∃ t ∈ rt.run requests, t.control = .returned results ∧ t.bag = 0 ∧
      results = rt.workers.sortResults t.finalResults ∧
      results.map DecodeResult.requestId =
        (requests.map RequestState.requestId).insertionSort (· ≤ ·) := by
  obtain ⟨t, ht, hr⟩ := h
  obtain ⟨hres, hbag, hids⟩ := rt.workers_lawful.returned (submit_unfinished hfresh)
    (mem_eval.mp ht).1 hr
  rw [rt.submit_ids] at hids
  exact ⟨t, ht, hr, hbag, hres, hids⟩

/-! ### A decode step on the tokens -/

/-- The request was decoded from `r₀`, which fixes its id, its target, its limit and its EOS. -/
structure Decodes (r₀ r : RequestState) : Prop where
  requestId : r.requestId = r₀.requestId
  promptTokens : r.promptTokens = r₀.promptTokens
  targetTokens : r.targetTokens = r₀.targetTokens
  maxNewTokens : r.maxNewTokens = r₀.maxNewTokens
  eosTokenId : r.eosTokenId = r₀.eosTokenId

theorem Decodes.of_tokens {r₀ r r' : RequestState} (h : Decodes r₀ r)
    (ht : r'.tokens = r.tokens) : Decodes r₀ r' where
  requestId := (RequestState.requestId_eq ht).trans h.requestId
  promptTokens := (RequestState.promptTokens_eq ht).trans h.promptTokens
  targetTokens := (RequestState.targetTokens_eq ht).trans h.targetTokens
  maxNewTokens := (congrArg RequestState.maxNewTokens ht :).trans h.maxNewTokens
  eosTokenId := (congrArg RequestState.eosTokenId ht :).trans h.eosTokenId

theorem Decodes.advance {r₀ r : RequestState} (h : Decodes r₀ r) (spec : Speculation) :
    Decodes r₀ (r.advance spec) :=
  ⟨h.requestId, h.promptTokens, h.targetTokens, h.maxNewTokens, h.eosTokenId⟩

/-- The tokens that the decode step of the request takes from its target. -/
def block (rt : PersistentDecodeRuntime) (r : RequestState) : List Int :=
  r.remainingTarget.take (rt.width r (rt.effectiveBlockSize r))

/-- What a decode step of a request that may draft a block does. -/
structure DecodedBlock (rt : PersistentDecodeRuntime) (r r' : RequestState) (spec : Speculation) :
    Prop where
  tokens : r'.tokens = (r.advance spec).tokens
  accepted : spec.accepted = rt.block r
  single : r.draftable = 0 → spec.proposal.length = 1
  blockSize : 1 ≤ rt.effectiveBlockSize r'
  layerIds : r'.layerIds = r.layerIds

theorem decode_block (hv : rt.ValidBlocks) {idx : Nat} {c c' : KVCache} {r r' : RequestState}
    {t : DecodeStepTrace} (hb : 1 ≤ rt.effectiveBlockSize r)
    (h : rt.decodeProcess idx c r = (.ok (r', t), c')) : ∃ spec, rt.DecodedBlock r r' spec := by
  obtain ⟨spec, hspec, htok, _, hlay, hsize⟩ := decode_tokens h
  obtain ⟨spec', hspec', hacc⟩ := rt.speculate_spec r hb []
  rw [hspec] at hspec'
  obtain rfl := Except.ok.inj hspec'
  refine ⟨spec, htok, hacc.accepted, hacc.single, ?_, hlay⟩
  unfold effectiveBlockSize
  cases hp : rt.adaptivePolicy with
  | none => exact hv.blockSize
  | some policy => exact (hv.minBlock policy hp).trans (hsize policy hp)

theorem finishes_iff {r : RequestState} {spec : Speculation} :
    r.finishes spec = true ↔ r.tokenBudgetLeft = 0 ∨ spec.accepted.getLast? = some r.eosTokenId ∨
      r.targetTokens.length ≤ r.committedTokens.length ∨
      (spec.accepted = [] ∧ spec.proposal.length = 1) := by
  simp only [RequestState.finishes, Bool.or_eq_true, Bool.and_eq_true, decide_eq_true_eq, or_assoc]

/-- With nothing left to draft the step ends the request: no token is accepted, or the limit is
reached. -/
theorem finishes_of_done {r : RequestState} {spec : Speculation} (hd : r.draftable = 0)
    (hacc : spec.accepted = rt.block r) (hsingle : spec.proposal.length = 1) :
    (r.commit spec.accepted).finishes spec = true := by
  rw [finishes_iff]
  cases draftable_eq_zero.mp hd with
  | inl hrem =>
    have hnil : spec.accepted = [] := by rw [hacc, block, hrem, List.take_nil]
    exact Or.inr (Or.inr (Or.inr ⟨hnil, hsingle⟩))
  | inr hbudget =>
    refine Or.inl ?_
    rw [RequestState.tokenBudgetLeft] at hbudget
    change max (r.maxNewTokens - ((r.committedTokens ++ spec.accepted).length : Int)) 0 = 0
    rw [List.length_append]
    omega

theorem prefill_blockSize {pin : Bool} {idx : Nat} {c c' : KVCache} {r r' : RequestState}
    (h : prefillProcess pin idx c r = (.ok r', c')) :
    rt.effectiveBlockSize r' = rt.effectiveBlockSize r :=
  rt.effectiveBlockSize_congr (prefill_tokens h).2.2

end PersistentDecodeRuntime
end ResidentInference

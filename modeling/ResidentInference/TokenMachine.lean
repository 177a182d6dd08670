import ResidentInference.DecodeStep
import ResidentInference.SchedulerErasure

/-! The runtime without its KV cache: the same loop over workers that speculate and commit, and
the two-run statement that the KV configuration is invisible in what is decoded. -/
namespace ResidentInference
open StateTransition

/-- What a result tells about the tokens. -/
structure TokenResult where
  requestId : Int
  committedTokens : List Int
  traces : List TokenTrace
  deriving DecidableEq

def DecodeResult.tokens (b : DecodeResult) : TokenResult :=
  ⟨b.requestId, b.committedTokens, b.traces.map DecodeStepTrace.tokens⟩

namespace PersistentDecodeRuntime

def tokenDecode (rt : PersistentDecodeRuntime) (idx : Nat) (r : RequestState) :
    Except Fault (RequestState × TokenTrace) :=
  match (rt.speculate r rt.config.blockSize []).1 with
  | .error e => .error e
  | .ok spec => .ok ((r.advance spec).tokens, spec.trace idx)

/-- Workers over the tokens alone. -/
def tokenWorkers (rt : PersistentDecodeRuntime) :
    Workers RequestState Unit TokenTrace TokenResult Unit where
  numPrefill := rt.config.numPrefillWorkers
  numDecode := rt.config.numDecodeWorkers
  requestId := RequestState.requestId
  priority := RequestState.priority
  finished := RequestState.finished
  prefill _ _ r := (.ok r, ())
  decode idx _ r := (rt.tokenDecode idx r, ())
  handoff _ _ _ := ()
  release _ _ := ()
  buildResult r traces := ⟨r.requestId, r.committedTokens, traces⟩
  resultId := TokenResult.requestId

variable {rt rt' : PersistentDecodeRuntime}

theorem tokenDecode_of_decode (hfixed : rt.adaptivePolicy = none) {idx : Nat} {c c' : KVCache}
    {r r' : RequestState} {t : DecodeStepTrace}
    (h : rt.decodeProcess idx c r = (.ok (r', t), c')) :
    rt.tokenDecode idx r.tokens = .ok (r'.tokens, t.tokens) := by
  obtain ⟨spec, hspec, htok, htrace, _, _⟩ := decode_tokens h
  have hsize := effectiveBlockSize_fixed hfixed r
  have hspec' : (rt.speculate r.tokens rt.config.blockSize []).1 = .ok spec := by
    rw [← hspec, hsize]
    exact rt.speculate_tokens rfl _ _ _
  unfold tokenDecode
  rw [hspec', htok, htrace]
  rfl

/-- With a fixed block size the workers of the runtime act on the tokens as these do. -/
def erasure (hfixed : rt.adaptivePolicy = none) : Workers.Erasure rt.workers rt.tokenWorkers where
  request := RequestState.tokens
  trace := DecodeStepTrace.tokens
  result := DecodeResult.tokens
  numPrefill := rfl
  numDecode := rfl
  requestId _ := rfl
  priority _ := rfl
  finished _ := rfl
  prefill h := by rw [(prefill_tokens h).1]; rfl
  decode h := congrArg (fun x => (x, ())) (tokenDecode_of_decode hfixed h)
  buildResult _ _ := rfl
  resultId _ := rfl

/-- Two runtimes that may differ in their KV configuration: page size, number of pages, pins of
ready requests, sparse selection. -/
structure SameDecoding (rt rt' : PersistentDecodeRuntime) : Prop where
  blockSize : rt'.config.blockSize = rt.config.blockSize
  eosTokenId : rt'.config.eosTokenId = rt.config.eosTokenId
  numPrefillWorkers : rt'.config.numPrefillWorkers = rt.config.numPrefillWorkers
  numDecodeWorkers : rt'.config.numDecodeWorkers = rt.config.numDecodeWorkers
  policy : rt'.policy = rt.policy
  fixed : rt.adaptivePolicy = none
  fixed' : rt'.adaptivePolicy = none

theorem SameDecoding.tokenDecode_eq (h : SameDecoding rt rt') :
    rt'.tokenDecode = rt.tokenDecode := by
  have hproposer : rt'.proposer = rt.proposer := by
    rw [proposer, proposer, h.blockSize, h.eosTokenId]
  funext idx r
  unfold tokenDecode speculate
  rw [hproposer, h.policy, h.blockSize]

theorem SameDecoding.tokenWorkers_eq (h : SameDecoding rt rt') :
    rt'.tokenWorkers = rt.tokenWorkers := by
  unfold tokenWorkers
  rw [h.numPrefillWorkers, h.numDecodeWorkers, h.tokenDecode_eq]

/-- A run that returns ends where the run over the tokens ends. -/
theorem Returns.tokens (hfixed : rt.adaptivePolicy = none) {requests : List RequestState}
    {results : List DecodeResult} (h : rt.Returns requests results) :
    ∃ s ∈ eval rt.tokenWorkers.step
        (rt.tokenWorkers.start () (requests.map RequestState.tokens)),
      s.control = .returned (results.map DecodeResult.tokens) := by
  obtain ⟨t, ht, hcontrol⟩ := h
  have hrequests : (requests.map rt.submit).map RequestState.tokens =
      requests.map RequestState.tokens := by
    rw [List.map_map]
    exact List.map_congr_left fun r _ => rt.submit_tokens r
  refine ⟨(erasure hfixed).state t, ?_, ?_⟩
  · rw [← hrequests]
    exact (erasure hfixed).eval_eq ht hcontrol
  · simp only [Workers.Erasure.state, hcontrol, Control.map]
    rfl

/-- The KV configuration is invisible in what is decoded: two runs that return commit the same
tokens for each request, through the same sequence of decode steps. -/
theorem kv_configuration_invisible (h : SameDecoding rt rt') (requests : List RequestState)
    {results results' : List DecodeResult} (hr : rt.Returns requests results)
    (hr' : rt'.Returns requests results') :
    results.map DecodeResult.tokens = results'.map DecodeResult.tokens := by
  obtain ⟨s, hs, hc⟩ := hr.tokens h.fixed
  obtain ⟨s', hs', hc'⟩ := hr'.tokens h.fixed'
  rw [h.tokenWorkers_eq] at hs'
  obtain rfl := Part.mem_unique hs hs'
  rw [hc] at hc'
  exact Control.returned.inj hc'

theorem sparse_pages_invisible :
    ∃ results results',
      Returns { config := { pageSize := 1 } } [.ask 1 [5, 6] [7, 8, 9], .ask 2 [5] [7, 8]]
        results ∧
      Returns
        { config := { maxPages := 3, enableSparseKv := true, pinReadyDecodePages := false } }
        [.ask 1 [5, 6] [7, 8, 9], .ask 2 [5] [7, 8]] results' ∧
      results.map DecodeResult.tokens = results'.map DecodeResult.tokens := by
  obtain ⟨results, h⟩ := Option.isSome_iff_exists.mp
    (by decide +kernel : (runFor { config := { pageSize := 1 } }
      [.ask 1 [5, 6] [7, 8, 9], .ask 2 [5] [7, 8]] 60).isSome = true)
  obtain ⟨results', h'⟩ := Option.isSome_iff_exists.mp
    (by decide +kernel : (runFor
      { config := { maxPages := 3, enableSparseKv := true, pinReadyDecodePages := false } }
      [.ask 1 [5, 6] [7, 8, 9], .ask 2 [5] [7, 8]] 60).isSome = true)
  have hr := returns_of_runFor _ h
  have hr' := returns_of_runFor _ h'
  have hsame : SameDecoding { config := { pageSize := 1 } }
      { config := { maxPages := 3, enableSparseKv := true, pinReadyDecodePages := false } } :=
    ⟨rfl, rfl, rfl, rfl, rfl, rfl, rfl⟩
  exact ⟨results, results', hr, hr', kv_configuration_invisible hsame _ hr hr'⟩

end PersistentDecodeRuntime
end ResidentInference

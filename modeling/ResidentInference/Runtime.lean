import ResidentInference.Scheduler
import ResidentInference.SparseKV
import ResidentInference.SpecDecode

/-! The persistent runtime: the prefill worker, the decode worker stage by stage, and the loop
over them. The components are the stock ones: the draft proposer, the verifier with its policy,
the CPU stub backend and, where the configuration enables it, the sparse selector. -/
namespace ResidentInference
open StateTransition

structure PersistentDecodeRuntime where
  config : RuntimeConfig
  policy : AcceptancePolicy := {}
  adaptivePolicy : Option AdaptiveBlockPolicy := none
  /-- How the doubles of the source round; the identity in exact arithmetic. -/
  rnd : ℚ → ℚ := id

abbrev RuntimeState := PoolState RequestState KVCache DecodeStepTrace DecodeResult WorkerHandoff

/-! ### The prefill worker -/

def LayerPageMap.pageIds (m : LayerPageMap) : List Nat := m.values.flatten

def RequestState.snapshot (r : RequestState) (m : LayerPageMap) : KVSnapshot :=
  { requestId := r.requestId, layerPageMap := m, promptLength := r.promptTokens.length }

/-- `PrefillWorker.process` -/
def prefillProcess (keepReadyPinned : Bool) (idx : Nat) (c : KVCache) (r : RequestState) :
    Except Fault RequestState × KVCache :=
  match c.allocateForRequest { r with phase := .prefill } r.promptTokens.length keepReadyPinned with
  | (.error e, c) => (.error e, c)
  | (.ok m, c) =>
    (.ok { r with
        kvSnapshot := some (r.snapshot m)
        phase := .readyDecode
        prefillWorkerId := some (.prefill idx) },
      c.touchPages m.pageIds)

/-! ### The decode worker -/

/-- `_rehydrate_if_needed` -/
def rehydrateIfNeeded (c : KVCache) (r : RequestState) : Except Fault RequestState × KVCache :=
  if c.hasSnapshot r then (.ok r, c)
  else
    match (c.releaseRequest r.requestId).allocateForRequest r r.currentTokens true with
    | (.error e, c) => (.error e, c)
    | (.ok m, c) =>
      (.ok { r with
          kvSnapshot := some (r.snapshot m)
          rehydrationCount := r.rehydrationCount + 1 }, c)

/-- The pages that a decode step reads, with the figures of its trace. -/
structure KVReads where
  pageIds : List Nat
  blocksTotal : Int
  blocksSelected : Int
  bytesRead : Int
  bytesSaved : Int

namespace PersistentDecodeRuntime
variable (rt : PersistentDecodeRuntime)

def selectReads (c : KVCache) (r : RequestState) : KVReads × KVCache :=
  if rt.config.enableSparseKv then
    let (selection, c) := c.select rt.config r r.committedTokens.length
    ({ pageIds := if selection.pageIds = [] then r.kvPageIds else selection.pageIds
       blocksTotal := selection.totalBlocks
       blocksSelected := selection.selectedBlocks
       bytesRead := selection.estimatedKvBytesRead
       bytesSaved := selection.estimatedKvBytesSaved }, c)
  else
    ({ pageIds := r.kvPageIds
       blocksTotal := r.kvPageIds.length
       blocksSelected := r.kvPageIds.length
       bytesRead := r.kvPageIds.length * c.bytesPerPage
       bytesSaved := 0 }, c)

/-- Everything that precedes the first call of the backend: rehydrate, select, pin, touch. -/
def prepare (c : KVCache) (r : RequestState) : Except Fault (RequestState × KVReads) × KVCache :=
  match rehydrateIfNeeded c r with
  | (.error e, c) => (.error e, c)
  | (.ok r, c) =>
    let (reads, c) := rt.selectReads c r
    (.ok (r, reads), (c.pinPages reads.pageIds).touchPages reads.pageIds)

def proposer : DraftBlockProposer where
  blockSize := rt.config.blockSize
  eosTokenId := rt.config.eosTokenId

def effectiveBlockSize (r : RequestState) : Int :=
  match rt.adaptivePolicy with
  | some _ => r.currentBlockSize
  | none => rt.config.blockSize

theorem effectiveBlockSize_congr {r r' : RequestState}
    (h : r'.currentBlockSize = r.currentBlockSize) :
    rt.effectiveBlockSize r' = rt.effectiveBlockSize r := by
  rw [effectiveBlockSize, h, effectiveBlockSize]

variable {rt} in
theorem effectiveBlockSize_fixed (h : rt.adaptivePolicy = none) (r : RequestState) :
    rt.effectiveBlockSize r = rt.config.blockSize := by
  rw [effectiveBlockSize, h]

end PersistentDecodeRuntime

/-- What the speculation of one decode step comes to. After a serial fallback `proposal` and
`accepted` are those of the fallback, the mask stays that of the block. -/
structure Speculation where
  proposal : List Int
  accepted : List Int
  usedFallback : Bool
  adaptiveMask : AcceptanceMask

/-- A call of the backend: `decode_step`, or `speculative_verify` of a draft. -/
structure BackendCall where
  draftTokens : Option (List Int)
  kvPages : List Nat

/-- The call that `verify` makes; a block that is rejected outright never reaches the backend. -/
def AcceptancePolicy.verifyCalls (policy : AcceptancePolicy) (proposal : List Int)
    (kvPages : List Nat) : List BackendCall :=
  if policy.rejectDraftBlocks ∧ 1 < proposal.length then [] else [⟨some proposal, kvPages⟩]

namespace PersistentDecodeRuntime
variable (rt : PersistentDecodeRuntime)

/-- The calls of the backend and the tokens they settle, with the serial fallback. -/
def speculate (r : RequestState) (blockSize : Int) (kvPages : List Nat) :
    Except Fault Speculation × List BackendCall :=
  let (_, activeRequest) := CPUStubBackend.decodeStep r kvPages
  let backend := CPUStubBackend.speculativeVerify activeRequest
  let proposal := rt.proposer.propose r (some blockSize)
  let calls := ⟨none, kvPages⟩ :: rt.policy.verifyCalls proposal kvPages
  match rt.policy.verify r proposal kvPages backend with
  | .error e => (.error e, calls)
  | .ok mask =>
    let accepted := proposal.take mask.acceptedCount
    if accepted = [] ∧ 1 < proposal.length then
      let serialProposal := rt.proposer.propose r (some 1)
      let calls := calls ++ rt.policy.verifyCalls serialProposal kvPages
      match rt.policy.verify r serialProposal kvPages backend with
      | .error e => (.error e, calls)
      | .ok serialMask =>
        (.ok { proposal := serialProposal
               accepted := serialProposal.take serialMask.acceptedCount
               usedFallback := true
               adaptiveMask := mask }, calls)
    else
      (.ok { proposal := proposal
             accepted := accepted
             usedFallback := false
             adaptiveMask := mask }, calls)

def adapt (c : KVCache) (r : RequestState) (mask : AcceptanceMask) : RequestState :=
  match rt.adaptivePolicy with
  | none => r
  | some policy => updateBlockSize rt.rnd r mask policy (c.isUnderPressure rt.rnd)

end PersistentDecodeRuntime

/-- Make room if needed, allocate for the accepted tokens and commit them. -/
def commitAccepted (c : KVCache) (r : RequestState) (accepted : List Int) :
    Except Fault RequestState × KVCache :=
  if accepted = [] then (.ok r, c)
  else
    match c.canAllocate r accepted.length with
    | .error e => (.error e, c)
    | .ok able =>
      let c :=
        if able then c
        else (c.evictLru (c.neededPages r (r.currentTokens + accepted.length))).1
      match c.commitTokens r accepted.length with
      | (.error e, c) => (.error e, c)
      | (.ok m, c) =>
        (.ok { r with
            committedTokens := r.committedTokens ++ accepted
            kvSnapshot := some (r.snapshot m) }, c)

/-- The four finish conditions, on the request with the accepted tokens committed. -/
def RequestState.finishes (r : RequestState) (spec : Speculation) : Bool :=
  decide (r.tokenBudgetLeft = 0) || decide (spec.accepted.getLast? = some r.eosTokenId) ||
    decide (r.targetTokens.length ≤ r.committedTokens.length) ||
    (decide (spec.accepted = []) && decide (spec.proposal.length = 1))

namespace PersistentDecodeRuntime
variable (rt : PersistentDecodeRuntime)

/-- Finish the request or make it ready again, with its pages unpinned as each case asks. -/
def settle (c : KVCache) (r : RequestState) (spec : Speculation) (reads : KVReads) :
    RequestState × KVCache :=
  if r.finishes spec then
    ({ r with phase := .finished, finished := true }, c.unpinPages r.kvPageIds)
  else
    ({ r with phase := .readyDecode, wasPreempted := true },
      if rt.config.pinReadyDecodePages then c else c.unpinPages reads.pageIds)

/-- The part of `process` up to the commit, with the calls that it makes of the backend, each with
the cache at its time: the cache does not change between the pins of `prepare` and the commit. -/
def askBackend (idx : Nat) (c : KVCache) (r : RequestState) :
    Except Fault (RequestState × KVReads × Speculation) × KVCache × List (BackendCall × KVCache) :=
  match rt.prepare c { r with phase := .decode, decodeWorkerId := some (.decode idx) } with
  | (.error e, c) => (.error e, c, [])
  | (.ok (r, reads), c) =>
    let asked := rt.speculate r (rt.effectiveBlockSize r) reads.pageIds
    (asked.1.map fun spec => (r, reads, spec), c, asked.2.map fun call => (call, c))

/-- `DecodeWorker.process` -/
def decodeProcess (idx : Nat) (c : KVCache) (r : RequestState) :
    Except Fault (RequestState × DecodeStepTrace) × KVCache :=
  match rt.askBackend idx c r with
  | (.error e, c, _) => (.error e, c)
  | (.ok (r, reads, spec), c, _) =>
    let blockSize := rt.effectiveBlockSize r
    let r := rt.adapt c { r with draftTokens := spec.proposal } spec.adaptiveMask
    match commitAccepted c r spec.accepted with
    | (.error e, c) => (.error e, c)
    | (.ok r, c) =>
      let (r, c) := rt.settle c r spec reads
      (.ok (r,
        { workerId := .decode idx
          proposedTokens := spec.proposal
          acceptedTokens := spec.accepted
          usedFallbackSerial := spec.usedFallback
          blockSizeUsed := blockSize
          kvBlocksTotal := reads.blocksTotal
          kvBlocksSelected := reads.blocksSelected
          estimatedKvBytesRead := reads.bytesRead
          estimatedKvBytesSaved := reads.bytesSaved
          selectedKvPageIds := reads.pageIds }), c)

/-- The calls of the backend that `decodeProcess` makes. -/
def backendCalls (idx : Nat) (c : KVCache) (r : RequestState) : List (BackendCall × KVCache) :=
  (rt.askBackend idx c r).2.2

/-! ### The loop -/

/-- `_build_result` -/
def buildResult (r : RequestState) (traces : List DecodeStepTrace) : DecodeResult :=
  let totalAccepted := (traces.map fun t => t.acceptedTokens.length).sum
  let totalProposed := (traces.map fun t => t.proposedTokens.length).sum
  let hist := (traces.map DecodeStepTrace.blockSizeUsed).filter fun b => decide (0 < b)
  { requestId := r.requestId
    promptTokens := r.promptTokens
    committedTokens := r.committedTokens
    traces := traces
    acceptanceRate := if totalProposed = 0 then 0 else rt.rnd (totalAccepted / totalProposed)
    wasPreempted := r.wasPreempted
    meanBlockSize := if hist = [] then 0 else rt.rnd (hist.sum / hist.length)
    minBlockSize := hist.min?.getD 0
    maxBlockSize := hist.max?.getD 0
    rehydrationCount := r.rehydrationCount
    kvBlocksTotal := (traces.map DecodeStepTrace.kvBlocksTotal).sum
    kvBlocksSelected := (traces.map DecodeStepTrace.kvBlocksSelected).sum
    estimatedKvBytesRead := (traces.map DecodeStepTrace.estimatedKvBytesRead).sum
    estimatedKvBytesSaved := (traces.map DecodeStepTrace.estimatedKvBytesSaved).sum }

def workers : Workers RequestState KVCache DecodeStepTrace DecodeResult WorkerHandoff where
  numPrefill := rt.config.numPrefillWorkers
  numDecode := rt.config.numDecodeWorkers
  requestId := RequestState.requestId
  priority := RequestState.priority
  finished := RequestState.finished
  prefill := prefillProcess rt.config.pinReadyDecodePages
  decode := rt.decodeProcess
  handoff i j r :=
    { requestId := r.requestId
      prefillWorkerId := .prefill i
      decodeWorkerId := .decode j
      pageIds := ((r.kvSnapshot.map fun s => s.layerPageMap.pageIds)).getD [] }
  release := KVCache.releaseRequest
  buildResult := rt.buildResult
  resultId := DecodeResult.requestId

/-- What `submit` does to a request before it is enqueued. -/
def submit (r : RequestState) : RequestState :=
  let r :=
    if r.layerIds = [] then
      { r with layerIds := (List.range rt.config.numLayers).map Int.ofNat }
    else r
  match rt.adaptivePolicy with
  | none => r
  | some _ =>
    { r with
      currentBlockSize := rt.config.blockSize
      emaAcceptanceRate := rt.rnd (4 / 5)
      blockSizeHistory := [rt.config.blockSize] }

/-- A fresh runtime with the requests submitted to it. -/
def start (requests : List RequestState) : RuntimeState :=
  rt.workers.start (KVCache.new rt.config.pageSize rt.config.maxPages (some rt.config))
    (requests.map rt.submit)

/-- The state in which the run over the requests stops, if it stops. -/
def run (requests : List RequestState) : Part RuntimeState :=
  eval rt.workers.step (rt.start requests)

/-- The run returns these results. -/
def Returns (requests : List RequestState) (results : List DecodeResult) : Prop :=
  ∃ t ∈ rt.run requests, t.control = .returned results

/-- The results of a run that returns within `n` steps. -/
def runFor (requests : List RequestState) (n : Nat) : Option (List DecodeResult) :=
  (Runs.runFor rt.workers.step n (rt.start requests)).control.returned?

theorem returns_of_runFor {requests : List RequestState} {n : Nat} {results : List DecodeResult}
    (h : rt.runFor requests n = some results) : rt.Returns requests results := by
  have hc := Control.eq_of_returned? h
  exact ⟨_, Runs.mem_eval_runFor (Workers.step_returned hc), hc⟩

/-- A run that has stopped without results does not return. -/
theorem not_returns_of_runFor {requests : List RequestState} {n : Nat}
    (hstop : (rt.workers.step (Runs.runFor rt.workers.step n (rt.start requests))).isNone = true)
    (hnone : (rt.runFor requests n).isNone = true) (results : List DecodeResult) :
    ¬ rt.Returns requests results := by
  intro h
  obtain ⟨t, ht, hc⟩ := h
  have hlast := Runs.mem_eval_runFor (Option.isNone_iff_eq_none.mp hstop)
  have heq := Part.mem_unique ht hlast
  rw [runFor, ← heq, hc] at hnone
  cases hnone

end PersistentDecodeRuntime

/-- A request as a caller submits it: nothing decoded, nothing cached, not finished. -/
structure RequestState.Fresh (r : RequestState) : Prop where
  committed : r.committedTokens = []
  snapshot : r.kvSnapshot = none
  unfinished : r.finished = false

instance (r : RequestState) : Decidable r.Fresh :=
  decidable_of_iff (r.committedTokens = [] ∧ r.kvSnapshot = none ∧ r.finished = false)
    ⟨fun h => ⟨h.1, h.2.1, h.2.2⟩, fun h => ⟨h.committed, h.snapshot, h.unfinished⟩⟩

/-- A request of the default kind that asks for the whole target. -/
def RequestState.ask (requestId : Int) (promptTokens targetTokens : List Int) : RequestState where
  requestId := requestId
  promptTokens := promptTokens
  targetTokens := targetTokens
  maxNewTokens := targetTokens.length
  eosTokenId := 0

/-- A finite list of fresh requests with pairwise distinct ids. -/
structure FreshRequests (requests : List RequestState) : Prop where
  fresh : ∀ r ∈ requests, r.Fresh
  distinct : (requests.map RequestState.requestId).Nodup

instance (requests : List RequestState) : Decidable (FreshRequests requests) :=
  decidable_of_iff ((∀ r ∈ requests, r.Fresh) ∧ (requests.map RequestState.requestId).Nodup)
    ⟨fun h => ⟨h.1, h.2⟩, fun h => ⟨h.fresh, h.distinct⟩⟩

end ResidentInference

import ResidentInference.BlockBench
import ResidentInference.Percentiles
import ResidentInference.ResidencyReport
import ResidentInference.RuntimeClock

/-! The benchmark of the persistent runtime in exact arithmetic: the run behind one record, the
record made from its results, and the sweep over modes, batch sizes and block sizes. -/
namespace ResidentInference
open StateTransition

structure BenchmarkRunner where
  batchSizes : List Int := [1, 4, 8, 16, 32]
  blockSizes : List Int := [1, 2, 4, 8]
  modes : List BenchmarkMode := [.speculativeDecode]

namespace BenchmarkRunner

/-- `BenchmarkRunner(...)`: an empty list asks for the default. -/
def new (batchSizes blockSizes : List Int) (modes : List BenchmarkMode) : BenchmarkRunner where
  batchSizes := if batchSizes = [] then [1, 4, 8, 16, 32] else batchSizes
  blockSizes := if blockSizes = [] then [1, 2, 4, 8] else blockSizes
  modes := if modes = [] then [.speculativeDecode] else modes

/-- `_build_request` -/
def buildRequest (requestId : Nat) (maxNewTokens eosTokenId : Int) : RequestState :=
  let base : Int := 100 + requestId
  { requestId
    promptTokens := [1, 2, 3]
    targetTokens := (List.range 4).map (fun idx : Nat => base + idx) ++ [eosTokenId]
    maxNewTokens
    eosTokenId
    priority := requestId % 3
    layerIds := [0, 1] }

/-- The block size that a mode runs with. -/
def modeBlockSize (mode : BenchmarkMode) (blockSize : Int) : Int :=
  if mode = .serialDecode then 1 else blockSize

def runtimeConfig (batchSize blockSize : Int) (mode : BenchmarkMode) : RuntimeConfig where
  blockSize := modeBlockSize mode blockSize
  eosTokenId := 0
  pageSize := 4
  maxPages := if mode = .kvPressure then max 8 (batchSize * 3) else max 64 (batchSize * 8)
  numLayers := 2
  numPrefillWorkers := 2
  numDecodeWorkers := 2
  enableSparseKv := decide (mode = .sparseKvMegakernel)
  sparseTopK := max 1 (min (modeBlockSize mode blockSize) 4)
  kvBlockSize := 4

def adaptivePolicy (blockSize : Int) : AdaptiveBlockPolicy where
  minBlock := 1
  maxBlock := blockSize
  alpha := 1 / 5
  pressureCap := 2
  highAcceptThreshold := 4 / 5
  lowAcceptThreshold := 1 / 2

def latency : BackendLatencyConfig where
  prefillMs := 7 / 10
  decodeMs := 1 / 5
  verifyMs := 1 / 10

/-- The runtime that the benchmark builds for a mode. -/
def runtime (batchSize blockSize : Int) (mode : BenchmarkMode) : PersistentDecodeRuntime where
  config := runtimeConfig batchSize blockSize mode
  policy := { mismatchStride := if mode = .forcedRejection then 2 else 0 }
  adaptivePolicy := some (adaptivePolicy (modeBlockSize mode blockSize))

def requests (batchSize : Int) : List RequestState :=
  (List.range batchSize.toNat).map fun requestId => buildRequest requestId 8 0

/-- The mean of a column; without rows the division raises. -/
def mean (values : List ℚ) : Except Fault ℚ :=
  if values = [] then .error .zeroDivision else .ok (values.sum / values.length)

/-- An index out of range raises. -/
def indexed {α : Type} : Option α → Except Fault α
  | some value => .ok value
  | none => .error .indexOutOfRange

/-- The record of `_run_single`, from the results of the run and the report of the cache. -/
def singleRecord (batchSize blockSize : Int) (mode : BenchmarkMode)
    (results : List (TimedResult DecodeStepTrace DecodeResult)) (report : ResidencyReport) :
    Except Fault BenchmarkRecord := do
  let meanTtftMs ← mean (results.map TimedResult.ttftMs)
  let itls := results.flatMap TimedResult.interTokenLatencyMs
  let p50 ← indexed (percentile id itls 50)
  let p95 ← indexed (percentile id itls 95)
  let p99 ← indexed (percentile id itls 99)
  let acceptanceRate ← mean (results.map fun r => r.result.acceptanceRate)
  let meanBs ← mean (results.map fun r => r.result.meanBlockSize)
  let variance ← mean (results.map fun r => (r.result.meanBlockSize - meanBs) ^ 2)
  let kvBlocksTotal := (results.map fun r => r.result.kvBlocksTotal).sum
  let kvBlocksSelected := (results.map fun r => r.result.kvBlocksSelected).sum
  let totalIterations := max (results.map fun r => r.traces.length).sum 1
  let totalCommitted := (results.map fun r => r.result.committedTokens.length).sum
  return {
    batchSize, blockSize := modeBlockSize mode blockSize, meanTtftMs
    p50ItlMs := p50, p95ItlMs := p95, p99ItlMs := p99
    acceptanceRate
    kvHitRate := report.hitRate
    liveKvBytes := report.liveKvBytes
    pinnedKvBytes := report.pinnedKvBytes
    evictionCount := report.evictionCount
    fragmentationRatio := report.fragmentationRatio
    mode := mode.value
    meanBlockSize := meanBs
    minBlockSize := ((results.map fun r => r.result.minBlockSize).min?).getD 0
    maxBlockSize := ((results.map fun r => r.result.maxBlockSize).max?).getD 0
    blockSizeVariance := variance
    kvBlocksTotal, kvBlocksSelected
    kvSparsityRatio :=
      if 0 < kvBlocksTotal then max 0 (1 - (kvBlocksSelected : ℚ) / kvBlocksTotal) else 0
    estimatedKvBytesRead := (results.map fun r => r.result.estimatedKvBytesRead).sum
    estimatedKvBytesSaved := (results.map fun r => r.result.estimatedKvBytesSaved).sum
    tokensPerResidentLoop := (totalCommitted : ℚ) / totalIterations }

/-- `_run_single` -/
def runSingle (batchSize blockSize : Int) (mode : BenchmarkMode) :
    Part (Except Fault BenchmarkRecord) :=
  ((runtime batchSize blockSize mode).timedRun latency (requests batchSize)).bind fun s =>
    match s.control with
    | .returned results =>
      Part.some (singleRecord batchSize blockSize mode results (s.cache.cache.residencyReport id))
    | .raised e => Part.some (.error e)
    | _ => Part.none

/-- The modes that run the block runtime. -/
def isBlockMode (mode : BenchmarkMode) : Bool :=
  decide (mode = .autoregressiveSerial ∨ mode = .blockSpeculative ∨
    mode = .blockSpeculativePersistentSim ∨ mode = .blockSpeculativeHostOrchestrated)

/-- One call of `_run_single` or `_run_block_single`. -/
structure Call where
  mode : BenchmarkMode
  batchSize : Int
  blockSize : Int

def Call.run (call : Call) : Part (Except Fault BenchmarkRecord) :=
  if isBlockMode call.mode then runBlockSingle id call.batchSize call.blockSize 256 call.mode
  else runSingle call.batchSize call.blockSize call.mode

/-- The calls of a sweep, in their order. -/
def calls (runner : BenchmarkRunner) (modes : List BenchmarkMode) : List Call :=
  (if modes = [] then runner.modes else modes).flatMap fun mode =>
    runner.batchSizes.flatMap fun batchSize =>
      (if mode = .autoregressiveSerial ∨ mode = .serialDecode then [1] else runner.blockSizes).map
        fun blockSize => ⟨mode, batchSize, blockSize⟩

/-- The records of the calls; the first exception ends the sweep. -/
def sweep : List Call → Part (Except Fault (List BenchmarkRecord))
  | [] => Part.some (.ok [])
  | call :: rest => call.run.bind fun
    | .error e => Part.some (.error e)
    | .ok record => (sweep rest).map fun records => records.map (record :: ·)

/-- `run`, up to the export of the records -/
def run (runner : BenchmarkRunner) (modes : List BenchmarkMode) :
    Part (Except Fault (List BenchmarkRecord)) := sweep (runner.calls modes)

end BenchmarkRunner
end ResidentInference

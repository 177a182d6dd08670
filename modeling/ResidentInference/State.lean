import ResidentInference.Dict
import ResidentInference.Arith

/-! Configuration, requests, snapshots and traces of the persistent runtime. Times and
latencies are left out: nothing that is modelled branches on them. -/
namespace ResidentInference

structure RuntimeConfig where
  blockSize : Int := 4
  eosTokenId : Int := 0
  pageSize : Int := 4
  maxPages : Int := 64
  numLayers : Nat := 2
  numPrefillWorkers : Nat := 1
  numDecodeWorkers : Nat := 1
  pinReadyDecodePages : Bool := true
  numHeads : Nat := 12
  headDim : Nat := 64
  dtypeBytes : Nat := 2
  kvTensorsPerToken : Nat := 2
  enableSparseKv : Bool := false
  sparseTopK : Int := 4
  kvBlockSize : Int := 4

def RuntimeConfig.bytesPerTokenPerLayer (g : RuntimeConfig) : Int :=
  g.numHeads * g.headDim * g.dtypeBytes * g.kvTensorsPerToken

/-- The exceptions that the modelled code raises. -/
inductive Fault where
  | kvCannotAllocate
  | zeroDivision
  | decodeStepMissing
  | emptyQueue
  | indexOutOfRange
  deriving DecidableEq

inductive RequestPhase where
  | waitingPrefill
  | prefill
  | readyDecode
  | decode
  | finished
  deriving DecidableEq

inductive WorkerId where
  | prefill (idx : Nat)
  | decode (idx : Nat)
  deriving DecidableEq

abbrev LayerPageMap := Dict Int (List Nat)

structure KVSnapshot where
  requestId : Int
  layerPageMap : LayerPageMap
  promptLength : Nat

structure TokenLogits where
  candidateTokens : List Int

structure AcceptanceMask where
  accepted : List Bool
  deriving DecidableEq

/-- The accepted run at the front of the mask. -/
def AcceptanceMask.acceptedCount (mask : AcceptanceMask) : Nat :=
  (mask.accepted.takeWhile id).length

structure DecodeStepTrace where
  workerId : WorkerId
  proposedTokens : List Int
  acceptedTokens : List Int
  usedFallbackSerial : Bool
  blockSizeUsed : Int
  kvBlocksTotal : Int
  kvBlocksSelected : Int
  estimatedKvBytesRead : Int
  estimatedKvBytesSaved : Int
  selectedKvPageIds : List Nat
  deriving DecidableEq

structure RequestState where
  requestId : Int
  promptTokens : List Int
  targetTokens : List Int
  maxNewTokens : Int
  eosTokenId : Int
  priority : Int := 0
  layerIds : List Int := [0]
  committedTokens : List Int := []
  draftTokens : List Int := []
  phase : RequestPhase := .waitingPrefill
  kvSnapshot : Option KVSnapshot := none
  finished : Bool := false
  wasPreempted : Bool := false
  prefillWorkerId : Option WorkerId := none
  decodeWorkerId : Option WorkerId := none
  rehydrationCount : Nat := 0
  emaAcceptanceRate : ℚ := 4 / 5
  currentBlockSize : Int := 4
  blockSizeHistory : List Int := []

namespace RequestState

def remainingTarget (r : RequestState) : List Int :=
  r.targetTokens.drop r.committedTokens.length

def tokenBudgetLeft (r : RequestState) : Int :=
  max (r.maxNewTokens - r.committedTokens.length) 0

def fullSequence (r : RequestState) : List Int := r.promptTokens ++ r.committedTokens

/-- Prompt and committed tokens: what the KV pages of the request must hold. -/
def currentTokens (r : RequestState) : Int :=
  r.promptTokens.length + r.committedTokens.length

def kvPageIds (r : RequestState) : List Nat :=
  match r.kvSnapshot with
  | none => []
  | some snapshot => r.layerIds.flatMap fun l => (snapshot.layerPageMap.get? l).getD []

end RequestState

structure WorkerHandoff where
  requestId : Int
  prefillWorkerId : WorkerId
  decodeWorkerId : WorkerId
  pageIds : List Nat
  deriving DecidableEq

structure DecodeResult where
  requestId : Int
  promptTokens : List Int
  committedTokens : List Int
  traces : List DecodeStepTrace
  acceptanceRate : ℚ
  wasPreempted : Bool
  meanBlockSize : ℚ
  minBlockSize : Int
  maxBlockSize : Int
  rehydrationCount : Nat
  kvBlocksTotal : Int
  kvBlocksSelected : Int
  estimatedKvBytesRead : Int
  estimatedKvBytesSaved : Int

end ResidentInference

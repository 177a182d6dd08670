import ResidentInference.Device.State

/-! What the host writes before it launches a kernel. -/
namespace ResidentInference.Device
variable {φ : Type} [DeviceFloat φ]

/-- The requests of `init_requests`. -/
def initRequest (i maxTokens : Int) (speculative : Bool) (draftOffsetStride : Int) :
    RequestDescriptor φ where
  requestId := i + 1
  state := .decodeReady
  flags := if speculative then FlagWord.mask RequestFlag.speculativeEnabled.shift else 0
  priority := i
  promptLen := 0
  decodePos := 0
  maxNewTokens := maxTokens
  eosTokenId := 0
  lastToken := ((i + 1) * 7 + 3).tmod 32000
  outputTokenCount := 0
  draftOffset := i * draftOffsetStride
  draftLen := 0
  acceptedPrefixLen := 0
  kvTableOffset := i * 4
  kvNumPages := 4
  errorCode := 0
  emaAcceptanceRate := DeviceFloat.literal (4 / 5)
  currentBlockSize := 4

/-- The only flag of a fresh request. -/
theorem hasFlag_initRequest (i maxTokens draftOffsetStride : Int) (speculative : Bool)
    (f : RequestFlag) :
    (initRequest i maxTokens speculative draftOffsetStride : RequestDescriptor φ).hasFlag f =
      (speculative && decide (f = .speculativeEnabled)) := by
  have hword : ∀ (speculative : Bool) (f : RequestFlag),
      FlagWord.has (if speculative then FlagWord.mask RequestFlag.speculativeEnabled.shift else 0)
        f.shift = (speculative && decide (f = .speculativeEnabled)) := by
    intro speculative f
    cases speculative <;> cases f <;> decide
  exact hword speculative f

/-- The entries of `init_kv_entries`. -/
def initKvEntry (pagesPerRequest pageSizeTokens : Int) (state : KVPageState) (flags : FlagWord)
    (i : Int) : KVPageEntry φ where
  pageId := i
  requestId := i.tdiv pagesPerRequest + 1
  layerId := i.tmod 2
  startToken := i.tmod pagesPerRequest * pageSizeTokens
  tokenCount := pageSizeTokens
  state := state
  flags := flags
  score := DeviceFloat.literal 0
  selected := 0
  lastSelectedStep := -1
  sparseRank := -1

/-! ## `run_megakernel_path` -/

def megakernelRequest (tokensPerRequest draftLen i : Int) : RequestDescriptor φ :=
  let initBlockSize := if draftLen > 0 then draftLen else 4
  let initBlockSize := if initBlockSize > 8 then 8 else initBlockSize
  let initBlockSize := if initBlockSize < 1 then 1 else initBlockSize
  { initRequest i tokensPerRequest true (draftLen * 4) with currentBlockSize := initBlockSize }

def megakernelTable (numRequests : Int) : KVPageTable φ where
  entries := initKvEntry 4 4 .free 0
  numEntries := numRequests * 4
  pageSizeTokens := 4
  bytesPerPage := 4096

/-! ## `run_research_pipeline_bench` -/

def pipelineRequest (draftLen i : Int) : RequestDescriptor φ :=
  { initRequest i 8 true (draftLen * 4) with
    currentBlockSize := if draftLen > 0 then draftLen else 2 }

def pipelineTable (numRequests : Int) : KVPageTable φ where
  entries := initKvEntry 4 4 .committed
    (FlagWord.mask KVPageFlag.resident.shift ||| FlagWord.mask KVPageFlag.committed.shift |||
      FlagWord.mask KVPageFlag.pinned.shift)
  numEntries := numRequests * 4
  pageSizeTokens := 4
  bytesPerPage := 64

def pipelinePayload (i : Int) : Int := i.tmod 16 + 1

/-! ## `run_kv_pressure_bench` -/

def pressureTable (numRequests : Int) : KVPageTable φ where
  entries := fun i =>
    let entry := initKvEntry 6 4 .committed
      (FlagWord.mask KVPageFlag.resident.shift ||| FlagWord.mask KVPageFlag.committed.shift) i
    let page := i.tmod 6
    if page = 0 ∨ page = 1 then (entry.setState .pinned).setFlag .pinned
    else if page = 2 ∨ page = 3 then
      ((entry.setState .draft).setFlag .draft).clearFlag .committed
    else if page = 4 then { entry with selected := 1, sparseRank := 0 }.setFlag .selected
    else (entry.setState .committed).setFlag .committed
  numEntries := numRequests * 6
  pageSizeTokens := 4
  bytesPerPage := 64

/-! ## `run_tier_residency_bench` -/

def residencyTier (i : Int) : MovementTier :=
  let page := i.tmod 6
  if page < 2 then .hbm else if page < 4 then .dram else .ssd

/-! ## `run_scheduler_bench` -/

def schedulerRequest (numRequests draftLen i : Int) : RequestDescriptor φ :=
  let req := { initRequest i 8 true (draftLen * 4) with
    priority := (i * 17 + 3).tmod (numRequests + 7) }
  if i.tmod 5 = 0 then req.setState .complete else req

end ResidentInference.Device

import ResidentInference.Device.State

/-! The stages of the resident loop, one definition for each device function. A stage that is
given a request in another state returns it unchanged. -/
namespace ResidentInference.Device
open Loops
variable {φ : Type}

/-! ## Draft tokens -/

/-- The indices of `tokens[offset + i]` for `0 <= i < count`. -/
def draftIndices (offset count : Int) : List Int := (Int.range 0 count).map (offset + ·)

theorem mem_draftIndices {offset count j : Int} :
    j ∈ draftIndices offset count ↔ offset ≤ j ∧ j < offset + count := by
  simp only [draftIndices, List.mem_map, Int.mem_range_iff]
  constructor
  · rintro ⟨i, hi, rfl⟩
    omega
  · rintro ⟨h1, h2⟩
    exact ⟨j - offset, by omega, by omega⟩

namespace RequestDescriptor

/-- The verification rule for one drafted token. -/
def acceptsToken (req : RequestDescriptor φ) (token : Int) : Bool :=
  !(decide (req.eosTokenId > 0) && token == req.eosTokenId) && token.tmod 4 != 0

/-- The indices of the tokens that verification accepts: its loop stops at the first rejection. -/
def acceptedDrafts (req : RequestDescriptor φ) (tokens : Int → Int) (limit : Int) : List Int :=
  (draftIndices req.draftOffset limit).takeWhile fun i => req.acceptsToken (tokens i)

/-- The indices that verification reads: the accepted ones and the first rejected one. -/
def verifiedDrafts (req : RequestDescriptor φ) (tokens : Int → Int) (limit : Int) : List Int :=
  (draftIndices req.draftOffset limit).take ((req.acceptedDrafts tokens limit).length + 1)

/-- A draft length lowered to the budget. -/
def clampToBudget (req : RequestDescriptor φ) (count : Int) : Int :=
  if count > req.budgetLeft then if req.budgetLeft > 0 then req.budgetLeft else 0 else count

/-- The token that a step without drafts, or without an accepted draft, produces. -/
def nextToken (req : RequestDescriptor φ) : Int := (req.lastToken + 1 + req.requestId).tmod 32000

/-- The start of decoding, with a first token made from the id. -/
@[simps] def seedDecode (req : RequestDescriptor φ) : RequestDescriptor φ :=
  { req with
    decodePos := 0
    outputTokenCount := 0
    lastToken := (req.requestId * 7 + 3).tmod 32000 }

@[simps] def emitNextToken (req : RequestDescriptor φ) : RequestDescriptor φ :=
  { req with
    lastToken := req.nextToken
    outputTokenCount := req.outputTokenCount + 1
    decodePos := req.decodePos + 1 }

@[simps] def emitAccepted (req : RequestDescriptor φ) (accepted : Int) : RequestDescriptor φ :=
  { req with
    lastToken := 0
    outputTokenCount := req.outputTokenCount + accepted
    decodePos := req.decodePos + accepted }

/-- `COMPLETE` on a full budget, else ready for the next step. -/
def settle (req : RequestDescriptor φ) : RequestDescriptor φ :=
  if req.outputTokenCount ≥ req.maxNewTokens then req.setState .complete
  else req.setState .decodeReady

/-- The end of a step whose last token may be the end of the sequence. -/
def settleToken (req : RequestDescriptor φ) : RequestDescriptor φ :=
  if req.lastToken = req.eosTokenId then (req.setFlag .eosSeen).setState .complete
  else req.settle

end RequestDescriptor

/-! ## KV regions -/

def allocateFakeKvPagesForRequest (kv : KVPageTable φ)
    (offset numPages requestId startToken pageSize : Int) : KVPageTable φ :=
  (Int.range 0 numPages).foldl (fun kv i => kv.modify (offset + i) fun entry =>
    { entry with
      pageId := offset + i
      requestId := requestId
      startToken := startToken + i * pageSize
      tokenCount := 0
      state := .free
      flags := 0 }) kv

def markDraftKvRegion (kv : KVPageTable φ) (offset numPages : Int) : KVPageTable φ :=
  kv.modifyAll (Int.range offset (offset + numPages)) fun entry =>
    if entry.state ≠ .free then entry else entry.markPageDraft

def commitDraftKvRegion (kv : KVPageTable φ) (offset numPages : Int) : KVPageTable φ :=
  kv.modifyAll (Int.range offset (offset + numPages)) KVPageEntry.markPageCommitted

def discardRejectedKvRegion (kv : KVPageTable φ) (offset numPages : Int) : KVPageTable φ :=
  kv.modifyAll (Int.range offset (offset + numPages)) fun entry =>
    if entry.state = .draft then entry.markPageEvictable else entry

def touchKvPages (kv : KVPageTable φ) (offset numPages : Int) : KVPageTable φ :=
  kv.modifyAll (Int.range offset (offset + numPages)) fun entry =>
    if entry.hasFlag .evictable then (entry.clearFlag .evictable).markPageResident else entry

/-! ## Prefill -/

def stagePrefill (req : RequestDescriptor φ) (kv : KVPageTable φ) :
    RequestDescriptor φ × KVPageTable φ :=
  if req.state = .prefillReady then
    let req' := req.seedDecode
    let kv' :=
      if req'.kvNumPages > 0 then
        kv.modifyAll (Int.range req'.kvTableOffset
            (req'.kvTableOffset + req'.kvNumPages)) fun entry =>
          { entry.markPageCommitted.markPagePinned.markPageResident with
            requestId := req'.requestId }
      else kv
    (req'.setState .decodeReady, kv')
  else (req, kv)

/-! ## Sparse selection -/

section
variable [DeviceFloat φ]

def sparseKvPageScore (entry : KVPageEntry φ) (decodeStep : Int) : φ :=
  let distance := entry.startToken + entry.tokenCount - decodeStep
  let distance := if distance < 0 then -distance else distance
  DeviceFloat.ofInt (entry.tokenCount * 10000 - distance * 100 - entry.layerId)

/-- The indices of `for (idx = start; idx < end && idx < num_entries; ++idx)` over the pages of
the request. -/
def RequestDescriptor.pageIndices (req : RequestDescriptor φ) (numEntries : Int) : List Int :=
  Int.range req.kvTableOffset (min (req.kvTableOffset + req.kvNumPages) numEntries)

/-- One page of the search: the better of the page and the best so far. -/
def pickPage (req : RequestDescriptor φ) (kv : KVPageTable φ) (best : Int × φ) (idx : Int) :
    Int × φ :=
  let entry := kv.entries idx
  if entry.requestId ≠ req.requestId then best
  else if !entry.hasFlag .resident || entry.hasFlag .draft then best
  else if entry.selected ≠ 0 then best
  else if best.1 < 0 || DeviceFloat.gt entry.score best.2 then (idx, entry.score)
  else best

/-- One pass over the pages for the best one that is not selected yet; `-1` when there is none. -/
def bestPage (req : RequestDescriptor φ) (kv : KVPageTable φ) : Int × φ :=
  (req.pageIndices kv.numEntries).foldl (pickPage req kv) (-1, DeviceFloat.literal (-10 ^ 30))

/-- The rounds of the selection from `rank` on, `n` of them at most. -/
def selectRounds (req : RequestDescriptor φ) (decodeStep : Int) :
    Nat → Int → KVPageTable φ → KVPageTable φ
  | 0, _, kv => kv
  | n+1, rank, kv =>
    let best := bestPage req kv
    if best.1 < 0 then kv
    else selectRounds req decodeStep n (rank + 1)
      (kv.modify best.1 (KVPageEntry.markPageSelected best.2 decodeStep rank))

/-- Clear the selection of the request's pages and give each its score. -/
def scorePages (req : RequestDescriptor φ) (decodeStep : Int) (kv : KVPageTable φ) :
    KVPageTable φ :=
  kv.modifyAll (req.pageIndices kv.numEntries) fun entry =>
    { entry.clearPageSelected with score := sparseKvPageScore entry.clearPageSelected decodeStep }

def selectSparseKvBlocks (req : RequestDescriptor φ) (kv : KVPageTable φ) (topK : Int) :
    KVPageTable φ :=
  let decodeStep := req.promptLen + req.decodePos
  let clampedTopK := if topK < 0 then 0 else topK
  selectRounds req decodeStep clampedTopK.toNat 0 (scorePages req decodeStep kv)

end

/-! ## Decode, verify, commit -/

/-- The draft buffer is `none` when its pointer is null. -/
def stageDecode (req : RequestDescriptor φ) (draftTokens : Option (Int → Int)) :
    RequestDescriptor φ × Option (Int → Int) :=
  if req.state = .decodeReady then
    if req.hasFlag .speculativeEnabled then
      let count := req.clampToBudget req.currentBlockSize
      let draftTokens' := draftTokens.map fun tokens =>
        writeCells tokens req.draftOffset count fun i =>
          (req.lastToken + 1 + i + req.requestId).tmod 32000
      ({ req with draftLen := count }.setState .draftReady, draftTokens')
    else
      -- the state is `DECODE_READY`, so leaving it is the last case of `settle`
      (req.emitNextToken.settleToken, draftTokens)
  else (req, draftTokens)

section
variable [DeviceFloat φ]
open DeviceFloat

/-- The moving average after `accepted` of `proposed` tokens. -/
def nextAcceptanceRate (ema : φ) (accepted proposed : Int) : φ :=
  let observed : φ := if proposed > 0 then div (ofInt accepted) (ofInt proposed) else literal 0
  let alpha : φ := literal (1 / 5)
  add (mul alpha observed) (mul (sub (literal 1) alpha) ema)

/-- The block size for an average. -/
def blockSizeFor (rate : φ) (kvPressure : Int) : Int :=
  let nextBlock : Int :=
    if ge rate (literal (4 / 5)) then 8 else if ge rate (literal (1 / 2)) then 4 else 1
  let nextBlock := if kvPressure ≠ 0 ∧ nextBlock > 2 then 2 else nextBlock
  if nextBlock < 1 then 1 else nextBlock

@[simps] def updateBlockSizeDevice (req : RequestDescriptor φ)
    (acceptedCount proposedCount kvPressure : Int) : RequestDescriptor φ :=
  let rate := nextAcceptanceRate req.emaAcceptanceRate acceptedCount proposedCount
  { req with
    emaAcceptanceRate := rate
    currentBlockSize := blockSizeFor rate kvPressure }

/-- Record the result of a verification and adapt the block size to it. -/
@[simps!] def RequestDescriptor.recordAccepted (req : RequestDescriptor φ) (accepted limit : Int) :
    RequestDescriptor φ :=
  let req' := { req with acceptedPrefixLen := accepted }
  updateBlockSizeDevice req' accepted limit (if req'.hasFlag .kvPressure then 1 else 0)

/-- The drafts that verification may look at. -/
def RequestDescriptor.verifyLimit (req : RequestDescriptor φ) : Int :=
  if req.draftLen > req.budgetLeft then req.budgetLeft else req.draftLen

def RequestDescriptor.acceptedCount (req : RequestDescriptor φ)
    (draftTokens : Option (Int → Int)) : Int :=
  match draftTokens with
  | none => 0
  | some tokens => (req.acceptedDrafts tokens req.verifyLimit).length

def stageSpecVerify (req : RequestDescriptor φ) (draftTokens : Option (Int → Int)) :
    RequestDescriptor φ :=
  if req.state = .draftReady ∨ req.state = .verifyReady then
    let limit := req.verifyLimit
    let accepted := req.acceptedCount draftTokens
    (req.recordAccepted accepted limit).setState .commitReady
  else req

end

/-- The pages of a commit: those that the accepted tokens cover are committed, the drafts among
the others become evictable. -/
def commitKvPages (kv : KVPageTable φ) (offset totalPagesForRequest accepted : Int) :
    KVPageTable φ :=
  let hitPages := (accepted + kv.pageSizeTokens - 1).tdiv kv.pageSizeTokens
  let draftPages := totalPagesForRequest - hitPages
  let hitPages := if hitPages > totalPagesForRequest then totalPagesForRequest else hitPages
  let draftPages := if draftPages < 0 then 0 else draftPages
  let kv' := commitDraftKvRegion kv offset hitPages
  if draftPages > 0 then discardRejectedKvRegion kv' (offset + hitPages) draftPages else kv'

def stageCommit (req : RequestDescriptor φ) (kv : KVPageTable φ) :
    RequestDescriptor φ × KVPageTable φ :=
  if req.state = .commitReady then
    let accepted := req.acceptedPrefixLen
    if accepted = 0 then (req.emitNextToken.settleToken, kv)
    else
      let req' := req.emitAccepted accepted
      let kv' :=
        if req'.kvNumPages > 0 then commitKvPages kv req'.kvTableOffset req'.kvNumPages accepted
        else kv
      (req'.settle, kv')
  else (req, kv)

end ResidentInference.Device

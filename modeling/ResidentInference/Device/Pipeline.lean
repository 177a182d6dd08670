import ResidentInference.Device.Gather
import ResidentInference.Device.VerifyCommit

/-! The resident pipeline against its standalone kernels. One iteration of the pipeline differs
from them in two ways: it selects `max_selected_pages` pages where they select a block, and its
fallback does not record an end token. -/
namespace ResidentInference.Device
open Loops
variable {φ : Type}

structure ResidentPipelineMetrics where
  requestId : Int := 0
  loopIterations : Int := 0
  blocksSelected : Int := 0
  bytesRead : Int := 0
  acceptedTokens : Int := 0
  committedPages : Int := 0
  deriving DecidableEq, Repr

/-! ## The parts of an iteration -/

/-- One page of the count and the sum. -/
def addSelected (launch : GatherLaunch) (req : RequestDescriptor φ) (kv : KVPageTable φ)
    (acc : Int × Int) (idx : Int) : Int × Int :=
  let entry := kv.entries idx
  if entry.requestId ≠ req.requestId ∨ entry.selected = 0 then acc
  else (acc.1 + 1, acc.2 + launch.pagePayloads (entry.pageId * launch.intsPerPage))

/-- The number of the selected pages of the request and the sum of their first words. -/
def gatherSelected (launch : GatherLaunch) (req : RequestDescriptor φ) (kv : KVPageTable φ) :
    Int × Int :=
  (req.pageIndices kv.numEntries).foldl (addSelected launch req kv) (0, 0)

def pipelineDraft (req : RequestDescriptor φ) (draftTokens : Int → Int) (payloadSum : Int) :
    RequestDescriptor φ × (Int → Int) :=
  let count := req.sparseDraftCount
  let req := { req with draftLen := count }
  (req, req.writeSparseDrafts draftTokens payloadSum count)

/-- The fallback of the pipeline; it does not set `EOS_SEEN`. -/
def pipelineFallback (req : RequestDescriptor φ) : RequestDescriptor φ :=
  let req := req.emitNextToken
  if req.lastToken = req.eosTokenId ∨ req.outputTokenCount ≥ req.maxNewTokens then
    req.setState .complete
  else req.setState .decodeReady

/-- The end of an iteration, and the pages that it has committed. -/
def pipelineCommit (req : RequestDescriptor φ) (kv : KVPageTable φ) (accepted : Int) :
    RequestDescriptor φ × KVPageTable φ × Int :=
  if accepted = 0 then (pipelineFallback req, kv, 0)
  else
    let req := req.emitAccepted accepted
    let committedPages := coveredPages kv.pageSizeTokens req.kvNumPages accepted
    let releasedPages := remainingPages req.kvNumPages committedPages
    (req.settle, commitAndReleasePages kv req.kvTableOffset committedPages releasedPages,
      committedPages)

section
variable [DeviceFloat φ]

/-- One iteration of the loop on a request that is not done. -/
def residentSparseDecodePipelineIteration (launch : GatherLaunch) (req : RequestDescriptor φ)
    (kv : KVPageTable φ) (draftTokens : Int → Int) (metric : ResidentPipelineMetrics) :
    RequestDescriptor φ × KVPageTable φ × (Int → Int) × ResidentPipelineMetrics :=
  let kv := selectSparseKvBlocks req kv launch.maxSelectedPages
  let (selectedCount, payloadSum) := gatherSelected launch req kv
  let (req, draftTokens) := pipelineDraft req draftTokens payloadSum
  let accepted : Int := (req.acceptedDrafts draftTokens req.draftLen).length
  let req := req.recordAccepted accepted req.draftLen
  let (req, kv, committedPages) := pipelineCommit req kv accepted
  (req, kv, draftTokens, { metric with
    loopIterations := metric.loopIterations + 1
    blocksSelected := metric.blocksSelected + selectedCount
    bytesRead := metric.bytesRead + selectedCount * launch.intsPerPage * 4
    acceptedTokens := metric.acceptedTokens + accepted
    committedPages := metric.committedPages + committedPages })

/-- The three standalone kernels on one request. -/
def standaloneKernels (launch : GatherLaunch) (req : RequestDescriptor φ) (kv : KVPageTable φ)
    (draftTokens : Int → Int) (buffers : GatherBuffers) :
    RequestDescriptor φ × KVPageTable φ × (Int → Int) :=
  let (kv, buffers, _) := sparseKvGatherAndScoreKernel launch req kv buffers
  let (req, draftTokens, _) := compactedSparseDecodeKernel launch req buffers draftTokens
  let (req, kv, _) := fusedVerifyAndCommitKernel req kv (some draftTokens)
  (req, kv, draftTokens)

end

/-! ## Selection and payload -/

theorem foldl_addSelected {launch : GatherLaunch} {req : RequestDescriptor φ}
    {kv : KVPageTable φ} {is : List Int}
    (h : ∀ i ∈ is, (kv.entries i).selected ≠ 0 → (kv.entries i).requestId = req.requestId)
    (acc : Int × Int) :
    (is.foldl (addSelected launch req kv) acc).2 =
      acc.2 + ((is.filter fun i => decide ((kv.entries i).selected ≠ 0)).map fun i =>
        launch.firstWord (kv.entries i).pageId).sum := by
  induction is generalizing acc with
  | nil => simp
  | cons i is ih =>
    have hi := h i List.mem_cons_self
    rw [List.foldl_cons, ih fun j hj => h j (List.mem_cons_of_mem i hj)]
    by_cases hsel : (kv.entries i).selected = 0
    · simp [addSelected, hsel]
    · simp [addSelected, hsel, hi hsel, GatherLaunch.firstWord, add_assoc]

/-- After a selection the pipeline sums the first words of all selected pages. -/
theorem SelectionOrder.gatherSelected {req : RequestDescriptor φ} {kv₀ kv : KVPageTable φ}
    {order : List Int} (h : SelectionOrder req kv₀ kv order) (launch : GatherLaunch) :
    (gatherSelected launch req kv).2 = selectedSum launch req kv := by
  refine (foldl_addSelected (fun i hi hsel => ?_) (0, 0)).trans (zero_add _)
  rw [h.numEntries] at hi
  exact (h.isCandidate (h.mem_of_selected hi hsel)).1

/-! ## Agreement -/

/-- The two widths reach equally many candidates. -/
def SelectsAlike (launch : GatherLaunch) (req : RequestDescriptor φ) (kv : KVPageTable φ) : Prop :=
  min launch.maxSelectedPages.toNat (candidatePages req kv).length =
    min (gatherWidth launch req).toNat (candidatePages req kv).length

instance (launch : GatherLaunch) (req : RequestDescriptor φ) (kv : KVPageTable φ) :
    Decidable (SelectsAlike launch req kv) := inferInstanceAs (Decidable (_ = _))

theorem pages_unguarded {req : RequestDescriptor φ} {kv : KVPageTable φ} {accepted : Int}
    (hsize : 1 ≤ kv.pageSizeTokens) (haccepted : 1 ≤ accepted) (hpages : req.kvNumPages ≤ 0) :
    commitAndReleasePages kv req.kvTableOffset
      (coveredPages kv.pageSizeTokens req.kvNumPages accepted)
      (remainingPages req.kvNumPages
        (coveredPages kv.pageSizeTokens req.kvNumPages accepted)) = kv := by
  have hcovered : coveredPages kv.pageSizeTokens req.kvNumPages accepted = req.kvNumPages := by
    have hpos : 1 ≤ (accepted + kv.pageSizeTokens - 1).tdiv kv.pageSizeTokens := by
      rw [Int.tdiv_eq_ediv_of_nonneg (by omega), Int.le_ediv_iff_mul_le (by omega)]
      omega
    simp only [coveredPages]
    rw [if_pos (by omega)]
  have hremaining : remainingPages req.kvNumPages req.kvNumPages = 0 := by
    simp [remainingPages]
  rw [hcovered, hremaining]
  simp [commitAndReleasePages, commitDraftKvRegion, KVPageTable.modifyAll,
    range_eq_nil (by omega : req.kvTableOffset + req.kvNumPages ≤ req.kvTableOffset)]

/-- The pages that the selection marks are not changed. -/
structure KeepsSelection (kv kv' : KVPageTable φ) : Prop where
  numEntries : kv'.numEntries = kv.numEntries
  selected : ∀ i, (kv'.entries i).selected = (kv.entries i).selected

theorem KeepsSelection.trans {kv kv₁ kv₂ : KVPageTable φ} (h : KeepsSelection kv kv₁)
    (h' : KeepsSelection kv₁ kv₂) : KeepsSelection kv kv₂ :=
  ⟨h'.numEntries.trans h.numEntries, fun i => (h'.selected i).trans (h.selected i)⟩

theorem KeepsSelection.selectedPages {kv kv' : KVPageTable φ} (h : KeepsSelection kv kv')
    (req : RequestDescriptor φ) : selectedPages req kv' = selectedPages req kv := by
  simp only [Device.selectedPages, h.numEntries, h.selected]

theorem keepsSelection_modifyAll (kv : KVPageTable φ) (start stop : Int)
    {f : KVPageEntry φ → KVPageEntry φ} (hf : ∀ e, (f e).selected = e.selected) :
    KeepsSelection kv (kv.modifyAll (Int.range start stop) f) := by
  refine ⟨kv.modifyAll_numEntries f _, fun i => ?_⟩
  rw [kv.modifyAll_entries f (nodup_range start stop)]
  split
  · exact hf _
  · rfl

theorem keepsSelection_commitAndReleasePages (kv : KVPageTable φ)
    (offset committedPages releasedPages : Int) :
    KeepsSelection kv (commitAndReleasePages kv offset committedPages releasedPages) := by
  have hcommit : KeepsSelection kv (commitDraftKvRegion kv offset committedPages) :=
    keepsSelection_modifyAll kv _ _ fun _ => rfl
  simp only [commitAndReleasePages]
  split
  · refine hcommit.trans (keepsSelection_modifyAll _ _ _ fun e => ?_)
    split <;> rfl
  · exact hcommit

/-- The first draft of the request is rejected, and the token that replaces it is an end token
that the request has not seen yet. -/
def DropsEndToken (req : RequestDescriptor φ) (firstDraft : Int) : Prop :=
  req.acceptsToken firstDraft = false ∧ req.nextToken = req.eosTokenId ∧
    req.hasFlag .eosSeen = false

theorem sparseDraftCount_bounds {req : RequestDescriptor φ} (h : 0 < req.budgetLeft) :
    0 < req.sparseDraftCount ∧ req.sparseDraftCount ≤ req.budgetLeft := by
  simp only [RequestDescriptor.sparseDraftCount, RequestDescriptor.clampToBudget]
  grind

theorem acceptedDrafts_length_eq_zero (req : RequestDescriptor φ) (tokens : Int → Int)
    {count : Int} (h : 0 < count) : (req.acceptedDrafts tokens count).length = 0 ↔
      req.acceptsToken (tokens req.draftOffset) = false := by
  obtain ⟨n, hn⟩ : ∃ n : Nat, (count - 0).toNat = n + 1 := ⟨count.toNat - 1, by omega⟩
  simp only [RequestDescriptor.acceptedDrafts, draftIndices, Int.range, hn,
    List.range_succ_eq_map, List.map_cons, List.takeWhile_cons]
  simp

/-- The two fallbacks differ on an end token that is not recorded yet. -/
theorem pipelineFallback_eq_iff (req : RequestDescriptor φ) :
    pipelineFallback req = req.emitNextToken.settleToken ↔
      ¬ (req.nextToken = req.eosTokenId ∧ req.hasFlag .eosSeen = false) := by
  by_cases heos : req.nextToken = req.eosTokenId
  · have hlast : req.emitNextToken.lastToken = req.emitNextToken.eosTokenId := heos
    simp only [pipelineFallback, RequestDescriptor.settleToken, hlast, heos, true_or, if_true,
      true_and, Bool.not_eq_false]
    constructor
    · intro h
      have hflags := congrArg RequestDescriptor.flags h
      exact (FlagWord.set_eq_self_iff _ _).mp hflags.symm
    · intro h
      have hflags := (FlagWord.set_eq_self_iff _ _).mpr h
      simp only [RequestDescriptor.setFlag, RequestDescriptor.setState,
        RequestDescriptor.emitNextToken_flags, hflags]
  · have hlast : ¬ req.emitNextToken.lastToken = req.emitNextToken.eosTokenId := heos
    simp only [pipelineFallback, RequestDescriptor.settleToken, RequestDescriptor.settle, hlast,
      heos, false_or, if_false, false_and, not_false_iff]

section
variable [DeviceFloat φ]

theorem selectSparseKvBlocks_of_empty {req : RequestDescriptor φ} (hoff : 0 ≤ req.kvTableOffset)
    {kv : KVPageTable φ} (h : req.pageIndices kv.numEntries = []) (topK : Int) :
    selectSparseKvBlocks req kv topK = kv := by
  have hnone : (candidatePages req kv).length = 0 := by simp [candidatePages, h]
  rw [selectSparseKvBlocks_congr hoff kv (b := 0) (by omega)]
  simp [selectSparseKvBlocks, selectRounds, scorePages, h, KVPageTable.modifyAll]

theorem gather_table {launch : GatherLaunch} {req : RequestDescriptor φ}
    (hoff : 0 ≤ req.kvTableOffset) {kv : KVPageTable φ} (h : SelectsAlike launch req kv)
    (buffers : GatherBuffers) :
    (sparseKvGatherAndScoreKernel launch req kv buffers).1 =
      selectSparseKvBlocks req kv launch.maxSelectedPages := by
  by_cases hpages : req.kvNumPages ≤ 0
  · have hnone : req.pageIndices kv.numEntries = [] := range_eq_nil (by omega)
    simp only [sparseKvGatherAndScoreKernel, hpages, if_true,
      selectSparseKvBlocks_of_empty hoff hnone]
  · simp only [sparseKvGatherAndScoreKernel, hpages, if_false]
    exact selectSparseKvBlocks_congr hoff kv h.symm

/-- What the fused kernel does to a request whose drafts have just been written. -/
theorem fused_of_draftReady {req : RequestDescriptor φ} (hs : req.state = .draftReady)
    (kv : KVPageTable φ) (tokens : Int → Int) {accepted : Int}
    (haccepted : req.acceptedCount (some tokens) = accepted) :
    (fusedVerifyAndCommitKernel req kv (some tokens)).1 =
        (if accepted = 0 then
          (req.recordAccepted accepted req.verifyLimit).emitNextToken.settleToken
        else ((req.recordAccepted accepted req.verifyLimit).emitAccepted accepted).settle) ∧
      (fusedVerifyAndCommitKernel req kv (some tokens)).2.1 =
        if accepted = 0 ∨ req.kvNumPages ≤ 0 then kv
        else commitAndReleasePages kv req.kvTableOffset
          (coveredPages kv.pageSizeTokens req.kvNumPages accepted)
          (remainingPages req.kvNumPages
            (coveredPages kv.pageSizeTokens req.kvNumPages accepted)) := by
  simp only [fusedVerifyAndCommitKernel, hs, true_or, if_true, haccepted]
  by_cases h0 : accepted = 0
  · simp [h0]
  · by_cases hpages : req.kvNumPages ≤ 0
    · simp [h0, hpages, not_lt.mpr hpages]
    · simp [h0, hpages, not_le.mp hpages]

theorem keepsSelection_fused (req : RequestDescriptor φ) (kv : KVPageTable φ)
    (draftTokens : Option (Int → Int)) :
    KeepsSelection kv (fusedVerifyAndCommitKernel req kv draftTokens).2.1 := by
  simp only [fusedVerifyAndCommitKernel]
  split
  · split
    · exact ⟨rfl, fun _ => rfl⟩
    · split
      · exact keepsSelection_commitAndReleasePages _ _ _ _
      · exact ⟨rfl, fun _ => rfl⟩
  · exact ⟨rfl, fun _ => rfl⟩

/-- A launch on a request that is ready, in which every index lies in its array. -/
structure PipelineInput (launch : GatherLaunch) (req : RequestDescriptor φ) (kv : KVPageTable φ) :
    Prop where
  ready : req.state = .decodeReady
  budget : 0 < req.budgetLeft
  width : 1 ≤ launch.maxSelectedPages
  ints : 1 ≤ launch.intsPerPage
  offset : 0 ≤ req.kvTableOffset
  pageSize : 1 ≤ kv.pageSizeTokens
  pageIds : ∀ i ∈ candidatePages req kv, 0 ≤ (kv.entries i).pageId

/-- The first draft of the pipeline. -/
def firstSparseDraft (launch : GatherLaunch) (req : RequestDescriptor φ) (kv : KVPageTable φ) :
    Int :=
  (req.lastToken + selectedSum launch req (selectSparseKvBlocks req kv launch.maxSelectedPages) +
    req.requestId + 1).tmod 32000

/-- The descriptor, the table and the drafted tokens are left alike. -/
def PipelineMatches (launch : GatherLaunch) (req : RequestDescriptor φ) (kv : KVPageTable φ)
    (draftTokens : Int → Int) (buffers : GatherBuffers) (metric : ResidentPipelineMetrics) : Prop :=
  let fused := residentSparseDecodePipelineIteration launch req kv draftTokens metric
  let standalone := standaloneKernels launch req kv draftTokens buffers
  fused.1 = standalone.1 ∧ fused.2.1 = standalone.2.1 ∧
    ∀ i ∈ draftIndices fused.1.draftOffset fused.1.draftLen, fused.2.2.1 i = standalone.2.2 i

/-- The state after the drafting part of the pipeline. -/
def drafted (req : RequestDescriptor φ) : RequestDescriptor φ :=
  { req with draftLen := req.sparseDraftCount }

theorem pipelineIteration_eq (launch : GatherLaunch) {req : RequestDescriptor φ}
    (hoff : 0 ≤ req.kvTableOffset) (kv : KVPageTable φ) (draftTokens : Int → Int)
    (metric : ResidentPipelineMetrics) :
    let table := selectSparseKvBlocks req kv launch.maxSelectedPages
    let tokens := req.writeSparseDrafts draftTokens (selectedSum launch req table)
      req.sparseDraftCount
    let accepted : Int := (req.acceptedDrafts tokens req.sparseDraftCount).length
    let result := residentSparseDecodePipelineIteration launch req kv draftTokens metric
    let committed := pipelineCommit
      ((drafted req).recordAccepted accepted req.sparseDraftCount) table accepted
    result.1 = committed.1 ∧ result.2.1 = committed.2.1 ∧ result.2.2.1 = tokens := by
  obtain ⟨order, h, -⟩ := selectSparseKvBlocks_order hoff kv launch.maxSelectedPages
  simp only [residentSparseDecodePipelineIteration, pipelineDraft, h.gatherSelected launch]
  exact ⟨rfl, rfl, rfl⟩

theorem standaloneKernels_eq {launch : GatherLaunch} {req : RequestDescriptor φ}
    {kv : KVPageTable φ} (hin : PipelineInput launch req kv) (h : SelectsAlike launch req kv)
    (draftTokens : Int → Int) (buffers : GatherBuffers) :
    let table := selectSparseKvBlocks req kv launch.maxSelectedPages
    let tokens := req.writeSparseDrafts draftTokens (selectedSum launch req table)
      req.sparseDraftCount
    let result := standaloneKernels launch req kv draftTokens buffers
    let fused := fusedVerifyAndCommitKernel ((drafted req).setState .draftReady) table (some tokens)
    result.1 = fused.1 ∧ result.2.1 = fused.2.1 ∧ result.2.2 = tokens := by
  have hlen : min (gatherWidth launch req).toNat (candidatePages req kv).length ≤
      launch.maxSelectedPages.toNat := by
    rw [← h]
    exact min_le_left _ _
  have hsum := compactedSum_gather hin.ints hin.offset kv hin.pageIds hlen buffers
  rw [gather_table hin.offset h] at hsum
  have hcount := (sparseDraftCount_bounds hin.budget).1
  simp only [standaloneKernels, compactedSparseDecodeKernel, hin.ready, ne_eq, not_true,
    if_false, hsum, gather_table hin.offset h, gt_iff_lt, hcount, if_true]
  exact ⟨rfl, rfl, rfl⟩

/-- With equal selections the iteration differs from the kernels in its fallback only. -/
theorem pipelineMatches_of_selectsAlike {launch : GatherLaunch} {req : RequestDescriptor φ}
    {kv : KVPageTable φ} (hin : PipelineInput launch req kv) (h : SelectsAlike launch req kv)
    (draftTokens : Int → Int) (buffers : GatherBuffers) (metric : ResidentPipelineMetrics) :
    PipelineMatches launch req kv draftTokens buffers metric ↔
      ¬ DropsEndToken req (firstSparseDraft launch req kv) := by
  obtain ⟨hp1, hp2, hp3⟩ := pipelineIteration_eq launch hin.offset kv draftTokens metric
  obtain ⟨hs1, hs2, hs3⟩ := standaloneKernels_eq hin h draftTokens buffers
  obtain ⟨hcount, hbudget⟩ := sparseDraftCount_bounds hin.budget
  have hlimit : ((drafted req).setState .draftReady).verifyLimit = req.sparseDraftCount :=
    if_neg (not_lt.mpr hbudget)
  simp only [PipelineMatches, hp1, hp2, hp3, hs1, hs2, hs3]
  generalize htokens : req.writeSparseDrafts draftTokens (selectedSum launch req
    (selectSparseKvBlocks req kv launch.maxSelectedPages)) req.sparseDraftCount = tokens
  have hfirst : tokens req.draftOffset = firstSparseDraft launch req kv := by
    rw [← htokens, RequestDescriptor.writeSparseDrafts, writeCells_apply, if_pos (by omega)]
    simp [firstSparseDraft]
  have hzero := acceptedDrafts_length_eq_zero req tokens hcount
  generalize hacc : ((req.acceptedDrafts tokens req.sparseDraftCount).length : Int) = accepted
  have haccepted : ((drafted req).setState .draftReady).acceptedCount (some tokens) = accepted := by
    simp only [RequestDescriptor.acceptedCount, hlimit]
    exact hacc
  have hdraft : ((drafted req).setState .draftReady).state = .draftReady := rfl
  obtain ⟨hf1, hf2⟩ := fused_of_draftReady hdraft
    (selectSparseKvBlocks req kv launch.maxSelectedPages) tokens haccepted
  rw [hf1, hf2, hlimit]
  by_cases h0 : accepted = 0
  · have hreject : req.acceptsToken (firstSparseDraft launch req kv) = false := by
      rw [← hfirst]
      exact hzero.mp (by omega)
    have hfallback := pipelineFallback_eq_iff ((drafted req).recordAccepted 0 req.sparseDraftCount)
    simp only [pipelineCommit, h0, true_or, if_true, implies_true, and_true, DropsEndToken, hreject,
      true_and]
    exact hfallback
  · have haccept : req.acceptsToken (firstSparseDraft launch req kv) = true := by
      rw [← hfirst, ← Bool.not_eq_false]
      exact fun hreject => h0 (by rw [← hacc, hzero.mpr hreject]; rfl)
    have hpages := selectSparseKvBlocks_pageSizeTokens req kv launch.maxSelectedPages
    simp only [pipelineCommit, h0, if_false, false_or, DropsEndToken, haccept, Bool.true_eq_false,
      false_and, not_false_iff, iff_true]
    refine ⟨rfl, ?_, fun _ _ => trivial⟩
    split
    · next hnone =>
      have hunguarded : req.kvNumPages ≤ 0 := hnone
      exact pages_unguarded (by rw [hpages]; exact hin.pageSize) (by omega) hunguarded
    · rfl

theorem not_pipelineMatches {launch : GatherLaunch} {req : RequestDescriptor φ}
    {kv : KVPageTable φ} (hin : PipelineInput launch req kv) (h : ¬ SelectsAlike launch req kv)
    (draftTokens : Int → Int) (buffers : GatherBuffers) (metric : ResidentPipelineMetrics) :
    ¬ PipelineMatches launch req kv draftTokens buffers metric := by
  rintro ⟨-, htable, -⟩
  have hpages : ¬ req.kvNumPages ≤ 0 := fun hle => h (by
    have hnone : req.pageIndices kv.numEntries = [] := range_eq_nil (by omega)
    simp [SelectsAlike, candidatePages, hnone])
  obtain ⟨order, horder, hlen⟩ := selectSparseKvBlocks_order hin.offset kv launch.maxSelectedPages
  obtain ⟨order', horder', hlen'⟩ :=
    selectSparseKvBlocks_order hin.offset kv (gatherWidth launch req)
  have hpipeline : KeepsSelection (selectSparseKvBlocks req kv launch.maxSelectedPages)
      (residentSparseDecodePipelineIteration launch req kv draftTokens metric).2.1 := by
    rw [(pipelineIteration_eq launch hin.offset kv draftTokens metric).2.1, pipelineCommit]
    split
    · exact ⟨rfl, fun _ => rfl⟩
    · exact keepsSelection_commitAndReleasePages _ _ _ _
  have hstandalone : KeepsSelection (selectSparseKvBlocks req kv (gatherWidth launch req))
      (standaloneKernels launch req kv draftTokens buffers).2.1 := by
    simp only [standaloneKernels, sparseKvGatherAndScoreKernel, hpages, if_false]
    exact keepsSelection_fused _ _ _
  refine h ?_
  rw [SelectsAlike, ← hlen, ← hlen', ← horder.perm.length_eq, ← horder'.perm.length_eq,
    ← hpipeline.selectedPages, ← hstandalone.selectedPages, htable]

/-- One iteration of the pipeline leaves what the three kernels leave exactly when the two
selection widths reach equally many candidates and the fallback loses no end token. -/
theorem pipelineMatches_iff {launch : GatherLaunch} {req : RequestDescriptor φ}
    {kv : KVPageTable φ} (hin : PipelineInput launch req kv) (draftTokens : Int → Int)
    (buffers : GatherBuffers) (metric : ResidentPipelineMetrics) :
    PipelineMatches launch req kv draftTokens buffers metric ↔
      SelectsAlike launch req kv ∧ ¬ DropsEndToken req (firstSparseDraft launch req kv) := by
  by_cases h : SelectsAlike launch req kv
  · rw [pipelineMatches_of_selectsAlike hin h]
    simp [h]
  · simp only [h, false_and, iff_false]
    exact not_pipelineMatches hin h draftTokens buffers metric

end

/-- The launch of the host for blocks of four pages. -/
def pipelineLaunch (draftLen : Int) : GatherLaunch where
  pagePayloads := pipelinePayload
  intsPerPage := 16
  maxSelectedPages := if draftLen > 0 then draftLen else 2
  requestSlot := 0

theorem pipelineInput_host (eosTokenId currentBlockSize : Int) :
    let req : RequestDescriptor ℚ := { pipelineRequest 4 0 with
      eosTokenId := eosTokenId
      currentBlockSize := currentBlockSize }
    PipelineInput (pipelineLaunch 4) req (pipelineTable 1) where
  ready := rfl
  budget := by simp [RequestDescriptor.budgetLeft, pipelineRequest, initRequest]
  width := by decide
  ints := by decide
  offset := by simp [pipelineRequest, initRequest]
  pageSize := by decide
  pageIds := by
    intro i hi
    have hregion := Int.mem_range_iff.mp (List.mem_filter.mp hi).1
    simpa [pipelineTable, initKvEntry, pipelineRequest, initRequest] using hregion.1

/-- The first request of the host, with a block that reaches all its pages and no end token among its
drafts. -/
theorem pipelineMatches_host :
    let req : RequestDescriptor ℚ := { pipelineRequest 4 0 with
      eosTokenId := 0
      currentBlockSize := 4 }
    PipelineMatches (pipelineLaunch 4) req (pipelineTable 1) (fun _ => 0)
      ⟨fun _ => 0, fun _ => 0⟩ {} := by
  refine (pipelineMatches_iff (pipelineInput_host 0 4) _ _ _).mpr ⟨by decide +kernel, fun h => ?_⟩
  exact absurd h.2.1 (by decide +kernel)

/-- The first request of the host with the end token 12, whose fallback the pipeline does not
record; and with a block of one page, where the kernels select one page and the pipeline four. -/
theorem not_pipelineMatches_host :
    let endToken : RequestDescriptor ℚ := { pipelineRequest 4 0 with
      eosTokenId := 12
      currentBlockSize := 4 }
    let oneBlock : RequestDescriptor ℚ := { pipelineRequest 4 0 with
      eosTokenId := 0
      currentBlockSize := 1 }
    (PipelineInput (pipelineLaunch 4) endToken (pipelineTable 1) ∧
      ¬ PipelineMatches (pipelineLaunch 4) endToken (pipelineTable 1) (fun _ => 0)
        ⟨fun _ => 0, fun _ => 0⟩ {}) ∧
    PipelineInput (pipelineLaunch 4) oneBlock (pipelineTable 1) ∧
      ¬ PipelineMatches (pipelineLaunch 4) oneBlock (pipelineTable 1) (fun _ => 0)
        ⟨fun _ => 0, fun _ => 0⟩ {} := by
  refine ⟨⟨pipelineInput_host 12 4, fun h => ?_⟩, pipelineInput_host 0 1, ?_⟩
  · rw [pipelineMatches_of_selectsAlike (pipelineInput_host 12 4) (by decide +kernel)] at h
    exact h ⟨by decide +kernel, by decide +kernel, by decide +kernel⟩
  · exact not_pipelineMatches (pipelineInput_host 0 1) (by decide +kernel) _ _ _

end ResidentInference.Device

import ResidentInference.Device.PipelineRuns
import Mathlib.Algebra.BigOperators.Fin

/-! The metrics of the resident pipeline: what a complete run of the benchmark has counted, and that
it has completed every request. -/
namespace ResidentInference.Device
open Loops Interleaving
variable {φ : Type}

/-! ## The pages of a request -/

/-- All pages of the request are in the table and can be selected. -/
structure PagesReady (req : RequestDescriptor φ) (kv : KVPageTable φ) : Prop where
  offset : 0 ≤ req.kvTableOffset
  numPages : 0 ≤ req.kvNumPages
  inTable : req.kvTableOffset + req.kvNumPages ≤ kv.numEntries
  pageSize : 1 ≤ kv.pageSizeTokens
  candidates : ∀ i, InRegion req.kvTableOffset req.kvNumPages i → IsCandidate req (kv.entries i)

theorem PagesReady.length_candidatePages {req : RequestDescriptor φ} {kv : KVPageTable φ}
    (h : PagesReady req kv) : (candidatePages req kv).length = req.kvNumPages.toNat := by
  have hall : candidatePages req kv = req.pageIndices kv.numEntries := by
    refine List.filter_eq_self.mpr fun i hi => ?_
    exact decide_eq_true (h.candidates i (inRegion_of_mem_pageIndices hi))
  have hin := h.inTable
  rw [hall, RequestDescriptor.pageIndices, length_range, min_eq_left hin]
  omega

theorem isCandidate_markPageCommitted {req : RequestDescriptor φ} {entry : KVPageEntry φ}
    (h : IsCandidate req entry) : IsCandidate req entry.markPageCommitted := by
  obtain ⟨hid, hresident, hdraft⟩ := h
  refine ⟨hid, ?_, ?_⟩ <;>
    simp [KVPageEntry.markPageCommitted, KVPageEntry.setFlag, KVPageEntry.clearFlag,
      KVPageEntry.setState, KVPageEntry.hasFlag, KVPageFlag.shift]

theorem isCandidate_markPageEvictable {req : RequestDescriptor φ} {entry : KVPageEntry φ}
    (h : IsCandidate req entry) : IsCandidate req entry.markPageEvictable := by
  obtain ⟨hid, hresident, hdraft⟩ := h
  refine ⟨hid, ?_, ?_⟩
  · simpa [KVPageEntry.markPageEvictable, KVPageEntry.setFlag, KVPageEntry.clearFlag,
      KVPageEntry.setState, KVPageEntry.hasFlag, KVPageFlag.shift] using hresident
  · simpa [KVPageEntry.markPageEvictable, KVPageEntry.setFlag, KVPageEntry.clearFlag,
      KVPageEntry.setState, KVPageEntry.hasFlag, KVPageFlag.shift] using hdraft

theorem isCandidate_commitPages {req : RequestDescriptor φ} {kv : KVPageTable φ} {i : Int}
    (h : IsCandidate req (kv.entries i)) (other : RequestDescriptor φ)
    (pageSizeTokens accepted : Int) :
    IsCandidate req ((commitPages other pageSizeTokens accepted kv).entries i) := by
  rw [commitPages]
  split
  · exact h
  · rw [entries_commitAndReleasePages]
    split
    · exact isCandidate_markPageCommitted h
    · split
      · exact isCandidate_markPageEvictable h
      · exact h

/-- One count for each selected page. -/
theorem foldl_addSelected_count {launch : GatherLaunch} {req : RequestDescriptor φ}
    {kv : KVPageTable φ} {is : List Int}
    (h : ∀ i ∈ is, (kv.entries i).selected ≠ 0 → (kv.entries i).requestId = req.requestId)
    (acc : Int × Int) :
    (is.foldl (addSelected launch req kv) acc).1 =
      acc.1 + (is.filter fun i => decide ((kv.entries i).selected ≠ 0)).length := by
  induction is generalizing acc with
  | nil => simp
  | cons i is ih =>
    have hi := h i List.mem_cons_self
    rw [List.foldl_cons, ih fun j hj => h j (List.mem_cons_of_mem i hj)]
    by_cases hsel : (kv.entries i).selected = 0
    · simp [addSelected, hsel]
    · simp [addSelected, hsel, hi hsel]
      omega

theorem SelectionOrder.gatherSelected_count {req : RequestDescriptor φ} {kv₀ kv : KVPageTable φ}
    {order : List Int} (h : SelectionOrder req kv₀ kv order) (launch : GatherLaunch) :
    (Device.gatherSelected launch req kv).1 = order.length := by
  have hcount :
      (Device.gatherSelected launch req kv).1 = 0 + ((selectedPages req kv).length : Int) := by
    refine foldl_addSelected_count (fun i hi hsel => ?_) (0, 0)
    rw [h.numEntries] at hi
    exact (h.isCandidate (h.mem_of_selected hi hsel)).1
  rw [hcount, zero_add, h.perm.length_eq]

/-- Without a cap the covered pages hold the accepted tokens, and each holds one of them. -/
theorem coveredPages_bounds {pageSizeTokens totalPages accepted : Int} (hps : 1 ≤ pageSizeTokens)
    (h0 : 0 ≤ accepted) (hle : accepted ≤ totalPages * pageSizeTokens) :
    coveredPages pageSizeTokens totalPages accepted ≤ accepted ∧
      accepted ≤ coveredPages pageSizeTokens totalPages accepted * pageSizeTokens := by
  rw [coveredPages_eq_min, Int.tdiv_eq_ediv_of_nonneg (by omega)]
  have hlt := Int.lt_ediv_add_one_mul_self (accepted + pageSizeTokens - 1)
    (by omega : 0 < pageSizeTokens)
  have hdiv := Int.ediv_mul_le (accepted + pageSizeTokens - 1) (by omega : pageSizeTokens ≠ 0)
  generalize (accepted + pageSizeTokens - 1) / pageSizeTokens = pages at hlt hdiv ⊢
  constructor
  · refine (min_le_right _ _).trans ?_
    nlinarith
  · obtain hmin | hmin := min_choice totalPages pages
    · rw [hmin]
      exact hle
    · rw [hmin]
      nlinarith

/-! ## One iteration -/

theorem pipelineFallback_spec (req : RequestDescriptor φ) :
    let req' := pipelineFallback req
    req'.outputTokenCount = req.outputTokenCount + 1 ∧ req'.maxNewTokens = req.maxNewTokens ∧
      req'.requestId = req.requestId ∧
      (req'.state = .decodeReady ∧ req'.outputTokenCount < req'.maxNewTokens ∨
        req'.state = .complete ∧
          (req'.maxNewTokens ≤ req'.outputTokenCount ∨ req'.lastToken = req'.eosTokenId)) := by
  simp only [pipelineFallback]
  split
  · next hend => exact ⟨rfl, rfl, rfl, Or.inr ⟨rfl, hend.symm⟩⟩
  · next hmore => exact ⟨rfl, rfl, rfl, Or.inl ⟨rfl, not_le.mp fun hle => hmore (Or.inr hle)⟩⟩

theorem settle_emitAccepted_spec (req : RequestDescriptor φ) (accepted : Int) :
    let req' := (req.emitAccepted accepted).settle
    req'.outputTokenCount = req.outputTokenCount + accepted ∧
      req'.maxNewTokens = req.maxNewTokens ∧ req'.requestId = req.requestId ∧
      (req'.state = .decodeReady ∧ req'.outputTokenCount < req'.maxNewTokens ∨
        req'.state = .complete ∧
          (req'.maxNewTokens ≤ req'.outputTokenCount ∨ req'.lastToken = req'.eosTokenId)) := by
  simp only [RequestDescriptor.settle]
  split
  · next hfull => exact ⟨rfl, rfl, rfl, Or.inr ⟨rfl, Or.inl hfull⟩⟩
  · next hmore => exact ⟨rfl, rfl, rfl, Or.inl ⟨rfl, not_le.mp hmore⟩⟩

/-- The commit of an iteration: the tokens, the budget, the state and the count of the pages. -/
theorem pipelineCommit_spec {req : RequestDescriptor φ} {kv : KVPageTable φ} {accepted : Int}
    (hps : 1 ≤ kv.pageSizeTokens) (hpages : 0 ≤ req.kvNumPages) (h0 : 0 ≤ accepted) :
    let result := pipelineCommit req kv accepted
    (result.1.outputTokenCount = req.outputTokenCount + max accepted 1 ∧
      result.1.maxNewTokens = req.maxNewTokens ∧ result.1.requestId = req.requestId ∧
      (result.1.state = .decodeReady ∧ result.1.outputTokenCount < result.1.maxNewTokens ∨
        result.1.state = .complete ∧ (result.1.maxNewTokens ≤ result.1.outputTokenCount ∨
          result.1.lastToken = result.1.eosTokenId))) ∧
      result.2.2 = coveredPages kv.pageSizeTokens req.kvNumPages accepted := by
  rw [pipelineCommit]
  by_cases hnone : accepted = 0
  · have hzero : coveredPages kv.pageSizeTokens req.kvNumPages 0 = 0 :=
      le_antisymm (coveredPages_zero hps _) (coveredPages_nonneg hps hpages le_rfl)
    rw [if_pos hnone, hnone, hzero]
    exact ⟨pipelineFallback_spec req, rfl⟩
  · rw [if_neg hnone, max_eq_left (by omega)]
    exact ⟨settle_emitAccepted_spec req accepted, rfl⟩

section
variable [DeviceFloat φ] {launch : GatherLaunch} {req : RequestDescriptor φ} {kv : KVPageTable φ}

/-- The pages that an iteration selects. -/
def pipelineWidth (launch : GatherLaunch) (req : RequestDescriptor φ) : Nat :=
  min launch.maxSelectedPages.toNat req.kvNumPages.toNat

/-- What an iteration does to a request, its pages and its metrics, when it accepts `accepted`
drafts; a step without accepted drafts emits one token. -/
structure IterationEffect (launch : GatherLaunch) (req : RequestDescriptor φ) (kv : KVPageTable φ)
    (metric : ResidentPipelineMetrics) (accepted : Int) (req' : RequestDescriptor φ)
    (kv' : KVPageTable φ) (metric' : ResidentPipelineMetrics) : Prop where
  nonneg : 0 ≤ accepted
  le : accepted ≤ req.budgetLeft
  output : req'.outputTokenCount = req.outputTokenCount + max accepted 1
  maxNewTokens : req'.maxNewTokens = req.maxNewTokens
  kvTableOffset : req'.kvTableOffset = req.kvTableOffset
  kvNumPages : req'.kvNumPages = req.kvNumPages
  state : req'.state = .decodeReady ∧ req'.outputTokenCount < req'.maxNewTokens ∨
    req'.state = .complete ∧
      (req'.maxNewTokens ≤ req'.outputTokenCount ∨ req'.lastToken = req'.eosTokenId)
  pages : PagesReady req' kv'
  pageSize : kv'.pageSizeTokens = kv.pageSizeTokens
  metric : metric' = { metric with
    loopIterations := metric.loopIterations + 1
    blocksSelected := metric.blocksSelected + pipelineWidth launch req
    bytesRead := metric.bytesRead + pipelineWidth launch req * launch.intsPerPage * 4
    acceptedTokens := metric.acceptedTokens + accepted
    committedPages := metric.committedPages +
      coveredPages kv.pageSizeTokens req.kvNumPages accepted }

/-- An iteration with its parts named: `verified` is the request after the verification. -/
theorem exists_verified (launch : GatherLaunch) (req : RequestDescriptor φ) (kv : KVPageTable φ)
    (draftTokens : Int → Int) (metric : ResidentPipelineMetrics) :
    let kv₁ := selectSparseKvBlocks req kv launch.maxSelectedPages
    let selected := (gatherSelected launch req kv₁).1
    ∃ (accepted : Nat) (tokens : Int → Int) (verified : RequestDescriptor φ),
      accepted ≤ req.sparseDraftCount.toNat ∧
      (verified.outputTokenCount = req.outputTokenCount ∧
        verified.maxNewTokens = req.maxNewTokens ∧ verified.requestId = req.requestId ∧
        verified.kvTableOffset = req.kvTableOffset ∧ verified.kvNumPages = req.kvNumPages) ∧
      residentSparseDecodePipelineIteration launch req kv draftTokens metric =
        ((pipelineCommit verified kv₁ accepted).1, (pipelineCommit verified kv₁ accepted).2.1,
          tokens, { metric with
            loopIterations := metric.loopIterations + 1
            blocksSelected := metric.blocksSelected + selected
            bytesRead := metric.bytesRead + selected * launch.intsPerPage * 4
            acceptedTokens := metric.acceptedTokens + accepted
            committedPages :=
              metric.committedPages + (pipelineCommit verified kv₁ accepted).2.2 }) := by
  intro kv₁ selected
  refine ⟨_, _, _, ?_, ?_, rfl⟩
  · exact length_acceptedDrafts_le _ _ _
  · exact ⟨rfl, rfl, rfl, rfl, rfl⟩

theorem iterationEffect (hready : PagesReady req kv) (hbudget : 0 < req.budgetLeft)
    (draftTokens : Int → Int) (metric : ResidentPipelineMetrics) :
    let result := residentSparseDecodePipelineIteration launch req kv draftTokens metric
    ∃ accepted, IterationEffect launch req kv metric accepted result.1 result.2.1 result.2.2.2 := by
  have hshape := (localTo_selectSparseKvBlocks hready.offset launch.maxSelectedPages).shape kv
  obtain ⟨order, horder, hlen⟩ := selectSparseKvBlocks_order hready.offset kv
    launch.maxSelectedPages
  have hselected := horder.gatherSelected_count launch
  rw [hready.length_candidatePages] at hlen
  obtain ⟨hcount, hle⟩ := sparseDraftCount_bounds hbudget
  obtain ⟨accepted, tokens, verified, haccepted, ⟨hout, hmax, hid, hoffset, hnum⟩, hiter⟩ :=
    exists_verified launch req kv draftTokens metric
  have hps : 1 ≤ (selectSparseKvBlocks req kv launch.maxSelectedPages).pageSizeTokens :=
    hshape.pageSizeTokens ▸ hready.pageSize
  have hpages : 0 ≤ verified.kvNumPages := hnum ▸ hready.numPages
  have h0 : (0 : Int) ≤ accepted := Int.natCast_nonneg accepted
  obtain ⟨⟨hout', hmax', hid', hstate⟩, hcommitted⟩ := pipelineCommit_spec hps hpages h0
  obtain ⟨hoffset', hnum'⟩ := pipelineCommit_region verified
    (selectSparseKvBlocks req kv launch.maxSelectedPages) accepted
  have hlocal := (localTo_commitPages hpages hps h0).shape
    (selectSparseKvBlocks req kv launch.maxSelectedPages)
  rw [← pipelineCommit_kv] at hlocal
  have hwidth : (order.length : Int) = pipelineWidth launch req := by rw [hlen]; rfl
  refine ⟨accepted, ?_⟩
  rw [hiter]
  refine {
    nonneg := h0
    le := by omega
    output := by rw [hout', hout]
    maxNewTokens := hmax'.trans hmax
    kvTableOffset := hoffset'.trans hoffset
    kvNumPages := hnum'.trans hnum
    state := hstate
    pages := ?_
    pageSize := hlocal.pageSizeTokens.symm.trans hshape.pageSizeTokens.symm
    metric := ?_ }
  · refine ⟨?_, ?_, ?_, ?_, fun i hi => ?_⟩
    · rw [hoffset', hoffset]
      exact hready.offset
    · rw [hnum', hnum]
      exact hready.numPages
    · rw [hoffset', hoffset, hnum', hnum, ← hlocal.numEntries, ← hshape.numEntries]
      exact hready.inTable
    · rw [← hlocal.pageSizeTokens]
      exact hps
    · rw [hoffset', hoffset, hnum', hnum] at hi
      have hcandidate := ((horder.same i).isCandidate_iff req).mpr (hready.candidates i hi)
      have hsameId : (pipelineCommit verified
          (selectSparseKvBlocks req kv launch.maxSelectedPages) accepted).1.requestId =
          req.requestId := hid'.trans hid
      have hcommit := isCandidate_commitPages hcandidate verified
        (selectSparseKvBlocks req kv launch.maxSelectedPages).pageSizeTokens accepted
      rw [← pipelineCommit_kv] at hcommit
      rw [IsCandidate, hsameId]
      exact hcommit
  · rw [hselected, hwidth, hcommitted, hnum, ← hshape.pageSizeTokens]

/-! ## The loop -/

/-- What a block with a budget of `budget` tokens has counted after some iterations, each of which
has selected `width` pages of `pageSize` tokens. -/
structure PipelineTally (launch : GatherLaunch) (width : Nat) (budget pageSize : Int)
    (req : RequestDescriptor φ) (kv : KVPageTable φ) (metric : ResidentPipelineMetrics) : Prop where
  pages : PagesReady req kv
  selects : pipelineWidth launch req = width
  maxNewTokens : req.maxNewTokens = budget
  pageSizeTokens : kv.pageSizeTokens = pageSize
  fits : budget ≤ req.kvNumPages * pageSize
  output : 0 ≤ req.outputTokenCount ∧ req.outputTokenCount ≤ budget
  state : req.state = .decodeReady ∧ req.outputTokenCount < budget ∨
    req.state = .complete ∧ (budget ≤ req.outputTokenCount ∨ req.lastToken = req.eosTokenId)
  started : req.state = .complete → 1 ≤ req.outputTokenCount
  iterations : metric.loopIterations ≤ req.outputTokenCount
  accepted : metric.acceptedTokens ≤ req.outputTokenCount ∧
    req.outputTokenCount ≤ metric.acceptedTokens + metric.loopIterations
  selected : metric.blocksSelected = metric.loopIterations * width
  bytes : metric.bytesRead = metric.blocksSelected * launch.intsPerPage * 4
  committed : metric.committedPages ≤ metric.acceptedTokens ∧
    metric.acceptedTokens ≤ metric.committedPages * pageSize

variable {width : Nat} {budget pageSize : Int} {metric : ResidentPipelineMetrics}

theorem PipelineTally.step (h : PipelineTally launch width budget pageSize req kv metric)
    (hdone : ¬ req.IsDone) (draftTokens : Int → Int) :
    let next := residentSparseDecodePipelineIteration launch req kv draftTokens metric
    PipelineTally launch width budget pageSize next.1 next.2.1 next.2.2.2 ∧
      next.2.2.2.loopIterations = metric.loopIterations + 1 := by
  have hlt : req.outputTokenCount < budget := by
    obtain hready | hcomplete := h.state
    · exact hready.2
    · exact absurd (Or.inl hcomplete.1) hdone
  have hleft : req.budgetLeft = budget - req.outputTokenCount := by
    rw [RequestDescriptor.budgetLeft, h.maxNewTokens]
  have hpositive : 0 < req.budgetLeft := by omega
  intro next
  obtain ⟨accepted, he⟩ : ∃ accepted,
      IterationEffect launch req kv metric accepted next.1 next.2.1 next.2.2.2 :=
    iterationEffect h.pages hpositive draftTokens metric
  have hnonneg := he.nonneg
  have hle := he.le
  have hout := h.output
  have hiterations := h.iterations
  have haccepted := h.accepted
  have hcommitted := h.committed
  have hfits := h.fits
  have houtput : next.1.outputTokenCount = req.outputTokenCount + max accepted 1 := he.output
  have hmetric : next.2.2.2 = _ := he.metric
  have hbudget : next.1.maxNewTokens = budget := he.maxNewTokens.trans h.maxNewTokens
  have hstate := he.state
  have hps := h.pages.pageSize
  rw [h.pageSizeTokens] at hps hmetric
  obtain ⟨hfew, hmany⟩ := coveredPages_bounds hps hnonneg
    (by omega : accepted ≤ req.kvNumPages * pageSize)
  refine ⟨?_, by rw [hmetric]⟩
  exact {
    pages := he.pages
    selects := by rw [pipelineWidth, he.kvNumPages, ← h.selects, pipelineWidth]
    maxNewTokens := hbudget
    pageSizeTokens := he.pageSize.trans h.pageSizeTokens
    fits := by
      rw [he.kvNumPages]
      exact hfits
    output := by omega
    state := hbudget ▸ he.state
    started := fun _ => by omega
    iterations := by
      rw [hmetric]
      dsimp only
      omega
    accepted := by
      rw [hmetric]
      dsimp only
      omega
    selected := by
      rw [hmetric]
      dsimp only
      rw [h.selected, h.selects, add_mul, one_mul]
    bytes := by
      rw [hmetric]
      dsimp only
      rw [h.bytes, add_mul, add_mul]
    committed := by
      rw [hmetric]
      dsimp only
      rw [add_mul]
      omega }

/-- The loop ends with a request that is done, or after all of its iterations. -/
theorem PipelineTally.loop (n : Nat) (h : PipelineTally launch width budget pageSize req kv metric)
    (draftTokens : Int → Int) :
    let last := pipelineLoop launch n req kv draftTokens metric
    PipelineTally launch width budget pageSize last.1 last.2.1 last.2.2.2 ∧
      (last.1.IsDone ∨ last.2.2.2.loopIterations = metric.loopIterations + n) := by
  induction n generalizing req kv draftTokens metric with
  | zero => exact ⟨h, Or.inr (by simp [pipelineLoop])⟩
  | succ n ih =>
    by_cases hdone : req.IsDone
    · rw [pipelineLoop, if_pos hdone]
      exact ⟨h, Or.inl hdone⟩
    · obtain ⟨hnext, hcount⟩ := h.step hdone draftTokens
      rw [pipelineLoop_succ n hdone]
      generalize residentSparseDecodePipelineIteration launch req kv draftTokens metric = next
        at hnext hcount ⊢
      obtain ⟨hlast, hend⟩ := ih hnext next.2.2.1
      refine ⟨hlast, hend.imp id fun hall => ?_⟩
      rw [hall, hcount]
      push_cast
      omega

omit [DeviceFloat φ] in
/-- With an iteration for each token of the budget the request is complete. -/
theorem PipelineTally.complete (h : PipelineTally launch width budget pageSize req kv metric)
    (hend : req.IsDone ∨ budget ≤ metric.loopIterations) : req.state = .complete := by
  obtain ⟨hready, hlt⟩ | hcomplete := h.state
  · have hiterations := h.iterations
    cases hend with
    | inl hdone => simp [RequestDescriptor.IsDone, hready] at hdone
    | inr hall => omega
  · exact hcomplete.1

/-! ## The benchmark -/

/-- The totals of `run_research_pipeline_bench`. -/
structure ResearchRunMetrics where
  loopIterations : Int := 0
  blocksSelected : Int := 0
  bytesRead : Int := 0
  acceptedTokens : Int := 0
  committedPages : Int := 0
  deriving DecidableEq, Repr

def ResearchRunMetrics.add (m : ResearchRunMetrics) (metric : ResidentPipelineMetrics) :
    ResearchRunMetrics where
  loopIterations := m.loopIterations + metric.loopIterations
  blocksSelected := m.blocksSelected + metric.blocksSelected
  bytesRead := m.bytesRead + metric.bytesRead
  acceptedTokens := m.acceptedTokens + metric.acceptedTokens
  committedPages := m.committedPages + metric.committedPages

/-- The host adds up the metrics of all blocks. -/
def runResearchPipelineBench (n : Nat) (metrics : Int → ResidentPipelineMetrics) :
    ResearchRunMetrics :=
  (List.finRange n).foldl (fun m (b : Fin n) => m.add (metrics b)) {}

theorem runResearchPipelineBench_eq (n : Nat) (metrics : Int → ResidentPipelineMetrics) :
    runResearchPipelineBench n metrics =
      { loopIterations := ∑ b : Fin n, (metrics b).loopIterations
        blocksSelected := ∑ b : Fin n, (metrics b).blocksSelected
        bytesRead := ∑ b : Fin n, (metrics b).bytesRead
        acceptedTokens := ∑ b : Fin n, (metrics b).acceptedTokens
        committedPages := ∑ b : Fin n, (metrics b).committedPages } := by
  have hfold (bs : List (Fin n)) (m : ResearchRunMetrics) :
      bs.foldl (fun m (b : Fin n) => m.add (metrics b)) m =
        { loopIterations :=
            m.loopIterations + (bs.map fun b : Fin n => (metrics b).loopIterations).sum
          blocksSelected :=
            m.blocksSelected + (bs.map fun b : Fin n => (metrics b).blocksSelected).sum
          bytesRead := m.bytesRead + (bs.map fun b : Fin n => (metrics b).bytesRead).sum
          acceptedTokens :=
            m.acceptedTokens + (bs.map fun b : Fin n => (metrics b).acceptedTokens).sum
          committedPages :=
            m.committedPages + (bs.map fun b : Fin n => (metrics b).committedPages).sum } := by
    induction bs generalizing m with
    | nil => simp
    | cons b bs ih =>
      rw [List.foldl_cons, ih]
      simp [ResearchRunMetrics.add, add_assoc]
  rw [runResearchPipelineBench, hfold]
  simp [Fin.sum_univ_def]

variable {n : Nat} {d maxIterations : Int}

/-- The pages of the host are resident, committed and pinned. -/
theorem hasFlag_pipelineTable (numRequests i : Int) (f : KVPageFlag) :
    ((pipelineTable numRequests : KVPageTable φ).entries i).hasFlag f =
      decide (f = .resident ∨ f = .committed ∨ f = .pinned) := by
  have hword : ∀ f : KVPageFlag, FlagWord.has (FlagWord.mask KVPageFlag.resident.shift |||
      FlagWord.mask KVPageFlag.committed.shift ||| FlagWord.mask KVPageFlag.pinned.shift) f.shift =
        decide (f = .resident ∨ f = .committed ∨ f = .pinned) := by
    intro f
    cases f <;> decide
  exact hword f

theorem pipelineTally_launch (d : Int) (b : Fin n) :
    PipelineTally (pipelineLaunch d) (min (pipelineLaunch d).maxSelectedPages.toNat 4) 8 4
      (pipelineRequest d b : RequestDescriptor φ) (pipelineTable n)
      { requestId := (pipelineRequest d b : RequestDescriptor φ).requestId } := by
  have hpages : PagesReady (pipelineRequest d b : RequestDescriptor φ) (pipelineTable n) := by
    refine ⟨?_, (by decide : (0 : Int) ≤ 4), ?_, (by decide : (1 : Int) ≤ 4), fun i hi => ?_⟩
    · change (0 : Int) ≤ b * 4
      omega
    · change (b : Int) * 4 + 4 ≤ n * 4
      omega
    · have hrequest : i.tdiv 4 = b := by
        have hin : (b : Int) * 4 ≤ i ∧ i < b * 4 + 4 := hi
        rw [Int.tdiv_eq_ediv_of_nonneg (by omega)]
        omega
      refine ⟨?_, hasFlag_pipelineTable n i .resident, hasFlag_pipelineTable n i .draft⟩
      change i.tdiv 4 + 1 = b + 1
      rw [hrequest]
  exact ⟨hpages, rfl, rfl, rfl, (by decide : (8 : Int) ≤ 4 * 4), ⟨le_rfl, (by decide : (0 : Int) ≤ 8)⟩,
    Or.inl ⟨rfl, (by decide : (0 : Int) < 8)⟩, nofun, le_rfl, ⟨le_rfl, le_rfl⟩, by simp, by simp,
    ⟨le_rfl, by simp⟩⟩

/-- What a complete run of the benchmark leaves of one block. -/
theorem tally_of_stopped (hd : 2 ≤ d) (hmax : 8 ≤ maxIterations) {drafts : Int → Int}
    {c : Config (Fin n) (PipelineBlock φ) (PipelineMemory φ)}
    (hreach : Reaches (pipelineBlockStep (pipelineLaunch d) maxIterations)
      (launchPipeline n d drafts) c)
    (hstopped : Stopped (pipelineBlockStep (pipelineLaunch d) maxIterations) c) (b : Fin n) :
    (∃ kv, PipelineTally (pipelineLaunch d) (min d.toNat 4) 8 4 (c.locals b).req kv
      (c.shared.metrics b)) ∧ (c.locals b).req.state = .complete := by
  obtain ⟨m, hleft⟩ := exists_leftWith (φ := φ) (d := d) maxIterations drafts b
  obtain ⟨hlocal, hsame⟩ := (pipeline_isolated (by omega) (Or.inl hd)).eq_runAlone
    (pipelinePart_launch (by omega) maxIterations drafts) hreach hstopped hleft.stopped
  have hmetrics := hsame.metrics
  rw [hleft.metrics, Function.update_self] at hmetrics
  have hwidth : (pipelineLaunch d).maxSelectedPages = d := if_pos (by omega)
  obtain ⟨hlast, hend⟩ := (pipelineTally_launch (φ := φ) d b).loop maxIterations.toNat drafts
  rw [hlocal, hleft.req, hmetrics]
  rw [hwidth] at hlast
  refine ⟨⟨_, hlast⟩, hlast.complete (hend.imp id fun hall => ?_)⟩
  rw [hall]
  dsimp only
  omega

/-- With drafts of two tokens or more and eight iterations or more, every complete run of the
benchmark has completed all requests within their budgets, and its totals fit together: in each
iteration a block selects as many pages as the draft length allows of its four, emits the accepted
tokens or a token of its own, and commits the pages that the accepted tokens need. -/
theorem pipeline_bench_totals (hd : 2 ≤ d) (hmax : 8 ≤ maxIterations) {drafts : Int → Int}
    {c : Config (Fin n) (PipelineBlock φ) (PipelineMemory φ)}
    (hreach : Reaches (pipelineBlockStep (pipelineLaunch d) maxIterations)
      (launchPipeline n d drafts) c)
    (hstopped : Stopped (pipelineBlockStep (pipelineLaunch d) maxIterations) c) :
    let m := runResearchPipelineBench n c.shared.metrics
    let tokens := ∑ b, (c.locals b).req.outputTokenCount
    (∀ b, let req := (c.locals b).req
      req.state = .complete ∧ 1 ≤ req.outputTokenCount ∧ req.outputTokenCount ≤ 8 ∧
        (req.outputTokenCount = 8 ∨ req.lastToken = req.eosTokenId)) ∧
    m.blocksSelected = m.loopIterations * min d 4 ∧ m.bytesRead = m.blocksSelected * 64 ∧
    m.loopIterations ≤ tokens ∧ m.acceptedTokens ≤ tokens ∧
    tokens ≤ m.acceptedTokens + m.loopIterations ∧
    m.committedPages ≤ m.acceptedTokens ∧ m.acceptedTokens ≤ m.committedPages * 4 := by
  have hcomplete := fun b => (tally_of_stopped hd hmax hreach hstopped b).2
  choose kv h using fun b => (tally_of_stopped hd hmax hreach hstopped b).1
  have hwidth : ((min d.toNat 4 : Nat) : Int) = min d 4 := by omega
  intro m tokens
  have hm : m = _ := runResearchPipelineBench_eq n c.shared.metrics
  rw [hm]
  dsimp only
  refine ⟨fun b => ?_, ?_, ?_, ?_, ?_, ?_, ?_, ?_⟩
  · refine ⟨hcomplete b, (h b).started (hcomplete b), (h b).output.2, ?_⟩
    obtain ⟨hready, -⟩ | ⟨-, hend⟩ := (h b).state
    · rw [hcomplete b] at hready
      cases hready
    · exact hend.imp (fun hle => le_antisymm (h b).output.2 hle) id
  · rw [Finset.sum_mul]
    refine Finset.sum_congr rfl fun b _ => ?_
    rw [(h b).selected, hwidth]
  · rw [Finset.sum_mul]
    refine Finset.sum_congr rfl fun b _ => ?_
    rw [(h b).bytes, mul_assoc]
    rfl
  · exact Finset.sum_le_sum fun b _ => (h b).iterations
  · exact Finset.sum_le_sum fun b _ => (h b).accepted.1
  · rw [← Finset.sum_add_distrib]
    exact Finset.sum_le_sum fun b _ => (h b).accepted.2
  · exact Finset.sum_le_sum fun b _ => (h b).committed.1
  · rw [Finset.sum_mul]
    exact Finset.sum_le_sum fun b _ => (h b).committed.2

/-- Two requests with drafts of four tokens. -/
theorem pipeline_bench_totals_two :
    ∃ c : Config (Fin 2) (PipelineBlock ℚ) (PipelineMemory ℚ),
      Reaches (pipelineBlockStep (pipelineLaunch 4) 16) (launchPipeline 2 4 fun _ => 0) c ∧
        (c.locals 1).req.state = .complete ∧
        (runResearchPipelineBench 2 c.shared.metrics).blocksSelected =
          (runResearchPipelineBench 2 c.shared.metrics).loopIterations * 4 := by
  obtain ⟨c, hreach, hstopped⟩ : ∃ c : Config (Fin 2) (PipelineBlock ℚ) (PipelineMemory ℚ),
      Reaches (pipelineBlockStep (pipelineLaunch 4) 16) (launchPipeline 2 4 fun _ => 0) c ∧
        Stopped (pipelineBlockStep (pipelineLaunch 4) 16) c :=
    exists_stopped (fun _ _ _ _ _ hstep => pipeline_stepsLeft_lt hstep) _
  obtain ⟨hcomplete, hselected, -⟩ :=
    pipeline_bench_totals (by decide) (by decide) hreach hstopped
  exact ⟨c, hreach, (hcomplete 1).1, hselected⟩

end
end ResidentInference.Device

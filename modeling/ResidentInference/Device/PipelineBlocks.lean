import ResidentInference.Device.Acceptance
import ResidentInference.Device.Pipeline
import ResidentInference.Interleaving

/-! The blocks of the resident pipeline as interleaved processes, and the drafts that they access.
A slice of the buffer holds four times the draft length of the host, a block asks for at most eight
drafts: a draft length of one leaves too little room from the second iteration on. -/
namespace ResidentInference.Device
open Loops Interleaving
variable {φ : Type}

/-- Where a block stands in its loop. -/
inductive PipelinePoint where
  | test | select | gather | draft | verify | commit | left
  deriving DecidableEq, Repr

/-- What a block owns: its request and its local variables. -/
structure PipelineBlock (φ : Type) where
  req : RequestDescriptor φ
  point : PipelinePoint
  iteration : Int
  payloadSum : Int
  accepted : Int
  metric : ResidentPipelineMetrics

structure PipelineMemory (φ : Type) where
  kv : KVPageTable φ
  draftTokens : Int → Int
  metrics : Int → ResidentPipelineMetrics

section
variable [DeviceFloat φ]

/-- The next atomic step of block `b` of `n`. -/
def pipelineBlockStep {n : Nat} (launch : GatherLaunch) (maxIterations : Int) (b : Fin n)
    (l : PipelineBlock φ) (g : PipelineMemory φ) : Option (PipelineBlock φ × PipelineMemory φ) :=
  match l.point with
  | .test =>
    if l.iteration < maxIterations ∧ ¬ l.req.IsDone then
      some ({ l with
        point := .select
        metric := { l.metric with loopIterations := l.metric.loopIterations + 1 } }, g)
    else
      some ({ l with point := .left }, { g with metrics := Function.update g.metrics b l.metric })
  | .select =>
    let kv := selectSparseKvBlocks l.req g.kv launch.maxSelectedPages
    some ({ l with point := .gather }, { g with kv := kv })
  | .gather =>
    let (selectedCount, payloadSum) := gatherSelected launch l.req g.kv
    some ({ l with
      point := .draft
      payloadSum := payloadSum
      metric := { l.metric with
        blocksSelected := l.metric.blocksSelected + selectedCount
        bytesRead := l.metric.bytesRead + selectedCount * launch.intsPerPage * 4 } }, g)
  | .draft =>
    let (req, draftTokens) := pipelineDraft l.req g.draftTokens l.payloadSum
    some ({ l with req := req, point := .verify }, { g with draftTokens := draftTokens })
  | .verify =>
    let accepted : Int := (l.req.acceptedDrafts g.draftTokens l.req.draftLen).length
    some ({ l with
      req := l.req.recordAccepted accepted l.req.draftLen
      point := .commit
      accepted := accepted
      metric := { l.metric with acceptedTokens := l.metric.acceptedTokens + accepted } }, g)
  | .commit =>
    let (req, kv, committedPages) := pipelineCommit l.req g.kv l.accepted
    some ({ l with
      req := req
      point := .test
      iteration := l.iteration + 1
      metric := { l.metric with committedPages := l.metric.committedPages + committedPages } },
      { g with kv := kv })
  | .left => none

/-- The state as `run_research_pipeline_bench` launches the kernel; the drafts are not
initialised. -/
def launchPipeline (n : Nat) (draftLen : Int) (drafts : Int → Int) :
    Config (Fin n) (PipelineBlock φ) (PipelineMemory φ) where
  locals := fun b =>
    { req := pipelineRequest draftLen b
      point := .test
      iteration := 0
      payloadSum := 0
      accepted := 0
      metric := { requestId := b + 1 } }
  shared := { kv := pipelineTable n, draftTokens := drafts, metrics := fun _ => {} }

/-- The steps of one loop body, taken without interruption, are an iteration of the loop. -/
theorem runAlone_pipelineIteration {n : Nat} (launch : GatherLaunch) (maxIterations : Int)
    (b : Fin n) (c : Config (Fin n) (PipelineBlock φ) (PipelineMemory φ))
    (hpoint : (c.locals b).point = .test) (hlt : (c.locals b).iteration < maxIterations)
    (hdone : ¬ (c.locals b).req.IsDone) :
    let next := residentSparseDecodePipelineIteration launch (c.locals b).req c.shared.kv
      c.shared.draftTokens (c.locals b).metric
    let c' := runAlone (pipelineBlockStep launch maxIterations) b 6 c
    ((c'.locals b).req = next.1 ∧ (c'.locals b).metric = next.2.2.2 ∧
      (c'.locals b).point = .test ∧ (c'.locals b).iteration = (c.locals b).iteration + 1) ∧
      (∀ b', b' ≠ b → c'.locals b' = c.locals b') ∧
      c'.shared = { c.shared with kv := next.2.1, draftTokens := next.2.2.1 } := by
  simp only [runAlone, step, pipelineBlockStep, hpoint, hlt, hdone, not_false_iff, and_self,
    if_true, Option.map_some, Option.getD_some, Function.update_self, Function.update_idem]
  exact ⟨⟨rfl, rfl, trivial⟩, fun b' hb' => Function.update_of_ne hb' _ _, rfl⟩

end

/-! ## Accesses to the drafts -/

/-- The indices of the draft buffer that the next step of a block writes or reads. -/
def pipelineAccesses (l : PipelineBlock φ) (g : PipelineMemory φ) : List Int :=
  match l.point with
  | .draft => draftIndices l.req.draftOffset l.req.sparseDraftCount
  | .verify => l.req.verifiedDrafts g.draftTokens l.req.draftLen
  | _ => []

section
variable [DeviceFloat φ]

/-- No other cell is written. -/
theorem pipelineBlockStep_frame {n : Nat} {launch : GatherLaunch} {maxIterations : Int} {b : Fin n}
    {l l' : PipelineBlock φ} {g g' : PipelineMemory φ}
    (hstep : pipelineBlockStep launch maxIterations b l g = some (l', g')) {j : Int}
    (hj : j ∉ pipelineAccesses l g) : g'.draftTokens j = g.draftTokens j := by
  rw [pipelineBlockStep] at hstep
  cases hpoint : l.point with
  | test =>
    simp only [hpoint] at hstep
    split at hstep
    · obtain ⟨rfl, rfl⟩ := hstep
      rfl
    · obtain ⟨rfl, rfl⟩ := hstep
      rfl
  | select | gather | verify | commit =>
    simp only [hpoint] at hstep
    obtain ⟨rfl, rfl⟩ := hstep
    rfl
  | draft =>
    simp only [hpoint] at hstep
    obtain ⟨rfl, rfl⟩ := hstep
    simp only [pipelineAccesses, hpoint, mem_draftIndices] at hj
    simp only [pipelineDraft, RequestDescriptor.writeSparseDrafts, writeCells_apply, if_neg hj]
  | left => simp [hpoint] at hstep

/-- No other cell is read. -/
theorem pipelineBlockStep_congr {n : Nat} {launch : GatherLaunch} {maxIterations : Int} {b : Fin n}
    {l : PipelineBlock φ} {g g' : PipelineMemory φ} (hkv : g'.kv = g.kv)
    (hsame : ∀ j ∈ pipelineAccesses l g, g'.draftTokens j = g.draftTokens j) :
    (pipelineBlockStep launch maxIterations b l g').map Prod.fst =
      (pipelineBlockStep launch maxIterations b l g).map Prod.fst := by
  cases hpoint : l.point with
  | test =>
    simp only [pipelineBlockStep, hpoint]
    split <;> rfl
  | gather | commit => simp only [pipelineBlockStep, hpoint, hkv, Option.map_some]
  | verify =>
    simp only [pipelineAccesses, hpoint] at hsame
    simp only [pipelineBlockStep, hpoint, acceptedDrafts_congr hsame, Option.map_some]
  | select | draft | left => simp only [pipelineBlockStep, hpoint] <;> rfl

end

/-! ## The invariant of a block -/

/-- A block with a slice at its place; only the first iteration still has the block size of the
host. -/
structure PipelineSlice (d maxIterations offset : Int) (l : PipelineBlock φ) : Prop where
  offset : l.req.draftOffset = offset
  budget : l.req.budgetLeft ≤ 8
  accepted : 0 ≤ l.accepted
  iteration : 0 ≤ l.iteration
  running : l.point ≠ .test → l.point ≠ .left → l.iteration < maxIterations
  first : l.iteration = 0 →
    l.point = .test ∨ l.point = .select ∨ l.point = .gather ∨ l.point = .draft →
    l.req.currentBlockSize = d
  drafted : l.point = .verify → l.req.draftLen ≤ 8 ∧ (l.iteration = 0 → l.req.draftLen ≤ d)

theorem sparseDraftCount_le {req : RequestDescriptor φ} (h : req.budgetLeft ≤ 8) :
    req.sparseDraftCount ≤ 8 := by
  simp only [RequestDescriptor.sparseDraftCount, RequestDescriptor.clampToBudget]
  grind

theorem sparseDraftCount_le_block {req : RequestDescriptor φ} (h : 1 ≤ req.currentBlockSize) :
    req.sparseDraftCount ≤ req.currentBlockSize := by
  simp only [RequestDescriptor.sparseDraftCount]
  rw [if_pos (by omega)]
  exact clampToBudget_le le_rfl (by omega)

/-- Enough room for every iteration, or no iteration with an adapted block size. -/
theorem PipelineSlice.accesses {d maxIterations offset : Int} (hd : 1 ≤ d)
    {l : PipelineBlock φ} {g : PipelineMemory φ} (h : PipelineSlice d maxIterations offset l)
    (hcond : 2 ≤ d ∨ maxIterations ≤ 1) {j : Int} (hj : j ∈ pipelineAccesses l g) :
    offset ≤ j ∧ j < offset + 4 * d := by
  have hoffset := h.offset
  have hiteration := h.iteration
  cases hpoint : l.point with
  | draft =>
    have hlt := h.running (by simp [hpoint]) (by simp [hpoint])
    have hle := sparseDraftCount_le h.budget
    have hfirst (h0 : l.iteration = 0) : l.req.sparseDraftCount ≤ d := by
      have hblock := h.first h0 (by simp [hpoint])
      exact (sparseDraftCount_le_block (by omega)).trans hblock.le
    simp only [pipelineAccesses, hpoint, mem_draftIndices] at hj
    omega
  | verify =>
    have hlt := h.running (by simp [hpoint]) (by simp [hpoint])
    obtain ⟨hle, hfirst⟩ := h.drafted hpoint
    simp only [pipelineAccesses, hpoint] at hj
    have hread := mem_verifiedDrafts hj
    omega
  | test | select | gather | commit | left => simp [pipelineAccesses, hpoint] at hj

theorem pipelineCommit_budgetLeft (req : RequestDescriptor φ) (kv : KVPageTable φ) {accepted : Int}
    (h : 0 ≤ accepted) : (pipelineCommit req kv accepted).1.budgetLeft ≤ req.budgetLeft ∧
      (pipelineCommit req kv accepted).1.draftOffset = req.draftOffset := by
  simp only [pipelineCommit, pipelineFallback, RequestDescriptor.settle]
  split
  · split <;> simp [RequestDescriptor.budgetLeft] <;> omega
  · split <;> simp [RequestDescriptor.budgetLeft] <;> omega

theorem pipelineSlice_step [DeviceFloat φ] {n : Nat} {d maxIterations offset : Int} (hd : 1 ≤ d)
    {launch : GatherLaunch} {b : Fin n} {l l' : PipelineBlock φ} {g g' : PipelineMemory φ}
    (h : PipelineSlice d maxIterations offset l)
    (hstep : pipelineBlockStep launch maxIterations b l g = some (l', g')) :
    PipelineSlice d maxIterations offset l' := by
  rw [pipelineBlockStep] at hstep
  cases hpoint : l.point with
  | test =>
    simp only [hpoint] at hstep
    split at hstep
    · next hlt =>
      obtain ⟨rfl, rfl⟩ := hstep
      exact ⟨h.offset, h.budget, h.accepted, h.iteration, fun _ _ => hlt.1,
        fun h0 _ => h.first h0 (by simp [hpoint]), by simp⟩
    · obtain ⟨rfl, rfl⟩ := hstep
      exact ⟨h.offset, h.budget, h.accepted, h.iteration, by simp, by simp, by simp⟩
  | select =>
    simp only [hpoint] at hstep
    obtain ⟨rfl, rfl⟩ := hstep
    have hlt := h.running (by simp [hpoint]) (by simp [hpoint])
    exact ⟨h.offset, h.budget, h.accepted, h.iteration, fun _ _ => hlt,
      fun h0 _ => h.first h0 (by simp [hpoint]), by simp⟩
  | gather =>
    simp only [hpoint] at hstep
    obtain ⟨rfl, rfl⟩ := hstep
    have hlt := h.running (by simp [hpoint]) (by simp [hpoint])
    exact ⟨h.offset, h.budget, h.accepted, h.iteration, fun _ _ => hlt,
      fun h0 _ => h.first h0 (by simp [hpoint]), by simp⟩
  | draft =>
    simp only [hpoint] at hstep
    obtain ⟨rfl, rfl⟩ := hstep
    have hlt := h.running (by simp [hpoint]) (by simp [hpoint])
    refine ⟨h.offset, h.budget, h.accepted, h.iteration, fun _ _ => hlt, by simp, fun _ =>
      ⟨sparseDraftCount_le h.budget, fun h0 => ?_⟩⟩
    have hblock := h.first h0 (by simp [hpoint])
    exact (sparseDraftCount_le_block (by omega)).trans hblock.le
  | verify =>
    simp only [hpoint] at hstep
    obtain ⟨rfl, rfl⟩ := hstep
    have hlt := h.running (by simp [hpoint]) (by simp [hpoint])
    exact ⟨h.offset, h.budget, Int.natCast_nonneg _, h.iteration, fun _ _ => hlt, by simp,
      by simp⟩
  | commit =>
    simp only [hpoint] at hstep
    obtain ⟨rfl, rfl⟩ := hstep
    have hiteration := h.iteration
    obtain ⟨hbudget, hoffset⟩ := pipelineCommit_budgetLeft l.req g.kv h.accepted
    refine ⟨hoffset.trans h.offset, hbudget.trans h.budget, h.accepted, ?_, by simp, ?_, by simp⟩
    · simp only
      omega
    · simp only
      omega
  | left => simp [hpoint] at hstep

/-- Every draft that a block is about to write or to read lies in its slice. -/
def PipelineInSlices (n : Nat) (d maxIterations : Int) (drafts : Int → Int) : Prop :=
  ∀ c : Config (Fin n) (PipelineBlock ℚ) (PipelineMemory ℚ),
    Reaches (pipelineBlockStep (pipelineLaunch d) maxIterations) (launchPipeline n d drafts) c →
    ∀ b, ∀ j ∈ pipelineAccesses (c.locals b) c.shared, b * (d * 4) ≤ j ∧ j < b * (d * 4) + 4 * d

theorem pipelineSlice_launch {n : Nat} {d : Int} (hd : 1 ≤ d) (maxIterations : Int)
    (drafts : Int → Int) (b : Fin n) :
    PipelineSlice d maxIterations (b * (d * 4))
      ((launchPipeline n d drafts : Config _ (PipelineBlock ℚ) _).locals b) := by
  have hblock : (pipelineRequest d b : RequestDescriptor ℚ).currentBlockSize = d :=
    if_pos (by omega)
  exact ⟨rfl, le_rfl, le_rfl, le_rfl, by simp [launchPipeline], fun _ _ => hblock,
    by simp [launchPipeline]⟩

theorem pipelineInSlices {n : Nat} {d maxIterations : Int} (hd : 1 ≤ d)
    (h : 2 ≤ d ∨ maxIterations ≤ 1) (drafts : Int → Int) :
    PipelineInSlices n d maxIterations drafts := by
  intro c hc b j hj
  have hslice : PipelineSlice d maxIterations (b * (d * 4)) (c.locals b) :=
    local_invariant (I := fun (b : Fin n) l (_ : PipelineMemory ℚ) =>
      PipelineSlice d maxIterations (b * (d * 4)) l) hc
      (pipelineSlice_launch hd maxIterations drafts)
      (fun _ _ _ _ _ h hstep => pipelineSlice_step hd h hstep)
      (fun _ _ _ _ _ _ _ _ _ h _ => h) b
  exact hslice.accesses hd h hj

/-! ## A draft length of one -/

/-- The request of block 0. -/
def firstRequest : RequestDescriptor ℚ := pipelineRequest 1 0

/-- The pages of the host begin with the word 1. -/
theorem selectedSum_firstRequest {n : Nat} (hn : 1 ≤ n) :
    selectedSum (pipelineLaunch 1) firstRequest (selectSparseKvBlocks firstRequest (pipelineTable n)
      (pipelineLaunch 1).maxSelectedPages) = 1 := by
  have hoff : 0 ≤ firstRequest.kvTableOffset := by decide
  obtain ⟨order, horder, hlen⟩ :=
    selectSparseKvBlocks_order hoff (pipelineTable n) (pipelineLaunch 1).maxSelectedPages
  have hcandidate : (0 : Int) ∈ candidatePages firstRequest (pipelineTable n) := by
    have hpage : IsCandidate firstRequest ((pipelineTable 1).entries 0) := by decide +kernel
    refine List.mem_filter.mpr ⟨Int.mem_range_iff.mpr ⟨by decide, ?_⟩, decide_eq_true hpage⟩
    change (0 : Int) < min (0 * 4 + 4) ((n : Int) * 4)
    omega
  have hword (pageId : Int) : (pipelineLaunch 1).firstWord pageId = 1 := by
    change (pageId * 16).tmod 16 + 1 = 1
    rw [Int.mul_tmod_left]
    rfl
  have hone : order.length = 1 := by
    have hpos := List.length_pos_of_mem hcandidate
    have hwidth : (pipelineLaunch 1).maxSelectedPages.toNat = 1 := rfl
    omega
  have hcount := horder.perm.length_eq
  rw [hone] at hcount
  simp [selectedSum, hword, hcount]

/-- The first draft of block 0 is the token 13, which is accepted. -/
theorem acceptedDrafts_firstRequest (drafts : Int → Int) :
    (firstRequest.acceptedDrafts (firstRequest.writeSparseDrafts drafts 1 1) 1).length = 1 := by
  have htoken : firstRequest.writeSparseDrafts drafts 1 1 firstRequest.draftOffset = 13 := by
    rw [RequestDescriptor.writeSparseDrafts, writeCells_apply]
    simp [firstRequest, pipelineRequest, initRequest]
  have haccept : firstRequest.acceptsToken 13 = true := by decide +kernel
  have hpos :
      (firstRequest.acceptedDrafts (firstRequest.writeSparseDrafts drafts 1 1) 1).length ≠ 0 := by
    rw [Ne, acceptedDrafts_length_eq_zero _ _ (by decide), htoken, haccept]
    decide
  have hle := length_acceptedDrafts_le firstRequest (firstRequest.writeSparseDrafts drafts 1 1) 1
  omega

/-- The first iteration raises the average to 21/25, so that the second one asks for the seven
drafts that the budget still allows. -/
theorem firstIteration_firstRequest {n : Nat} (hn : 1 ≤ n) (drafts : Int → Int)
    (metric : ResidentPipelineMetrics) :
    let req := (residentSparseDecodePipelineIteration (pipelineLaunch 1) firstRequest
      (pipelineTable n) drafts metric).1
    ¬ req.IsDone ∧ req.draftOffset = 0 ∧ req.sparseDraftCount = 7 := by
  obtain ⟨hreq, -, -⟩ := pipelineIteration_eq (pipelineLaunch 1)
    (by decide : 0 ≤ firstRequest.kvTableOffset) (pipelineTable n) drafts metric
  have hcount : firstRequest.sparseDraftCount = 1 := by decide +kernel
  have hcommit (kv : KVPageTable ℚ) :
      (pipelineCommit ((drafted firstRequest).recordAccepted 1 1) kv 1).1 =
        (((drafted firstRequest).recordAccepted 1 1).emitAccepted 1).settle := rfl
  simp only [hreq, selectedSum_firstRequest hn, hcount, acceptedDrafts_firstRequest, Nat.cast_one,
    hcommit]
  decide +kernel

/-- Three steps of a block that goes on lead to its drafting. -/
theorem runAlone_toDraft {n : Nat} (launch : GatherLaunch) (maxIterations : Int) (b : Fin n)
    (c : Config (Fin n) (PipelineBlock ℚ) (PipelineMemory ℚ)) (hpoint : (c.locals b).point = .test)
    (hlt : (c.locals b).iteration < maxIterations) (hdone : ¬ (c.locals b).req.IsDone) :
    let c' := runAlone (pipelineBlockStep launch maxIterations) b 3 c
    (c'.locals b).req = (c.locals b).req ∧ (c'.locals b).point = .draft := by
  simp only [runAlone, step, pipelineBlockStep, hpoint, hlt, hdone, not_false_iff, and_self,
    if_true, Option.map_some, Option.getD_some, Function.update_self]

/-- In its second iteration block 0 writes its fifth draft into a slice of four. -/
theorem not_pipelineInSlices {n : Nat} (hn : 1 ≤ n) {maxIterations : Int} (h : 2 ≤ maxIterations)
    (drafts : Int → Int) : ¬ PipelineInSlices n 1 maxIterations drafts := by
  intro hslices
  let b : Fin n := ⟨0, hn⟩
  let c₀ : Config (Fin n) (PipelineBlock ℚ) (PipelineMemory ℚ) := launchPipeline n 1 drafts
  have hreq₀ : (c₀.locals b).req = firstRequest := rfl
  have hready : ¬ firstRequest.IsDone := by decide
  have hlt₀ : (c₀.locals b).iteration < maxIterations := by
    change (0 : Int) < maxIterations
    omega
  obtain ⟨⟨hreq₁, -, hpoint₁, hiteration₁⟩, -⟩ :=
    runAlone_pipelineIteration (pipelineLaunch 1) maxIterations b c₀ rfl hlt₀ (hreq₀ ▸ hready)
  have hreach₁ : Reaches (pipelineBlockStep (pipelineLaunch 1) maxIterations) c₀ _ :=
    reaches_runAlone b 6 c₀
  generalize runAlone (pipelineBlockStep (pipelineLaunch 1) maxIterations) b 6 c₀ = c₁
    at hreq₁ hpoint₁ hiteration₁ hreach₁
  have hnext : (c₁.locals b).req = (residentSparseDecodePipelineIteration (pipelineLaunch 1)
      firstRequest (pipelineTable n) drafts (c₀.locals b).metric).1 := hreq₁
  obtain ⟨hdone, hoffset, hcount⟩ := firstIteration_firstRequest hn drafts (c₀.locals b).metric
  rw [← hnext] at hdone hoffset hcount
  have hlt₁ : (c₀.locals b).iteration + 1 < maxIterations := by
    change (0 : Int) + 1 < maxIterations
    omega
  obtain ⟨hreq₂, hpoint₂⟩ := runAlone_toDraft (pipelineLaunch 1) maxIterations b c₁ hpoint₁
    (hiteration₁ ▸ hlt₁) hdone
  have hreach₂ := hreach₁.trans (reaches_runAlone b 3 c₁)
  generalize runAlone (pipelineBlockStep (pipelineLaunch 1) maxIterations) b 3 c₁ = c₂
    at hreq₂ hpoint₂ hreach₂
  have haccess : (4 : Int) ∈ pipelineAccesses (c₂.locals b) c₂.shared := by
    simp only [pipelineAccesses, hpoint₂, mem_draftIndices, hreq₂, hoffset, hcount]
    decide
  have hslice := (hslices c₂ hreach₂ b 4 haccess).2
  simp [b] at hslice

/-- The drafts stay in their slices exactly when the draft length is at least two or there is at
most one iteration. -/
theorem pipelineInSlices_iff {n : Nat} (hn : 1 ≤ n) {d : Int} (hd : 1 ≤ d) (maxIterations : Int)
    (drafts : Int → Int) :
    PipelineInSlices n d maxIterations drafts ↔ 2 ≤ d ∨ maxIterations ≤ 1 := by
  refine ⟨fun h => ?_, fun h => pipelineInSlices hd h drafts⟩
  by_contra hcond
  obtain rfl : d = 1 := by omega
  exact not_pipelineInSlices hn (by omega) drafts h

/-- Two requests with slices of eight drafts. -/
theorem pipelineInSlices_iff_two :
    PipelineInSlices 2 2 16 (fun _ => 0) ↔ (2 : Int) ≤ 2 ∨ (16 : Int) ≤ 1 :=
  pipelineInSlices_iff (by decide) (by decide) 16 fun _ => 0

/-- One request with a slice of four drafts and two iterations. -/
theorem not_pipelineInSlices_single : ¬ PipelineInSlices 1 1 2 fun _ => 0 :=
  not_pipelineInSlices le_rfl le_rfl fun _ => 0

end ResidentInference.Device

import ResidentInference.Device.DraftSlices
import ResidentInference.Device.PipelineBlocks
import ResidentInference.Device.TableRegions
import ResidentInference.Isolation

/-! Whole runs of the resident pipeline. Every block keeps to its own pages, drafts and metrics, so
that under every schedule it leaves what its loop leaves when it runs alone. -/
namespace ResidentInference.Device
open Loops Interleaving
variable {φ : Type}

/-! ## The part of a block -/

/-- Two memories that are the same in the pages, the drafts and the metrics of block `b`. -/
structure SamePart (d : Int) {n : Nat} (b : Fin n) (g g' : PipelineMemory φ) : Prop where
  kv : SameRegion (b * 4) 4 g.kv g'.kv
  drafts : ∀ j : Int, b * (d * 4) ≤ j → j < b * (d * 4) + 4 * d → g.draftTokens j = g'.draftTokens j
  metrics : g.metrics b = g'.metrics b

theorem samePart_equivalence (d : Int) {n : Nat} (b : Fin n) :
    Equivalence (SamePart d b : PipelineMemory φ → PipelineMemory φ → Prop) where
  refl g := ⟨sameRegion_equivalence.refl g.kv, fun _ _ _ => rfl, rfl⟩
  symm h := ⟨sameRegion_equivalence.symm h.kv, fun j h1 h2 => (h.drafts j h1 h2).symm,
    h.metrics.symm⟩
  trans h h' := ⟨sameRegion_equivalence.trans h.kv h'.kv,
    fun j h1 h2 => (h.drafts j h1 h2).trans (h'.drafts j h1 h2), h.metrics.trans h'.metrics⟩

/-- A block writes to its part of the memory only. -/
structure PipelineWrites (d : Int) {n : Nat} (b : Fin n) (g g' : PipelineMemory φ) : Prop where
  shape : SameShape g.kv g'.kv
  kv : ∀ i, ¬ InRegion (b * 4) 4 i → g'.kv.entries i = g.kv.entries i
  drafts : ∀ j : Int, ¬ (b * (d * 4) ≤ j ∧ j < b * (d * 4) + 4 * d) →
    g'.draftTokens j = g.draftTokens j
  metrics : ∀ k : Int, k ≠ b → g'.metrics k = g.metrics k

theorem LocalTo.writes {d : Int} {n : Nat} {b : Fin n} {f : KVPageTable φ → KVPageTable φ}
    (hf : LocalTo (b * 4) 4 f) (g : PipelineMemory φ) : PipelineWrites d b g { g with kv := f g.kv } :=
  ⟨hf.shape g.kv, hf.outside g.kv, fun _ _ => rfl, fun _ _ => rfl⟩

/-- No block touches the part of another. -/
theorem PipelineWrites.samePart {d : Int} (hd : 1 ≤ d) {n : Nat} {b b' : Fin n}
    {g g' : PipelineMemory φ} (hw : PipelineWrites d b g g') (hb : b' ≠ b) : SamePart d b' g g' where
  kv := by
    refine ⟨hw.shape, fun i hi => (hw.kv i fun hi' => hb (Fin.ext ?_)).symm⟩
    obtain ⟨h1, h2⟩ := hi
    obtain ⟨h3, h4⟩ := hi'
    omega
  drafts j h1 h2 := (hw.drafts j (slices_disjoint hb hd ⟨h1, h2⟩)).symm
  metrics := (hw.metrics b' (by exact_mod_cast fun h => hb (Fin.ext h))).symm

/-- Memory that is not in the part of any block. -/
structure Untouched (d : Int) (n : Nat) (g g' : PipelineMemory φ) : Prop where
  shape : SameShape g.kv g'.kv
  kv : ∀ i, (∀ b : Fin n, ¬ InRegion (b * 4) 4 i) → g'.kv.entries i = g.kv.entries i
  drafts : ∀ j : Int, (∀ b : Fin n, ¬ (b * (d * 4) ≤ j ∧ j < b * (d * 4) + 4 * d)) →
    g'.draftTokens j = g.draftTokens j
  metrics : ∀ k : Int, (∀ b : Fin n, k ≠ b) → g'.metrics k = g.metrics k

/-- Memories that are the same in every part and outside of them. -/
theorem memory_eq {d : Int} {n : Nat} {g₀ g g' : PipelineMemory φ}
    (h : Untouched d n g₀ g) (h' : Untouched d n g₀ g')
    (hsame : ∀ b : Fin n, SamePart d b g g') : g = g' := by
  have hkv : g.kv = g'.kv := by
    refine KVPageTable.ext (fun i => ?_) (h.shape.numEntries.symm.trans h'.shape.numEntries)
      (h.shape.pageSizeTokens.symm.trans h'.shape.pageSizeTokens)
      (h.shape.bytesPerPage.symm.trans h'.shape.bytesPerPage)
    by_cases hin : ∃ b : Fin n, InRegion (b * 4) 4 i
    · obtain ⟨b, hb⟩ := hin
      exact (hsame b).kv.entries i hb
    · have hout := not_exists.mp hin
      exact (h.kv i hout).trans (h'.kv i hout).symm
  have hdrafts : g.draftTokens = g'.draftTokens := by
    funext j
    by_cases hin : ∃ b : Fin n, b * (d * 4) ≤ j ∧ j < b * (d * 4) + 4 * d
    · obtain ⟨b, h1, h2⟩ := hin
      exact (hsame b).drafts j h1 h2
    · have hout := not_exists.mp hin
      exact (h.drafts j hout).trans (h'.drafts j hout).symm
  have hmetrics : g.metrics = g'.metrics := by
    funext k
    by_cases hin : ∃ b : Fin n, k = b
    · obtain ⟨b, rfl⟩ := hin
      exact (hsame b).metrics
    · have hout := not_exists.mp hin
      exact (h.metrics k hout).trans (h'.metrics k hout).symm
  cases g
  cases g'
  cases hkv
  cases hdrafts
  cases hmetrics
  rfl

/-- A block whose request has its pages and its slice at their places. -/
structure PipelinePart (d maxIterations : Int) {n : Nat} (b : Fin n) (l : PipelineBlock φ)
    (g : PipelineMemory φ) : Prop where
  slice : PipelineSlice d maxIterations (b * (d * 4)) l
  kvTableOffset : l.req.kvTableOffset = b * 4
  kvNumPages : l.req.kvNumPages = 4
  pageSize : 1 ≤ g.kv.pageSizeTokens

theorem PipelinePart.offset_nonneg {d maxIterations : Int} {n : Nat} {b : Fin n}
    {l : PipelineBlock φ} {g : PipelineMemory φ} (h : PipelinePart d maxIterations b l g) :
    0 ≤ l.req.kvTableOffset := by
  rw [h.kvTableOffset]
  omega

theorem PipelinePart.sameRegion {d maxIterations : Int} {n : Nat} {b : Fin n}
    {l : PipelineBlock φ} {g g' : PipelineMemory φ} (h : PipelinePart d maxIterations b l g)
    (hsame : SamePart d b g g') :
    SameRegion l.req.kvTableOffset l.req.kvNumPages g.kv g'.kv := by
  rw [h.kvTableOffset, h.kvNumPages]
  exact hsame.kv

theorem pipelineCommit_kv (req : RequestDescriptor φ) (kv : KVPageTable φ) (accepted : Int) :
    (pipelineCommit req kv accepted).2.1 = commitPages req kv.pageSizeTokens accepted kv := by
  rw [pipelineCommit, commitPages]
  split <;> rfl

/-- The descriptor and the count of a commit depend on the page size only. -/
theorem pipelineCommit_congr (req : RequestDescriptor φ) {kv kv' : KVPageTable φ}
    (h : kv.pageSizeTokens = kv'.pageSizeTokens) (accepted : Int) :
    (pipelineCommit req kv accepted).1 = (pipelineCommit req kv' accepted).1 ∧
      (pipelineCommit req kv accepted).2.2 = (pipelineCommit req kv' accepted).2.2 := by
  rw [pipelineCommit, pipelineCommit, h]
  split <;> exact ⟨rfl, rfl⟩

theorem pipelineCommit_region (req : RequestDescriptor φ) (kv : KVPageTable φ) (accepted : Int) :
    (pipelineCommit req kv accepted).1.kvTableOffset = req.kvTableOffset ∧
      (pipelineCommit req kv accepted).1.kvNumPages = req.kvNumPages := by
  rw [pipelineCommit]
  split
  · simp only [pipelineFallback]
    split <;> exact ⟨rfl, rfl⟩
  · simp only [RequestDescriptor.settle]
    split <;> exact ⟨rfl, rfl⟩

section
variable [DeviceFloat φ] {n : Nat} {d maxIterations : Int} {launch : GatherLaunch} {b : Fin n}
  {l l' : PipelineBlock φ} {g g' h : PipelineMemory φ}

theorem pipelinePart_step (hd : 1 ≤ d) (hl : PipelinePart d maxIterations b l g)
    (hstep : pipelineBlockStep launch maxIterations b l g = some (l', g')) :
    PipelinePart d maxIterations b l' g' := by
  have hslice := pipelineSlice_step hd hl.slice hstep
  rw [pipelineBlockStep] at hstep
  cases hpoint : l.point with
  | test =>
    simp only [hpoint] at hstep
    split at hstep
    · obtain ⟨rfl, rfl⟩ := hstep
      exact ⟨hslice, hl.kvTableOffset, hl.kvNumPages, hl.pageSize⟩
    · obtain ⟨rfl, rfl⟩ := hstep
      exact ⟨hslice, hl.kvTableOffset, hl.kvNumPages, hl.pageSize⟩
  | select =>
    simp only [hpoint] at hstep
    obtain ⟨rfl, rfl⟩ := hstep
    refine ⟨hslice, hl.kvTableOffset, hl.kvNumPages, ?_⟩
    rw [selectSparseKvBlocks_pageSizeTokens]
    exact hl.pageSize
  | gather | draft | verify =>
    simp only [hpoint] at hstep
    obtain ⟨rfl, rfl⟩ := hstep
    exact ⟨hslice, hl.kvTableOffset, hl.kvNumPages, hl.pageSize⟩
  | commit =>
    simp only [hpoint] at hstep
    obtain ⟨rfl, rfl⟩ := hstep
    obtain ⟨hoffset, hnum⟩ := pipelineCommit_region l.req g.kv l.accepted
    have hpages : 0 ≤ l.req.kvNumPages := by rw [hl.kvNumPages]; decide
    have hlocal := localTo_commitPages hpages hl.pageSize
      hl.slice.accepted
    have hshape := hlocal.shape g.kv
    refine ⟨hslice, hoffset.trans hl.kvTableOffset, hnum.trans hl.kvNumPages, ?_⟩
    rw [pipelineCommit_kv, ← hshape.pageSizeTokens]
    exact hl.pageSize
  | left => simp [hpoint] at hstep

/-- What a block does depends on its part of the memory only. -/
theorem pipelineBlockStep_same (hd : 1 ≤ d) (hcond : 2 ≤ d ∨ maxIterations ≤ 1)
    (hl : PipelinePart d maxIterations b l g) (hsame : SamePart d b g h)
    (hstep : pipelineBlockStep launch maxIterations b l g = some (l', g')) :
    ∃ h', pipelineBlockStep launch maxIterations b l h = some (l', h') ∧ SamePart d b g' h' := by
  have hkv := hl.sameRegion hsame
  have haccess := fun j => hl.slice.accesses (g := g) (j := j) hd hcond
  rw [pipelineBlockStep] at hstep ⊢
  cases hpoint : l.point with
  | test =>
    simp only [hpoint] at hstep ⊢
    split at hstep
    · next hgo =>
      obtain ⟨rfl, rfl⟩ := hstep
      exact ⟨h, if_pos hgo, hsame⟩
    · next hstop =>
      obtain ⟨rfl, rfl⟩ := hstep
      exact ⟨_, if_neg hstop, hsame.kv, hsame.drafts, by simp⟩
  | select =>
    simp only [hpoint] at hstep ⊢
    obtain ⟨rfl, rfl⟩ := hstep
    have hlocal := localTo_selectSparseKvBlocks hl.offset_nonneg launch.maxSelectedPages
    have hregion := hlocal.congr hkv
    rw [hl.kvTableOffset, hl.kvNumPages] at hregion
    exact ⟨_, rfl, hregion, hsame.drafts, hsame.metrics⟩
  | gather =>
    simp only [hpoint] at hstep ⊢
    obtain ⟨rfl, rfl⟩ := hstep
    rw [gatherSelected_congr hkv]
    exact ⟨h, rfl, hsame⟩
  | draft =>
    simp only [hpoint] at hstep ⊢
    obtain ⟨rfl, rfl⟩ := hstep
    refine ⟨_, rfl, hsame.kv, fun j h1 h2 => ?_, hsame.metrics⟩
    simp only [pipelineDraft, RequestDescriptor.writeSparseDrafts, writeCells_apply]
    split
    · rfl
    · exact hsame.drafts j h1 h2
  | verify =>
    simp only [hpoint] at hstep ⊢
    obtain ⟨rfl, rfl⟩ := hstep
    have hreads : ∀ j ∈ l.req.verifiedDrafts g.draftTokens l.req.draftLen,
        h.draftTokens j = g.draftTokens j := by
      intro j hj
      have hin := haccess j (by simpa only [pipelineAccesses, hpoint] using hj)
      exact (hsame.drafts j hin.1 hin.2).symm
    rw [acceptedDrafts_congr hreads]
    exact ⟨h, rfl, hsame⟩
  | commit =>
    simp only [hpoint] at hstep ⊢
    obtain ⟨rfl, rfl⟩ := hstep
    obtain ⟨hreq, hcount⟩ := pipelineCommit_congr l.req hkv.pageSizeTokens l.accepted
    have hpages : 0 ≤ l.req.kvNumPages := by rw [hl.kvNumPages]; decide
    have hlocal := localTo_commitPages hpages hl.pageSize
      hl.slice.accepted
    have hregion := hlocal.congr hkv
    rw [hl.kvTableOffset, hl.kvNumPages] at hregion
    rw [hreq, hcount]
    refine ⟨_, rfl, ?_, hsame.drafts, hsame.metrics⟩
    rw [pipelineCommit_kv, pipelineCommit_kv, ← hkv.pageSizeTokens]
    exact hregion
  | left => simp [hpoint] at hstep

theorem pipelineWrites_step (hd : 1 ≤ d) (hcond : 2 ≤ d ∨ maxIterations ≤ 1)
    (hl : PipelinePart d maxIterations b l g)
    (hstep : pipelineBlockStep launch maxIterations b l g = some (l', g')) :
    PipelineWrites d b g g' := by
  have hsame : PipelineWrites d b g g :=
    ⟨⟨rfl, rfl, rfl⟩, fun _ _ => rfl, fun _ _ => rfl, fun _ _ => rfl⟩
  have hdrafts : ∀ j : Int, ¬ (b * (d * 4) ≤ j ∧ j < b * (d * 4) + 4 * d) →
      g'.draftTokens j = g.draftTokens j :=
    fun j hj => pipelineBlockStep_frame hstep fun hin => hj (hl.slice.accesses hd hcond hin)
  rw [pipelineBlockStep] at hstep
  cases hpoint : l.point with
  | test =>
    simp only [hpoint] at hstep
    split at hstep
    · obtain ⟨rfl, rfl⟩ := hstep
      exact hsame
    · obtain ⟨rfl, rfl⟩ := hstep
      exact ⟨hsame.shape, hsame.kv, hdrafts, fun k hk => Function.update_of_ne hk _ _⟩
  | select =>
    simp only [hpoint] at hstep
    obtain ⟨rfl, rfl⟩ := hstep
    have hlocal := localTo_selectSparseKvBlocks hl.offset_nonneg launch.maxSelectedPages
    rw [hl.kvTableOffset, hl.kvNumPages] at hlocal
    exact hlocal.writes g
  | gather | verify =>
    simp only [hpoint] at hstep
    obtain ⟨rfl, rfl⟩ := hstep
    exact hsame
  | draft =>
    simp only [hpoint] at hstep
    obtain ⟨rfl, rfl⟩ := hstep
    exact ⟨hsame.shape, hsame.kv, hdrafts, hsame.metrics⟩
  | commit =>
    simp only [hpoint] at hstep
    obtain ⟨rfl, rfl⟩ := hstep
    have hpages : 0 ≤ l.req.kvNumPages := by rw [hl.kvNumPages]; decide
    have hlocal := localTo_commitPages hpages hl.pageSize
      hl.slice.accepted
    rw [hl.kvTableOffset, hl.kvNumPages] at hlocal
    rw [pipelineCommit_kv]
    exact hlocal.writes g
  | left => simp [hpoint] at hstep

theorem pipeline_isolated (hd : 1 ≤ d) (hcond : 2 ≤ d ∨ maxIterations ≤ 1) :
    Isolated (fun b : Fin n => pipelineBlockStep (φ := φ) launch maxIterations b) (SamePart d)
      (PipelinePart d maxIterations) where
  equiv b := samePart_equivalence d b
  inv hl hstep := pipelinePart_step hd hl hstep
  stable hl hsame := ⟨hl.slice, hl.kvTableOffset, hl.kvNumPages,
    hsame.kv.pageSizeTokens ▸ hl.pageSize⟩
  congr hl hsame hstep := pipelineBlockStep_same hd hcond hl hsame hstep
  frame hl hb hstep := (pipelineWrites_step hd hcond hl hstep).samePart hd hb

/-! ## The loop of a block -/

/-- The loop of one block that nobody interrupts, with `n` iterations at most. -/
def pipelineLoop (launch : GatherLaunch) : Nat → RequestDescriptor φ → KVPageTable φ →
    (Int → Int) → ResidentPipelineMetrics →
      RequestDescriptor φ × KVPageTable φ × (Int → Int) × ResidentPipelineMetrics
  | 0, req, kv, draftTokens, metric => (req, kv, draftTokens, metric)
  | n+1, req, kv, draftTokens, metric =>
    if req.IsDone then (req, kv, draftTokens, metric)
    else
      let (req, kv, draftTokens, metric) :=
        residentSparseDecodePipelineIteration launch req kv draftTokens metric
      pipelineLoop launch n req kv draftTokens metric

theorem pipelineLoop_succ (n : Nat) {req : RequestDescriptor φ} (hdone : ¬ req.IsDone)
    (kv : KVPageTable φ) (draftTokens : Int → Int) (metric : ResidentPipelineMetrics) :
    pipelineLoop launch (n+1) req kv draftTokens metric =
      let next := residentSparseDecodePipelineIteration launch req kv draftTokens metric
      pipelineLoop launch n next.1 next.2.1 next.2.2.1 next.2.2.2 := by
  rw [pipelineLoop, if_neg hdone]

/-- The kernel on one request. -/
def residentSparseDecodePipelineKernel (launch : GatherLaunch) (maxIterations : Int)
    (req : RequestDescriptor φ) (kv : KVPageTable φ) (draftTokens : Int → Int) :
    RequestDescriptor φ × KVPageTable φ × (Int → Int) × ResidentPipelineMetrics :=
  pipelineLoop launch maxIterations.toNat req kv draftTokens { requestId := req.requestId }

/-- A block has left its loop with the results of a run of its own. -/
structure LeftWith {n : Nat} (b : Fin n) (c : Config (Fin n) (PipelineBlock φ) (PipelineMemory φ))
    (metrics : Int → ResidentPipelineMetrics)
    (run : RequestDescriptor φ × KVPageTable φ × (Int → Int) × ResidentPipelineMetrics) :
    Prop where
  point : (c.locals b).point = .left
  req : (c.locals b).req = run.1
  kv : c.shared.kv = run.2.1
  drafts : c.shared.draftTokens = run.2.2.1
  metrics : c.shared.metrics = Function.update metrics b run.2.2.2

theorem LeftWith.stopped {c : Config (Fin n) (PipelineBlock φ) (PipelineMemory φ)}
    {metrics : Int → ResidentPipelineMetrics}
    {run : RequestDescriptor φ × KVPageTable φ × (Int → Int) × ResidentPipelineMetrics}
    (h : LeftWith b c metrics run) :
    pipelineBlockStep launch maxIterations b (c.locals b) c.shared = none := by
  rw [pipelineBlockStep, h.point]

/-- The test that ends the loop. -/
theorem leftWith_of_stop {c : Config (Fin n) (PipelineBlock φ) (PipelineMemory φ)}
    (hpoint : (c.locals b).point = .test)
    (hstop : ¬ ((c.locals b).iteration < maxIterations ∧ ¬ (c.locals b).req.IsDone)) :
    LeftWith b (runAlone (pipelineBlockStep launch maxIterations) b 1 c) c.shared.metrics
      ((c.locals b).req, c.shared.kv, c.shared.draftTokens, (c.locals b).metric) := by
  have hleave : pipelineBlockStep launch maxIterations b (c.locals b) c.shared =
      some ({ c.locals b with point := .left }, { c.shared with
        metrics := Function.update c.shared.metrics b (c.locals b).metric }) := by
    simp only [pipelineBlockStep, hpoint, if_neg hstop]
  have hstep : step (pipelineBlockStep launch maxIterations) b c = some
      { locals := Function.update c.locals b { c.locals b with point := .left }
        shared := { c.shared with
          metrics := Function.update c.shared.metrics b (c.locals b).metric } } := by
    rw [step, hleave]
    rfl
  rw [runAlone, hstep, Option.getD_some, runAlone]
  exact ⟨by simp, by simp, rfl, rfl, rfl⟩

theorem exists_runAlone_loop (k : Nat) {c : Config (Fin n) (PipelineBlock φ) (PipelineMemory φ)}
    (hpoint : (c.locals b).point = .test) (hk : (maxIterations - (c.locals b).iteration).toNat = k) :
    ∃ m, LeftWith b (runAlone (pipelineBlockStep launch maxIterations) b m c) c.shared.metrics
      (pipelineLoop launch k (c.locals b).req c.shared.kv c.shared.draftTokens
        (c.locals b).metric) := by
  induction k generalizing c with
  | zero => exact ⟨1, leftWith_of_stop hpoint fun hgo => by omega⟩
  | succ k ih =>
    by_cases hdone : (c.locals b).req.IsDone
    · rw [pipelineLoop, if_pos hdone]
      exact ⟨1, leftWith_of_stop hpoint fun hgo => hgo.2 hdone⟩
    · rw [pipelineLoop_succ k hdone]
      have hlt : (c.locals b).iteration < maxIterations := by omega
      obtain ⟨⟨hreq, hmetric, hpoint', hiteration⟩, -, hshared⟩ :=
        runAlone_pipelineIteration launch maxIterations b c hpoint hlt hdone
      obtain ⟨m, hm⟩ := ih hpoint' (by rw [hiteration]; omega)
      refine ⟨6 + m, ?_⟩
      rw [runAlone_add]
      simpa only [hreq, hmetric, hshared] using hm

/-! ## Every schedule -/

theorem pipelinePart_launch (hd : 1 ≤ d) (maxIterations : Int) (drafts : Int → Int) (b : Fin n) :
    PipelinePart d maxIterations b
      ((launchPipeline n d drafts : Config _ (PipelineBlock φ) _).locals b)
      (launchPipeline n d drafts).shared := by
  have hblock : (pipelineRequest d b : RequestDescriptor φ).currentBlockSize = d :=
    if_pos (by omega)
  exact ⟨⟨rfl, le_rfl, le_rfl, le_rfl, by simp [launchPipeline], fun _ _ => hblock,
    by simp [launchPipeline]⟩, rfl, rfl, by simp [launchPipeline, pipelineTable]⟩

theorem untouched_reaches (hd : 1 ≤ d) (hcond : 2 ≤ d ∨ maxIterations ≤ 1)
    {c c' : Config (Fin n) (PipelineBlock φ) (PipelineMemory φ)}
    (h0 : ∀ b, PipelinePart d maxIterations b (c.locals b) c.shared)
    (hreach : Reaches (pipelineBlockStep launch maxIterations) c c') :
    Untouched d n c.shared c'.shared := by
  induction hreach with
  | refl => exact ⟨⟨rfl, rfl, rfl⟩, fun _ _ => rfl, fun _ _ => rfl, fun _ _ => rfl⟩
  | tail hc hs ih =>
    obtain ⟨b, hb⟩ := hs
    obtain ⟨l, g, hbody, rfl⟩ := step_eq_some hb
    have hpart := (pipeline_isolated hd hcond).reaches h0 hc b
    have hw := pipelineWrites_step hd hcond hpart hbody
    have hshape := ih.shape
    exact {
      shape := ⟨hshape.numEntries.trans hw.shape.numEntries,
        hshape.pageSizeTokens.trans hw.shape.pageSizeTokens,
        hshape.bytesPerPage.trans hw.shape.bytesPerPage⟩
      kv := fun i hi => (hw.kv i (hi b)).trans (ih.kv i hi)
      drafts := fun j hj => (hw.drafts j (hj b)).trans (ih.drafts j hj)
      metrics := fun k hk => (hw.metrics k (hk b)).trans (ih.metrics k hk) }

/-- Alone a block comes to the end of its loop. -/
theorem exists_leftWith (maxIterations : Int) (drafts : Int → Int) (b : Fin n) :
    ∃ m, LeftWith b (runAlone (pipelineBlockStep (pipelineLaunch d) maxIterations) b m
      (launchPipeline n d drafts)) (fun _ => {})
      (residentSparseDecodePipelineKernel (pipelineLaunch d) maxIterations
        (pipelineRequest d b : RequestDescriptor φ) (pipelineTable n) drafts) :=
  exists_runAlone_loop maxIterations.toNat rfl (by simp [launchPipeline])

/-- Whatever the schedule, a complete run of the pipeline leaves in the request, the pages, the
drafts and the metrics of every block what its loop leaves when it runs alone on the memory of the
launch, and every complete run leaves the same. -/
theorem pipeline_serializable (hd : 1 ≤ d) (hcond : 2 ≤ d ∨ maxIterations ≤ 1)
    {drafts : Int → Int} {c : Config (Fin n) (PipelineBlock φ) (PipelineMemory φ)}
    (hreach : Reaches (pipelineBlockStep (pipelineLaunch d) maxIterations)
      (launchPipeline n d drafts) c)
    (hstopped : Stopped (pipelineBlockStep (pipelineLaunch d) maxIterations) c) :
    (∀ b : Fin n,
      let run := residentSparseDecodePipelineKernel (pipelineLaunch d) maxIterations
        (pipelineRequest d b) (pipelineTable n) drafts
      (c.locals b).req = run.1 ∧
        (∀ i, InRegion (b * 4) 4 i → c.shared.kv.entries i = run.2.1.entries i) ∧
        (∀ j : Int, b * (d * 4) ≤ j → j < b * (d * 4) + 4 * d →
          c.shared.draftTokens j = run.2.2.1 j) ∧
        c.shared.metrics b = run.2.2.2) ∧
    ∀ c', Reaches (pipelineBlockStep (pipelineLaunch d) maxIterations)
        (launchPipeline n d drafts) c' →
      Stopped (pipelineBlockStep (pipelineLaunch d) maxIterations) c' → c' = c := by
  have hisolated : Isolated
      (fun b : Fin n => pipelineBlockStep (φ := φ) (pipelineLaunch d) maxIterations b) (SamePart d)
      (PipelinePart d maxIterations) := pipeline_isolated hd hcond
  have h0 := pipelinePart_launch (φ := φ) (n := n) hd maxIterations drafts
  constructor
  · intro b
    obtain ⟨m, hleft⟩ := exists_leftWith (φ := φ) (d := d) maxIterations drafts b
    obtain ⟨hlocal, hsame⟩ := hisolated.eq_runAlone h0 hreach hstopped hleft.stopped
    refine ⟨hlocal ▸ hleft.req, ?_, ?_, ?_⟩
    · rw [← hleft.kv]
      exact hsame.kv.entries
    · rw [← hleft.drafts]
      exact hsame.drafts
    · rw [hsame.metrics, hleft.metrics, Function.update_self]
  · intro c' hreach' hstopped'
    have hboth (b : Fin n) : c'.locals b = c.locals b ∧ SamePart d b c'.shared c.shared := by
      obtain ⟨m, hleft⟩ := exists_leftWith (φ := φ) (d := d) maxIterations drafts b
      obtain ⟨hlocal, hsame⟩ := hisolated.eq_runAlone h0 hreach hstopped hleft.stopped
      obtain ⟨hlocal', hsame'⟩ := hisolated.eq_runAlone h0 hreach' hstopped' hleft.stopped
      have hequiv := samePart_equivalence (φ := φ) d b
      exact ⟨hlocal'.trans hlocal.symm, hequiv.trans hsame' (hequiv.symm hsame)⟩
    have hshared : c'.shared = c.shared :=
      memory_eq (untouched_reaches hd hcond h0 hreach') (untouched_reaches hd hcond h0 hreach)
        fun b => (hboth b).2
    have hlocals : c'.locals = c.locals := funext fun b => (hboth b).1
    cases c
    cases c'
    cases hshared
    cases hlocals
    rfl

/-! ## The end of a run -/

/-- The steps that a block still takes at most. -/
def PipelineBlock.stepsLeft (maxIterations : Int) (l : PipelineBlock φ) : Nat :=
  let later := 6 * (maxIterations - l.iteration - 1).toNat
  match l.point with
  | .test => 6 * (maxIterations - l.iteration).toNat + 1
  | .select => later + 6
  | .gather => later + 5
  | .draft => later + 4
  | .verify => later + 3
  | .commit => later + 2
  | .left => 0

theorem pipeline_stepsLeft_lt
    (hstep : pipelineBlockStep launch maxIterations b l g = some (l', g')) :
    l'.stepsLeft maxIterations < l.stepsLeft maxIterations := by
  have hnext : maxIterations - (l.iteration + 1) = maxIterations - l.iteration - 1 := by omega
  rw [pipelineBlockStep] at hstep
  cases hpoint : l.point with
  | test =>
    simp only [hpoint] at hstep
    split at hstep
    · next hgo =>
      obtain ⟨rfl, rfl⟩ := hstep
      simp only [PipelineBlock.stepsLeft, hpoint]
      omega
    · obtain ⟨rfl, rfl⟩ := hstep
      simp [PipelineBlock.stepsLeft, hpoint]
  | select | gather | draft | verify =>
    simp only [hpoint] at hstep
    obtain ⟨rfl, rfl⟩ := hstep
    simp [PipelineBlock.stepsLeft, hpoint]
  | commit =>
    simp only [hpoint] at hstep
    obtain ⟨rfl, rfl⟩ := hstep
    simp [PipelineBlock.stepsLeft, hpoint, hnext]
  | left => simp [hpoint] at hstep

/-- Two requests with drafts of two tokens: the second one ends as in a loop of its own. -/
theorem pipeline_serializable_two :
    ∃ c : Config (Fin 2) (PipelineBlock ℚ) (PipelineMemory ℚ),
      Reaches (pipelineBlockStep (pipelineLaunch 2) 16) (launchPipeline 2 2 fun _ => 0) c ∧
        (c.locals 1).req = (residentSparseDecodePipelineKernel (pipelineLaunch 2) 16
          (pipelineRequest 2 1) (pipelineTable 2) fun _ => 0).1 := by
  obtain ⟨c, hreach, hstopped⟩ : ∃ c : Config (Fin 2) (PipelineBlock ℚ) (PipelineMemory ℚ),
      Reaches (pipelineBlockStep (pipelineLaunch 2) 16) (launchPipeline 2 2 fun _ => 0) c ∧
        Stopped (pipelineBlockStep (pipelineLaunch 2) 16) c :=
    exists_stopped (fun _ _ _ _ _ hstep => pipeline_stepsLeft_lt hstep) _
  exact ⟨c, hreach,
    ((pipeline_serializable (by decide) (Or.inl le_rfl) hreach hstopped).1 1).1⟩

end
end ResidentInference.Device

import ResidentInference.Loops
import ResidentInference.OwnedBlocks
import ResidentInference.Ranked
import ResidentInference.Device.State
import Mathlib.Tactic.Ring

/-! The movement planner and the staging kernel: what the one plans for the selected pages, the
other stages in the order of the tiers. -/
namespace ResidentInference.Device
open Loops OwnedBlocks Ranked

inductive MovementOp where
  | none | dramToHbm | ssdToHbm
  deriving DecidableEq, Repr

structure DMAMovementPlanMetrics where
  requestId : Int := 0
  pagesPlanned : Int := 0
  hbmHits : Int := 0
  dramFetches : Int := 0
  ssdFetches : Int := 0
  dmaOps : Int := 0
  bytesMoved : Int := 0
  bytesFromHbm : Int := 0
  bytesFromDram : Int := 0
  bytesFromSsd : Int := 0
  deriving DecidableEq, Repr

structure TieredKVStagingMetrics where
  requestId : Int := 0
  stagedPages : Int := 0
  hbmPagesStaged : Int := 0
  dmaPagesStaged : Int := 0
  bufferSlotSwitches : Int := 0
  stagingBytes : Int := 0
  deriving DecidableEq, Repr

def classifyPageTier (pageId : Int) : MovementTier :=
  if pageId < 0 then .none
  else
    let bucket := pageId.tmod 5
    if bucket ≤ 1 then .hbm else if bucket ≤ 3 then .dram else .ssd

/-- The parameters that the two kernels share. -/
structure MovementLaunch where
  selectedPageIds : Int → Int
  maxSelectedPages : Int
  bytesPerPage : Int

/-- The outputs of the planner. -/
structure MovementPlan where
  sourceTiers : Int → MovementTier
  dmaOps : Int → MovementOp

/-- The outputs of the staging kernel. -/
structure StagedPages where
  stagedPageIds : Int → Int
  stagedSourceTiers : Int → MovementTier
  stagedBufferSlots : Int → Int

structure PlanState where
  plan : MovementPlan
  metric : DMAMovementPlanMetrics

structure StagingState where
  staged : StagedPages
  out : Int
  previousBufferSlot : Int
  metric : TieredKVStagingMetrics

namespace MovementLaunch
variable (launch : MovementLaunch) (requestSlot : Int)

def base : Int := requestSlot * launch.maxSelectedPages

/-- One selected page of the planner. -/
def planPage (s : PlanState) (i : Int) : PlanState :=
  let pageId := launch.selectedPageIds (launch.base requestSlot + i)
  let outIndex := launch.base requestSlot + i
  if pageId < 0 then
    { s with plan :=
        { sourceTiers := Function.update s.plan.sourceTiers outIndex .none
          dmaOps := Function.update s.plan.dmaOps outIndex .none } }
  else
    let tier := classifyPageTier pageId
    let sourceTiers := Function.update s.plan.sourceTiers outIndex tier
    let metric := { s.metric with pagesPlanned := s.metric.pagesPlanned + 1 }
    if tier = .hbm then
      { plan := ⟨sourceTiers, Function.update s.plan.dmaOps outIndex .none⟩
        metric := { metric with
          hbmHits := metric.hbmHits + 1
          bytesFromHbm := metric.bytesFromHbm + launch.bytesPerPage } }
    else if tier = .dram then
      { plan := ⟨sourceTiers, Function.update s.plan.dmaOps outIndex .dramToHbm⟩
        metric := { metric with
          dramFetches := metric.dramFetches + 1
          dmaOps := metric.dmaOps + 1
          bytesMoved := metric.bytesMoved + launch.bytesPerPage
          bytesFromDram := metric.bytesFromDram + launch.bytesPerPage } }
    else
      { plan := ⟨sourceTiers, Function.update s.plan.dmaOps outIndex .ssdToHbm⟩
        metric := { metric with
          ssdFetches := metric.ssdFetches + 1
          dmaOps := metric.dmaOps + 1
          bytesMoved := metric.bytesMoved + launch.bytesPerPage
          bytesFromSsd := metric.bytesFromSsd + launch.bytesPerPage } }

/-- The planner for one request. -/
def plannerBlock (plan : MovementPlan) (requestSlot : Int) :
    MovementPlan × DMAMovementPlanMetrics :=
  let s := (Int.range 0 launch.maxSelectedPages).foldl (launch.planPage requestSlot)
    { plan := plan, metric := { requestId := requestSlot + 1 } }
  (s.plan, s.metric)

/-- One selected page of a sweep for the pages of one tier. -/
def stagePage (sourceTiers : Int → MovementTier) (wantedTier : MovementTier) (s : StagingState)
    (i : Int) : StagingState :=
  let pageId := launch.selectedPageIds (launch.base requestSlot + i)
  let tier := sourceTiers (launch.base requestSlot + i)
  if pageId < 0 ∨ tier ≠ wantedTier then s
  else
    let outIndex := launch.base requestSlot + s.out
    let bufferSlot := s.out % 2
    { staged :=
        { stagedPageIds := Function.update s.staged.stagedPageIds outIndex pageId
          stagedSourceTiers := Function.update s.staged.stagedSourceTiers outIndex tier
          stagedBufferSlots := Function.update s.staged.stagedBufferSlots outIndex bufferSlot }
      out := s.out + 1
      previousBufferSlot := bufferSlot
      metric := { s.metric with
        stagedPages := s.metric.stagedPages + 1
        stagingBytes := s.metric.stagingBytes + launch.bytesPerPage
        hbmPagesStaged :=
          if tier = .hbm then s.metric.hbmPagesStaged + 1 else s.metric.hbmPagesStaged
        dmaPagesStaged :=
          if tier = .hbm then s.metric.dmaPagesStaged else s.metric.dmaPagesStaged + 1
        bufferSlotSwitches :=
          if s.previousBufferSlot ≥ 0 ∧ s.previousBufferSlot ≠ bufferSlot then
            s.metric.bufferSlotSwitches + 1
          else s.metric.bufferSlotSwitches } }

/-- The staging for one request: its outputs are emptied, then swept for each tier. -/
def stagingBlock (sourceTiers : Int → MovementTier) (staged : StagedPages) (requestSlot : Int) :
    StagedPages × TieredKVStagingMetrics :=
  let b := launch.base requestSlot
  let n := launch.maxSelectedPages
  let s := [.hbm, .dram, .ssd].foldl (fun s wantedTier =>
      (Int.range 0 n).foldl (launch.stagePage requestSlot sourceTiers wantedTier) s)
    { staged :=
        { stagedPageIds := writeCells staged.stagedPageIds b n fun _ => -1
          stagedSourceTiers := writeCells staged.stagedSourceTiers b n fun _ => .none
          stagedBufferSlots := writeCells staged.stagedBufferSlots b n fun _ => -1 }
      out := 0
      previousBufferSlot := -1
      metric := { requestId := requestSlot + 1 } }
  (s.staged, s.metric)

end MovementLaunch

/-- The blocks one after another, in any order: each has a slice of its own. -/
def dmaAwareKvMovementPlannerKernel (launch : MovementLaunch) (order : List Int)
    (plan : MovementPlan) (metrics : Int → DMAMovementPlanMetrics) :
    MovementPlan × (Int → DMAMovementPlanMetrics) :=
  runBlocks launch.plannerBlock order (plan, metrics)

def tieredKvStagingKernel (launch : MovementLaunch) (sourceTiers : Int → MovementTier)
    (order : List Int) (staged : StagedPages) (metrics : Int → TieredKVStagingMetrics) :
    StagedPages × (Int → TieredKVStagingMetrics) :=
  runBlocks (launch.stagingBlock sourceTiers) order (staged, metrics)

/-! ## The planner -/

/-- The operation that fetches a page of the tier. -/
def MovementTier.fetch : MovementTier → MovementOp
  | .none | .hbm => .none
  | .dram => .dramToHbm
  | .ssd => .ssdToHbm

theorem classifyPageTier_eq_none_iff (pageId : Int) :
    classifyPageTier pageId = .none ↔ pageId < 0 := by
  simp only [classifyPageTier]
  split_ifs <;> simp_all

namespace MovementLaunch
variable {launch : MovementLaunch} {requestSlot : Int}

/-- The tier of the page at a place of the slice. -/
def slotTier (launch : MovementLaunch) (requestSlot i : Int) : MovementTier :=
  classifyPageTier (launch.selectedPageIds (launch.base requestSlot + i))

/-- The pages of a tier among some places of the slice. -/
def tierCount (launch : MovementLaunch) (requestSlot : Int) (tier : MovementTier)
    (is : List Int) : Int :=
  is.countP fun i => decide (launch.slotTier requestSlot i = tier)

/-- The metrics after the pages at these places. -/
def plannedMetric (launch : MovementLaunch) (requestSlot : Int) (is : List Int) :
    DMAMovementPlanMetrics where
  requestId := requestSlot + 1
  pagesPlanned := launch.tierCount requestSlot .hbm is + launch.tierCount requestSlot .dram is +
    launch.tierCount requestSlot .ssd is
  hbmHits := launch.tierCount requestSlot .hbm is
  dramFetches := launch.tierCount requestSlot .dram is
  ssdFetches := launch.tierCount requestSlot .ssd is
  dmaOps := launch.tierCount requestSlot .dram is + launch.tierCount requestSlot .ssd is
  bytesMoved := (launch.tierCount requestSlot .dram is + launch.tierCount requestSlot .ssd is) *
    launch.bytesPerPage
  bytesFromHbm := launch.tierCount requestSlot .hbm is * launch.bytesPerPage
  bytesFromDram := launch.tierCount requestSlot .dram is * launch.bytesPerPage
  bytesFromSsd := launch.tierCount requestSlot .ssd is * launch.bytesPerPage

theorem tierCount_concat (tier : MovementTier) (is : List Int) (i : Int) :
    launch.tierCount requestSlot tier (is ++ [i]) = launch.tierCount requestSlot tier is +
      if launch.slotTier requestSlot i = tier then 1 else 0 := by
  simp [tierCount, List.countP_append, List.countP_cons]

theorem planPage_eq {s : PlanState} {is : List Int}
    (h : s.metric = launch.plannedMetric requestSlot is) (i : Int) :
    launch.planPage requestSlot s i =
      { plan :=
          { sourceTiers := Function.update s.plan.sourceTiers (launch.base requestSlot + i)
              (launch.slotTier requestSlot i)
            dmaOps := Function.update s.plan.dmaOps (launch.base requestSlot + i)
              (launch.slotTier requestSlot i).fetch }
        metric := launch.plannedMetric requestSlot (is ++ [i]) } := by
  have hnone := classifyPageTier_eq_none_iff (launch.selectedPageIds (launch.base requestSlot + i))
  have hslot : classifyPageTier (launch.selectedPageIds (launch.base requestSlot + i)) =
      launch.slotTier requestSlot i := rfl
  rw [hslot] at hnone
  simp only [planPage, hslot, h]
  cases ht : launch.slotTier requestSlot i with
  | none =>
    simp [hnone.mp ht, plannedMetric, tierCount_concat, ht, MovementTier.fetch]
  | hbm | dram | ssd =>
    have hvalid := hnone.not.mp (by rw [ht]; decide)
    simp only [if_neg hvalid, reduceCtorEq, if_true, if_false]
    refine congrArg (PlanState.mk _) ?_
    simp only [plannedMetric, tierCount_concat, ht, if_true, reduceCtorEq, if_false, add_zero]
    congr 1 <;> ring

/-- The pages at some places, after those that are counted already. -/
theorem foldl_planPage (is : List Int) {done : List Int} {s : PlanState}
    (h : s.metric = launch.plannedMetric requestSlot done) :
    is.foldl (launch.planPage requestSlot) s =
      { plan :=
          { sourceTiers := is.foldl (fun cells i => Function.update cells
              (launch.base requestSlot + i) (launch.slotTier requestSlot i)) s.plan.sourceTiers
            dmaOps := is.foldl (fun cells i => Function.update cells
              (launch.base requestSlot + i) (launch.slotTier requestSlot i).fetch) s.plan.dmaOps }
        metric := launch.plannedMetric requestSlot (done ++ is) } := by
  induction is generalizing done s with
  | nil => simp only [List.foldl_nil, List.append_nil, ← h]
  | cons i is ih =>
    rw [List.foldl_cons, planPage_eq h i, ih rfl]
    simp only [List.foldl_cons, List.append_assoc, List.singleton_append]

/-- What the planner writes and counts for one request. -/
theorem plannerBlock_eq (launch : MovementLaunch) (plan : MovementPlan) (requestSlot : Int) :
    launch.plannerBlock plan requestSlot =
      ({ sourceTiers := writeCells plan.sourceTiers (launch.base requestSlot)
          launch.maxSelectedPages (launch.slotTier requestSlot)
         dmaOps := writeCells plan.dmaOps (launch.base requestSlot) launch.maxSelectedPages
          fun i => (launch.slotTier requestSlot i).fetch },
        launch.plannedMetric requestSlot (Int.range 0 launch.maxSelectedPages)) := by
  have hstart : ({ requestId := requestSlot + 1 } : DMAMovementPlanMetrics) =
      launch.plannedMetric requestSlot [] := by
    simp [plannedMetric, tierCount]
  simp only [plannerBlock]
  rw [foldl_planPage _ hstart]
  rfl

theorem owned_plannerBlock (launch : MovementLaunch) :
    Owned (fun (plan : MovementPlan) i => (plan.sourceTiers i, plan.dmaOps i)) (fun _ => ())
      (fun b i => i ∈ slotCells launch.maxSelectedPages b) launch.plannerBlock := by
  have hcells : ∀ plan b i, ((launch.plannerBlock plan b).1.sourceTiers i,
      (launch.plannerBlock plan b).1.dmaOps i) =
        if i ∈ slotCells launch.maxSelectedPages b then
          (launch.slotTier b (i - launch.base b), (launch.slotTier b (i - launch.base b)).fetch)
        else (plan.sourceTiers i, plan.dmaOps i) := by
    intro plan b i
    simp only [plannerBlock_eq, writeCells_apply, mem_slotCells, base]
    split <;> rfl
  refine ⟨slotCells_disjoint, fun plan b i hi => ?_, fun _ _ => rfl, fun {plan plan' b} _ _ =>
    ⟨fun i hi => ?_, ?_⟩⟩
  · exact (hcells plan b i).trans (if_neg hi)
  · exact ((hcells plan b i).trans (if_pos hi)).trans ((hcells plan' b i).trans (if_pos hi)).symm
  · simp only [plannerBlock_eq]

end MovementLaunch

/-! ## The staging -/

namespace MovementLaunch
variable {launch : MovementLaunch} {requestSlot : Int} {sourceTiers : Int → MovementTier}

def pageAt (launch : MovementLaunch) (requestSlot i : Int) : Int :=
  launch.selectedPageIds (launch.base requestSlot + i)

/-- The places of the slice that hold a page. -/
def validSlots (launch : MovementLaunch) (requestSlot : Int) : List Int :=
  (Int.range 0 launch.maxSelectedPages).filter fun i => 0 ≤ launch.pageAt requestSlot i

/-- The places of the pages that the sweep for a tier stages. -/
def tierSlots (launch : MovementLaunch) (requestSlot : Int) (sourceTiers : Int → MovementTier)
    (tier : MovementTier) : List Int :=
  (launch.validSlots requestSlot).filter fun i => sourceTiers (launch.base requestSlot + i) = tier

/-- The metrics once the pages at the places in `order` are staged. -/
def stagedMetric (launch : MovementLaunch) (requestSlot : Int) (sourceTiers : Int → MovementTier)
    (order : List Int) : TieredKVStagingMetrics where
  requestId := requestSlot + 1
  stagedPages := order.length
  hbmPagesStaged := order.countP fun i => sourceTiers (launch.base requestSlot + i) = .hbm
  dmaPagesStaged := order.countP fun i => sourceTiers (launch.base requestSlot + i) ≠ .hbm
  bufferSlotSwitches := max (order.length - 1 : Int) 0
  stagingBytes := order.length * launch.bytesPerPage

/-- The outputs in the slice of the request once the pages at the places in `order` are staged. -/
structure SliceHolds (launch : MovementLaunch) (requestSlot : Int)
    (sourceTiers : Int → MovementTier) (order : List Int) (staged : StagedPages) : Prop where
  ids : slice staged.stagedPageIds (launch.base requestSlot) launch.maxSelectedPages =
    order.map (launch.pageAt requestSlot) ++
      List.replicate (launch.maxSelectedPages.toNat - order.length) (-1)
  tiers : slice staged.stagedSourceTiers (launch.base requestSlot) launch.maxSelectedPages =
    order.map (fun i => sourceTiers (launch.base requestSlot + i)) ++
      List.replicate (launch.maxSelectedPages.toNat - order.length) .none
  bufferSlots : slice staged.stagedBufferSlots (launch.base requestSlot) launch.maxSelectedPages =
    (List.range order.length).map (fun k : Nat => (k : Int) % 2) ++
      List.replicate (launch.maxSelectedPages.toNat - order.length) (-1)

/-- The state of the sweeps once the pages at the places in `order` are staged. -/
structure StagedSoFar (launch : MovementLaunch) (requestSlot : Int)
    (sourceTiers : Int → MovementTier) (staged : StagedPages) (order : List Int)
    (s : StagingState) : Prop where
  out : s.out = order.length
  previous : s.previousBufferSlot = if order = [] then -1 else (order.length - 1 : Int) % 2
  holds : launch.SliceHolds requestSlot sourceTiers order s.staged
  metric : s.metric = launch.stagedMetric requestSlot sourceTiers order
  frame : ∀ i, i ∉ slotCells launch.maxSelectedPages requestSlot →
    s.staged.stagedPageIds i = staged.stagedPageIds i ∧
      s.staged.stagedSourceTiers i = staged.stagedSourceTiers i ∧
      s.staged.stagedBufferSlots i = staged.stagedBufferSlots i

variable {staged : StagedPages} {order : List Int} {s : StagingState}

theorem stagePage_of_not_mem {wantedTier : MovementTier} {i : Int}
    (h : ¬ (0 ≤ launch.pageAt requestSlot i ∧
      sourceTiers (launch.base requestSlot + i) = wantedTier)) (s : StagingState) :
    launch.stagePage requestSlot sourceTiers wantedTier s i = s := by
  refine if_pos ?_
  by_cases hpage : launch.pageAt requestSlot i < 0
  · exact Or.inl hpage
  · exact Or.inr fun htier => h ⟨not_lt.mp hpage, htier⟩

theorem stagedMetric_concat (order : List Int) (i : Int) :
    launch.stagedMetric requestSlot sourceTiers (order ++ [i]) =
      let metric := launch.stagedMetric requestSlot sourceTiers order
      let tier := sourceTiers (launch.base requestSlot + i)
      { metric with
        stagedPages := metric.stagedPages + 1
        stagingBytes := metric.stagingBytes + launch.bytesPerPage
        hbmPagesStaged := if tier = .hbm then metric.hbmPagesStaged + 1 else metric.hbmPagesStaged
        dmaPagesStaged := if tier = .hbm then metric.dmaPagesStaged else metric.dmaPagesStaged + 1
        bufferSlotSwitches := order.length } := by
  have hbytes : ((order.length : Int) + 1) * launch.bytesPerPage =
      order.length * launch.bytesPerPage + launch.bytesPerPage := by ring
  by_cases htier : sourceTiers (launch.base requestSlot + i) = .hbm
  · simp [stagedMetric, List.countP_append, htier, hbytes]
  · simp [stagedMetric, List.countP_append, htier, hbytes]

/-- One staged page. -/
theorem StagedSoFar.stagePage (h : StagedSoFar launch requestSlot sourceTiers staged order s)
    (hroom : order.length < launch.maxSelectedPages.toNat) {i : Int}
    (hpage : 0 ≤ launch.pageAt requestSlot i) :
    StagedSoFar launch requestSlot sourceTiers staged (order ++ [i])
      (launch.stagePage requestSlot sourceTiers (sourceTiers (launch.base requestSlot + i)) s
        i) := by
  have hskip : ¬ (launch.selectedPageIds (launch.base requestSlot + i) < 0 ∨
      sourceTiers (launch.base requestSlot + i) ≠ sourceTiers (launch.base requestSlot + i)) :=
    fun hor => hor.elim (not_lt.mpr hpage) fun hne => hne rfl
  obtain ⟨n, hn⟩ : ∃ n, launch.maxSelectedPages.toNat - order.length = n + 1 :=
    ⟨launch.maxSelectedPages.toNat - order.length - 1, by omega⟩
  have hn' : launch.maxSelectedPages.toNat - (order ++ [i]).length = n := by
    rw [List.length_append, List.length_singleton]
    omega
  rw [MovementLaunch.stagePage, if_neg hskip]
  obtain ⟨hids, htiers, hslots⟩ := h.holds
  rw [hn] at hids htiers hslots
  refine ⟨?_, ?_, ⟨?_, ?_, ?_⟩, ?_, fun j hj => ?_⟩
  · simp [h.out]
  · simp [h.out]
  · have hlen : (order.map (launch.pageAt requestSlot)).length = order.length := by simp
    rw [hn', h.out, List.map_append, ← hlen]
    exact slice_update hids _
  · have hlen : (order.map fun i => sourceTiers (launch.base requestSlot + i)).length =
        order.length := by simp
    rw [hn', h.out, List.map_append, ← hlen]
    exact slice_update htiers _
  · have hlen :
        ((List.range order.length).map fun k : Nat => (k : Int) % 2).length = order.length := by
      simp
    rw [hn', h.out, List.length_append, List.length_singleton, List.range_succ, List.map_append]
    have hslice := slice_update hslots ((order.length : Int) % 2)
    rwa [hlen] at hslice
  · -- the previous slot is the parity of the page before, so each page but the first switches
    have hswitch : (if s.previousBufferSlot ≥ 0 ∧ s.previousBufferSlot ≠ s.out % 2 then
        s.metric.bufferSlotSwitches + 1 else s.metric.bufferSlotSwitches) = order.length := by
      rw [h.metric, h.previous, h.out]
      cases order with
      | nil => rfl
      | cons j order =>
        simp only [stagedMetric, List.length_cons, reduceCtorEq, if_false]
        rw [if_pos (by omega)]
        omega
    dsimp only
    rw [hswitch, stagedMetric_concat, h.metric]
  · have hne : j ≠ launch.base requestSlot + s.out := by
      rw [h.out]
      rintro rfl
      refine hj (mem_slotCells.mpr ?_)
      rw [MovementLaunch.base]
      omega
    obtain ⟨hid, htier, hslot⟩ := h.frame j hj
    refine ⟨?_, ?_, ?_⟩
    · exact (Function.update_of_ne hne _ _).trans hid
    · exact (Function.update_of_ne hne _ _).trans htier
    · exact (Function.update_of_ne hne _ _).trans hslot

theorem mem_tierSlots {tier : MovementTier} {i : Int} :
    i ∈ launch.tierSlots requestSlot sourceTiers tier ↔
      i ∈ launch.validSlots requestSlot ∧ sourceTiers (launch.base requestSlot + i) = tier := by
  simp [tierSlots]

/-- A sweep for one tier. -/
theorem StagedSoFar.sweep (h : StagedSoFar launch requestSlot sourceTiers staged order s)
    (wantedTier : MovementTier) {is : List Int}
    (hroom : (order ++ is.filter fun i => 0 ≤ launch.pageAt requestSlot i ∧
      sourceTiers (launch.base requestSlot + i) = wantedTier).length ≤
        launch.maxSelectedPages.toNat) :
    StagedSoFar launch requestSlot sourceTiers staged
      (order ++ is.filter fun i => 0 ≤ launch.pageAt requestSlot i ∧
        sourceTiers (launch.base requestSlot + i) = wantedTier)
      (is.foldl (launch.stagePage requestSlot sourceTiers wantedTier) s) := by
  induction is generalizing order s with
  | nil => simpa using h
  | cons i is ih =>
    rw [List.foldl_cons]
    by_cases hi : 0 ≤ launch.pageAt requestSlot i ∧
        sourceTiers (launch.base requestSlot + i) = wantedTier
    · obtain ⟨hpage, rfl⟩ := hi
      rw [List.filter_cons_of_pos (by simpa using hpage), ← List.singleton_append,
        ← List.append_assoc] at hroom ⊢
      refine ih (h.stagePage ?_ hpage) hroom
      simp only [List.length_append, List.length_singleton] at hroom
      omega
    · rw [List.filter_cons_of_neg (by simpa using hi)] at hroom ⊢
      rw [stagePage_of_not_mem hi]
      exact ih h hroom

/-- The places of the staged pages in the order of the sweeps. -/
def sweptSlots (launch : MovementLaunch) (requestSlot : Int) (sourceTiers : Int → MovementTier) :
    List Int :=
  [MovementTier.hbm, .dram, .ssd].flatMap (launch.tierSlots requestSlot sourceTiers)

theorem nodup_validSlots : (launch.validSlots requestSlot).Nodup := (nodup_range _ _).filter _

theorem nodup_sweptSlots : (launch.sweptSlots requestSlot sourceTiers).Nodup := by
  refine List.nodup_flatMap.mpr ⟨fun tier _ => nodup_validSlots.filter _, ?_⟩
  have htiers : [MovementTier.hbm, .dram, .ssd].Pairwise (· ≠ ·) := by decide
  refine htiers.imp fun hne i hi hi' => hne ?_
  exact (mem_tierSlots.mp hi).2.symm.trans (mem_tierSlots.mp hi').2

theorem sweptSlots_subset : launch.sweptSlots requestSlot sourceTiers ⊆
    launch.validSlots requestSlot := by
  intro i hi
  obtain ⟨tier, -, hi⟩ := List.mem_flatMap.mp hi
  exact (mem_tierSlots.mp hi).1

theorem length_sweptSlots_le :
    (launch.sweptSlots requestSlot sourceTiers).length ≤ launch.maxSelectedPages.toNat := by
  calc (launch.sweptSlots requestSlot sourceTiers).length
      ≤ (launch.validSlots requestSlot).length :=
        (nodup_sweptSlots.subperm sweptSlots_subset).length_le
    _ ≤ (Int.range 0 launch.maxSelectedPages).length := List.length_filter_le _ _
    _ = launch.maxSelectedPages.toNat := by simp

theorem tierSlots_eq (tier : MovementTier) :
    launch.tierSlots requestSlot sourceTiers tier =
      (Int.range 0 launch.maxSelectedPages).filter fun i => 0 ≤ launch.pageAt requestSlot i ∧
        sourceTiers (launch.base requestSlot + i) = tier := by
  rw [tierSlots, validSlots, List.filter_filter]
  refine List.filter_congr fun i _ => ?_
  rw [Bool.decide_and, Bool.and_comm]

/-- The sweeps for some tiers. -/
theorem StagedSoFar.sweeps (h : StagedSoFar launch requestSlot sourceTiers staged order s)
    {tiers : List MovementTier}
    (hroom : (order ++ tiers.flatMap (launch.tierSlots requestSlot sourceTiers)).length ≤
      launch.maxSelectedPages.toNat) :
    StagedSoFar launch requestSlot sourceTiers staged
      (order ++ tiers.flatMap (launch.tierSlots requestSlot sourceTiers))
      (tiers.foldl (fun s wantedTier => (Int.range 0 launch.maxSelectedPages).foldl
        (launch.stagePage requestSlot sourceTiers wantedTier) s) s) := by
  induction tiers generalizing order s with
  | nil => simpa using h
  | cons tier tiers ih =>
    rw [List.flatMap_cons, ← List.append_assoc] at hroom ⊢
    rw [List.foldl_cons]
    refine ih ?_ hroom
    have hprefix : (order ++ launch.tierSlots requestSlot sourceTiers tier).length ≤
        launch.maxSelectedPages.toNat := by
      rw [List.length_append] at hroom
      omega
    rw [tierSlots_eq] at hprefix ⊢
    exact h.sweep tier hprefix

/-- What the staging leaves for one request. -/
theorem stagingBlock_spec (launch : MovementLaunch) (sourceTiers : Int → MovementTier)
    (staged : StagedPages) (requestSlot : Int) :
    let out := launch.stagingBlock sourceTiers staged requestSlot
    let order := launch.sweptSlots requestSlot sourceTiers
    launch.SliceHolds requestSlot sourceTiers order out.1 ∧
      out.2 = launch.stagedMetric requestSlot sourceTiers order ∧
      ∀ i, i ∉ slotCells launch.maxSelectedPages requestSlot →
        out.1.stagedPageIds i = staged.stagedPageIds i ∧
          out.1.stagedSourceTiers i = staged.stagedSourceTiers i ∧
          out.1.stagedBufferSlots i = staged.stagedBufferSlots i := by
  intro out order
  have hstart : StagedSoFar launch requestSlot sourceTiers staged []
      { staged :=
          { stagedPageIds := writeCells staged.stagedPageIds (launch.base requestSlot)
              launch.maxSelectedPages fun _ => -1
            stagedSourceTiers := writeCells staged.stagedSourceTiers (launch.base requestSlot)
              launch.maxSelectedPages fun _ => .none
            stagedBufferSlots := writeCells staged.stagedBufferSlots (launch.base requestSlot)
              launch.maxSelectedPages fun _ => -1 }
        out := 0
        previousBufferSlot := -1
        metric := { requestId := requestSlot + 1 } } := by
    refine ⟨rfl, rfl, ⟨?_, ?_, ?_⟩, ?_, fun i hi => ?_⟩
    · exact slice_writeCells_const _ _ _ _
    · exact slice_writeCells_const _ _ _ _
    · exact slice_writeCells_const _ _ _ _
    · simp [stagedMetric]
    · have hout : ¬ (launch.base requestSlot ≤ i ∧
          i < launch.base requestSlot + launch.maxSelectedPages) :=
        fun hin => hi (mem_slotCells.mpr hin)
      simp only [writeCells_apply, if_neg hout, and_self]
  have hroom : ([] ++ [MovementTier.hbm, .dram, .ssd].flatMap
      (launch.tierSlots requestSlot sourceTiers)).length ≤ launch.maxSelectedPages.toNat :=
    length_sweptSlots_le
  have hend := hstart.sweeps hroom
  exact ⟨hend.holds, hend.metric, hend.frame⟩

theorem owned_stagingBlock (launch : MovementLaunch) (sourceTiers : Int → MovementTier) :
    Owned (fun (staged : StagedPages) i =>
        (staged.stagedPageIds i, staged.stagedSourceTiers i, staged.stagedBufferSlots i))
      (fun _ => ()) (fun b i => i ∈ slotCells launch.maxSelectedPages b)
      (launch.stagingBlock sourceTiers) := by
  refine ⟨slotCells_disjoint, fun staged b i hi => ?_, fun _ _ => rfl, fun {staged staged' b} _ _ =>
    ⟨fun i hi => ?_, ?_⟩⟩
  · obtain ⟨hid, htier, hslot⟩ := (stagingBlock_spec launch sourceTiers staged b).2.2 i hi
    rw [hid, htier, hslot]
  · have h := (stagingBlock_spec launch sourceTiers staged b).1
    have h' := (stagingBlock_spec launch sourceTiers staged' b).1
    obtain ⟨h0, hlt⟩ := mem_slotCells.mp hi
    have hid := slice_eq_slice_iff.mp (h.ids.trans h'.ids.symm) i h0 hlt
    have htier := slice_eq_slice_iff.mp (h.tiers.trans h'.tiers.symm) i h0 hlt
    have hslot := slice_eq_slice_iff.mp (h.bufferSlots.trans h'.bufferSlots.symm) i h0 hlt
    rw [hid, htier, hslot]
  · exact (stagingBlock_spec launch sourceTiers staged b).2.1.trans
      (stagingBlock_spec launch sourceTiers staged' b).2.1.symm

/-- The valid places sorted stably by the tiers of their pages. -/
def stagingOrder (launch : MovementLaunch) (requestSlot : Int)
    (sourceTiers : Int → MovementTier) : List Int :=
  ranked (fun i => -(sourceTiers (launch.base requestSlot + i)).value)
    (launch.validSlots requestSlot)

theorem sweptSlots_eq_stagingOrder (h : ∀ i ∈ launch.validSlots requestSlot,
    sourceTiers (launch.base requestSlot + i) ≠ .none) :
    launch.sweptSlots requestSlot sourceTiers = launch.stagingOrder requestSlot sourceTiers := by
  refine eq_ranked ?_ (List.pairwise_flatMap.mpr ⟨fun tier _ => ?_, ?_⟩)
  · refine (List.perm_ext_iff_of_nodup nodup_sweptSlots nodup_validSlots).mpr fun i =>
      ⟨fun hi => sweptSlots_subset hi, fun hi => ?_⟩
    refine List.mem_flatMap.mpr ⟨_, ?_, mem_tierSlots.mpr ⟨hi, rfl⟩⟩
    have hne := h i hi
    cases htier : sourceTiers (launch.base requestSlot + i) with
    | none => exact absurd htier hne
    | hbm | dram | ssd => decide
  · -- within a tier the places ascend
    have hsorted : (launch.tierSlots requestSlot sourceTiers tier).Pairwise (· < ·) :=
      ((pairwise_range 0 launch.maxSelectedPages).filter _).filter _
    refine hsorted.imp_of_mem fun {i j} hi hj hij => Or.inr ⟨?_, hij.le⟩
    dsimp only
    rw [(mem_tierSlots.mp hi).2, (mem_tierSlots.mp hj).2]
  · have htiers : [MovementTier.hbm, .dram, .ssd].Pairwise fun t t' => t.value < t'.value := by
      decide
    refine htiers.imp fun {t t'} hlt i hi j hj => Or.inl ?_
    dsimp only
    rw [(mem_tierSlots.mp hi).2, (mem_tierSlots.mp hj).2]
    omega

theorem length_sweptSlots : (launch.sweptSlots requestSlot sourceTiers).length =
    (launch.tierSlots requestSlot sourceTiers .hbm).length +
      (launch.tierSlots requestSlot sourceTiers .dram).length +
      (launch.tierSlots requestSlot sourceTiers .ssd).length := by
  simp [sweptSlots, Nat.add_assoc]

theorem countP_sweptSlots (p : MovementTier → Bool) :
    (launch.sweptSlots requestSlot sourceTiers).countP
        (fun i => p (sourceTiers (launch.base requestSlot + i))) =
      ([MovementTier.hbm, .dram, .ssd].map fun tier =>
        if p tier then (launch.tierSlots requestSlot sourceTiers tier).length else 0).sum := by
  rw [sweptSlots, List.countP_flatMap]
  refine congrArg List.sum (List.map_congr_left fun tier _ => ?_)
  have htier : (launch.tierSlots requestSlot sourceTiers tier).countP
      (fun i => p (sourceTiers (launch.base requestSlot + i))) =
        (launch.tierSlots requestSlot sourceTiers tier).countP fun _ => p tier :=
    List.countP_congr fun i hi => by rw [(mem_tierSlots.mp hi).2]
  cases hp : p tier <;> simp [htier, hp]

/-- Every page of a tier is counted by the planner. -/
theorem length_tierSlots (h : ∀ i ∈ Int.range 0 launch.maxSelectedPages,
    sourceTiers (launch.base requestSlot + i) = launch.slotTier requestSlot i)
    {tier : MovementTier} (htier : tier ≠ .none) :
    ((launch.tierSlots requestSlot sourceTiers tier).length : Int) =
      launch.tierCount requestSlot tier (Int.range 0 launch.maxSelectedPages) := by
  rw [tierSlots_eq, ← List.countP_eq_length_filter, tierCount]
  refine congrArg Nat.cast (List.countP_congr fun i hi => ?_)
  simp only [decide_eq_true_eq, h i hi]
  refine ⟨fun hi => hi.2, fun hi => ⟨?_, hi⟩⟩
  have hvalid := (classifyPageTier_eq_none_iff (launch.pageAt requestSlot i)).not.mp
    (hi.trans_ne htier)
  exact not_lt.mp hvalid

/-- The staging counts what the planner counts. -/
theorem stagedMetric_sweptSlots (launch : MovementLaunch)
    (h : ∀ i ∈ Int.range 0 launch.maxSelectedPages,
      sourceTiers (launch.base requestSlot + i) = launch.slotTier requestSlot i) :
    let metric := launch.plannedMetric requestSlot (Int.range 0 launch.maxSelectedPages)
    launch.stagedMetric requestSlot sourceTiers (launch.sweptSlots requestSlot sourceTiers) =
      { requestId := requestSlot + 1
        stagedPages := metric.pagesPlanned
        hbmPagesStaged := metric.hbmHits
        dmaPagesStaged := metric.dmaOps
        bufferSlotSwitches := max (metric.pagesPlanned - 1) 0
        stagingBytes := metric.bytesFromHbm + metric.bytesMoved } := by
  intro metric
  have hlength : ((launch.sweptSlots requestSlot sourceTiers).length : Int) =
      metric.pagesPlanned := by
    rw [length_sweptSlots]
    push_cast
    rw [length_tierSlots h (by decide), length_tierSlots h (by decide),
      length_tierSlots h (by decide)]
    rfl
  have hhbm : ((launch.sweptSlots requestSlot sourceTiers).countP fun i =>
      sourceTiers (launch.base requestSlot + i) = .hbm : Int) = metric.hbmHits := by
    rw [countP_sweptSlots (· = .hbm)]
    exact length_tierSlots h (by decide)
  have hdma : ((launch.sweptSlots requestSlot sourceTiers).countP fun i =>
      sourceTiers (launch.base requestSlot + i) ≠ .hbm : Int) = metric.dmaOps := by
    rw [countP_sweptSlots (· ≠ .hbm)]
    simp [length_tierSlots h]
    rfl
  have hbytes : metric.pagesPlanned * launch.bytesPerPage =
      metric.bytesFromHbm + metric.bytesMoved := by
    simp only [metric, plannedMetric]
    ring
  simp only [stagedMetric, hlength, hhbm, hdma, hbytes]

/-- What a launch of the planner leaves of a request. -/
theorem dmaAwareKvMovementPlannerKernel_spec (launch : MovementLaunch) {order : List Int}
    (hnd : order.Nodup) (plan : MovementPlan) (metrics : Int → DMAMovementPlanMetrics)
    (hslot : requestSlot ∈ order) :
    let out := dmaAwareKvMovementPlannerKernel launch order plan metrics
    (∀ i ∈ Int.range 0 launch.maxSelectedPages,
      out.1.sourceTiers (launch.base requestSlot + i) = launch.slotTier requestSlot i) ∧
    out.2 requestSlot =
      launch.plannedMetric requestSlot (Int.range 0 launch.maxSelectedPages) := by
  intro out
  obtain ⟨hcells, hresult⟩ := launch.owned_plannerBlock.runBlocks hnd hslot (plan, metrics)
  rw [plannerBlock_eq] at hresult
  refine ⟨fun i hi => ?_, hresult⟩
  obtain ⟨h0, hlt⟩ := Int.mem_range_iff.mp hi
  have hin : launch.base requestSlot + i ∈ slotCells launch.maxSelectedPages requestSlot := by
    rw [mem_slotCells, base]
    omega
  have hcell := congrArg Prod.fst (hcells _ hin)
  simp only [plannerBlock_eq, writeCells_of_mem h0 hlt] at hcell
  exact hcell

/-- What a launch of the staging leaves of a request. -/
theorem tieredKvStagingKernel_spec (launch : MovementLaunch) {order : List Int}
    (hnd : order.Nodup) (sourceTiers : Int → MovementTier) (staged : StagedPages)
    (metrics : Int → TieredKVStagingMetrics) (hslot : requestSlot ∈ order) :
    let out := tieredKvStagingKernel launch sourceTiers order staged metrics
    launch.SliceHolds requestSlot sourceTiers (launch.sweptSlots requestSlot sourceTiers) out.1 ∧
      out.2 requestSlot =
        launch.stagedMetric requestSlot sourceTiers
          (launch.sweptSlots requestSlot sourceTiers) := by
  intro out
  obtain ⟨hcells, hresult⟩ :=
    (launch.owned_stagingBlock sourceTiers).runBlocks hnd hslot (staged, metrics)
  obtain ⟨⟨hids, htiers, hslots⟩, hmetric, -⟩ :=
    launch.stagingBlock_spec sourceTiers staged requestSlot
  have hcell := fun i h0 hlt => hcells i (mem_slotCells.mpr ⟨h0, hlt⟩)
  refine ⟨⟨?_, ?_, ?_⟩, hresult.trans hmetric⟩
  · refine Eq.trans (slice_eq_slice_iff.mpr fun i h0 hlt => ?_) hids
    exact congrArg Prod.fst (hcell i h0 hlt)
  · refine Eq.trans (slice_eq_slice_iff.mpr fun i h0 hlt => ?_) htiers
    exact congrArg (fun cell => cell.2.1) (hcell i h0 hlt)
  · refine Eq.trans (slice_eq_slice_iff.mpr fun i h0 hlt => ?_) hslots
    exact congrArg (fun cell => cell.2.2) (hcell i h0 hlt)

end MovementLaunch

/-- What the two launches leave of a request: the pages in the order of the tiers that were
planned for them, and the two metrics in agreement. -/
structure StagesPlan (launch : MovementLaunch) (requestSlot : Int)
    (planned : MovementPlan × (Int → DMAMovementPlanMetrics))
    (out : StagedPages × (Int → TieredKVStagingMetrics)) : Prop where
  tiers : ∀ i ∈ launch.validSlots requestSlot,
    planned.1.sourceTiers (launch.base requestSlot + i) =
      classifyPageTier (launch.pageAt requestSlot i)
  holds : launch.SliceHolds requestSlot planned.1.sourceTiers
    (launch.stagingOrder requestSlot planned.1.sourceTiers) out.1
  stagedPages : (out.2 requestSlot).stagedPages = (planned.2 requestSlot).pagesPlanned
  hbmPagesStaged : (out.2 requestSlot).hbmPagesStaged = (planned.2 requestSlot).hbmHits
  dmaPagesStaged : (out.2 requestSlot).dmaPagesStaged = (planned.2 requestSlot).dmaOps
  dmaOps : (planned.2 requestSlot).dmaOps =
    (planned.2 requestSlot).dramFetches + (planned.2 requestSlot).ssdFetches
  stagingBytes : (out.2 requestSlot).stagingBytes =
    (planned.2 requestSlot).bytesFromHbm + (planned.2 requestSlot).bytesMoved
  bufferSlotSwitches : (out.2 requestSlot).bufferSlotSwitches =
    max ((out.2 requestSlot).stagedPages - 1) 0

/-- The staging kernel on the tiers of the planner stages every selected page once, the nearer
tiers first, and counts what the planner counted. -/
theorem tieredKvStagingKernel_stagesPlan (launch : MovementLaunch) {order order' : List Int}
    (hnd : order.Nodup) (hnd' : order'.Nodup) (plan : MovementPlan)
    (planMetrics : Int → DMAMovementPlanMetrics) (staged : StagedPages)
    (stagingMetrics : Int → TieredKVStagingMetrics) {requestSlot : Int}
    (hslot : requestSlot ∈ order) (hslot' : requestSlot ∈ order') :
    let planned := dmaAwareKvMovementPlannerKernel launch order plan planMetrics
    StagesPlan launch requestSlot planned
      (tieredKvStagingKernel launch planned.1.sourceTiers order' staged stagingMetrics) := by
  intro planned
  obtain ⟨htiers, hplanMetric⟩ :=
    launch.dmaAwareKvMovementPlannerKernel_spec hnd plan planMetrics hslot
  obtain ⟨hholds, hmetric⟩ := launch.tieredKvStagingKernel_spec hnd' planned.1.sourceTiers staged
    stagingMetrics hslot'
  have hvalid : ∀ i ∈ launch.validSlots requestSlot,
      planned.1.sourceTiers (launch.base requestSlot + i) = launch.slotTier requestSlot i :=
    fun i hi => htiers i (List.mem_of_mem_filter hi)
  have hne : ∀ i ∈ launch.validSlots requestSlot,
      planned.1.sourceTiers (launch.base requestSlot + i) ≠ .none := by
    intro i hi hnone
    have hneg := (classifyPageTier_eq_none_iff _).mp ((hvalid i hi).symm.trans hnone)
    have hpage : 0 ≤ launch.pageAt requestSlot i := by simpa using (List.mem_filter.mp hi).2
    exact absurd hneg (not_lt.mpr hpage)
  have hcounts := launch.stagedMetric_sweptSlots htiers
  refine ⟨hvalid, ?_, ?_, ?_, ?_, ?_, ?_, ?_⟩
  · exact launch.sweptSlots_eq_stagingOrder hne ▸ hholds
  · rw [hmetric, hplanMetric, hcounts]
  · rw [hmetric, hplanMetric, hcounts]
  · rw [hmetric, hplanMetric, hcounts]
  · rw [hplanMetric]
    rfl
  · rw [hmetric, hplanMetric, hcounts]
  · rw [hmetric, hcounts]

/-- Two requests with a hole each. -/
theorem tieredKvStagingKernel_stagesPlan_holes :
    let launch : MovementLaunch :=
      { selectedPageIds := fun i => [3, -1, 5, 4, 7, 2, -1, 0].getD i.toNat (-1)
        maxSelectedPages := 4, bytesPerPage := 64 }
    let planned := dmaAwareKvMovementPlannerKernel launch [0, 1] ⟨fun _ => .none, fun _ => .none⟩
      fun _ => {}
    let out := tieredKvStagingKernel launch planned.1.sourceTiers [1, 0]
      ⟨fun _ => 0, fun _ => .none, fun _ => 0⟩ fun _ => {}
    slice out.1.stagedPageIds 4 4 = [0, 7, 2, -1] ∧ StagesPlan launch 1 planned out := by
  intro launch planned out
  exact ⟨by decide +kernel, tieredKvStagingKernel_stagesPlan launch (by decide) (by decide) _ _ _ _
    (by decide) (by decide)⟩

end ResidentInference.Device

import ResidentInference.Loops
import ResidentInference.OwnedBlocks
import ResidentInference.Sweeps
import ResidentInference.Device.Host
import Mathlib.Tactic.Ring

/-! The tier residency kernel: promotions of the selected pages, then demotions of other pages while
a tier holds more than its capacity. -/
namespace ResidentInference.Device
open Loops Sweeps OwnedBlocks

structure KVTierResidencyMetrics where
  requestId : Int := 0
  pagesRebalanced : Int := 0
  promotionsToHbm : Int := 0
  promotionsToDram : Int := 0
  demotionsToDram : Int := 0
  demotionsToSsd : Int := 0
  finalHbmPages : Int := 0
  finalDramPages : Int := 0
  finalSsdPages : Int := 0
  bytesPromoted : Int := 0
  bytesDemoted : Int := 0
  deriving DecidableEq, Repr

/-- The parameters of a launch. -/
structure TierLaunch where
  selectedPageIds : Int → Int
  maxSelectedPages : Int
  pagesPerRequest : Int
  hbmCapacityPages : Int
  dramCapacityPages : Int
  bytesPerPage : Int

/-- What a block changes. -/
structure TierState where
  tiers : Int → MovementTier
  hbmCount : Int
  dramCount : Int
  ssdCount : Int
  metric : KVTierResidencyMetrics

namespace TierLaunch
variable (launch : TierLaunch) (requestSlot : Int)

/-- The ids in the slice of the request. -/
def slotIds : List Int :=
  slice launch.selectedPageIds (requestSlot * launch.maxSelectedPages) launch.maxSelectedPages

/-- The pages of the request. -/
def pages : List Int := slotCells launch.pagesPerRequest requestSlot

def isSelectedPage (pageId : Int) : Bool := (launch.slotIds requestSlot).any (· == pageId)

/-- One id of the promotion loop. -/
def promotePage (s : TierState) (pageId : Int) : TierState :=
  let tierBase := requestSlot * launch.pagesPerRequest
  let localIndex := pageId - tierBase
  if pageId < 0 then s
  else if localIndex < 0 ∨ localIndex ≥ launch.pagesPerRequest then s
  else
    match s.tiers (tierBase + localIndex) with
    | .dram =>
      { s with
        tiers := Function.update s.tiers (tierBase + localIndex) .hbm
        metric := { s.metric with
          promotionsToHbm := s.metric.promotionsToHbm + 1
          pagesRebalanced := s.metric.pagesRebalanced + 1
          bytesPromoted := s.metric.bytesPromoted + launch.bytesPerPage } }
    | .ssd =>
      { s with
        tiers := Function.update s.tiers (tierBase + localIndex) .dram
        metric := { s.metric with
          promotionsToDram := s.metric.promotionsToDram + 1
          pagesRebalanced := s.metric.pagesRebalanced + 1
          bytesPromoted := s.metric.bytesPromoted + launch.bytesPerPage } }
    | .hbm | .none => s

/-- One page of the counting loop. -/
def countPage (s : TierState) (i : Int) : TierState :=
  match s.tiers i with
  | .hbm => { s with hbmCount := s.hbmCount + 1 }
  | .dram => { s with dramCount := s.dramCount + 1 }
  | .ssd | .none => { s with ssdCount := s.ssdCount + 1 }

/-- One page of the first demotion loop. -/
def demoteFromHbm (s : TierState) (i : Int) : TierState :=
  if s.hbmCount ≤ launch.hbmCapacityPages then s
  else if s.tiers i ≠ .hbm then s
  else if launch.isSelectedPage requestSlot i then s
  else
    { s with
      tiers := Function.update s.tiers i .dram
      hbmCount := s.hbmCount - 1
      dramCount := s.dramCount + 1
      metric := { s.metric with
        demotionsToDram := s.metric.demotionsToDram + 1
        pagesRebalanced := s.metric.pagesRebalanced + 1
        bytesDemoted := s.metric.bytesDemoted + launch.bytesPerPage } }

/-- One page of the second demotion loop. -/
def demoteFromDram (s : TierState) (i : Int) : TierState :=
  if s.dramCount ≤ launch.dramCapacityPages then s
  else if s.tiers i ≠ .dram then s
  else if launch.isSelectedPage requestSlot i then s
  else
    { s with
      tiers := Function.update s.tiers i .ssd
      dramCount := s.dramCount - 1
      ssdCount := s.ssdCount + 1
      metric := { s.metric with
        demotionsToSsd := s.metric.demotionsToSsd + 1
        pagesRebalanced := s.metric.pagesRebalanced + 1
        bytesDemoted := s.metric.bytesDemoted + launch.bytesPerPage } }

/-- The promotions, and the counts after them. -/
def promoteAndCount (tiers : Int → MovementTier) : TierState :=
  let s : TierState :=
    { tiers := tiers, hbmCount := 0, dramCount := 0, ssdCount := 0
      metric := { requestId := requestSlot + 1 } }
  let s := (launch.slotIds requestSlot).foldl (launch.promotePage requestSlot) s
  (launch.pages requestSlot).foldl countPage s

/-- The first demotion loop, which starts with the last page. -/
def rebalanceHbm (tiers : Int → MovementTier) : TierState :=
  (launch.pages requestSlot).reverse.foldl (launch.demoteFromHbm requestSlot)
    (launch.promoteAndCount requestSlot tiers)

/-- The second one. -/
def rebalance (tiers : Int → MovementTier) : TierState :=
  (launch.pages requestSlot).reverse.foldl (launch.demoteFromDram requestSlot)
    (launch.rebalanceHbm requestSlot tiers)

/-- The tiers and the metrics that the block leaves. -/
def tierResidencyBlock (tiers : Int → MovementTier) (requestSlot : Int) :
    (Int → MovementTier) × KVTierResidencyMetrics :=
  let s := launch.rebalance requestSlot tiers
  (s.tiers, { s.metric with
    finalHbmPages := s.hbmCount
    finalDramPages := s.dramCount
    finalSsdPages := s.ssdCount })

end TierLaunch

/-- The blocks one after another, in any order: each has pages of its own. -/
def kvTierResidencyKernel (launch : TierLaunch) (tiers : Int → MovementTier) (order : List Int)
    (metrics : Int → KVTierResidencyMetrics) :
    (Int → MovementTier) × (Int → KVTierResidencyMetrics) :=
  runBlocks launch.tierResidencyBlock order (tiers, metrics)

/-! ## The promotions -/

/-- One tier nearer. -/
def MovementTier.promote : MovementTier → MovementTier
  | .none => .none
  | .hbm | .dram => .hbm
  | .ssd => .dram

namespace TierLaunch
variable {launch : TierLaunch} {requestSlot : Int}

theorem nonneg_of_mem_pages (hslot : 0 ≤ requestSlot) {i : Int}
    (hi : i ∈ launch.pages requestSlot) : 0 ≤ i := by
  obtain ⟨h1, h2⟩ := mem_slotCells.mp hi
  have hbase : 0 ≤ requestSlot * launch.pagesPerRequest := mul_nonneg hslot (by omega)
  omega

theorem tiers_promotePage (s : TierState) (pageId i : Int) :
    (launch.promotePage requestSlot s pageId).tiers i =
      if i = pageId ∧ 0 ≤ i ∧ i ∈ launch.pages requestSlot then (s.tiers i).promote
      else s.tiers i := by
  have hcell : requestSlot * launch.pagesPerRequest +
      (pageId - requestSlot * launch.pagesPerRequest) = pageId := by omega
  have hmem : pageId ∈ launch.pages requestSlot ↔
      ¬ (pageId - requestSlot * launch.pagesPerRequest < 0 ∨
        pageId - requestSlot * launch.pagesPerRequest ≥ launch.pagesPerRequest) := by
    rw [pages, mem_slotCells]
    omega
  simp only [promotePage, hcell]
  by_cases hneg : pageId < 0
  · have hout : ¬ (i = pageId ∧ 0 ≤ i ∧ i ∈ launch.pages requestSlot) := by
      rintro ⟨rfl, h0, -⟩
      omega
    simp only [hneg, if_true, hout, if_false]
  · by_cases hin : pageId ∈ launch.pages requestSlot
    · simp only [hneg, if_false, hmem.mp hin]
      by_cases hi : i = pageId
      · subst hi
        cases ht : s.tiers i <;> simp [ht, hin, not_lt.mp hneg, MovementTier.promote]
      · cases s.tiers pageId <;> simp [hi]
    · have hout : ¬ (i = pageId ∧ 0 ≤ i ∧ i ∈ launch.pages requestSlot) := by
        rintro ⟨rfl, -, hi⟩
        exact hin hi
      simp only [hneg, if_false, not_not.mp (hmem.not.mp hin), if_true, hout]

/-- A page is promoted once for each time that its id is selected. -/
theorem tiers_foldl_promotePage (ids : List Int) (s : TierState) (i : Int) :
    (ids.foldl (launch.promotePage requestSlot) s).tiers i =
      if 0 ≤ i ∧ i ∈ launch.pages requestSlot then
        MovementTier.promote^[ids.count i] (s.tiers i)
      else s.tiers i := by
  induction ids generalizing s with
  | nil => simp
  | cons pageId ids ih =>
    rw [List.foldl_cons, ih, tiers_promotePage]
    by_cases hi : 0 ≤ i ∧ i ∈ launch.pages requestSlot
    · by_cases hid : pageId = i
      · simp [hi, hid]
      · simp [hi, hid, Ne.symm hid, List.count_cons_of_ne]
    · simp [hi]

end TierLaunch

/-! ## The counters -/

/-- The movement counters of a block agree with each other. -/
structure MovesAddUp (bytesPerPage : Int) (m : KVTierResidencyMetrics) : Prop where
  rebalanced : m.pagesRebalanced =
    m.promotionsToHbm + m.promotionsToDram + m.demotionsToDram + m.demotionsToSsd
  promoted : m.bytesPromoted = (m.promotionsToHbm + m.promotionsToDram) * bytesPerPage
  demoted : m.bytesDemoted = (m.demotionsToDram + m.demotionsToSsd) * bytesPerPage

/-- The running counts are those of the tiers. -/
structure Counted (is : List Int) (s : TierState) : Prop where
  hbm : s.hbmCount = is.countP fun i => decide (s.tiers i = .hbm)
  dram : s.dramCount = is.countP fun i => decide (s.tiers i = .dram)
  ssd : s.ssdCount = is.countP fun i => decide (s.tiers i ≠ .hbm ∧ s.tiers i ≠ .dram)

theorem countP_tiers (tiers : Int → MovementTier) (is : List Int) :
    (is.countP fun i => decide (tiers i = .hbm)) + (is.countP fun i => decide (tiers i = .dram)) +
      (is.countP fun i => decide (tiers i ≠ .hbm ∧ tiers i ≠ .dram)) = is.length := by
  induction is with
  | nil => rfl
  | cons i is ih =>
    have hone : (if decide (tiers i = .hbm) = true then 1 else 0) +
        (if decide (tiers i = .dram) = true then 1 else 0) +
        (if decide (tiers i ≠ .hbm ∧ tiers i ≠ .dram) = true then 1 else 0) = 1 := by
      cases tiers i <;> decide
    simp only [List.countP_cons, List.length_cons]
    omega

namespace TierLaunch
variable {launch : TierLaunch} {requestSlot : Int}

theorem promotePage_counters (launch : TierLaunch) (requestSlot : Int) (s : TierState)
    (pageId : Int) :
    let s' := launch.promotePage requestSlot s pageId
    (MovesAddUp launch.bytesPerPage s.metric → MovesAddUp launch.bytesPerPage s'.metric) ∧
      s'.hbmCount = s.hbmCount ∧ s'.dramCount = s.dramCount ∧ s'.ssdCount = s.ssdCount := by
  intro s'
  simp only [s', promotePage]
  split_ifs
  · exact ⟨id, rfl, rfl, rfl⟩
  · exact ⟨id, rfl, rfl, rfl⟩
  · split
    · refine ⟨fun ⟨h1, h2, h3⟩ => ⟨?_, ?_, h3⟩, rfl, rfl, rfl⟩
      · simp only [h1]
        ring
      · simp only [h2]
        ring
    · refine ⟨fun ⟨h1, h2, h3⟩ => ⟨?_, ?_, h3⟩, rfl, rfl, rfl⟩
      · simp only [h1]
        ring
      · simp only [h2]
        ring
    · exact ⟨id, rfl, rfl, rfl⟩
    · exact ⟨id, rfl, rfl, rfl⟩

/-- The counting loop only counts. -/
theorem foldl_countPage (is : List Int) (s : TierState) :
    let s' := is.foldl countPage s
    s'.tiers = s.tiers ∧ s'.metric = s.metric ∧
      s'.hbmCount = s.hbmCount + is.countP (fun i => decide (s.tiers i = .hbm)) ∧
      s'.dramCount = s.dramCount + is.countP (fun i => decide (s.tiers i = .dram)) ∧
      s'.ssdCount = s.ssdCount +
        is.countP fun i => decide (s.tiers i ≠ .hbm ∧ s.tiers i ≠ .dram) := by
  induction is generalizing s with
  | nil => simp
  | cons i is ih =>
    obtain ⟨htiers, hmetric, hhbm, hdram, hssd⟩ := ih (countPage s i)
    have htiers' : (countPage s i).tiers = s.tiers := by
      simp only [countPage]
      split <;> rfl
    have hmetric' : (countPage s i).metric = s.metric := by
      simp only [countPage]
      split <;> rfl
    rw [htiers'] at htiers hhbm hdram hssd
    refine ⟨htiers, hmetric.trans hmetric', ?_, ?_, ?_⟩
    · rw [List.foldl_cons, hhbm, List.countP_cons]
      cases ht : s.tiers i <;> simp [countPage, ht, add_assoc, add_comm]
    · rw [List.foldl_cons, hdram, List.countP_cons]
      cases ht : s.tiers i <;> simp [countPage, ht, add_assoc, add_comm]
    · rw [List.foldl_cons, hssd, List.countP_cons]
      cases ht : s.tiers i <;> simp [countPage, ht, add_assoc, add_comm]

/-- A page that a demotion from the tier may take. -/
def unselectedIn (launch : TierLaunch) (requestSlot : Int) (tier : MovementTier) (i : Int)
    (t : MovementTier) : Bool :=
  decide (t = tier) && !launch.isSelectedPage requestSlot i

theorem unselectedIn_eq_true {tier t : MovementTier} {i : Int} :
    launch.unselectedIn requestSlot tier i t = true ↔
      t = tier ∧ launch.isSelectedPage requestSlot i = false := by
  simp [unselectedIn]

/-- A page that the first demotion loop passes over. -/
theorem demoteFromHbm_of_skip {s : TierState} {i : Int}
    (h : s.hbmCount - launch.hbmCapacityPages ≤ 0 ∨
      launch.unselectedIn requestSlot .hbm i (s.tiers i) = false) :
    launch.demoteFromHbm requestSlot s i = s := by
  simp only [unselectedIn] at h
  simp only [demoteFromHbm]
  grind

theorem demoteFromDram_of_skip {s : TierState} {i : Int}
    (h : s.dramCount - launch.dramCapacityPages ≤ 0 ∨
      launch.unselectedIn requestSlot .dram i (s.tiers i) = false) :
    launch.demoteFromDram requestSlot s i = s := by
  simp only [unselectedIn] at h
  simp only [demoteFromDram]
  grind

/-- A page that it demotes. -/
theorem demoteFromHbm_of_target {s : TierState} {i : Int}
    (hpos : 0 < s.hbmCount - launch.hbmCapacityPages)
    (h : launch.unselectedIn requestSlot .hbm i (s.tiers i) = true) :
    launch.demoteFromHbm requestSlot s i =
      { s with
        tiers := Function.update s.tiers i .dram
        hbmCount := s.hbmCount - 1
        dramCount := s.dramCount + 1
        metric := { s.metric with
          demotionsToDram := s.metric.demotionsToDram + 1
          pagesRebalanced := s.metric.pagesRebalanced + 1
          bytesDemoted := s.metric.bytesDemoted + launch.bytesPerPage } } := by
  obtain ⟨htier, hsel⟩ := unselectedIn_eq_true.mp h
  have hover : ¬ s.hbmCount ≤ launch.hbmCapacityPages := by omega
  simp [demoteFromHbm, hover, htier, hsel]

theorem demoteFromDram_of_target {s : TierState} {i : Int}
    (hpos : 0 < s.dramCount - launch.dramCapacityPages)
    (h : launch.unselectedIn requestSlot .dram i (s.tiers i) = true) :
    launch.demoteFromDram requestSlot s i =
      { s with
        tiers := Function.update s.tiers i .ssd
        dramCount := s.dramCount - 1
        ssdCount := s.ssdCount + 1
        metric := { s.metric with
          demotionsToSsd := s.metric.demotionsToSsd + 1
          pagesRebalanced := s.metric.pagesRebalanced + 1
          bytesDemoted := s.metric.bytesDemoted + launch.bytesPerPage } } := by
  obtain ⟨htier, hsel⟩ := unselectedIn_eq_true.mp h
  have hover : ¬ s.dramCount ≤ launch.dramCapacityPages := by omega
  simp [demoteFromDram, hover, htier, hsel]

theorem hbmCount_demoteFromDram (s : TierState) (i : Int) :
    (launch.demoteFromDram requestSlot s i).hbmCount = s.hbmCount := by
  simp only [demoteFromDram]
  split_ifs <;> rfl

theorem isSweep_demoteFromHbm (launch : TierLaunch) (requestSlot : Int) :
    IsSweep TierState.tiers (fun s => s.hbmCount - launch.hbmCapacityPages)
      (launch.unselectedIn requestSlot .hbm) (fun _ => .dram) (launch.demoteFromHbm requestSlot) := by
  refine ⟨fun s i h => ?_, fun s i hpos h => ?_⟩
  · rw [demoteFromHbm_of_skip h]
    exact ⟨rfl, rfl⟩
  · rw [demoteFromHbm_of_target hpos h]
    exact ⟨rfl, by simp only; omega⟩

theorem isSweep_demoteFromDram (launch : TierLaunch) (requestSlot : Int) :
    IsSweep TierState.tiers (fun s => s.dramCount - launch.dramCapacityPages)
      (launch.unselectedIn requestSlot .dram) (fun _ => .ssd) (launch.demoteFromDram requestSlot) := by
  refine ⟨fun s i h => ?_, fun s i hpos h => ?_⟩
  · rw [demoteFromDram_of_skip h]
    exact ⟨rfl, rfl⟩
  · rw [demoteFromDram_of_target hpos h]
    exact ⟨rfl, by simp only; omega⟩

end TierLaunch

/-- The counts after a page has moved. -/
theorem Counted.move {is : List Int} (hnd : is.Nodup) {i : Int} (hi : i ∈ is) {s s' : TierState}
    (h : Counted is s) {tier : MovementTier} (htiers : s'.tiers = Function.update s.tiers i tier)
    (hhbm : s'.hbmCount + (if s.tiers i = .hbm then 1 else 0) =
      s.hbmCount + if tier = .hbm then 1 else 0)
    (hdram : s'.dramCount + (if s.tiers i = .dram then 1 else 0) =
      s.dramCount + if tier = .dram then 1 else 0)
    (hssd : s'.ssdCount + (if s.tiers i ≠ .hbm ∧ s.tiers i ≠ .dram then 1 else 0) =
      s.ssdCount + if tier ≠ .hbm ∧ tier ≠ .dram then 1 else 0) :
    Counted is s' := by
  have hcount (p : MovementTier → Prop) [DecidablePred p] :
      ((is.countP fun j => decide (p (s'.tiers j)) : Nat) : Int) +
          (if p (s.tiers i) then 1 else 0) =
        (is.countP fun j => decide (p (s.tiers j)) : Nat) + if p tier then 1 else 0 := by
    have hmoved := countP_update hnd hi s.tiers tier fun t => decide (p t)
    rw [← htiers] at hmoved
    simp only [decide_eq_true_eq] at hmoved
    exact_mod_cast hmoved
  refine ⟨?_, ?_, ?_⟩
  · have hmoved := hcount (· = .hbm)
    rw [h.hbm] at hhbm
    omega
  · have hmoved := hcount (· = .dram)
    rw [h.dram] at hdram
    omega
  · have hmoved := hcount fun t => t ≠ .hbm ∧ t ≠ .dram
    rw [h.ssd] at hssd
    omega

namespace TierLaunch
variable {launch : TierLaunch} {requestSlot : Int}

/-- A demotion of a counted page keeps the counts and the sums. -/
theorem demoteFromHbm_counters {is : List Int} (hnd : is.Nodup) {i : Int} (hi : i ∈ is)
    {s : TierState} (h : Counted is s ∧ MovesAddUp launch.bytesPerPage s.metric) :
    Counted is (launch.demoteFromHbm requestSlot s i) ∧
      MovesAddUp launch.bytesPerPage (launch.demoteFromHbm requestSlot s i).metric := by
  by_cases hskip : s.hbmCount - launch.hbmCapacityPages ≤ 0 ∨
      launch.unselectedIn requestSlot .hbm i (s.tiers i) = false
  · rw [demoteFromHbm_of_skip hskip]
    exact h
  · obtain ⟨hpos, htarget⟩ := not_or.mp hskip
    rw [Bool.not_eq_false] at htarget
    have htier := (unselectedIn_eq_true.mp htarget).1
    rw [demoteFromHbm_of_target (not_le.mp hpos) htarget]
    refine ⟨h.1.move hnd hi rfl ?_ ?_ ?_, ?_, h.2.promoted, ?_⟩
    · simp [htier]
    · simp [htier]
    · simp [htier]
    · simp only [h.2.rebalanced]
      ring
    · simp only [h.2.demoted]
      ring

theorem demoteFromDram_counters {is : List Int} (hnd : is.Nodup) {i : Int} (hi : i ∈ is)
    {s : TierState} (h : Counted is s ∧ MovesAddUp launch.bytesPerPage s.metric) :
    Counted is (launch.demoteFromDram requestSlot s i) ∧
      MovesAddUp launch.bytesPerPage (launch.demoteFromDram requestSlot s i).metric := by
  by_cases hskip : s.dramCount - launch.dramCapacityPages ≤ 0 ∨
      launch.unselectedIn requestSlot .dram i (s.tiers i) = false
  · rw [demoteFromDram_of_skip hskip]
    exact h
  · obtain ⟨hpos, htarget⟩ := not_or.mp hskip
    rw [Bool.not_eq_false] at htarget
    have htier := (unselectedIn_eq_true.mp htarget).1
    rw [demoteFromDram_of_target (not_le.mp hpos) htarget]
    refine ⟨h.1.move hnd hi rfl ?_ ?_ ?_, ?_, h.2.promoted, ?_⟩
    · simp [htier]
    · simp [htier]
    · simp [htier]
    · simp only [h.2.rebalanced]
      ring
    · simp only [h.2.demoted]
      ring

/-! ## One block -/

/-- The tier of a page after the promotions. -/
def promoted (launch : TierLaunch) (requestSlot : Int) (tiers : Int → MovementTier) (i : Int) :
    MovementTier :=
  if 0 ≤ i ∧ i ∈ launch.pages requestSlot then
    MovementTier.promote^[(launch.slotIds requestSlot).count i] (tiers i)
  else tiers i

theorem tiers_promoteAndCount (launch : TierLaunch) (requestSlot : Int)
    (tiers : Int → MovementTier) :
    (launch.promoteAndCount requestSlot tiers).tiers = launch.promoted requestSlot tiers := by
  rw [promoteAndCount, (foldl_countPage _ _).1]
  funext i
  exact tiers_foldl_promotePage (launch.slotIds requestSlot) _ i

theorem promoteAndCount_counters (launch : TierLaunch) (requestSlot : Int)
    (tiers : Int → MovementTier) :
    Counted (launch.pages requestSlot) (launch.promoteAndCount requestSlot tiers) ∧
      MovesAddUp launch.bytesPerPage (launch.promoteAndCount requestSlot tiers).metric := by
  let s₀ : TierState :=
    { tiers := tiers, hbmCount := 0, dramCount := 0, ssdCount := 0
      metric := { requestId := requestSlot + 1 } }
  have hstart : MovesAddUp launch.bytesPerPage s₀.metric := by
    constructor <;> simp [s₀]
  obtain ⟨hm, h1, h2, h3⟩ := List.foldlRecOn
    (motive := fun s => MovesAddUp launch.bytesPerPage s.metric ∧ s.hbmCount = 0 ∧
      s.dramCount = 0 ∧ s.ssdCount = 0)
    (launch.slotIds requestSlot) (launch.promotePage requestSlot) (b := s₀)
    ⟨hstart, rfl, rfl, rfl⟩ fun s h pageId _ => by
      obtain ⟨hkeep, h1', h2', h3'⟩ := promotePage_counters launch requestSlot s pageId
      exact ⟨hkeep h.1, h1'.trans h.2.1, h2'.trans h.2.2.1, h3'.trans h.2.2.2⟩
  obtain ⟨htiers, hmetric, hhbm, hdram, hssd⟩ := foldl_countPage (launch.pages requestSlot)
    ((launch.slotIds requestSlot).foldl (launch.promotePage requestSlot) s₀)
  refine ⟨⟨?_, ?_, ?_⟩, ?_⟩
  · rw [promoteAndCount, hhbm, h1, htiers, zero_add]
  · rw [promoteAndCount, hdram, h2, htiers, zero_add]
  · rw [promoteAndCount, hssd, h3, htiers, zero_add]
  · rw [promoteAndCount, hmetric]
    exact hm

theorem rebalanceHbm_counters (launch : TierLaunch) (requestSlot : Int)
    (tiers : Int → MovementTier) :
    Counted (launch.pages requestSlot) (launch.rebalanceHbm requestSlot tiers) ∧
      MovesAddUp launch.bytesPerPage (launch.rebalanceHbm requestSlot tiers).metric :=
  List.foldlRecOn
    (motive := fun s => Counted (launch.pages requestSlot) s ∧
      MovesAddUp launch.bytesPerPage s.metric)
    (launch.pages requestSlot).reverse (launch.demoteFromHbm requestSlot)
    (promoteAndCount_counters launch requestSlot tiers)
    fun _ h _ hi => demoteFromHbm_counters (nodup_range _ _) (List.mem_reverse.mp hi) h

theorem rebalance_counters (launch : TierLaunch) (requestSlot : Int)
    (tiers : Int → MovementTier) :
    Counted (launch.pages requestSlot) (launch.rebalance requestSlot tiers) ∧
      MovesAddUp launch.bytesPerPage (launch.rebalance requestSlot tiers).metric :=
  List.foldlRecOn
    (motive := fun s => Counted (launch.pages requestSlot) s ∧
      MovesAddUp launch.bytesPerPage s.metric)
    (launch.pages requestSlot).reverse (launch.demoteFromDram requestSlot)
    (rebalanceHbm_counters launch requestSlot tiers)
    fun _ h _ hi => demoteFromDram_counters (nodup_range _ _) (List.mem_reverse.mp hi) h

theorem hbmCount_rebalance (launch : TierLaunch) (requestSlot : Int)
    (tiers : Int → MovementTier) :
    (launch.rebalance requestSlot tiers).hbmCount =
      (launch.rebalanceHbm requestSlot tiers).hbmCount :=
  List.foldlRecOn
    (motive := fun s => s.hbmCount = (launch.rebalanceHbm requestSlot tiers).hbmCount)
    (launch.pages requestSlot).reverse (launch.demoteFromDram requestSlot) rfl
    fun s h i _ => (hbmCount_demoteFromDram s i).trans h

/-- The tiers that a block leaves, when it demotes the pages `out` from HBM and then the pages
`down` from DRAM: only unselected pages of a tier over its capacity, and all of them if it stays
over. -/
structure Demoted (launch : TierLaunch) (requestSlot : Int) (tiers tiers' : Int → MovementTier)
    (out down : List Int) : Prop where
  tier_eq : ∀ i, tiers' i = if i ∈ down then .ssd else if i ∈ out then .dram
    else launch.promoted requestSlot tiers i
  mem_out : ∀ i ∈ out, i ∈ launch.pages requestSlot ∧
    launch.isSelectedPage requestSlot i = false ∧ launch.promoted requestSlot tiers i = .hbm
  mem_down : ∀ i ∈ down, i ∈ launch.pages requestSlot ∧
    launch.isSelectedPage requestSlot i = false ∧
      (i ∈ out ∨ launch.promoted requestSlot tiers i = .dram)
  hbm_room : ((launch.pages requestSlot).countP fun i =>
    decide (launch.promoted requestSlot tiers i = .hbm)) ≤ launch.hbmCapacityPages → out = []
  dram_room : out = [] → ((launch.pages requestSlot).countP fun i =>
    decide (launch.promoted requestSlot tiers i = .dram)) ≤ launch.dramCapacityPages → down = []
  hbm_over : launch.hbmCapacityPages < ((launch.pages requestSlot).countP fun i =>
      decide (tiers' i = .hbm)) → ∀ i ∈ launch.pages requestSlot, tiers' i = .hbm →
    launch.isSelectedPage requestSlot i = true
  dram_over : launch.dramCapacityPages < ((launch.pages requestSlot).countP fun i =>
      decide (tiers' i = .dram)) → ∀ i ∈ launch.pages requestSlot, tiers' i = .dram →
    launch.isSelectedPage requestSlot i = true

/-- The pages `ts` that a loop demotes from `tier`, which exceeds its capacity by `excess` before
the loop and by `left` after it. -/
structure Swept (launch : TierLaunch) (requestSlot : Int) (tier lower : MovementTier)
    (tiers tiers' : Int → MovementTier) (excess left : Int) (ts : List Int) : Prop where
  tier_eq : ∀ i, tiers' i = if i ∈ ts then lower else tiers i
  mem : ∀ i ∈ ts, i ∈ launch.pages requestSlot ∧ launch.isSelectedPage requestSlot i = false ∧
    tiers i = tier
  room : excess ≤ 0 → ts = []
  selected : 0 < left → ∀ i ∈ launch.pages requestSlot, tiers i = tier → i ∉ ts →
    launch.isSelectedPage requestSlot i = true

theorem exists_swept {tier lower : MovementTier} {count : TierState → Int} {capacity : Int}
    {step : TierState → Int → TierState}
    (h : IsSweep TierState.tiers (fun s => count s - capacity)
      (launch.unselectedIn requestSlot tier) (fun _ => lower) step) (s : TierState) :
    ∃ ts, Swept launch requestSlot tier lower s.tiers
      ((launch.pages requestSlot).reverse.foldl step s).tiers (count s - capacity)
      (count ((launch.pages requestSlot).reverse.foldl step s) - capacity) ts := by
  have hnd : (launch.pages requestSlot).reverse.Nodup :=
    List.nodup_reverse.mpr (nodup_range _ _)
  refine ⟨_, (h.foldl hnd s).1, fun i hi => ?_, targets_of_nonpos, fun hleft i hi htier hout => ?_⟩
  · obtain ⟨hmem, hp⟩ := mem_of_mem_targets hi
    obtain ⟨htier, hsel⟩ := unselectedIn_eq_true.mp hp
    exact ⟨List.mem_reverse.mp hmem, hsel, htier⟩
  · -- a page left in the tier was no target, though the budget would have reached it
    by_contra hsel
    exact hout (h.mem_targets_of_left hnd hleft (List.mem_reverse.mpr hi)
      (unselectedIn_eq_true.mpr ⟨htier, by simpa using hsel⟩))

theorem rebalance_demoted (launch : TierLaunch) (requestSlot : Int)
    (tiers : Int → MovementTier) :
    ∃ out down,
      Demoted launch requestSlot tiers (launch.rebalance requestSlot tiers).tiers out down := by
  obtain ⟨out, hout⟩ := exists_swept (isSweep_demoteFromHbm launch requestSlot)
    (launch.promoteAndCount requestSlot tiers)
  obtain ⟨down, hdown⟩ := exists_swept (isSweep_demoteFromDram launch requestSlot)
    (launch.rebalanceHbm requestSlot tiers)
  rw [tiers_promoteAndCount] at hout
  have hmid : ∀ i, (launch.rebalanceHbm requestSlot tiers).tiers i =
      if i ∈ out then .dram else launch.promoted requestSlot tiers i := hout.tier_eq
  have hlast : ∀ i, (launch.rebalance requestSlot tiers).tiers i =
      if i ∈ down then .ssd else (launch.rebalanceHbm requestSlot tiers).tiers i := hdown.tier_eq
  have hbefore := (promoteAndCount_counters launch requestSlot tiers).1.hbm
  rw [tiers_promoteAndCount] at hbefore
  have hbetween := (rebalanceHbm_counters launch requestSlot tiers).1.dram
  have hafter := (rebalance_counters launch requestSlot tiers).1
  refine ⟨out, down, fun i => ?_, hout.mem, fun i hi => ?_, fun hroom => hout.room (by omega),
    fun hnone hroom => hdown.room ?_, fun hover i hi htier => ?_, fun hover i hi htier => ?_⟩
  · rw [hlast, hmid]
  · obtain ⟨hmem, hsel, htier⟩ := hdown.mem i hi
    refine ⟨hmem, hsel, ?_⟩
    rw [hmid] at htier
    by_cases hin : i ∈ out
    · exact Or.inl hin
    · exact Or.inr (by rwa [if_neg hin] at htier)
  · have hsame : (launch.rebalanceHbm requestSlot tiers).tiers =
        launch.promoted requestSlot tiers := by
      funext i
      rw [hmid, hnone, if_neg List.not_mem_nil]
    rw [hsame] at hbetween
    omega
  · rw [← hafter.hbm, hbmCount_rebalance] at hover
    obtain ⟨hkept, hprom⟩ : i ∉ out ∧ launch.promoted requestSlot tiers i = .hbm := by
      rw [hlast, hmid] at htier
      split at htier
      · exact absurd htier (by decide)
      · split at htier
        · exact absurd htier (by decide)
        · next hin => exact ⟨hin, htier⟩
    exact hout.selected (Int.sub_pos_of_lt hover) i hi hprom hkept
  · rw [← hafter.dram] at hover
    obtain ⟨hkept, hmoved⟩ :
        i ∉ down ∧ (launch.rebalanceHbm requestSlot tiers).tiers i = .dram := by
      rw [hlast] at htier
      split at htier
      · exact absurd htier (by decide)
      · next hin => exact ⟨hin, htier⟩
    exact hdown.selected (Int.sub_pos_of_lt hover) i hi hmoved hkept

/-- A selected page is promoted and stays, another page is never promoted, and a page of another
request does not move. -/
theorem Demoted.selected {tiers tiers' : Int → MovementTier} {out down : List Int}
    (h : Demoted launch requestSlot tiers tiers' out down) {i : Int}
    (hsel : launch.isSelectedPage requestSlot i = true) :
    tiers' i = launch.promoted requestSlot tiers i := by
  have hout : i ∉ out := fun hi => Bool.false_ne_true ((h.mem_out i hi).2.1.symm.trans hsel)
  have hdown : i ∉ down := fun hi => Bool.false_ne_true ((h.mem_down i hi).2.1.symm.trans hsel)
  rw [h.tier_eq, if_neg hdown, if_neg hout]

theorem promoted_of_not_selected {i : Int} (hsel : launch.isSelectedPage requestSlot i = false)
    (tiers : Int → MovementTier) : launch.promoted requestSlot tiers i = tiers i := by
  have hcount : (launch.slotIds requestSlot).count i = 0 := by
    refine List.count_eq_zero.mpr fun hi => ?_
    have hany : launch.isSelectedPage requestSlot i = true :=
      List.any_eq_true.mpr ⟨i, hi, by simp⟩
    exact Bool.false_ne_true (hsel.symm.trans hany)
  simp [promoted, hcount]

theorem Demoted.unselected {tiers tiers' : Int → MovementTier} {out down : List Int}
    (h : Demoted launch requestSlot tiers tiers' out down) {i : Int}
    (hsel : launch.isSelectedPage requestSlot i = false) :
    (tiers i).value ≤ (tiers' i).value := by
  have hprom := promoted_of_not_selected hsel tiers
  rw [h.tier_eq]
  split
  · cases tiers i <;> decide
  · split
    · next hi =>
      have htier := (h.mem_out i hi).2.2
      rw [hprom] at htier
      rw [htier]
      decide
    · rw [hprom]

theorem Demoted.frame {tiers tiers' : Int → MovementTier} {out down : List Int}
    (h : Demoted launch requestSlot tiers tiers' out down) {i : Int}
    (hi : i ∉ launch.pages requestSlot) : tiers' i = tiers i := by
  have hout : i ∉ out := fun hin => hi (h.mem_out i hin).1
  have hdown : i ∉ down := fun hin => hi (h.mem_down i hin).1
  rw [h.tier_eq, if_neg hdown, if_neg hout, promoted, if_neg fun hin => hi hin.2]

/-- Two states that agree on a request. -/
structure SamePages (is : List Int) (s s' : TierState) : Prop where
  tiers : ∀ i ∈ is, s.tiers i = s'.tiers i
  hbmCount : s.hbmCount = s'.hbmCount
  dramCount : s.dramCount = s'.dramCount
  ssdCount : s.ssdCount = s'.ssdCount
  metric : s.metric = s'.metric

theorem SamePages.update {is : List Int} {t t' : Int → MovementTier}
    (h : ∀ i ∈ is, t i = t' i) (k : Int) (tier : MovementTier) :
    ∀ i ∈ is, Function.update t k tier i = Function.update t' k tier i := by
  intro i hi
  by_cases hik : i = k
  · simp [hik]
  · simp [hik, h i hi]

theorem SamePages.promotePage {s s' : TierState}
    (h : SamePages (launch.pages requestSlot) s s') (pageId : Int) :
    SamePages (launch.pages requestSlot) (launch.promotePage requestSlot s pageId)
      (launch.promotePage requestSlot s' pageId) := by
  have hcell : requestSlot * launch.pagesPerRequest +
      (pageId - requestSlot * launch.pagesPerRequest) = pageId := by omega
  simp only [TierLaunch.promotePage, hcell]
  split_ifs with hneg hout
  · exact h
  · exact h
  · have hin : pageId ∈ launch.pages requestSlot := mem_slotCells.mpr (by omega)
    rw [h.tiers pageId hin]
    split
    · exact ⟨SamePages.update h.tiers _ _, h.hbmCount, h.dramCount, h.ssdCount,
        by simp only [h.metric]⟩
    · exact ⟨SamePages.update h.tiers _ _, h.hbmCount, h.dramCount, h.ssdCount,
        by simp only [h.metric]⟩
    · exact h
    · exact h

theorem SamePages.countPage {is : List Int} {s s' : TierState} (h : SamePages is s s') {i : Int}
    (hi : i ∈ is) : SamePages is (countPage s i) (countPage s' i) := by
  simp only [TierLaunch.countPage]
  rw [h.tiers i hi]
  split
  · exact ⟨h.tiers, by simp only [h.hbmCount], h.dramCount, h.ssdCount, h.metric⟩
  · exact ⟨h.tiers, h.hbmCount, by simp only [h.dramCount], h.ssdCount, h.metric⟩
  · exact ⟨h.tiers, h.hbmCount, h.dramCount, by simp only [h.ssdCount], h.metric⟩
  · exact ⟨h.tiers, h.hbmCount, h.dramCount, by simp only [h.ssdCount], h.metric⟩

theorem SamePages.demoteFromHbm {is : List Int} {s s' : TierState} (h : SamePages is s s')
    {i : Int} (hi : i ∈ is) :
    SamePages is (launch.demoteFromHbm requestSlot s i) (launch.demoteFromHbm requestSlot s' i) := by
  simp only [TierLaunch.demoteFromHbm]
  rw [h.tiers i hi, h.hbmCount]
  split_ifs
  · exact h
  · exact h
  · exact h
  · exact ⟨SamePages.update h.tiers _ _, rfl, by simp only [h.dramCount], h.ssdCount,
      by simp only [h.metric]⟩

theorem SamePages.demoteFromDram {is : List Int} {s s' : TierState} (h : SamePages is s s')
    {i : Int} (hi : i ∈ is) :
    SamePages is (launch.demoteFromDram requestSlot s i)
      (launch.demoteFromDram requestSlot s' i) := by
  simp only [TierLaunch.demoteFromDram]
  rw [h.tiers i hi, h.dramCount]
  split_ifs
  · exact h
  · exact h
  · exact h
  · exact ⟨SamePages.update h.tiers _ _, h.hbmCount, rfl, by simp only [h.ssdCount],
      by simp only [h.metric]⟩

theorem SamePages.rebalance {tiers tiers' : Int → MovementTier}
    (h : ∀ i ∈ launch.pages requestSlot, tiers i = tiers' i) :
    SamePages (launch.pages requestSlot) (launch.rebalance requestSlot tiers)
      (launch.rebalance requestSlot tiers') := by
  have hstart : SamePages (launch.pages requestSlot)
      { tiers := tiers, hbmCount := 0, dramCount := 0, ssdCount := 0
        metric := { requestId := requestSlot + 1 } }
      { tiers := tiers', hbmCount := 0, dramCount := 0, ssdCount := 0
        metric := { requestId := requestSlot + 1 } } := ⟨h, rfl, rfl, rfl, rfl⟩
  have hloop (f : TierState → Int → TierState) (is : List Int)
      (hf : ∀ i ∈ is, ∀ s s', SamePages (launch.pages requestSlot) s s' →
        SamePages (launch.pages requestSlot) (f s i) (f s' i))
      {s s' : TierState} (hs : SamePages (launch.pages requestSlot) s s') :
      SamePages (launch.pages requestSlot) (is.foldl f s) (is.foldl f s') :=
    List.foldl_rel hs hf
  have hpromoted := hloop (launch.promotePage requestSlot) (launch.slotIds requestSlot)
    (fun pageId _ _ _ h => h.promotePage pageId) hstart
  have hcounted := hloop TierLaunch.countPage (launch.pages requestSlot)
    (fun _ hi _ _ h => h.countPage hi) hpromoted
  have hfirst := hloop (launch.demoteFromHbm requestSlot) (launch.pages requestSlot).reverse
    (fun _ hi _ _ h => h.demoteFromHbm (List.mem_reverse.mp hi)) hcounted
  exact hloop (launch.demoteFromDram requestSlot) (launch.pages requestSlot).reverse
    (fun _ hi _ _ h => h.demoteFromDram (List.mem_reverse.mp hi)) hfirst

/-- Every block keeps to the pages of its request. -/
theorem owned_tierResidencyBlock (launch : TierLaunch) :
    Owned (fun tiers : Int → MovementTier => tiers) (fun _ => ())
      (fun b i => i ∈ launch.pages b) launch.tierResidencyBlock := by
  refine ⟨slotCells_disjoint, fun tiers b i hi => ?_, fun _ _ => rfl, fun _ hsame => ?_⟩
  · obtain ⟨out, down, h⟩ := rebalance_demoted launch b tiers
    exact h.frame hi
  · have h := SamePages.rebalance hsame
    refine ⟨h.tiers, ?_⟩
    simp only [tierResidencyBlock, h.metric, h.hbmCount, h.dramCount, h.ssdCount]

/-- With distinct ids a selected page goes one tier nearer. -/
theorem promoted_of_selected {i : Int} (h0 : 0 ≤ i) (hi : i ∈ launch.pages requestSlot)
    (hdistinct : ((launch.slotIds requestSlot).filter fun id => decide (0 ≤ id)).Nodup)
    (hsel : launch.isSelectedPage requestSlot i = true) (tiers : Int → MovementTier) :
    launch.promoted requestSlot tiers i = (tiers i).promote := by
  obtain ⟨id, hid, heq⟩ := List.any_eq_true.mp hsel
  have hmem : i ∈ launch.slotIds requestSlot := (beq_iff_eq.mp heq) ▸ hid
  have hcount : (launch.slotIds requestSlot).count i = 1 := by
    rw [← List.count_filter (p := fun id => decide (0 ≤ id)) (by simpa using h0)]
    exact List.count_eq_one_of_mem hdistinct (List.mem_filter.mpr ⟨hmem, by simpa using h0⟩)
  simp [promoted, h0, hi, hcount]

/-- What a launch leaves of one request. -/
structure Rebalanced (launch : TierLaunch) (requestSlot : Int) (tiers : Int → MovementTier)
    (out : (Int → MovementTier) × (Int → KVTierResidencyMetrics)) : Prop where
  hbm : (out.2 requestSlot).finalHbmPages =
    (launch.pages requestSlot).countP fun i => decide (out.1 i = .hbm)
  dram : (out.2 requestSlot).finalDramPages =
    (launch.pages requestSlot).countP fun i => decide (out.1 i = .dram)
  ssd : (out.2 requestSlot).finalSsdPages =
    (launch.pages requestSlot).countP fun i => decide (out.1 i = .ssd)
  total : (out.2 requestSlot).finalHbmPages + (out.2 requestSlot).finalDramPages +
    (out.2 requestSlot).finalSsdPages = launch.pagesPerRequest
  selected : ∀ i ∈ launch.pages requestSlot, launch.isSelectedPage requestSlot i = true →
    out.1 i = (tiers i).promote
  unselected : ∀ i ∈ launch.pages requestSlot, launch.isSelectedPage requestSlot i = false →
    (tiers i).value ≤ (out.1 i).value
  hbm_over : launch.hbmCapacityPages < ((launch.pages requestSlot).countP fun i =>
      decide (out.1 i = .hbm)) → ∀ i ∈ launch.pages requestSlot, out.1 i = .hbm →
    launch.isSelectedPage requestSlot i = true
  dram_over : launch.dramCapacityPages < ((launch.pages requestSlot).countP fun i =>
      decide (out.1 i = .dram)) → ∀ i ∈ launch.pages requestSlot, out.1 i = .dram →
    launch.isSelectedPage requestSlot i = true
  moves : MovesAddUp launch.bytesPerPage (out.2 requestSlot)

/-- A page that has a tier has one after the promotions. -/
theorem promoted_ne_none {tiers : Int → MovementTier} {i : Int} (h : tiers i ≠ .none) :
    launch.promoted requestSlot tiers i ≠ .none := by
  rw [promoted]
  split
  · generalize (launch.slotIds requestSlot).count i = n
    induction n with
    | zero => exact h
    | succ n ih =>
      rw [Function.iterate_succ_apply']
      cases ht : MovementTier.promote^[n] (tiers i) with
      | none => exact absurd ht ih
      | hbm => exact nofun
      | dram => exact nofun
      | ssd => exact nofun
  · exact h

/-- Where every page has a tier, the pages in neither HBM nor DRAM are in SSD. -/
theorem Demoted.countP_ssd {tiers tiers' : Int → MovementTier} {out down : List Int}
    (h : Demoted launch requestSlot tiers tiers' out down)
    (htiers : ∀ i ∈ launch.pages requestSlot, tiers i ≠ .none) :
    ((launch.pages requestSlot).countP fun i => decide (tiers' i ≠ .hbm ∧ tiers' i ≠ .dram)) =
      (launch.pages requestSlot).countP fun i => decide (tiers' i = .ssd) := by
  refine List.countP_congr fun i hi => ?_
  have hsome : tiers' i ≠ .none := by
    rw [h.tier_eq]
    split
    · exact nofun
    · split
      · exact nofun
      · exact promoted_ne_none (htiers i hi)
  cases ht : tiers' i with
  | none => exact absurd ht hsome
  | hbm | dram | ssd => simp

/-- What a block leaves when it runs alone. -/
theorem rebalanced_block (hslot : 0 ≤ requestSlot) (hn : 0 ≤ launch.pagesPerRequest)
    {tiers : Int → MovementTier} (htiers : ∀ i ∈ launch.pages requestSlot, tiers i ≠ .none)
    (hdistinct : ((launch.slotIds requestSlot).filter fun id => decide (0 ≤ id)).Nodup)
    {out : (Int → MovementTier) × (Int → KVTierResidencyMetrics)}
    (hout : RanAlone (fun tiers => tiers) (fun b i => i ∈ launch.pages b)
      launch.tierResidencyBlock tiers requestSlot out) :
    Rebalanced launch requestSlot tiers out := by
  obtain ⟨hcells, hresult⟩ := hout
  obtain ⟨hcounted, hmoves⟩ := rebalance_counters launch requestSlot tiers
  obtain ⟨ts, us, h⟩ := rebalance_demoted launch requestSlot tiers
  have hcount (tier : MovementTier) :
      ((launch.pages requestSlot).countP fun i => decide (out.1 i = tier)) =
        (launch.pages requestSlot).countP fun i =>
          decide ((launch.rebalance requestSlot tiers).tiers i = tier) :=
    List.countP_congr fun i hi => by rw [hcells i hi]; rfl
  have hssd := h.countP_ssd htiers
  have hlen : ((launch.pages requestSlot).length : Int) = launch.pagesPerRequest := by
    rw [pages, slotCells, length_range]
    omega
  have htotal := countP_tiers (launch.rebalance requestSlot tiers).tiers (launch.pages requestSlot)
  refine ⟨?_, ?_, ?_, ?_, fun i hi hsel => ?_, fun i hi hsel => ?_, fun hover i hi htier => ?_,
    fun hover i hi htier => ?_, ?_⟩
  · rw [hresult, hcount]
    exact hcounted.hbm
  · rw [hresult, hcount]
    exact hcounted.dram
  · rw [hresult, hcount, ← hssd]
    exact hcounted.ssd
  · have hhbm := hcounted.hbm
    have hdram := hcounted.dram
    have hrest := hcounted.ssd
    simp only [hresult, tierResidencyBlock]
    omega
  · have hnear := promoted_of_selected (nonneg_of_mem_pages hslot hi) hi hdistinct hsel tiers
    exact (hcells i hi).trans ((h.selected hsel).trans hnear)
  · exact (h.unselected hsel).trans_eq (congrArg _ (hcells i hi).symm)
  · rw [hcount] at hover
    exact h.hbm_over hover i hi ((hcells i hi).symm.trans htier)
  · rw [hcount] at hover
    exact h.dram_over hover i hi ((hcells i hi).symm.trans htier)
  · rw [hresult]
    exact ⟨hmoves.rebalanced, hmoves.promoted, hmoves.demoted⟩

end TierLaunch

/-! ## A launch -/

/-- A launch rebalances every request that it has a block for, and moves no other page. -/
theorem kvTierResidencyKernel_rebalances (launch : TierLaunch) (tiers : Int → MovementTier)
    {order : List Int} (hnd : order.Nodup) (hslots : ∀ b ∈ order, 0 ≤ b)
    (hn : 0 ≤ launch.pagesPerRequest)
    (htiers : ∀ b ∈ order, ∀ i ∈ launch.pages b, tiers i ≠ .none)
    (hdistinct : ∀ b ∈ order, ((launch.slotIds b).filter fun id => decide (0 ≤ id)).Nodup)
    (metrics : Int → KVTierResidencyMetrics) :
    let out := kvTierResidencyKernel launch tiers order metrics
    (∀ b ∈ order, TierLaunch.Rebalanced launch b tiers out) ∧
      (∀ b i, i ∉ launch.pages b → (launch.tierResidencyBlock tiers b).1 i = tiers i) ∧
      ∀ i, (∀ b ∈ order, i ∉ launch.pages b) → out.1 i = tiers i := by
  have howned := launch.owned_tierResidencyBlock
  refine ⟨fun b hb => ?_, fun b i hi => howned.frame tiers b i hi, fun i hi => ?_⟩
  · exact TierLaunch.rebalanced_block (hslots b hb) hn (htiers b hb) (hdistinct b hb)
      (howned.runBlocks hnd hb (tiers, metrics))
  · exact howned.runBlocks_frame hi (tiers, metrics)

/-- Two requests of the host, with holes, a foreign id and a tier that its selected pages fill. -/
theorem kvTierResidencyKernel_rebalances_host :
    let ids : List Int := [2, -1, 3, 8, 4, -1]
    let launch : TierLaunch := ⟨fun i => ids.getD i.toNat (-1), 3, 6, 2, 2, 64⟩
    let out := kvTierResidencyKernel launch residencyTier [1, 0] fun _ => {}
    TierLaunch.Rebalanced launch 0 residencyTier out ∧
      (Int.range 0 6).map out.1 = [.dram, .dram, .hbm, .hbm, .ssd, .ssd] := by
  intro ids launch out
  obtain ⟨h, -, -⟩ := kvTierResidencyKernel_rebalances launch residencyTier
    (show [1, 0].Nodup by decide) (by decide) (by decide) (by decide +kernel) (by decide +kernel)
    fun _ => {}
  exact ⟨h 0 (by decide), by decide +kernel⟩

end ResidentInference.Device

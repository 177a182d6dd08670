import ResidentInference.Device.Selection
import Mathlib.Tactic.Linarith

/-! The sparse gather kernel and the decode kernel over what it has gathered: the decode kernel
sums the first word of every selected page. All pointers are taken not to be null. -/
namespace ResidentInference.Device
open Loops
variable {φ : Type}

structure SparseKVGatherMetrics where
  requestId : Int := 0
  blocksExamined : Int := 0
  blocksSelected : Int := 0
  bytesRead : Int := 0
  bytesSaved : Int := 0
  deriving DecidableEq, Repr

structure CompactedDecodeMetrics where
  requestId : Int := 0
  pagesConsumed : Int := 0
  generatedTokens : Int := 0
  deriving DecidableEq, Repr

/-- The launch parameters that the kernels share, and the index of the block. -/
structure GatherLaunch where
  pagePayloads : Int → Int
  intsPerPage : Int
  maxSelectedPages : Int
  requestSlot : Int

namespace GatherLaunch

def selectedBase (launch : GatherLaunch) : Int := launch.requestSlot * launch.maxSelectedPages

def compactedBase (launch : GatherLaunch) : Int :=
  launch.requestSlot * launch.maxSelectedPages * launch.intsPerPage

end GatherLaunch

/-- The buffers that the gather kernel fills. -/
structure GatherBuffers where
  selectedPageIds : Int → Int
  compactedPayloads : Int → Int

structure GatherState where
  buffers : GatherBuffers
  blocksExamined : Int
  selectedCount : Int

/-- Copy one page of rank `rank`. -/
def GatherBuffers.copyPage (launch : GatherLaunch) (buffers : GatherBuffers) (rank pageId : Int) :
    GatherBuffers :=
  let srcBase := pageId * launch.intsPerPage
  let dstBase := launch.compactedBase + rank * launch.intsPerPage
  { selectedPageIds :=
      Function.update buffers.selectedPageIds (launch.selectedBase + rank) pageId
    compactedPayloads :=
      writeCells buffers.compactedPayloads dstBase launch.intsPerPage fun j =>
        launch.pagePayloads (srcBase + j) }

/-- One page of the gather loop. -/
def gatherPage (launch : GatherLaunch) (req : RequestDescriptor φ) (kv : KVPageTable φ)
    (st : GatherState) (idx : Int) : GatherState :=
  let entry := kv.entries idx
  if entry.requestId ≠ req.requestId then st
  else if !entry.hasFlag .resident || entry.hasFlag .draft then st
  else
    let st := { st with blocksExamined := st.blocksExamined + 1 }
    if entry.selected = 0 ∨ entry.sparseRank < 0 ∨ entry.sparseRank ≥ launch.maxSelectedPages then
      st
    else
      { st with
        buffers := st.buffers.copyPage launch entry.sparseRank entry.pageId
        selectedCount := st.selectedCount + 1 }

/-- The sum of the gathered first words. -/
def compactedSum (launch : GatherLaunch) (buffers : GatherBuffers) : Int :=
  (Int.range 0 launch.maxSelectedPages).foldl
    (fun payloadSum i =>
      if buffers.selectedPageIds (launch.selectedBase + i) < 0 then payloadSum
      else payloadSum +
        buffers.compactedPayloads (launch.compactedBase + i * launch.intsPerPage))
    0

def pagesConsumed (launch : GatherLaunch) (buffers : GatherBuffers) : Int :=
  (Int.range 0 launch.maxSelectedPages).foldl
    (fun pages i =>
      if buffers.selectedPageIds (launch.selectedBase + i) < 0 then pages else pages + 1)
    0

/-- The draft length of the two sparse decoders. -/
def RequestDescriptor.sparseDraftCount (req : RequestDescriptor φ) : Int :=
  req.clampToBudget (if req.currentBlockSize > 0 then req.currentBlockSize else 1)

/-- The drafts of the two sparse decoders. -/
def RequestDescriptor.writeSparseDrafts (req : RequestDescriptor φ) (draftTokens : Int → Int)
    (payloadSum count : Int) : Int → Int :=
  writeCells draftTokens req.draftOffset count fun i =>
    (req.lastToken + payloadSum + req.requestId + i + 1).tmod 32000

/-- The body of the kernel for the request of one block. -/
def compactedSparseDecodeKernel (launch : GatherLaunch) (req : RequestDescriptor φ)
    (buffers : GatherBuffers) (draftTokens : Int → Int) :
    RequestDescriptor φ × (Int → Int) × CompactedDecodeMetrics :=
  let metric : CompactedDecodeMetrics := { requestId := req.requestId }
  if req.state ≠ .decodeReady then (req, draftTokens, metric)
  else
    let payloadSum := compactedSum launch buffers
    let metric := { metric with pagesConsumed := pagesConsumed launch buffers }
    let count := req.sparseDraftCount
    let req := { req with draftLen := count }
    let draftTokens := req.writeSparseDrafts draftTokens payloadSum count
    let req := if count > 0 then req.setState .draftReady else req
    (req, draftTokens, { metric with generatedTokens := count })

/-- The width of the gather kernel's selection. -/
def gatherWidth (launch : GatherLaunch) (req : RequestDescriptor φ) : Int :=
  if req.currentBlockSize > 0 then req.currentBlockSize else launch.maxSelectedPages

section
variable [DeviceFloat φ]

/-- The body of the kernel for the request of one block. -/
def sparseKvGatherAndScoreKernel (launch : GatherLaunch) (req : RequestDescriptor φ)
    (kv : KVPageTable φ) (buffers : GatherBuffers) :
    KVPageTable φ × GatherBuffers × SparseKVGatherMetrics :=
  let buffers := { buffers with
    selectedPageIds :=
      writeCells buffers.selectedPageIds launch.selectedBase launch.maxSelectedPages fun _ => -1 }
  let metric : SparseKVGatherMetrics := { requestId := req.requestId }
  if req.kvNumPages ≤ 0 then (kv, buffers, metric)
  else
    let kv := selectSparseKvBlocks req kv (gatherWidth launch req)
    let bytesPerPage := launch.intsPerPage * 4
    let st := (req.pageIndices kv.numEntries).foldl (gatherPage launch req kv)
      { buffers := buffers, blocksExamined := 0, selectedCount := 0 }
    (kv, st.buffers, { metric with
      blocksExamined := st.blocksExamined
      blocksSelected := st.selectedCount
      bytesRead := st.selectedCount * bytesPerPage
      bytesSaved := (st.blocksExamined - st.selectedCount) * bytesPerPage })

end

/-! ## What the decode kernel sums -/

/-- The first word of a page. -/
def GatherLaunch.firstWord (launch : GatherLaunch) (pageId : Int) : Int :=
  launch.pagePayloads (pageId * launch.intsPerPage)

/-- What cell `i` of the slot adds to the sum. -/
def slotWord (launch : GatherLaunch) (buffers : GatherBuffers) (i : Int) : Int :=
  if buffers.selectedPageIds (launch.selectedBase + i) < 0 then 0
  else buffers.compactedPayloads (launch.compactedBase + i * launch.intsPerPage)

theorem compactedSum_eq (launch : GatherLaunch) (buffers : GatherBuffers) :
    compactedSum launch buffers =
      ((Int.range 0 launch.maxSelectedPages).map (slotWord launch buffers)).sum := by
  have hstep : (fun (payloadSum i : Int) =>
      if buffers.selectedPageIds (launch.selectedBase + i) < 0 then payloadSum
      else payloadSum +
        buffers.compactedPayloads (launch.compactedBase + i * launch.intsPerPage)) =
      fun payloadSum i => payloadSum + slotWord launch buffers i := by
    funext payloadSum i
    simp only [slotWord]
    split <;> simp
  rw [compactedSum, hstep, foldl_add_eq_sum, zero_add]

/-- A copied page adds its first word to the sum, once. -/
theorem compactedSum_copyPage (launch : GatherLaunch) (hints : 1 ≤ launch.intsPerPage)
    (buffers : GatherBuffers) {rank pageId : Int} (hpage : 0 ≤ pageId) (hrank : 0 ≤ rank)
    (hmax : rank < launch.maxSelectedPages)
    (hfree : buffers.selectedPageIds (launch.selectedBase + rank) < 0) :
    compactedSum launch (buffers.copyPage launch rank pageId) =
      compactedSum launch buffers + launch.firstWord pageId := by
  have hnew : slotWord launch (buffers.copyPage launch rank pageId) rank =
      launch.firstWord pageId := by
    have hcell : writeCells buffers.compactedPayloads
        (launch.compactedBase + rank * launch.intsPerPage) launch.intsPerPage
        (fun j => launch.pagePayloads (pageId * launch.intsPerPage + j))
        (launch.compactedBase + rank * launch.intsPerPage + 0) = _ :=
      writeCells_of_mem le_rfl (by omega)
    simp only [add_zero] at hcell
    simp only [slotWord, GatherBuffers.copyPage, Function.update_self, not_lt.mpr hpage, if_false,
      hcell, GatherLaunch.firstWord]
  have hold : slotWord launch buffers rank = 0 := by
    simp only [slotWord, hfree, if_true]
  have hother : ∀ j ∈ Int.range 0 launch.maxSelectedPages, j ≠ rank →
      slotWord launch (buffers.copyPage launch rank pageId) j = slotWord launch buffers j := by
    intro j hj hne
    have hcell : launch.compactedBase + j * launch.intsPerPage <
          launch.compactedBase + rank * launch.intsPerPage ∨
        launch.compactedBase + rank * launch.intsPerPage + launch.intsPerPage ≤
          launch.compactedBase + j * launch.intsPerPage := by
      obtain h | h := lt_or_gt_of_ne hne
      · left
        nlinarith
      · right
        nlinarith
    have hid : launch.selectedBase + j ≠ launch.selectedBase + rank := by omega
    simp only [slotWord, GatherBuffers.copyPage, Function.update_of_ne hid]
    obtain h | h := hcell
    · rw [writeCells_of_lt h]
    · rw [writeCells_of_ge h]
  rw [compactedSum_eq, compactedSum_eq,
    sum_map_of_eq_off (nodup_range 0 _) (Int.mem_range_iff.mpr ⟨hrank, hmax⟩) hother, hnew, hold]
  omega

/-- A page that the gather loop copies. -/
def Gathers (launch : GatherLaunch) (req : RequestDescriptor φ) (kv : KVPageTable φ) (i : Int) :
    Prop :=
  IsCandidate req (kv.entries i) ∧ (kv.entries i).selected ≠ 0 ∧
    0 ≤ (kv.entries i).sparseRank ∧ (kv.entries i).sparseRank < launch.maxSelectedPages

instance (launch : GatherLaunch) (req : RequestDescriptor φ) (kv : KVPageTable φ) (i : Int) :
    Decidable (Gathers launch req kv i) :=
  inferInstanceAs (Decidable (_ ∧ _ ∧ _ ∧ _))

theorem gatherPage_of_gathers {launch : GatherLaunch} {req : RequestDescriptor φ}
    {kv : KVPageTable φ} {i : Int} (h : Gathers launch req kv i) (st : GatherState) :
    (gatherPage launch req kv st i).buffers =
      st.buffers.copyPage launch (kv.entries i).sparseRank (kv.entries i).pageId := by
  obtain ⟨⟨hid, hres, hdraft⟩, hsel, h0, hmax⟩ := h
  simp [gatherPage, hid, hres, hdraft, hsel, not_lt.mpr h0, not_le.mpr hmax]

theorem gatherPage_of_not_gathers {launch : GatherLaunch} {req : RequestDescriptor φ}
    {kv : KVPageTable φ} {i : Int} (h : ¬ Gathers launch req kv i) (st : GatherState) :
    (gatherPage launch req kv st i).buffers = st.buffers := by
  simp only [Gathers, IsCandidate] at h
  simp only [gatherPage]
  grind

/-- The loop adds the first word of every page that it copies, when no two of them share a rank. -/
theorem compactedSum_foldl (launch : GatherLaunch) (hints : 1 ≤ launch.intsPerPage)
    (req : RequestDescriptor φ) (kv : KVPageTable φ) {is : List Int}
    (hpage : ∀ i ∈ is, Gathers launch req kv i → 0 ≤ (kv.entries i).pageId)
    (hrank : is.Pairwise fun i j => Gathers launch req kv i → Gathers launch req kv j →
      (kv.entries i).sparseRank ≠ (kv.entries j).sparseRank)
    (st : GatherState) (hfree : ∀ i ∈ is, Gathers launch req kv i →
      st.buffers.selectedPageIds (launch.selectedBase + (kv.entries i).sparseRank) < 0) :
    compactedSum launch (is.foldl (gatherPage launch req kv) st).buffers =
      compactedSum launch st.buffers + ((is.filter fun i => decide (Gathers launch req kv i)).map
        fun i => launch.firstWord (kv.entries i).pageId).sum := by
  induction is generalizing st with
  | nil => simp
  | cons i is ih =>
    obtain ⟨hi, hrank⟩ := List.pairwise_cons.mp hrank
    have hpage' := fun j hj => hpage j (List.mem_cons_of_mem i hj)
    rw [List.foldl_cons]
    by_cases hg : Gathers launch req kv i
    · have hbuffers := gatherPage_of_gathers hg st
      rw [ih hpage' hrank]
      · rw [hbuffers, compactedSum_copyPage launch hints _ (hpage i List.mem_cons_self hg) hg.2.2.1
          hg.2.2.2 (hfree i List.mem_cons_self hg)]
        simp [hg, add_assoc]
      · intro j hj hgj
        have hne := hi j hj hg hgj
        have hcell : launch.selectedBase + (kv.entries j).sparseRank ≠
            launch.selectedBase + (kv.entries i).sparseRank := by omega
        rw [hbuffers]
        simp only [GatherBuffers.copyPage, Function.update_of_ne hcell]
        exact hfree j (List.mem_cons_of_mem i hj) hgj
    · have hbuffers := gatherPage_of_not_gathers hg st
      rw [ih hpage' hrank]
      · simp [hbuffers, hg]
      · intro j hj hgj
        rw [hbuffers]
        exact hfree j (List.mem_cons_of_mem i hj) hgj

/-- On the pages of the request the loop copies exactly the selected ones, when the buffers hold
them all. -/
theorem SelectionOrder.gathers_iff {launch : GatherLaunch} {req : RequestDescriptor φ}
    {kv₀ kv : KVPageTable φ} {order : List Int} (h : SelectionOrder req kv₀ kv order)
    (hlen : order.length ≤ launch.maxSelectedPages.toNat) {i : Int}
    (hi : i ∈ req.pageIndices kv₀.numEntries) :
    Gathers launch req kv i ↔ (kv.entries i).selected ≠ 0 := by
  refine ⟨fun hg => hg.2.1, fun hsel => ?_⟩
  have hin := h.mem_of_selected hi hsel
  obtain ⟨r, hr, hri⟩ := List.getElem_of_mem hin
  have hrank := h.rank r hr
  rw [hri] at hrank
  exact ⟨h.isCandidate hin, hsel, by omega, by omega⟩

theorem SelectionOrder.sparseRank_injective {req : RequestDescriptor φ} {kv₀ kv : KVPageTable φ}
    {order : List Int} (h : SelectionOrder req kv₀ kv order) {i j : Int} (hi : i ∈ order)
    (hj : j ∈ order) (hij : (kv.entries i).sparseRank = (kv.entries j).sparseRank) : i = j := by
  obtain ⟨r, hr, rfl⟩ := List.getElem_of_mem hi
  obtain ⟨q, hq, rfl⟩ := List.getElem_of_mem hj
  rw [h.rank r hr, h.rank q hq] at hij
  simp only [Nat.cast_inj] at hij
  subst hij
  rfl

theorem compactedSum_of_empty (launch : GatherLaunch) {buffers : GatherBuffers}
    (h : ∀ i ∈ Int.range 0 launch.maxSelectedPages,
      buffers.selectedPageIds (launch.selectedBase + i) < 0) :
    compactedSum launch buffers = 0 := by
  have hzero : (Int.range 0 launch.maxSelectedPages).map (slotWord launch buffers) =
      (Int.range 0 launch.maxSelectedPages).map fun _ => (0 : Int) :=
    List.map_congr_left fun i hi => by simp only [slotWord, h i hi, if_true]
  rw [compactedSum_eq, hzero]
  simp

/-- The first words of the selected pages of the request. -/
def selectedSum (launch : GatherLaunch) (req : RequestDescriptor φ) (kv : KVPageTable φ) : Int :=
  ((selectedPages req kv).map fun i => launch.firstWord (kv.entries i).pageId).sum

section
variable [DeviceFloat φ]

/-- What the decode kernel sums after the gather kernel, when the buffers hold every selected
page. -/
theorem compactedSum_gather {launch : GatherLaunch} (hints : 1 ≤ launch.intsPerPage)
    {req : RequestDescriptor φ} (hoff : 0 ≤ req.kvTableOffset) (kv : KVPageTable φ)
    (hid : ∀ i ∈ candidatePages req kv, 0 ≤ (kv.entries i).pageId)
    (hlen : min (gatherWidth launch req).toNat (candidatePages req kv).length ≤
      launch.maxSelectedPages.toNat) (buffers : GatherBuffers) :
    compactedSum launch (sparseKvGatherAndScoreKernel launch req kv buffers).2.1 =
      selectedSum launch req (sparseKvGatherAndScoreKernel launch req kv buffers).1 := by
  have hfill (ids : Int → Int) : ∀ i ∈ Int.range 0 launch.maxSelectedPages,
      writeCells ids launch.selectedBase launch.maxSelectedPages (fun _ => -1)
        (launch.selectedBase + i) < 0 := by
    intro i hi
    obtain ⟨h0, hmax⟩ := Int.mem_range_iff.mp hi
    rw [writeCells_of_mem h0 hmax]
    decide
  by_cases hpages : req.kvNumPages ≤ 0
  · have hnone : selectedPages req kv = [] := by
      simp [selectedPages, RequestDescriptor.pageIndices, range_eq_nil (by omega :
        min (req.kvTableOffset + req.kvNumPages) kv.numEntries ≤ req.kvTableOffset)]
    simp only [sparseKvGatherAndScoreKernel, hpages, if_true, selectedSum, hnone]
    exact compactedSum_of_empty launch (hfill _)
  · obtain ⟨order, h, horder⟩ := selectSparseKvBlocks_order hoff kv (gatherWidth launch req)
    have hlen' : order.length ≤ launch.maxSelectedPages.toNat := by omega
    have hselected : selectedPages req (selectSparseKvBlocks req kv (gatherWidth launch req)) =
        (req.pageIndices kv.numEntries).filter fun i => decide
          (Gathers launch req (selectSparseKvBlocks req kv (gatherWidth launch req)) i) := by
      rw [selectedPages, h.numEntries]
      exact List.filter_congr fun i hi => decide_eq_decide.mpr (h.gathers_iff hlen' hi).symm
    have hkernel : sparseKvGatherAndScoreKernel launch req kv buffers =
        (selectSparseKvBlocks req kv (gatherWidth launch req),
          (sparseKvGatherAndScoreKernel launch req kv buffers).2) := by
      simp only [sparseKvGatherAndScoreKernel, hpages, if_false]
    rw [hkernel, selectedSum, hselected]
    simp only [sparseKvGatherAndScoreKernel, hpages, if_false, h.numEntries]
    rw [compactedSum_foldl launch hints, compactedSum_of_empty launch (hfill _), zero_add]
    · intro i hi hg
      rw [(h.same i).pageId]
      exact hid i (h.mem i (h.mem_of_selected hi hg.2.1))
    · refine (nodup_pageIndices req _).pairwise_of_forall_ne fun i hi j hj hne hgi hgj hrank => ?_
      exact hne (h.sparseRank_injective (h.mem_of_selected hi hgi.2.1)
        (h.mem_of_selected hj hgj.2.1) hrank)
    · intro i hi hg
      exact hfill _ _ (Int.mem_range_iff.mpr hg.2.2)

end
end ResidentInference.Device

import ResidentInference.Device.Gather
import ResidentInference.Device.Host

/-! What the gather kernel leaves in the slice of a request: the selected pages that have a slot,
each at its rank, and empty slots elsewhere. -/
namespace ResidentInference.Device
open Loops
variable {φ : Type}

/-- The word belongs to the copy of a page of rank `rank`. -/
def InCopy (launch : GatherLaunch) (rank c : Int) : Prop :=
  launch.compactedBase + rank * launch.intsPerPage ≤ c ∧
    c < launch.compactedBase + rank * launch.intsPerPage + launch.intsPerPage

theorem InCopy.rank_eq {launch : GatherLaunch} {rank rank' c : Int}
    (h : InCopy launch rank c) (h' : InCopy launch rank' c) : rank = rank' := by
  obtain ⟨h1, h2⟩ := h
  obtain ⟨h3, h4⟩ := h'
  by_contra hne
  obtain hlt | hgt := lt_or_gt_of_ne hne
  · nlinarith
  · nlinarith

/-- The pages that the loop copies have different ranks. -/
def RanksDiffer (launch : GatherLaunch) (req : RequestDescriptor φ) (kv : KVPageTable φ)
    (is : List Int) : Prop :=
  is.Pairwise fun i j => Gathers launch req kv i → Gathers launch req kv j →
    (kv.entries i).sparseRank ≠ (kv.entries j).sparseRank

section
variable {launch : GatherLaunch} {req : RequestDescriptor φ} {kv : KVPageTable φ}

/-- A slot that is the rank of no copied page keeps its id. -/
theorem selectedPageIds_of_not_gathered {is : List Int} {c : Int}
    (h : ∀ i ∈ is, Gathers launch req kv i → c ≠ launch.selectedBase + (kv.entries i).sparseRank)
    (st : GatherState) :
    (is.foldl (gatherPage launch req kv) st).buffers.selectedPageIds c =
      st.buffers.selectedPageIds c := by
  refine List.foldlRecOn
    (motive := fun st' : GatherState => st'.buffers.selectedPageIds c = st.buffers.selectedPageIds c)
    is _ rfl fun st' hsame i hi => ?_
  by_cases hg : Gathers launch req kv i
  · rw [gatherPage_of_gathers hg]
    exact (Function.update_of_ne (h i hi hg) _ _).trans hsame
  · rw [gatherPage_of_not_gathers hg]
    exact hsame

/-- A word of no copied page stays. -/
theorem compactedPayloads_of_not_gathered {is : List Int} {c : Int}
    (h : ∀ i ∈ is, Gathers launch req kv i → ¬ InCopy launch (kv.entries i).sparseRank c)
    (st : GatherState) :
    (is.foldl (gatherPage launch req kv) st).buffers.compactedPayloads c =
      st.buffers.compactedPayloads c := by
  refine List.foldlRecOn
    (motive := fun st' : GatherState => st'.buffers.compactedPayloads c = st.buffers.compactedPayloads c)
    is _ rfl fun st' hsame i hi => ?_
  by_cases hg : Gathers launch req kv i
  · rw [gatherPage_of_gathers hg]
    exact (writeCells_apply _ _ _ _ _).trans ((if_neg (h i hi hg)).trans hsame)
  · rw [gatherPage_of_not_gathers hg]
    exact hsame

/-- A copied page is at its rank: its id in the slice and its words in the compacted buffer. -/
theorem gathered_at_rank {is : List Int} (hrank : RanksDiffer launch req kv is) {i : Int}
    (hi : i ∈ is) (hg : Gathers launch req kv i) (st : GatherState) :
    (is.foldl (gatherPage launch req kv) st).buffers.selectedPageIds
        (launch.selectedBase + (kv.entries i).sparseRank) = (kv.entries i).pageId ∧
      ∀ w, 0 ≤ w → w < launch.intsPerPage →
        (is.foldl (gatherPage launch req kv) st).buffers.compactedPayloads
            (launch.compactedBase + (kv.entries i).sparseRank * launch.intsPerPage + w) =
          launch.pagePayloads ((kv.entries i).pageId * launch.intsPerPage + w) := by
  induction is generalizing st with
  | nil => exact absurd hi List.not_mem_nil
  | cons k is ih =>
    obtain ⟨hk, hrank⟩ := List.pairwise_cons.mp hrank
    rw [List.foldl_cons]
    obtain rfl | hi := List.mem_cons.mp hi
    · rw [selectedPageIds_of_not_gathered, gatherPage_of_gathers hg]
      · refine ⟨Function.update_self _ _ _, fun w h0 hw => ?_⟩
        rw [compactedPayloads_of_not_gathered, gatherPage_of_gathers hg]
        · exact writeCells_of_mem h0 hw
        · intro j hj hgj hcopy
          exact hk j hj hg hgj (InCopy.rank_eq (c := _) ⟨by omega, by omega⟩ hcopy)
      · intro j hj hgj
        have hne := hk j hj hg hgj
        omega
    · exact ih hrank hi _

end

/-- The ids of the slice of the request. -/
def GatherLaunch.sliceIds (launch : GatherLaunch) (buffers : GatherBuffers) : List Int :=
  slice buffers.selectedPageIds launch.selectedBase launch.maxSelectedPages

/-- The slice holds the page at its rank and nowhere else, with its payload. -/
structure GatheredAt (launch : GatherLaunch) (buffers : GatherBuffers) (entry : KVPageEntry φ) :
    Prop where
  rank_nonneg : 0 ≤ entry.sparseRank
  only : ∀ k, 0 ≤ k → k < launch.maxSelectedPages →
    (buffers.selectedPageIds (launch.selectedBase + k) = entry.pageId ↔ k = entry.sparseRank)
  payload : ∀ w, 0 ≤ w → w < launch.intsPerPage →
    buffers.compactedPayloads
        (launch.compactedBase + entry.sparseRank * launch.intsPerPage + w) =
      launch.pagePayloads (entry.pageId * launch.intsPerPage + w)

theorem GatheredAt.mem_sliceIds {launch : GatherLaunch} {buffers : GatherBuffers}
    {entry : KVPageEntry φ} (h : GatheredAt launch buffers entry)
    (hmax : entry.sparseRank < launch.maxSelectedPages) :
    entry.pageId ∈ launch.sliceIds buffers :=
  List.mem_map.mpr ⟨entry.sparseRank, Int.mem_range_iff.mpr ⟨h.rank_nonneg, hmax⟩,
    (h.only _ h.rank_nonneg hmax).mpr rfl⟩

section
variable {launch : GatherLaunch} {req : RequestDescriptor φ} {kv₀ kv : KVPageTable φ}
  {order : List Int}

theorem SelectionOrder.ranksDiffer (h : SelectionOrder req kv₀ kv order) :
    RanksDiffer launch req kv (req.pageIndices kv₀.numEntries) := by
  refine (nodup_pageIndices req _).pairwise_of_forall_ne fun i hi j hj hne hgi hgj hrank => ?_
  exact hne (h.sparseRank_injective (h.mem_of_selected hi hgi.2.1)
    (h.mem_of_selected hj hgj.2.1) hrank)

theorem SelectionOrder.gathers_iff_rank (h : SelectionOrder req kv₀ kv order) {i : Int}
    (hi : i ∈ candidatePages req kv₀) :
    Gathers launch req kv i ↔
      (kv.entries i).selected = 1 ∧ (kv.entries i).sparseRank < launch.maxSelectedPages := by
  obtain ⟨hrange, hcand⟩ := List.mem_filter.mp hi
  have hsel := h.selected i hrange
  constructor
  · intro hg
    refine ⟨?_, hg.2.2.2⟩
    rw [hsel, if_pos (h.mem_of_selected hrange hg.2.1)]
  · rintro ⟨hone, hmax⟩
    have hin := h.mem_of_selected hrange (by omega)
    obtain ⟨r, hr, hri⟩ := List.getElem_of_mem hin
    have hrank := h.rank r hr
    rw [hri] at hrank
    exact ⟨h.isCandidate hin, by omega, by omega, hmax⟩

/-- A slot holds the page of that rank, or nothing. -/
theorem SelectionOrder.slot_cases (h : SelectionOrder req kv₀ kv order) {st : GatherState}
    (hempty : st.buffers.selectedPageIds = writeCells st.buffers.selectedPageIds
      launch.selectedBase launch.maxSelectedPages (fun _ => -1))
    {k : Int} (h0 : 0 ≤ k) (hk : k < launch.maxSelectedPages) :
    (∃ i ∈ candidatePages req kv₀, Gathers launch req kv i ∧ (kv.entries i).sparseRank = k ∧
        ((req.pageIndices kv₀.numEntries).foldl (gatherPage launch req
          kv) st).buffers.selectedPageIds (launch.selectedBase + k) = (kv.entries i).pageId) ∨
      (∀ i ∈ req.pageIndices kv₀.numEntries, Gathers launch req kv i →
          (kv.entries i).sparseRank ≠ k) ∧
        ((req.pageIndices kv₀.numEntries).foldl (gatherPage launch req
          kv) st).buffers.selectedPageIds (launch.selectedBase + k) = -1 := by
  by_cases hex : ∃ i ∈ req.pageIndices kv₀.numEntries,
      Gathers launch req kv i ∧ (kv.entries i).sparseRank = k
  · obtain ⟨i, hi, hg, rfl⟩ := hex
    have hcand := h.mem i (h.mem_of_selected hi hg.2.1)
    exact Or.inl ⟨i, hcand, hg, rfl, (gathered_at_rank h.ranksDiffer hi hg st).1⟩
  · refine Or.inr ⟨fun i hi hg hrank => hex ⟨i, hi, hg, hrank⟩, ?_⟩
    rw [selectedPageIds_of_not_gathered, hempty, writeCells_of_mem h0 hk]
    intro i hi hg hcell
    exact hex ⟨i, hi, hg, by omega⟩

/-- What the loop leaves of a candidate, when ids tell the candidates apart. -/
theorem SelectionOrder.gathered_iff (h : SelectionOrder req kv₀ kv order) {st : GatherState}
    (hempty : st.buffers.selectedPageIds = writeCells st.buffers.selectedPageIds
      launch.selectedBase launch.maxSelectedPages (fun _ => -1))
    (hdistinct : ∀ i ∈ candidatePages req kv₀, ∀ j ∈ candidatePages req kv₀,
      (kv₀.entries i).pageId = (kv₀.entries j).pageId → i = j)
    (hid : ∀ i ∈ candidatePages req kv₀, (kv₀.entries i).pageId ≠ -1) {i : Int}
    (hi : i ∈ candidatePages req kv₀) :
    let buffers := ((req.pageIndices kv₀.numEntries).foldl (gatherPage launch req kv) st).buffers
    (Gathers launch req kv i ↔ (kv.entries i).pageId ∈ launch.sliceIds buffers) ∧
      ((kv.entries i).pageId ∈ launch.sliceIds buffers →
        GatheredAt launch buffers (kv.entries i)) := by
  intro buffers
  have hpage := (h.same i).pageId
  have hsame : ∀ {k}, 0 ≤ k → k < launch.maxSelectedPages →
      buffers.selectedPageIds (launch.selectedBase + k) = (kv.entries i).pageId →
      Gathers launch req kv i ∧ (kv.entries i).sparseRank = k := by
    intro k h0 hk hcell
    obtain ⟨j, hj, hg, hrank, hcell'⟩ | ⟨-, hcell'⟩ := h.slot_cases hempty h0 hk
    · have hij : j = i := hdistinct j hj i hi (by
        rw [← (h.same j).pageId, ← hpage, ← hcell']
        exact hcell)
      exact hij ▸ ⟨hg, hrank⟩
    · exact absurd (hpage ▸ hcell.symm.trans hcell') (hid i hi)
  have hback : (kv.entries i).pageId ∈ launch.sliceIds buffers → Gathers launch req kv i := by
    intro hmem
    obtain ⟨k, hk, hcell⟩ := List.mem_map.mp hmem
    obtain ⟨h0, hlt⟩ := Int.mem_range_iff.mp hk
    exact (hsame h0 hlt hcell).1
  have hat : Gathers launch req kv i → GatheredAt launch buffers (kv.entries i) := by
    intro hg
    obtain ⟨hcell, hwords⟩ :=
      gathered_at_rank h.ranksDiffer (List.mem_filter.mp hi).1 hg st
    refine ⟨hg.2.2.1, fun k h0 hk => ⟨fun hcell' => (hsame h0 hk hcell').2.symm, ?_⟩, hwords⟩
    rintro rfl
    exact hcell
  exact ⟨⟨fun hg => (hat hg).mem_sliceIds hg.2.2.2, hback⟩, fun hmem => hat (hback hmem)⟩

end

section
variable [DeviceFloat φ] {launch : GatherLaunch} {req : RequestDescriptor φ}
  {kv : KVPageTable φ} {buffers : GatherBuffers}

/-- The kernel for a request with pages: the selection, then the loop over an empty slice. -/
theorem sparseKvGatherAndScoreKernel_of_pos (hpages : 0 < req.kvNumPages) :
    ∃ st : GatherState,
      st.buffers.selectedPageIds = writeCells st.buffers.selectedPageIds launch.selectedBase
        launch.maxSelectedPages (fun _ => -1) ∧
      (sparseKvGatherAndScoreKernel launch req kv buffers).1 =
        selectSparseKvBlocks req kv (gatherWidth launch req) ∧
      (sparseKvGatherAndScoreKernel launch req kv buffers).2.1 =
        ((req.pageIndices (selectSparseKvBlocks req kv (gatherWidth launch req)).numEntries).foldl
          (gatherPage launch req (selectSparseKvBlocks req kv (gatherWidth launch req)))
          st).buffers := by
  simp only [sparseKvGatherAndScoreKernel, not_le.mpr hpages, if_false, true_and]
  refine ⟨_, ?_, rfl⟩
  funext c
  simp only [writeCells_apply]
  split <;> rfl

/-- After the kernel the slice lists, at their ranks, the selected pages whose rank it has a slot
for. -/
theorem gather_covers_slots (hoff : 0 ≤ req.kvTableOffset) (hpages : 0 < req.kvNumPages)
    (hdistinct : ∀ i ∈ candidatePages req kv, ∀ j ∈ candidatePages req kv,
      (kv.entries i).pageId = (kv.entries j).pageId → i = j)
    (hid : ∀ i ∈ candidatePages req kv, (kv.entries i).pageId ≠ -1) :
    let out := sparseKvGatherAndScoreKernel launch req kv buffers
    (∀ i ∈ candidatePages req kv,
      ((out.1.entries i).selected = 1 ∧ (out.1.entries i).sparseRank < launch.maxSelectedPages ↔
        (out.1.entries i).pageId ∈ launch.sliceIds out.2.1) ∧
      ((out.1.entries i).pageId ∈ launch.sliceIds out.2.1 →
        GatheredAt launch out.2.1 (out.1.entries i))) ∧
    (∀ k, 0 ≤ k → k < launch.maxSelectedPages →
      (∀ i ∈ candidatePages req kv, (out.1.entries i).selected = 1 →
        (out.1.entries i).sparseRank ≠ k) →
      out.2.1.selectedPageIds (launch.selectedBase + k) = -1) ∧
    out.2.2.bytesRead + out.2.2.bytesSaved =
      out.2.2.blocksExamined * (launch.intsPerPage * 4) := by
  intro out
  obtain ⟨order, h, -⟩ := selectSparseKvBlocks_order hoff kv (gatherWidth launch req)
  obtain ⟨st, hempty, hkv, hbuffers⟩ :=
    @sparseKvGatherAndScoreKernel_of_pos _ _ launch req kv buffers hpages
  rw [h.numEntries] at hbuffers
  refine ⟨fun i hi => ?_, fun k h0 hk hnone => ?_, ?_⟩
  · simp only [out, hkv, hbuffers]
    rw [← h.gathers_iff_rank hi]
    exact h.gathered_iff hempty hdistinct hid hi
  · simp only [out, hkv, hbuffers] at hnone ⊢
    obtain ⟨i, hi, hg, hrank, -⟩ | ⟨-, hcell⟩ := h.slot_cases hempty h0 hk
    · exact absurd hrank (hnone i hi ((h.gathers_iff_rank hi).mp hg).1)
    · exact hcell
  · simp only [out, sparseKvGatherAndScoreKernel, not_le.mpr hpages, if_false]
    rw [sub_mul, add_sub_cancel]

end

/-- One slot for a selection of one page. -/
theorem gather_covers_slots_host :
    let launch : GatherLaunch := ⟨pipelinePayload, 4, 1, 0⟩
    let req : RequestDescriptor ℚ := pipelineRequest 1 0
    let kv : KVPageTable ℚ := pipelineTable 1
    let out := sparseKvGatherAndScoreKernel launch req kv ⟨fun _ => 0, fun _ => 0⟩
    ∀ i ∈ candidatePages req kv,
      ((out.1.entries i).selected = 1 ∧ (out.1.entries i).sparseRank < launch.maxSelectedPages ↔
        (out.1.entries i).pageId ∈ launch.sliceIds out.2.1) ∧
      ((out.1.entries i).pageId ∈ launch.sliceIds out.2.1 →
        GatheredAt launch out.2.1 (out.1.entries i)) := by
  intro launch req kv out
  exact (@gather_covers_slots ℚ _ launch req kv _ (by decide) (by decide) (by decide +kernel)
    (by decide +kernel)).1

/-- With one slot for a selection of two pages the second has no place in the slice, and an empty
slot looks like a page with the id `-1` that is not selected. -/
theorem selected_page_without_slot :
    (let launch : GatherLaunch := ⟨pipelinePayload, 4, 1, 0⟩
      let req : RequestDescriptor ℚ := pipelineRequest 2 0
      let out := sparseKvGatherAndScoreKernel launch req (pipelineTable 1)
        ⟨fun _ => 0, fun _ => 0⟩
      ∃ i ∈ candidatePages req (pipelineTable 1), (out.1.entries i).selected = 1 ∧
        (out.1.entries i).pageId ∉ launch.sliceIds out.2.1) ∧
    (let launch : GatherLaunch := ⟨pipelinePayload, 4, 2, 0⟩
      let req : RequestDescriptor ℚ := pipelineRequest 1 0
      let kv : KVPageTable ℚ := (pipelineTable 1).modify 3 fun entry => { entry with pageId := -1 }
      let out := sparseKvGatherAndScoreKernel launch req kv ⟨fun _ => 0, fun _ => 0⟩
      ∃ i ∈ candidatePages req kv, (out.1.entries i).selected = 0 ∧
        (out.1.entries i).pageId ∈ launch.sliceIds out.2.1) := by
  decide +kernel

end ResidentInference.Device
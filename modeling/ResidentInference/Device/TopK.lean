import ResidentInference.Device.Host
import ResidentInference.Device.Selection
import ResidentInference.Ranked
import Mathlib.Algebra.Order.Ring.Unbundled.Rat

/-! The sparse selection with exact scores: the pages that it marks are the first candidates by
score. -/
namespace ResidentInference.Device
open Loops Ranked

/-- The score that the selection gives to a page. -/
def pageScore (req : RequestDescriptor ℚ) (kv : KVPageTable ℚ) (i : Int) : ℚ :=
  sparseKvPageScore (kv.entries i) (req.promptLen + req.decodePos)

/-- A page of the request after the selection of the pages of `order`. -/
def rankedEntry (req : RequestDescriptor ℚ) (kv : KVPageTable ℚ) (order : List Int) (i : Int) :
    KVPageEntry ℚ :=
  let entry := { (kv.entries i).clearPageSelected with score := pageScore req kv i }
  if i ∈ order then
    entry.markPageSelected (pageScore req kv i) (req.promptLen + req.decodePos) (order.idxOf i)
  else entry

/-- The best pages are marked with their ranks, the other pages of the request are cleared and the
rest of the table is as before. -/
structure TopSoFar (req : RequestDescriptor ℚ) (kv₀ kv : KVPageTable ℚ) (order : List Int) :
    Prop where
  leading : Leading (pageScore req kv₀) (candidatePages req kv₀) order
  numEntries : kv.numEntries = kv₀.numEntries
  page : ∀ i ∈ req.pageIndices kv₀.numEntries, kv.entries i = rankedEntry req kv₀ order i
  other : ∀ i, i ∉ req.pageIndices kv₀.numEntries → kv.entries i = kv₀.entries i

section
variable {req : RequestDescriptor ℚ} {kv₀ kv : KVPageTable ℚ} {order : List Int}

@[simp] theorem score_rankedEntry (i : Int) :
    (rankedEntry req kv₀ order i).score = pageScore req kv₀ i := by
  simp only [rankedEntry]
  split <;> rfl

theorem selected_rankedEntry (i : Int) :
    (rankedEntry req kv₀ order i).selected = if i ∈ order then 1 else 0 := by
  simp only [rankedEntry]
  split <;> rfl

theorem samePage_rankedEntry (i : Int) : SamePage (rankedEntry req kv₀ order i) (kv₀.entries i) := by
  simp only [rankedEntry]
  split
  · exact (samePage_markSelected _ _ _ _).trans (samePage_clear _ _)
  · exact samePage_clear _ _

theorem has_rankedEntry (i : Int) (b : Fin 32) :
    (rankedEntry req kv₀ order i).flags.has b =
      if b = KVPageFlag.selected.shift then decide (i ∈ order) else (kv₀.entries i).flags.has b := by
  by_cases hi : i ∈ order
  · simp only [rankedEntry, hi, if_true, KVPageEntry.markPageSelected, KVPageEntry.setFlag,
      KVPageEntry.clearPageSelected, KVPageEntry.clearFlag, FlagWord.has_set, FlagWord.has_clear]
    grind
  · simp only [rankedEntry, hi, if_false, KVPageEntry.clearPageSelected, KVPageEntry.clearFlag,
      FlagWord.has_clear]
    grind

theorem TopSoFar.isOpen_iff (h : TopSoFar req kv₀ kv order) {i : Int}
    (hi : i ∈ req.pageIndices kv₀.numEntries) :
    IsOpen req kv i ↔ i ∈ candidatePages req kv₀ ∧ i ∉ order := by
  rw [IsOpen, h.page i hi, (samePage_rankedEntry i).isCandidate_iff, selected_rankedEntry,
    candidatePages, List.mem_filter, decide_eq_true_iff]
  by_cases hin : i ∈ order
  · simp [hin]
  · simp [hin, hi]

theorem topSoFar_scorePages (req : RequestDescriptor ℚ) (kv : KVPageTable ℚ) :
    TopSoFar req kv (scorePages req (req.promptLen + req.decodePos) kv) [] := by
  have hentry := kv.modifyAll_entries (fun entry : KVPageEntry ℚ =>
    { entry.clearPageSelected with
      score := sparseKvPageScore entry.clearPageSelected (req.promptLen + req.decodePos) })
    (nodup_pageIndices req kv.numEntries)
  refine ⟨Leading.nil _ _, by simp [scorePages], fun i hi => ?_, fun i hi => ?_⟩
  · rw [scorePages, hentry, if_pos hi, rankedEntry, if_neg List.not_mem_nil]
    rfl
  · rw [scorePages, hentry, if_neg hi]

/-- The next page by rank, once it is marked. -/
theorem TopSoFar.mark (h : TopSoFar req kv₀ kv order) {i : Int}
    (hi : i ∈ req.pageIndices kv₀.numEntries) (hnew : i ∉ order)
    (hlead : Leading (pageScore req kv₀) (candidatePages req kv₀) (order ++ [i])) :
    TopSoFar req kv₀ (kv.modify i (KVPageEntry.markPageSelected (pageScore req kv₀ i)
      (req.promptLen + req.decodePos) order.length)) (order ++ [i]) := by
  refine ⟨hlead, h.numEntries, fun j hj => ?_, fun j hj => ?_⟩
  · rw [KVPageTable.modify_entries, h.page j hj]
    by_cases hji : j = i
    · subst hji
      simp [rankedEntry, hnew, List.idxOf_append_of_notMem]
    · simp only [hji, if_false, rankedEntry, List.mem_append, List.mem_singleton, or_false]
      by_cases hjo : j ∈ order
      · simp [hjo, List.idxOf_append_of_mem]
      · simp [hjo]
  · have hne : j ≠ i := fun hji => hj (hji ▸ hi)
    rw [KVPageTable.modify_entries, if_neg hne, h.other j hj]

/-- A round scans for the open pages by score. -/
theorem TopSoFar.scans (h : TopSoFar req kv₀ kv order) (hoff : 0 ≤ req.kvTableOffset) :
    Scans (IsOpen req kv) (pageScore req kv₀) (-1, DeviceFloat.literal (-10 ^ 30))
      (pickPage req kv) (req.pageIndices kv₀.numEntries) := by
  have hscore : ∀ i ∈ req.pageIndices kv₀.numEntries,
      (kv.entries i).score = pageScore req kv₀ i := fun i hi => by
    rw [h.page i hi, score_rankedEntry]
  refine ⟨fun i _ hi best => pickPage_of_not_open hi best, fun i hi hopen => ?_,
    fun i hi hopen j hj _ => ?_⟩
  · obtain ⟨⟨hid, hres, hdraft⟩, hsel⟩ := hopen
    simp [pickPage, hid, hres, hdraft, hsel, hscore i hi]
  · have hj0 := hoff.trans (Int.mem_range_iff.mp hj).1
    obtain ⟨⟨hid, hres, hdraft⟩, hsel⟩ := hopen
    simp [pickPage, hid, hres, hdraft, hsel, hscore i hi, not_lt.mpr hj0, DeviceFloat.gt]

/-- What one round does: it marks the next candidate by rank, or all are marked. -/
theorem TopSoFar.round (h : TopSoFar req kv₀ kv order) (hoff : 0 ≤ req.kvTableOffset) :
    ((bestPage req kv).1 < 0 ∧ ∀ i ∈ candidatePages req kv₀, i ∈ order) ∨
      0 ≤ (bestPage req kv).1 ∧ TopSoFar req kv₀ (kv.modify (bestPage req kv).1
        (KVPageEntry.markPageSelected (bestPage req kv).2 (req.promptLen + req.decodePos)
          order.length)) (order ++ [(bestPage req kv).1]) := by
  obtain ⟨heq, hnone⟩ | ⟨b, hb, hopen, heq, hbest⟩ := (h.scans hoff).foldl (pairwise_range _ _)
  · rw [bestPage, h.numEntries, heq]
    refine Or.inl ⟨by decide, fun i hi => ?_⟩
    have hrange := (List.mem_filter.mp hi).1
    by_contra hnot
    exact hnone i hrange ((h.isOpen_iff hrange).mpr ⟨hi, hnot⟩)
  · rw [bestPage, h.numEntries, heq]
    obtain ⟨hcand, hnew⟩ := (h.isOpen_iff hb).mp hopen
    refine Or.inr ⟨hoff.trans (Int.mem_range_iff.mp hb).1, h.mark hb hnew ?_⟩
    refine h.leading.concat hcand hnew fun j hj hnot => ?_
    have hrange := (List.mem_filter.mp hj).1
    exact hbest j hrange ((h.isOpen_iff hrange).mpr ⟨hj, hnot⟩)

/-- The rounds mark the candidates by rank, as many as there are rounds or all of them. -/
theorem TopSoFar.selectRounds (hoff : 0 ≤ req.kvTableOffset) (n : Nat) {kv : KVPageTable ℚ}
    {order : List Int} (h : TopSoFar req kv₀ kv order) :
    ∃ order', TopSoFar req kv₀
        (selectRounds req (req.promptLen + req.decodePos) n order.length kv) order' ∧
      order'.length = min (order.length + n) (candidatePages req kv₀).length := by
  induction n generalizing kv order with
  | zero =>
    have hle := h.leading.length_le
    exact ⟨order, h, by omega⟩
  | succ n ih =>
    rw [Device.selectRounds]
    have hle := h.leading.length_le
    obtain ⟨hneg, hall⟩ | ⟨hpos, hmark⟩ := h.round hoff
    · have hnd : (candidatePages req kv₀).Nodup := (nodup_pageIndices req _).filter _
      have hge := (hnd.subperm fun i hi => hall i hi).length_le
      exact ⟨order, by simpa only [hneg, if_true] using h, by omega⟩
    · obtain ⟨order', h', hlen⟩ := ih hmark
      simp only [not_lt.mpr hpos, if_false]
      rw [List.length_append, List.length_singleton] at h' hlen
      exact ⟨order', by exact_mod_cast h', by omega⟩

end

/-- The candidates by rank, the first `topK` of them. -/
def topPages (req : RequestDescriptor ℚ) (kv : KVPageTable ℚ) (topK : Int) : List Int :=
  (ranked (pageScore req kv) (candidatePages req kv)).take (max topK 0).toNat

theorem topSoFar_selectSparseKvBlocks {req : RequestDescriptor ℚ} (hoff : 0 ≤ req.kvTableOffset)
    (kv : KVPageTable ℚ) (topK : Int) :
    TopSoFar req kv (selectSparseKvBlocks req kv topK) (topPages req kv topK) := by
  obtain ⟨order, h, hlen⟩ := (topSoFar_scorePages req kv).selectRounds hoff topK.toNat
  have htake := h.leading.eq_take ((nodup_pageIndices req _).filter _)
  rw [hlen, List.length_nil, zero_add, ← length_ranked (pageScore req kv), ← List.take_take,
    List.take_length] at htake
  rw [← selectSparseKvBlocks_eq_rounds, htake] at h
  rwa [topPages, show (max topK 0).toNat = topK.toNat by omega]

/-- The selection is the exact top of the candidates by score, and it changes nothing else. -/
theorem selectSparseKvBlocks_exact {req : RequestDescriptor ℚ} (hoff : 0 ≤ req.kvTableOffset)
    (kv : KVPageTable ℚ) (topK : Int) :
    let kv' := selectSparseKvBlocks req kv topK
    let order := topPages req kv topK
    order.length = min (max topK 0).toNat (candidatePages req kv).length ∧
      (∀ r (h : r < order.length), (kv'.entries order[r]).selected = 1 ∧
        (kv'.entries order[r]).sparseRank = r ∧
        (kv'.entries order[r]).hasFlag .selected = true) ∧
      (∀ i ∈ req.pageIndices kv.numEntries, i ∉ order → (kv'.entries i).selected = 0 ∧
        (kv'.entries i).sparseRank = -1 ∧ (kv'.entries i).hasFlag .selected = false) ∧
      (∀ i ∈ req.pageIndices kv.numEntries, (kv'.entries i).score = pageScore req kv i) ∧
      (∀ i, i ∉ req.pageIndices kv.numEntries → kv'.entries i = kv.entries i) ∧
      ∀ i (b : Fin 32), b ≠ KVPageFlag.selected.shift →
        (kv'.entries i).flags.has b = (kv.entries i).flags.has b := by
  intro kv' order
  have h : TopSoFar req kv kv' order := topSoFar_selectSparseKvBlocks hoff kv topK
  have hmem : ∀ i ∈ order, i ∈ req.pageIndices kv.numEntries := fun i hi =>
    (List.mem_filter.mp (h.leading.mem i hi)).1
  refine ⟨?_, fun r hr => ?_, fun i hi hnot => ?_, fun i hi => ?_, h.other, fun i b hb => ?_⟩
  · simp [order, topPages]
  · have hin := List.getElem_mem hr
    rw [h.page _ (hmem _ hin)]
    refine ⟨by rw [selected_rankedEntry, if_pos hin], ?_, ?_⟩
    · simp [rankedEntry, hin, KVPageEntry.markPageSelected, KVPageEntry.setFlag,
        h.leading.nodup.idxOf_getElem]
    · simp [KVPageEntry.hasFlag, has_rankedEntry, hin]
  · rw [h.page i hi]
    refine ⟨by rw [selected_rankedEntry, if_neg hnot], ?_, ?_⟩
    · simp [rankedEntry, hnot, KVPageEntry.clearPageSelected, KVPageEntry.clearFlag]
    · simp [KVPageEntry.hasFlag, has_rankedEntry, hnot]
  · rw [h.page i hi, score_rankedEntry]
  · by_cases hi : i ∈ req.pageIndices kv.numEntries
    · rw [h.page i hi, has_rankedEntry, if_neg hb]
    · rw [h.other i hi]

/-- Two of the four pages of a request of the host. -/
theorem selectSparseKvBlocks_exact_host :
    let req : RequestDescriptor ℚ := pipelineRequest 1 0
    let kv : KVPageTable ℚ := pipelineTable 1
    let kv' := selectSparseKvBlocks req kv 2
    let order := topPages req kv 2
    order.length = min (max 2 0) 4 ∧
      ∀ r (h : r < order.length), (kv'.entries order[r]).selected = 1 ∧
        (kv'.entries order[r]).sparseRank = r ∧
        (kv'.entries order[r]).hasFlag .selected = true := by
  intro req kv kv' order
  obtain ⟨hlen, hmarked, -⟩ :=
    @selectSparseKvBlocks_exact req (show (0 : Int) ≤ 0 from le_rfl) kv 2
  exact ⟨hlen.trans (by decide +kernel), hmarked⟩

end ResidentInference.Device

import ResidentInference.Device.Stages

/-! Which pages the sparse selection marks: distinct candidates in the order of their ranks, as
many as the width allows. Nothing is assumed of the comparison of the scores. -/
namespace ResidentInference.Device
open Loops
variable {φ : Type}

/-- A resident page of the request that is no draft. -/
def IsCandidate (req : RequestDescriptor φ) (entry : KVPageEntry φ) : Prop :=
  entry.requestId = req.requestId ∧ entry.hasFlag .resident = true ∧ entry.hasFlag .draft = false

instance (req : RequestDescriptor φ) (entry : KVPageEntry φ) : Decidable (IsCandidate req entry) :=
  inferInstanceAs (Decidable (_ ∧ _ ∧ _))

/-- The candidates among the pages of the request. -/
def candidatePages (req : RequestDescriptor φ) (kv : KVPageTable φ) : List Int :=
  (req.pageIndices kv.numEntries).filter fun i => decide (IsCandidate req (kv.entries i))

theorem nodup_pageIndices (req : RequestDescriptor φ) (n : Int) : (req.pageIndices n).Nodup :=
  nodup_range _ _

/-- The fields of a page that decide whether it can be selected, and its payload. -/
structure SamePage (entry entry₀ : KVPageEntry φ) : Prop where
  requestId : entry.requestId = entry₀.requestId
  pageId : entry.pageId = entry₀.pageId
  resident : entry.hasFlag .resident = entry₀.hasFlag .resident
  draft : entry.hasFlag .draft = entry₀.hasFlag .draft

theorem SamePage.refl (entry : KVPageEntry φ) : SamePage entry entry := ⟨rfl, rfl, rfl, rfl⟩

theorem SamePage.trans {e e₁ e₂ : KVPageEntry φ} (h : SamePage e e₁) (h' : SamePage e₁ e₂) :
    SamePage e e₂ :=
  ⟨h.requestId.trans h'.requestId, h.pageId.trans h'.pageId, h.resident.trans h'.resident,
    h.draft.trans h'.draft⟩

theorem SamePage.isCandidate_iff {entry entry₀ : KVPageEntry φ} (h : SamePage entry entry₀)
    (req : RequestDescriptor φ) : IsCandidate req entry ↔ IsCandidate req entry₀ := by
  simp only [IsCandidate, h.requestId, h.resident, h.draft]

theorem samePage_clear (entry : KVPageEntry φ) (score : φ) :
    SamePage { entry.clearPageSelected with score := score } entry := by
  constructor <;> simp [KVPageEntry.clearPageSelected, KVPageEntry.clearFlag,
    KVPageEntry.hasFlag, KVPageFlag.shift]

theorem samePage_markSelected (score : φ) (decodeStep rank : Int) (entry : KVPageEntry φ) :
    SamePage (entry.markPageSelected score decodeStep rank) entry := by
  constructor <;> simp [KVPageEntry.markPageSelected, KVPageEntry.setFlag,
    KVPageEntry.hasFlag, KVPageFlag.shift]

/-- `order` lists the selected pages of the request by rank, and the pages are those of `kv₀`. -/
structure SelectionOrder (req : RequestDescriptor φ) (kv₀ kv : KVPageTable φ) (order : List Int) :
    Prop where
  nodup : order.Nodup
  mem : ∀ i ∈ order, i ∈ candidatePages req kv₀
  numEntries : kv.numEntries = kv₀.numEntries
  same : ∀ i, SamePage (kv.entries i) (kv₀.entries i)
  selected : ∀ i ∈ req.pageIndices kv₀.numEntries,
    (kv.entries i).selected = if i ∈ order then 1 else 0
  rank : ∀ r (h : r < order.length), (kv.entries order[r]).sparseRank = r

theorem SelectionOrder.mem_of_selected {req : RequestDescriptor φ} {kv₀ kv : KVPageTable φ}
    {order : List Int} (h : SelectionOrder req kv₀ kv order) {i : Int}
    (hi : i ∈ req.pageIndices kv₀.numEntries) (hsel : (kv.entries i).selected ≠ 0) : i ∈ order := by
  by_contra hnot
  exact hsel (by rw [h.selected i hi, if_neg hnot])

theorem SelectionOrder.isCandidate {req : RequestDescriptor φ} {kv₀ kv : KVPageTable φ}
    {order : List Int} (h : SelectionOrder req kv₀ kv order) {i : Int} (hi : i ∈ order) :
    IsCandidate req (kv.entries i) :=
  ((h.same i).isCandidate_iff req).mpr (by simpa using (List.mem_filter.mp (h.mem i hi)).2)

/-- One more page, marked with the next rank. -/
theorem SelectionOrder.mark {req : RequestDescriptor φ} {kv₀ kv : KVPageTable φ} {order : List Int}
    (h : SelectionOrder req kv₀ kv order) {i : Int} (hi : i ∈ candidatePages req kv₀)
    (hnew : i ∉ order) (score : φ) (decodeStep : Int) :
    SelectionOrder req kv₀ (kv.modify i
      (KVPageEntry.markPageSelected score decodeStep order.length)) (order ++ [i]) := by
  have hentry := kv.modify_entries (KVPageEntry.markPageSelected score decodeStep order.length) i
  refine ⟨?_, ?_, h.numEntries, fun j => ?_, fun j hj => ?_, fun r hr => ?_⟩
  · simpa using h.nodup.concat hnew
  · intro j hj
    obtain hj | hj := List.mem_append.mp hj
    · exact h.mem j hj
    · exact List.mem_singleton.mp hj ▸ hi
  · rw [hentry]
    split
    · exact (samePage_markSelected _ _ _ _).trans (h.same j)
    · exact h.same j
  · rw [hentry]
    split
    · next hji => simp [hji, KVPageEntry.markPageSelected, KVPageEntry.setFlag]
    · next hji => simp [h.selected j hj, hji]
  · rw [hentry]
    obtain hlt | hge := Nat.lt_or_ge r order.length
    · have hne : order[r] ≠ i := fun hri => hnew (hri ▸ List.getElem_mem hlt)
      simp [hlt, hne, h.rank r hlt]
    · have hr' : r = order.length := by
        simp only [List.length_append, List.length_singleton] at hr
        omega
      subst hr'
      simp [KVPageEntry.markPageSelected, KVPageEntry.setFlag]

theorem SelectionOrder.length_le {req : RequestDescriptor φ} {kv₀ kv : KVPageTable φ}
    {order : List Int} (h : SelectionOrder req kv₀ kv order) :
    order.length ≤ (candidatePages req kv₀).length :=
  (h.nodup.subperm fun i hi => h.mem i hi).length_le

section
variable [DeviceFloat φ]

theorem selectionOrder_scorePages (req : RequestDescriptor φ) (decodeStep : Int)
    (kv : KVPageTable φ) : SelectionOrder req kv (scorePages req decodeStep kv) [] := by
  have hentry := kv.modifyAll_entries (fun entry : KVPageEntry φ =>
    { entry.clearPageSelected with score := sparseKvPageScore entry.clearPageSelected decodeStep })
    (nodup_pageIndices req kv.numEntries)
  refine ⟨List.nodup_nil, nofun, by simp [scorePages], fun i => ?_, fun i hi => ?_, nofun⟩
  · rw [scorePages, hentry]
    split
    · exact samePage_clear _ _
    · exact SamePage.refl _
  · rw [scorePages, hentry, if_pos hi]
    rfl

/-- A page that a round may still pick. -/
def IsOpen (req : RequestDescriptor φ) (kv : KVPageTable φ) (i : Int) : Prop :=
  IsCandidate req (kv.entries i) ∧ (kv.entries i).selected = 0

theorem pickPage_of_not_open {req : RequestDescriptor φ} {kv : KVPageTable φ} {i : Int}
    (h : ¬ IsOpen req kv i) (best : Int × φ) : pickPage req kv best i = best := by
  simp only [IsOpen, IsCandidate] at h
  simp only [pickPage]
  grind

theorem pickPage_of_open {req : RequestDescriptor φ} {kv : KVPageTable φ} {i : Int}
    (h : IsOpen req kv i) (best : Int × φ) :
    pickPage req kv best i = (i, (kv.entries i).score) ∨
      pickPage req kv best i = best ∧ 0 ≤ best.1 := by
  obtain ⟨⟨hid, hres, hdraft⟩, hsel⟩ := h
  simp only [pickPage, hid, hres, hdraft, hsel]
  grind

/-- A search that starts with an open page ends with one. -/
theorem foldl_pickPage_of_nonneg {req : RequestDescriptor φ} {kv : KVPageTable φ} {is : List Int}
    (hpos : ∀ i ∈ is, 0 ≤ i) {best : Int × φ} (hb : 0 ≤ best.1) :
    (is.foldl (pickPage req kv) best).1 = best.1 ∨
      0 ≤ (is.foldl (pickPage req kv) best).1 ∧ (is.foldl (pickPage req kv) best).1 ∈ is ∧
        IsOpen req kv (is.foldl (pickPage req kv) best).1 := by
  induction is generalizing best with
  | nil => exact Or.inl rfl
  | cons i is ih =>
    have hpos' : ∀ j ∈ is, 0 ≤ j := fun j hj => hpos j (List.mem_cons_of_mem _ hj)
    have hkeep : pickPage req kv best i = best ∨
        pickPage req kv best i = (i, (kv.entries i).score) ∧ IsOpen req kv i := by
      by_cases h : IsOpen req kv i
      · exact (pickPage_of_open h best).symm.imp (·.1) (⟨·, h⟩)
      · exact Or.inl (pickPage_of_not_open h best)
    rw [List.foldl_cons]
    obtain hp | ⟨hp, hopen⟩ := hkeep
    · rw [hp]
      obtain h | ⟨h0, hmem, h⟩ := ih hpos' hb
      · exact Or.inl h
      · exact Or.inr ⟨h0, List.mem_cons_of_mem _ hmem, h⟩
    · rw [hp]
      have hi := hpos i List.mem_cons_self
      have hstart : 0 ≤ (i, (kv.entries i).score).1 := hi
      obtain h | ⟨h0, hmem, h⟩ := ih hpos' hstart
      · rw [h]
        exact Or.inr ⟨hi, List.mem_cons_self, hopen⟩
      · exact Or.inr ⟨h0, List.mem_cons_of_mem _ hmem, h⟩

theorem foldl_pickPage_of_neg {req : RequestDescriptor φ} {kv : KVPageTable φ} {is : List Int}
    (hpos : ∀ i ∈ is, 0 ≤ i) {best : Int × φ} (hb : best.1 < 0) :
    ((is.foldl (pickPage req kv) best).1 < 0 ∧ ∀ i ∈ is, ¬ IsOpen req kv i) ∨
      0 ≤ (is.foldl (pickPage req kv) best).1 ∧ (is.foldl (pickPage req kv) best).1 ∈ is ∧
        IsOpen req kv (is.foldl (pickPage req kv) best).1 := by
  induction is with
  | nil => exact Or.inl ⟨hb, nofun⟩
  | cons i is ih =>
    have hpos' : ∀ j ∈ is, 0 ≤ j := fun j hj => hpos j (List.mem_cons_of_mem _ hj)
    rw [List.foldl_cons]
    by_cases hopen : IsOpen req kv i
    · have hi := hpos i List.mem_cons_self
      have hp := (pickPage_of_open hopen best).resolve_right (fun h => by omega)
      rw [hp]
      right
      have hstart : 0 ≤ (i, (kv.entries i).score).1 := hi
      obtain h | ⟨h0, hmem, h⟩ := foldl_pickPage_of_nonneg hpos' hstart
      · rw [h]
        exact ⟨hi, List.mem_cons_self, hopen⟩
      · exact ⟨h0, List.mem_cons_of_mem _ hmem, h⟩
    · rw [pickPage_of_not_open hopen]
      obtain ⟨hneg, hnone⟩ | ⟨h0, hmem, h⟩ := ih hpos'
      · exact Or.inl ⟨hneg, List.forall_mem_cons.mpr ⟨hopen, hnone⟩⟩
      · exact Or.inr ⟨h0, List.mem_cons_of_mem _ hmem, h⟩

/-- A round finds a page whenever one is open, and what it finds is open. -/
theorem bestPage_spec {req : RequestDescriptor φ} (hoff : 0 ≤ req.kvTableOffset)
    (kv : KVPageTable φ) :
    ((bestPage req kv).1 < 0 ∧ ∀ i ∈ req.pageIndices kv.numEntries, ¬ IsOpen req kv i) ∨
      0 ≤ (bestPage req kv).1 ∧ (bestPage req kv).1 ∈ req.pageIndices kv.numEntries ∧
        IsOpen req kv (bestPage req kv).1 :=
  foldl_pickPage_of_neg (fun _ hi => hoff.trans (Int.mem_range_iff.mp hi).1)
    (show (-1 : Int) < 0 by decide)

/-- What one round does to a selection: it ends it, when all candidates are selected, or adds a
page to it. -/
theorem SelectionOrder.round {req : RequestDescriptor φ} (hoff : 0 ≤ req.kvTableOffset)
    (decodeStep : Int) {kv₀ kv : KVPageTable φ} {order : List Int}
    (h : SelectionOrder req kv₀ kv order) :
    ((bestPage req kv).1 < 0 ∧ ∀ i ∈ candidatePages req kv₀, i ∈ order) ∨
      0 ≤ (bestPage req kv).1 ∧ SelectionOrder req kv₀ (kv.modify (bestPage req kv).1
        (KVPageEntry.markPageSelected (bestPage req kv).2 decodeStep order.length))
        (order ++ [(bestPage req kv).1]) := by
  obtain ⟨hneg, hnone⟩ | ⟨hpos, hmem, hcand, hsel⟩ := bestPage_spec hoff kv
  · refine Or.inl ⟨hneg, fun i hi => ?_⟩
    obtain ⟨hi, hc⟩ := List.mem_filter.mp hi
    by_contra hnot
    have hselected := h.selected i hi
    rw [if_neg hnot] at hselected
    exact hnone i (h.numEntries ▸ hi) ⟨((h.same i).isCandidate_iff req).mpr (by simpa using hc),
      hselected⟩
  · rw [h.numEntries] at hmem
    have hnew : (bestPage req kv).1 ∉ order := fun hin => by
      have hselected := h.selected _ hmem
      rw [if_pos hin, hsel] at hselected
      exact absurd hselected (by decide)
    have hc : (bestPage req kv).1 ∈ candidatePages req kv₀ := List.mem_filter.mpr
      ⟨hmem, by simpa using ((h.same _).isCandidate_iff req).mp hcand⟩
    exact Or.inr ⟨hpos, h.mark hc hnew _ decodeStep⟩

/-- What the rounds add to a selection: pages up to the width, or all the candidates. -/
theorem selectRounds_order {req : RequestDescriptor φ} (hoff : 0 ≤ req.kvTableOffset)
    (decodeStep : Int) {kv₀ : KVPageTable φ} (n : Nat) {kv : KVPageTable φ} {order : List Int}
    (h : SelectionOrder req kv₀ kv order) :
    ∃ order', SelectionOrder req kv₀ (selectRounds req decodeStep n order.length kv) order' ∧
      order'.length = min (order.length + n) (candidatePages req kv₀).length := by
  induction n generalizing kv order with
  | zero =>
    have hle := h.length_le
    exact ⟨order, h, by omega⟩
  | succ n ih =>
    rw [selectRounds]
    obtain ⟨hneg, hall⟩ | ⟨hpos, hmark⟩ := h.round hoff decodeStep
    · have hnd : (candidatePages req kv₀).Nodup := (nodup_pageIndices req _).filter _
      have hge : (candidatePages req kv₀).length ≤ order.length :=
        (hnd.subperm fun i hi => hall i hi).length_le
      have hle := h.length_le
      exact ⟨order, by simpa only [hneg, if_true] using h, by omega⟩
    · obtain ⟨order', h', hlen⟩ := ih hmark
      simp only [not_lt.mpr hpos, if_false]
      rw [List.length_append, List.length_singleton] at h' hlen
      exact ⟨order', by exact_mod_cast h', by omega⟩

/-- A round after the last candidate changes nothing. -/
theorem selectRounds_succ {req : RequestDescriptor φ} (hoff : 0 ≤ req.kvTableOffset)
    (decodeStep : Int) {kv₀ : KVPageTable φ} (n : Nat) {kv : KVPageTable φ} {order : List Int}
    (h : SelectionOrder req kv₀ kv order)
    (hn : (candidatePages req kv₀).length ≤ order.length + n) :
    selectRounds req decodeStep (n+1) order.length kv =
      selectRounds req decodeStep n order.length kv := by
  induction n generalizing kv order with
  | zero =>
    obtain ⟨hneg, -⟩ | ⟨-, hmark⟩ := h.round hoff decodeStep
    · simp only [selectRounds, hneg, if_true]
    · have hle := hmark.length_le
      simp only [List.length_append, List.length_singleton] at hle
      omega
  | succ n ih =>
    rw [selectRounds]
    conv_rhs => rw [selectRounds]
    obtain ⟨hneg, -⟩ | ⟨hpos, hmark⟩ := h.round hoff decodeStep
    · simp only [hneg, if_true]
    · simp only [not_lt.mpr hpos, if_false]
      have hnext := ih hmark (by simp only [List.length_append, List.length_singleton]; omega)
      rw [List.length_append, List.length_singleton] at hnext
      exact_mod_cast hnext

theorem selectRounds_of_le {req : RequestDescriptor φ} (hoff : 0 ≤ req.kvTableOffset)
    (decodeStep : Int) {kv₀ kv : KVPageTable φ} {order : List Int}
    (h : SelectionOrder req kv₀ kv order) {n m : Nat} (hnm : n ≤ m)
    (hn : (candidatePages req kv₀).length ≤ order.length + n) :
    selectRounds req decodeStep m order.length kv =
      selectRounds req decodeStep n order.length kv := by
  induction m, hnm using Nat.le_induction with
  | base => rfl
  | succ m hm ih => exact (selectRounds_succ hoff decodeStep m h (by omega)).trans ih

theorem selectSparseKvBlocks_eq_rounds (req : RequestDescriptor φ) (kv : KVPageTable φ)
    (topK : Int) :
    selectSparseKvBlocks req kv topK =
      selectRounds req (req.promptLen + req.decodePos) topK.toNat ([] : List Int).length
        (scorePages req (req.promptLen + req.decodePos) kv) := by
  have htop : (if topK < 0 then 0 else topK).toNat = topK.toNat := by
    split <;> omega
  simp only [selectSparseKvBlocks, htop]
  rfl

theorem selectSparseKvBlocks_pageSizeTokens (req : RequestDescriptor φ) (kv : KVPageTable φ)
    (topK : Int) : (selectSparseKvBlocks req kv topK).pageSizeTokens = kv.pageSizeTokens := by
  have hrounds (n : Nat) (rank : Int) (table : KVPageTable φ) :
      (selectRounds req (req.promptLen + req.decodePos) n rank table).pageSizeTokens =
        table.pageSizeTokens := by
    induction n generalizing rank table with
    | zero => rfl
    | succ n ih =>
      rw [selectRounds]
      split
      · rfl
      · exact ih _ _
  rw [selectSparseKvBlocks_eq_rounds, hrounds, scorePages, KVPageTable.modifyAll_pageSizeTokens]

/-- The pages that the selection marks, by rank. -/
theorem selectSparseKvBlocks_order {req : RequestDescriptor φ} (hoff : 0 ≤ req.kvTableOffset)
    (kv : KVPageTable φ) (topK : Int) :
    ∃ order, SelectionOrder req kv (selectSparseKvBlocks req kv topK) order ∧
      order.length = min topK.toNat (candidatePages req kv).length := by
  obtain ⟨order, h, hlen⟩ := selectRounds_order hoff (req.promptLen + req.decodePos)
    topK.toNat (selectionOrder_scorePages req (req.promptLen + req.decodePos) kv)
  rw [← selectSparseKvBlocks_eq_rounds] at h
  exact ⟨order, h, by simpa using hlen⟩

/-- Two widths that reach equally many candidates select alike. -/
theorem selectSparseKvBlocks_congr {req : RequestDescriptor φ} (hoff : 0 ≤ req.kvTableOffset)
    (kv : KVPageTable φ) {a b : Int}
    (h : min a.toNat (candidatePages req kv).length = min b.toNat (candidatePages req kv).length) :
    selectSparseKvBlocks req kv a = selectSparseKvBlocks req kv b := by
  have horder := selectionOrder_scorePages req (req.promptLen + req.decodePos) kv
  rw [selectSparseKvBlocks_eq_rounds, selectSparseKvBlocks_eq_rounds]
  obtain hab | hba := le_total a.toNat b.toNat
  · obtain hlt | hge := Nat.lt_or_ge a.toNat (candidatePages req kv).length
    · rw [show a.toNat = b.toNat by omega]
    · exact (selectRounds_of_le hoff _ horder hab (by simpa using hge)).symm
  · obtain hlt | hge := Nat.lt_or_ge b.toNat (candidatePages req kv).length
    · rw [show a.toNat = b.toNat by omega]
    · exact selectRounds_of_le hoff _ horder hba (by simpa using hge)

end

/-- The selected pages of the request, in the order of the table. -/
def selectedPages (req : RequestDescriptor φ) (kv : KVPageTable φ) : List Int :=
  (req.pageIndices kv.numEntries).filter fun i => decide ((kv.entries i).selected ≠ 0)

theorem SelectionOrder.perm {req : RequestDescriptor φ} {kv₀ kv : KVPageTable φ}
    {order : List Int} (h : SelectionOrder req kv₀ kv order) :
    (selectedPages req kv).Perm order := by
  refine (List.perm_ext_iff_of_nodup ((nodup_pageIndices req _).filter _) h.nodup).mpr fun i => ?_
  rw [List.mem_filter, h.numEntries]
  constructor
  · rintro ⟨hi, hsel⟩
    exact h.mem_of_selected hi (by simpa using hsel)
  · intro hin
    have hi := (List.mem_filter.mp (h.mem i hin)).1
    exact ⟨hi, by simp [h.selected i hi, hin]⟩

end ResidentInference.Device

import ResidentInference.OwnedBlocks
import ResidentInference.Sweeps
import ResidentInference.Device.Host
import ResidentInference.Device.PageLifecycle
import Mathlib.Tactic.Ring

/-! Which pages the pressure eviction takes: drafts first, then committed pages, in the order of the
table and up to the budget. -/
namespace ResidentInference.Device
open Loops Sweeps OwnedBlocks
variable {φ : Type}

namespace KVPageEntry

def isDraft (e : KVPageEntry φ) : Bool := e.hasFlag .draft || decide (e.state = .draft)

def isCommitted (e : KVPageEntry φ) : Bool := e.hasFlag .committed || decide (e.state = .committed)

/-- A page of the request that is resident and not protected. -/
def isUnprotected (requestId : Int) (e : KVPageEntry φ) : Bool :=
  decide (e.requestId = requestId) && e.hasFlag .resident && !e.hasFlag .pinned &&
    !e.hasFlag .selected

/-- What a pass may evict. -/
def isVictim (requestId : Int) (wantsDraft : Bool) (e : KVPageEntry φ) : Bool :=
  e.isUnprotected requestId && (if wantsDraft then e.isDraft else e.isCommitted && !e.isDraft)

/-- An evicted page is not resident, so no pass takes it again. -/
theorem isVictim_evictPage (requestId : Int) (wantsDraft : Bool) (e : KVPageEntry φ) :
    e.evictPage.isVictim requestId wantsDraft = false := by
  have hres : e.evictPage.hasFlag .resident = false := by
    simp [evictPage, clearPageSelected, clearFlag, hasFlag, KVPageFlag.shift]
  simp [isVictim, isUnprotected, hres]

theorem isDraft_of_isVictim {requestId : Int} {e : KVPageEntry φ}
    (h : e.isVictim requestId true = true) : e.isDraft = true := by
  simp only [isVictim, if_true, Bool.and_eq_true] at h
  exact h.2

theorem isVictim_false_of_isDraft {e : KVPageEntry φ} (h : e.isDraft = true) (requestId : Int) :
    e.isVictim requestId false = false := by
  simp [isVictim, h]

end KVPageEntry

/-! ## One block -/

/-- The pages that a pass may evict, in the order of the table. -/
def victims (kv : KVPageTable φ) (pagesPerRequest requestSlot : Int) (wantsDraft : Bool) :
    List Int :=
  (slotCells pagesPerRequest requestSlot).filter fun i =>
    (kv.entries i).isVictim (requestSlot + 1) wantsDraft

/-- The first drafts up to the budget, then the first committed pages for the rest of it. -/
def evictedPages (kv : KVPageTable φ) (pagesPerRequest evictionBudgetPages requestSlot : Int) :
    List Int :=
  (victims kv pagesPerRequest requestSlot true).take (max evictionBudgetPages 0).toNat ++
    (victims kv pagesPerRequest requestSlot false).take ((max evictionBudgetPages 0).toNat -
      (victims kv pagesPerRequest requestSlot true).length)

/-- The metrics from one point of a pass to a later one: every unit of the budget that is spent is
an evicted page. -/
structure Spent (wantsDraft : Bool) (s s' : PressureScan φ) : Prop where
  bytesPerPage : s'.kv.bytesPerPage = s.kv.bytesPerPage
  pages : s'.metric.pagesEvicted =
    s.metric.pagesEvicted + (s.remainingBudget - s'.remainingBudget)
  drafts : s'.metric.draftPagesEvicted = s.metric.draftPagesEvicted +
    if wantsDraft then s.remainingBudget - s'.remainingBudget else 0
  committed : s'.metric.committedPagesEvicted = s.metric.committedPagesEvicted +
    if wantsDraft then 0 else s.remainingBudget - s'.remainingBudget
  bytes : s'.metric.reclaimedBytes = s.metric.reclaimedBytes +
    (s.remainingBudget - s'.remainingBudget) * s.kv.bytesPerPage

section
variable {requestId : Int} {wantsDraft : Bool} {s s' s'' : PressureScan φ}

theorem Spent.refl (wantsDraft : Bool) (s : PressureScan φ) : Spent wantsDraft s s := by
  constructor <;> simp

theorem Spent.trans (h : Spent wantsDraft s s') (h' : Spent wantsDraft s' s'') :
    Spent wantsDraft s s'' := by
  refine ⟨h'.bytesPerPage.trans h.bytesPerPage, ?_, ?_, ?_, ?_⟩
  · rw [h'.pages, h.pages]
    omega
  · rw [h'.drafts, h.drafts]
    cases wantsDraft <;> simp only [if_true, if_false, Bool.false_eq_true] <;> omega
  · rw [h'.committed, h.committed]
    cases wantsDraft <;> simp only [if_true, if_false, Bool.false_eq_true] <;> omega
  · rw [h'.bytes, h.bytes, h.bytesPerPage, add_assoc, ← add_mul]
    congr 2
    omega

/-- A page that a pass passes over changes at most the counters of the scan. -/
theorem scanPage_of_skip {i : Int}
    (h : s.remainingBudget ≤ 0 ∨ (s.kv.entries i).isVictim requestId wantsDraft = false) :
    ∃ m : KVEvictionMetrics, scanPage requestId wantsDraft s i = { s with metric := m } ∧
      m.pagesEvicted = s.metric.pagesEvicted ∧
      m.draftPagesEvicted = s.metric.draftPagesEvicted ∧
      m.committedPagesEvicted = s.metric.committedPagesEvicted ∧
      m.reclaimedBytes = s.metric.reclaimedBytes := by
  simp only [scanPage]
  split
  · exact ⟨s.metric, rfl, rfl, rfl, rfl, rfl⟩
  next hopen =>
  split
  · exact ⟨_, rfl, rfl, rfl, rfl, rfl⟩
  next hrid =>
  split
  · exact ⟨_, rfl, rfl, rfl, rfl, rfl⟩
  next hresident =>
  split
  · exact ⟨_, rfl, rfl, rfl, rfl, rfl⟩
  next hpinned =>
  split
  · exact ⟨_, rfl, rfl, rfl, rfl, rfl⟩
  next hselected =>
  split
  · exact ⟨_, rfl, rfl, rfl, rfl, rfl⟩
  next hdraft =>
  split
  · exact ⟨_, rfl, rfl, rfl, rfl, rfl⟩
  next hcommitted =>
  -- a page that gets this far is a victim
  have hvictim := h.resolve_left hopen
  simp only [KVPageEntry.isVictim, KVPageEntry.isUnprotected, KVPageEntry.isDraft,
    KVPageEntry.isCommitted] at hvictim
  exact absurd hvictim (by grind)

/-- A page that a pass evicts. -/
theorem scanPage_of_victim {i : Int} (hpos : 0 < s.remainingBudget)
    (h : (s.kv.entries i).isVictim requestId wantsDraft = true) :
    ∃ m : KVEvictionMetrics,
      scanPage requestId wantsDraft s i =
        { kv := s.kv.modify i KVPageEntry.evictPage
          metric := m
          remainingBudget := s.remainingBudget - 1 } ∧
      m.pagesEvicted = s.metric.pagesEvicted + 1 ∧
      m.draftPagesEvicted = s.metric.draftPagesEvicted + (if wantsDraft then 1 else 0) ∧
      m.committedPagesEvicted = s.metric.committedPagesEvicted + (if wantsDraft then 0 else 1) ∧
      m.reclaimedBytes = s.metric.reclaimedBytes + s.kv.bytesPerPage := by
  simp only [KVPageEntry.isVictim, KVPageEntry.isUnprotected, Bool.and_eq_true,
    decide_eq_true_eq, Bool.not_eq_true'] at h
  obtain ⟨⟨⟨⟨hrid, hresident⟩, hpinned⟩, hselected⟩, hkind⟩ := h
  have hopen : ¬ s.remainingBudget ≤ 0 := not_le.mpr hpos
  cases wantsDraft with
  | true =>
    have hdraft : (s.kv.entries i).isDraft = true := hkind
    rw [KVPageEntry.isDraft] at hdraft
    have hscan : scanPage requestId true s i =
        { kv := s.kv.modify i KVPageEntry.evictPage
          metric := { s.metric with
            pagesScanned := s.metric.pagesScanned + 1
            pagesEvicted := s.metric.pagesEvicted + 1
            reclaimedBytes := s.metric.reclaimedBytes + s.kv.bytesPerPage
            draftPagesEvicted := s.metric.draftPagesEvicted + 1 }
          remainingBudget := s.remainingBudget - 1 } := by
      simp [scanPage, hopen, hrid, hresident, hpinned, hselected, hdraft]
    exact ⟨_, hscan, rfl, rfl, (Int.add_zero _).symm, rfl⟩
  | false =>
    have hcommitted : ((s.kv.entries i).isCommitted && !(s.kv.entries i).isDraft) = true := hkind
    rw [Bool.and_eq_true, Bool.not_eq_true', KVPageEntry.isDraft, KVPageEntry.isCommitted]
      at hcommitted
    have hscan : scanPage requestId false s i =
        { kv := s.kv.modify i KVPageEntry.evictPage
          metric := { s.metric with
            pagesScanned := s.metric.pagesScanned + 1
            pagesEvicted := s.metric.pagesEvicted + 1
            reclaimedBytes := s.metric.reclaimedBytes + s.kv.bytesPerPage
            committedPagesEvicted := s.metric.committedPagesEvicted + 1 }
          remainingBudget := s.remainingBudget - 1 } := by
      simp [scanPage, hopen, hrid, hresident, hpinned, hselected, hcommitted.1, hcommitted.2]
    exact ⟨_, hscan, rfl, (Int.add_zero _).symm, rfl, rfl⟩

/-- A page spends what it costs. -/
theorem spent_scanPage (i : Int) : Spent wantsDraft s (scanPage requestId wantsDraft s i) := by
  by_cases hskip : s.remainingBudget ≤ 0 ∨
      (s.kv.entries i).isVictim requestId wantsDraft = false
  · obtain ⟨m, hscan, h1, h2, h3, h4⟩ := scanPage_of_skip hskip
    rw [hscan]
    constructor <;> simp [h1, h2, h3, h4]
  · obtain ⟨hpos, hvictim⟩ := not_or.mp hskip
    obtain ⟨m, hscan, h1, h2, h3, h4⟩ :=
      scanPage_of_victim (not_le.mp hpos) (by simpa using hvictim)
    rw [hscan]
    constructor <;> simp [h1, h2, h3, h4, KVPageTable.modify]

theorem isSweep_scanPage (requestId : Int) (wantsDraft : Bool) :
    IsSweep (fun s : PressureScan φ => s.kv.entries) (fun s => s.remainingBudget)
      (fun _ e => e.isVictim requestId wantsDraft) KVPageEntry.evictPage
      (scanPage requestId wantsDraft) := by
  refine ⟨fun s i hskip => ?_, fun s i hpos hp => ?_⟩
  · obtain ⟨m, hscan, -⟩ := scanPage_of_skip hskip
    rw [hscan]
    exact ⟨rfl, rfl⟩
  · obtain ⟨m, hscan, -⟩ := scanPage_of_victim hpos hp
    rw [hscan]
    exact ⟨rfl, rfl⟩

theorem spent_foldl (requestId : Int) (wantsDraft : Bool) (is : List Int) (s : PressureScan φ) :
    Spent wantsDraft s (is.foldl (scanPage requestId wantsDraft) s) := by
  induction is generalizing s with
  | nil => exact Spent.refl wantsDraft s
  | cons i is ih => exact (spent_scanPage i).trans (ih _)

end

/-- The metrics of a block that evicts so many drafts and so many committed pages. -/
structure EvictionCounts (bytesPerPage : Int) (drafts committed : Nat) (m : KVEvictionMetrics) :
    Prop where
  drafts : m.draftPagesEvicted = drafts
  committed : m.committedPagesEvicted = committed
  pages : m.pagesEvicted = m.draftPagesEvicted + m.committedPagesEvicted
  bytes : m.reclaimedBytes = m.pagesEvicted * bytesPerPage

/-- A pass over the drafts and then one over the committed pages. -/
theorem Spent.evictionCounts {s s' s'' : PressureScan φ} (h : Spent true s s')
    (h' : Spent false s' s'') {requestId : Int} (hstart : s.metric = { requestId := requestId })
    {drafts committed : Nat} (hdrafts : s'.remainingBudget = s.remainingBudget - drafts)
    (hcommitted : s''.remainingBudget = s'.remainingBudget - committed) :
    EvictionCounts s.kv.bytesPerPage drafts committed s''.metric := by
  have hd := h'.drafts.trans (congrArg (· + _) h.drafts)
  have hc := h'.committed.trans (congrArg (· + _) h.committed)
  have hp := h'.pages.trans (congrArg (· + _) h.pages)
  have hb := h'.bytes.trans (congrArg (· + _) h.bytes)
  simp only [hstart, if_true, if_false, Bool.false_eq_true, add_zero, zero_add] at hd hc hp hb
  refine ⟨by omega, by omega, by omega, ?_⟩
  rw [hb, hp, h.bytesPerPage]
  ring

section
variable (kv : KVPageTable φ) (pagesPerRequest evictionBudgetPages requestSlot : Int)

/-- The pages that the second pass may evict are those of the table before the first. -/
theorem filter_isVictim_after_drafts {kv₁ : KVPageTable φ} {requestId : Int} {ts : List Int}
    (hts : ∀ i ∈ ts, (kv.entries i).isVictim requestId true = true)
    (h : ∀ i, kv₁.entries i = if i ∈ ts then (kv.entries i).evictPage else kv.entries i)
    (is : List Int) :
    is.filter (fun i => (kv₁.entries i).isVictim requestId false) =
      is.filter fun i => (kv.entries i).isVictim requestId false := by
  refine List.filter_congr fun i _ => ?_
  rw [h i]
  split
  · next hi =>
    rw [KVPageEntry.isVictim_evictPage, KVPageEntry.isVictim_false_of_isDraft
      (KVPageEntry.isDraft_of_isVictim (hts i hi))]
  · rfl

theorem not_mem_victims_of_draft {i : Int} (h : i ∈ victims kv pagesPerRequest requestSlot true) :
    i ∉ victims kv pagesPerRequest requestSlot false := by
  intro hc
  have hdraft := KVPageEntry.isDraft_of_isVictim (List.mem_filter.mp h).2
  have hvictim := (List.mem_filter.mp hc).2
  rw [KVPageEntry.isVictim_false_of_isDraft hdraft] at hvictim
  exact Bool.false_ne_true hvictim

/-- What the block of one slot does. -/
theorem pressureEvictionBlock_spec :
    (∀ i, (pressureEvictionBlock kv pagesPerRequest evictionBudgetPages
        requestSlot).kv.entries i =
      if i ∈ evictedPages kv pagesPerRequest evictionBudgetPages requestSlot then
        (kv.entries i).evictPage
      else kv.entries i) ∧
    (pressureEvictionBlock kv pagesPerRequest evictionBudgetPages requestSlot).kv.bytesPerPage =
      kv.bytesPerPage ∧
    EvictionCounts kv.bytesPerPage
      (min (max evictionBudgetPages 0).toNat (victims kv pagesPerRequest requestSlot true).length)
      (min ((max evictionBudgetPages 0).toNat -
        (victims kv pagesPerRequest requestSlot true).length)
        (victims kv pagesPerRequest requestSlot false).length)
      (pressureEvictionBlock kv pagesPerRequest evictionBudgetPages requestSlot).metric := by
  have hnd : (slotCells pagesPerRequest requestSlot).Nodup := nodup_range _ _
  let s₀ : PressureScan φ :=
    { kv := kv
      metric := { requestId := requestSlot + 1 }
      remainingBudget := evictionBudgetPages }
  let s₁ := (slotCells pagesPerRequest requestSlot).foldl (scanPage (requestSlot + 1) true) s₀
  let s₂ := (slotCells pagesPerRequest requestSlot).foldl (scanPage (requestSlot + 1) false) s₁
  have hblock : pressureEvictionBlock kv pagesPerRequest evictionBudgetPages requestSlot = s₂ := rfl
  obtain ⟨hfirst, hpaid⟩ := (isSweep_scanPage (requestSlot + 1) true).foldl hnd s₀
  obtain ⟨hsecond, hpaid'⟩ := (isSweep_scanPage (requestSlot + 1) false).foldl hnd s₁
  have hspent : Spent true s₀ s₁ := spent_foldl _ _ _ _
  have hspent' : Spent false s₁ s₂ := spent_foldl _ _ _ _
  have hunits : (max evictionBudgetPages 0).toNat = evictionBudgetPages.toNat := by omega
  have hdrafts : targets (fun _ e => e.isVictim (requestSlot + 1) true) s₀.kv.entries
      (slotCells pagesPerRequest requestSlot) s₀.remainingBudget =
      (victims kv pagesPerRequest requestSlot true).take (max evictionBudgetPages 0).toNat := by
    rw [hunits]
    rfl
  rw [hdrafts] at hfirst hpaid
  have hfirst' : ∀ i, s₁.kv.entries i =
      if i ∈ (victims kv pagesPerRequest requestSlot true).take
        (max evictionBudgetPages 0).toNat then (kv.entries i).evictPage else kv.entries i := hfirst
  have hleft : s₁.remainingBudget = evictionBudgetPages - min (max evictionBudgetPages 0).toNat
      (victims kv pagesPerRequest requestSlot true).length := by
    rw [← List.length_take]
    exact hpaid
  have hcommitted : targets (fun _ e => e.isVictim (requestSlot + 1) false) s₁.kv.entries
      (slotCells pagesPerRequest requestSlot) s₁.remainingBudget =
      (victims kv pagesPerRequest requestSlot false).take ((max evictionBudgetPages 0).toNat -
        (victims kv pagesPerRequest requestSlot true).length) := by
    have hsame := filter_isVictim_after_drafts kv
      (fun i hi => (List.mem_filter.mp (List.mem_of_mem_take hi)).2) hfirst'
      (slotCells pagesPerRequest requestSlot)
    rw [targets, hsame, hleft]
    refine congrArg (List.take · _) ?_
    omega
  rw [hcommitted] at hsecond hpaid'
  have hleft' : s₂.remainingBudget = s₁.remainingBudget -
      (min ((max evictionBudgetPages 0).toNat -
        (victims kv pagesPerRequest requestSlot true).length)
        (victims kv pagesPerRequest requestSlot false).length : Nat) := by
    rw [← List.length_take]
    exact hpaid'
  rw [hblock]
  refine ⟨fun i => ?_, hspent'.bytesPerPage.trans hspent.bytesPerPage, ?_⟩
  · rw [hsecond i, hfirst' i, evictedPages]
    simp only [List.mem_append]
    by_cases hc : i ∈ (victims kv pagesPerRequest requestSlot false).take
        ((max evictionBudgetPages 0).toNat - (victims kv pagesPerRequest requestSlot true).length)
    · have hd : i ∉ (victims kv pagesPerRequest requestSlot true).take
          (max evictionBudgetPages 0).toNat := fun hd =>
        not_mem_victims_of_draft kv _ _ (List.mem_of_mem_take hd) (List.mem_of_mem_take hc)
      simp only [hc, hd, if_true, if_false, or_true]
    · simp only [hc, if_false, or_false]
  · exact hspent.evictionCounts hspent' rfl hleft hleft'

theorem mem_slotCells_of_mem_evictedPages {i : Int}
    (hi : i ∈ evictedPages kv pagesPerRequest evictionBudgetPages requestSlot) :
    i ∈ slotCells pagesPerRequest requestSlot := by
  obtain hi | hi := List.mem_append.mp hi
  · exact (List.mem_filter.mp (List.mem_of_mem_take hi)).1
  · exact (List.mem_filter.mp (List.mem_of_mem_take hi)).1

end

/-! ## A launch -/

/-- Two scans that have the same pages before them. -/
structure SameScan (is : List Int) (s s' : PressureScan φ) : Prop where
  entries : ∀ i ∈ is, s.kv.entries i = s'.kv.entries i
  bytesPerPage : s.kv.bytesPerPage = s'.kv.bytesPerPage
  metric : s.metric = s'.metric
  remainingBudget : s.remainingBudget = s'.remainingBudget

theorem SameScan.scanPage {is : List Int} {s s' : PressureScan φ} (h : SameScan is s s')
    (requestId : Int) (wantsDraft : Bool) {i : Int} (hi : i ∈ is) :
    SameScan is (scanPage requestId wantsDraft s i) (scanPage requestId wantsDraft s' i) := by
  obtain ⟨hentries, hbytes, hmetric, hbudget⟩ := h
  have hevict : ∀ j ∈ is, (s.kv.modify i KVPageEntry.evictPage).entries j =
      (s'.kv.modify i KVPageEntry.evictPage).entries j := fun j hj => by
    rw [KVPageTable.modify_entries, KVPageTable.modify_entries, hentries j hj]
  refine ⟨fun j hj => ?_, ?_, ?_, ?_⟩
  · simp only [Device.scanPage, apply_ite (fun t : PressureScan φ => t.kv.entries j), hbudget,
      hentries i hi, hentries j hj, hevict j hj]
  · simp only [Device.scanPage, apply_ite (fun t : PressureScan φ => t.kv.bytesPerPage), hbytes,
      KVPageTable.modify, ite_self]
  · simp only [Device.scanPage, apply_ite PressureScan.metric, hmetric, hbudget, hbytes,
      hentries i hi]
  · simp only [Device.scanPage, apply_ite PressureScan.remainingBudget, hbudget, hentries i hi]

theorem SameScan.foldl {is : List Int} {s s' : PressureScan φ} (h : SameScan is s s')
    (requestId : Int) (wantsDraft : Bool) {js : List Int} (hjs : ∀ j ∈ js, j ∈ is) :
    SameScan is (js.foldl (Device.scanPage requestId wantsDraft) s)
      (js.foldl (Device.scanPage requestId wantsDraft) s') :=
  List.foldl_rel h fun _ hj _ _ hs => hs.scanPage requestId wantsDraft (hjs _ hj)

/-- Every block keeps to the pages of its slot. -/
theorem owned_pressureEvictionBlock (pagesPerRequest evictionBudgetPages : Int) :
    Owned KVPageTable.entries KVPageTable.bytesPerPage
      (fun b i => i ∈ slotCells pagesPerRequest b)
      (fun (kv : KVPageTable φ) b =>
        let s := pressureEvictionBlock kv pagesPerRequest evictionBudgetPages b
        (s.kv, s.metric)) := by
  refine ⟨slotCells_disjoint, fun kv b i hi => ?_, fun kv b => ?_, fun hbytes hsame => ?_⟩
  · refine ((pressureEvictionBlock_spec kv _ _ b).1 i).trans (if_neg fun hin => hi ?_)
    exact mem_slotCells_of_mem_evictedPages _ _ _ _ hin
  · exact (pressureEvictionBlock_spec kv _ _ b).2.1
  · next kv kv' b =>
    have hstart : SameScan (slotCells pagesPerRequest b)
        { kv := kv, metric := { requestId := b + 1 }, remainingBudget := evictionBudgetPages }
        { kv := kv', metric := { requestId := b + 1 }, remainingBudget := evictionBudgetPages } :=
      ⟨hsame, hbytes, rfl, rfl⟩
    have hend := (hstart.foldl (b + 1) true fun _ h => h).foldl (b + 1) false fun _ h => h
    exact ⟨hend.entries, hend.metric⟩

/-- What a launch leaves in the pages of a slot and in its metrics. -/
structure Evicts (kv : KVPageTable φ) (pagesPerRequest evictionBudgetPages requestSlot : Int)
    (out : KVPageTable φ × (Int → KVEvictionMetrics)) : Prop where
  evicted : ∀ i ∈ evictedPages kv pagesPerRequest evictionBudgetPages requestSlot,
    out.1.entries i = (kv.entries i).evictPage
  kept : ∀ i ∈ slotCells pagesPerRequest requestSlot,
    i ∉ evictedPages kv pagesPerRequest evictionBudgetPages requestSlot →
    out.1.entries i = kv.entries i
  counts : EvictionCounts kv.bytesPerPage
    (min (max evictionBudgetPages 0).toNat (victims kv pagesPerRequest requestSlot true).length)
    (min ((max evictionBudgetPages 0).toNat -
      (victims kv pagesPerRequest requestSlot true).length)
      (victims kv pagesPerRequest requestSlot false).length)
    (out.2 requestSlot)

theorem evicts_kvPressureEvictionKernel (kv : KVPageTable φ) {order : List Int}
    (hnd : order.Nodup) (pagesPerRequest evictionBudgetPages : Int)
    (metrics : Int → KVEvictionMetrics) {requestSlot : Int} (hslot : requestSlot ∈ order) :
    Evicts kv pagesPerRequest evictionBudgetPages requestSlot
      (kvPressureEvictionKernel kv order pagesPerRequest evictionBudgetPages metrics) := by
  obtain ⟨hcells, hresult⟩ :=
    (owned_pressureEvictionBlock pagesPerRequest evictionBudgetPages).runBlocks hnd hslot
      (kv, metrics)
  obtain ⟨hentries, -, hcounts⟩ :=
    pressureEvictionBlock_spec kv pagesPerRequest evictionBudgetPages requestSlot
  refine ⟨fun i hi => ?_, fun i hi hnot => ?_, ?_⟩
  · have hin := mem_slotCells_of_mem_evictedPages _ _ _ _ hi
    exact (hcells i hin).trans ((hentries i).trans (if_pos hi))
  · exact (hcells i hi).trans ((hentries i).trans (if_neg hnot))
  · exact hresult ▸ hcounts

/-- An evicted page is no victim of a later launch. -/
theorem Evicts.not_mem_evictedPages {kv : KVPageTable φ}
    {pagesPerRequest evictionBudgetPages requestSlot : Int}
    {out : KVPageTable φ × (Int → KVEvictionMetrics)}
    (h : Evicts kv pagesPerRequest evictionBudgetPages requestSlot out) {i : Int}
    (hi : i ∈ evictedPages kv pagesPerRequest evictionBudgetPages requestSlot)
    (evictionBudgetPages' requestSlot' : Int) :
    i ∉ evictedPages out.1 pagesPerRequest evictionBudgetPages' requestSlot' := by
  have hnot : ∀ wantsDraft, i ∉ victims out.1 pagesPerRequest requestSlot' wantsDraft := by
    intro wantsDraft hin
    have hvictim := (List.mem_filter.mp hin).2
    rw [h.evicted i hi, KVPageEntry.isVictim_evictPage] at hvictim
    exact Bool.false_ne_true hvictim
  intro hin
  obtain hin | hin := List.mem_append.mp hin
  · exact hnot true (List.mem_of_mem_take hin)
  · exact hnot false (List.mem_of_mem_take hin)

/-- A launch evicts from each slot the first drafts and then the first committed pages that its
budget reaches, and a second launch takes none of them again. -/
theorem kvPressureEvictionKernel_exact (kv : KVPageTable φ) {order : List Int}
    (hnd : order.Nodup) (pagesPerRequest evictionBudgetPages : Int)
    (metrics : Int → KVEvictionMetrics) :
    let out := kvPressureEvictionKernel kv order pagesPerRequest evictionBudgetPages metrics
    (∀ requestSlot ∈ order, Evicts kv pagesPerRequest evictionBudgetPages requestSlot out) ∧
      (∀ i, (∀ requestSlot ∈ order, i ∉ slotCells pagesPerRequest requestSlot) →
        out.1.entries i = kv.entries i) ∧
      ∀ (order' : List Int) (metrics' : Int → KVEvictionMetrics), order'.Nodup →
        let again :=
          kvPressureEvictionKernel out.1 order' pagesPerRequest evictionBudgetPages metrics'
        (∀ requestSlot ∈ order',
          Evicts out.1 pagesPerRequest evictionBudgetPages requestSlot again) ∧
        ∀ requestSlot ∈ order,
          ∀ i ∈ evictedPages kv pagesPerRequest evictionBudgetPages requestSlot,
            (∀ requestSlot', i ∉ evictedPages out.1 pagesPerRequest evictionBudgetPages
              requestSlot') ∧ again.1.entries i = out.1.entries i := by
  intro out
  have hevicts : ∀ requestSlot ∈ order,
      Evicts kv pagesPerRequest evictionBudgetPages requestSlot out := fun _ hslot =>
    evicts_kvPressureEvictionKernel kv hnd _ _ metrics hslot
  refine ⟨hevicts, fun i hi => ?_, fun order' metrics' hnd' => ⟨fun _ hslot => ?_, ?_⟩⟩
  · exact (owned_pressureEvictionBlock pagesPerRequest evictionBudgetPages).runBlocks_frame hi
      (kv, metrics)
  · exact evicts_kvPressureEvictionKernel out.1 hnd' _ _ metrics' hslot
  · intro requestSlot hslot i hi
    have hnot := fun slot' =>
      (hevicts requestSlot hslot).not_mem_evictedPages hi evictionBudgetPages slot'
    have howned := owned_pressureEvictionBlock (φ := φ) pagesPerRequest evictionBudgetPages
    refine ⟨hnot, ?_⟩
    by_cases hex : ∃ slot' ∈ order', i ∈ slotCells pagesPerRequest slot'
    · obtain ⟨slot', hslot', hin⟩ := hex
      exact (evicts_kvPressureEvictionKernel out.1 hnd' _ _ metrics' hslot').kept i hin (hnot slot')
    · exact howned.runBlocks_frame (fun slot' hslot' hin => hex ⟨slot', hslot', hin⟩)
        (out.1, metrics')

/-- Two requests of the host with a budget of three pages each. -/
theorem kvPressureEvictionKernel_exact_host :
    let kv : KVPageTable ℚ := pressureTable 2
    let out := kvPressureEvictionKernel kv [1, 0] 6 3 fun _ => {}
    evictedPages kv 6 3 1 = [8, 9, 11] ∧ Evicts kv 6 3 1 out ∧ Evicts kv 6 3 0 out := by
  intro kv out
  obtain ⟨hevicts, -⟩ := @kvPressureEvictionKernel_exact ℚ kv [1, 0] (by decide) 6 3 fun _ => {}
  exact ⟨by decide +kernel, hevicts 1 (by decide), hevicts 0 (by decide)⟩

end ResidentInference.Device

import ResidentInference.Calls
import ResidentInference.Device.Stages

/-! The life of a KV page on the device: the eviction under pressure, and whether the flags of a
page keep up with its state through the helpers, the prefill and the evictions. -/
namespace ResidentInference.Device
open Loops
variable {φ : Type}

/-! ## Eviction under pressure -/

structure KVEvictionMetrics where
  requestId : Int := 0
  pagesScanned : Int := 0
  pagesEvicted : Int := 0
  draftPagesEvicted : Int := 0
  committedPagesEvicted : Int := 0
  pinnedPagesSkipped : Int := 0
  selectedPagesSkipped : Int := 0
  reclaimedBytes : Int := 0
  deriving DecidableEq, Repr

/-- What a block changes while it scans its pages. -/
structure PressureScan (φ : Type) where
  kv : KVPageTable φ
  metric : KVEvictionMetrics
  remainingBudget : Int

/-- The page after its eviction. -/
def KVPageEntry.evictPage (e : KVPageEntry φ) : KVPageEntry φ :=
  (((e.markPageEvictable.clearFlag .resident).clearFlag .draft).clearFlag
    .committed).clearPageSelected

/-- One page of a pass; the passes look for drafts first. Without budget the loops are over. -/
def scanPage (requestId : Int) (wantsDraft : Bool) (s : PressureScan φ) (idx : Int) :
    PressureScan φ :=
  if s.remainingBudget ≤ 0 then s
  else
    let entry := s.kv.entries idx
    let metric := { s.metric with pagesScanned := s.metric.pagesScanned + 1 }
    if entry.requestId ≠ requestId then { s with metric := metric }
    else if !entry.hasFlag .resident then { s with metric := metric }
    else if entry.hasFlag .pinned then
      { s with metric := { metric with pinnedPagesSkipped := metric.pinnedPagesSkipped + 1 } }
    else if entry.hasFlag .selected then
      { s with metric := { metric with selectedPagesSkipped := metric.selectedPagesSkipped + 1 } }
    else
      let isDraft := entry.hasFlag .draft || decide (entry.state = .draft)
      let isCommitted := entry.hasFlag .committed || decide (entry.state = .committed)
      if wantsDraft && !isDraft then { s with metric := metric }
      else if !wantsDraft && (isDraft || !isCommitted) then { s with metric := metric }
      else
        { kv := s.kv.modify idx KVPageEntry.evictPage
          metric := { metric with
            pagesEvicted := metric.pagesEvicted + 1
            reclaimedBytes := metric.reclaimedBytes + s.kv.bytesPerPage
            draftPagesEvicted :=
              if wantsDraft then metric.draftPagesEvicted + 1 else metric.draftPagesEvicted
            committedPagesEvicted :=
              if wantsDraft then metric.committedPagesEvicted
              else metric.committedPagesEvicted + 1 }
          remainingBudget := s.remainingBudget - 1 }

/-- The two passes of the block of one request. -/
def pressureEvictionBlock (kv : KVPageTable φ) (pagesPerRequest evictionBudgetPages
    requestSlot : Int) : PressureScan φ :=
  let requestId := requestSlot + 1
  let base := requestSlot * pagesPerRequest
  [true, false].foldl (fun s wantsDraft =>
      (Int.range base (base + pagesPerRequest)).foldl (scanPage requestId wantsDraft) s)
    { kv := kv, metric := { requestId := requestId }, remainingBudget := evictionBudgetPages }

/-- The blocks one after another, in any order: each has pages of its own. -/
def kvPressureEvictionKernel (kv : KVPageTable φ) (order : List Int)
    (pagesPerRequest evictionBudgetPages : Int) (metrics : Int → KVEvictionMetrics) :
    KVPageTable φ × (Int → KVEvictionMetrics) :=
  order.foldl (fun out requestSlot =>
    let s := pressureEvictionBlock out.1 pagesPerRequest evictionBudgetPages requestSlot
    (s.kv, Function.update out.2 requestSlot s.metric)) (kv, metrics)

/-! ## Sequences of operations -/

/-- One call of a helper, a stage or a kernel on any region. -/
inductive KVPageOp (φ : Type) where
  | markDraft (offset numPages : Int)
  | commitDraft (offset numPages : Int)
  | discardRejected (offset numPages : Int)
  | touch (offset numPages : Int)
  | prefill (req : RequestDescriptor φ)
  | pressureEviction (order : List Int) (pagesPerRequest evictionBudgetPages : Int)

def KVPageOp.apply (kv : KVPageTable φ) : KVPageOp φ → KVPageTable φ
  | .markDraft offset numPages => markDraftKvRegion kv offset numPages
  | .commitDraft offset numPages => commitDraftKvRegion kv offset numPages
  | .discardRejected offset numPages => discardRejectedKvRegion kv offset numPages
  | .touch offset numPages => touchKvPages kv offset numPages
  | .prefill req => (stagePrefill req kv).2
  | .pressureEviction order pagesPerRequest evictionBudgetPages =>
    (kvPressureEvictionKernel kv order pagesPerRequest evictionBudgetPages fun _ => {}).1

/-! ## The flags of a page -/

namespace KVPageEntry

/-- The flags of the page say what its state says. -/
structure Coherent (e : KVPageEntry φ) : Prop where
  committed : e.state = .committed → e.hasFlag .committed = true ∧ e.hasFlag .resident = true ∧
    e.hasFlag .draft = false ∧ e.hasFlag .evictable = false
  draft : e.state = .draft → e.hasFlag .draft = true ∧ e.hasFlag .committed = false ∧
    e.hasFlag .evictable = false
  pinned : e.state = .pinned → e.hasFlag .pinned = true ∧ e.hasFlag .evictable = false
  evictable : e.state = .evictable → e.hasFlag .evictable = true ∧ e.hasFlag .pinned = false

/-- A free page cannot be evicted. -/
def FreeClear (e : KVPageEntry φ) : Prop := e.state = .free → e.hasFlag .evictable = false

variable {e : KVPageEntry φ}

@[simp] theorem hasFlag_setFlag (e : KVPageEntry φ) (f g : KVPageFlag) :
    (e.setFlag f).hasFlag g = (e.hasFlag g || decide (f = g)) := by
  have hshift : f.shift = g.shift ↔ f = g := by cases f <;> cases g <;> decide
  simp only [setFlag, hasFlag, FlagWord.has_set, hshift]

@[simp] theorem hasFlag_clearFlag (e : KVPageEntry φ) (f g : KVPageFlag) :
    (e.clearFlag f).hasFlag g = (e.hasFlag g && !decide (f = g)) := by
  have hshift : f.shift = g.shift ↔ f = g := by cases f <;> cases g <;> decide
  simp only [clearFlag, hasFlag, FlagWord.has_clear, hshift]

@[simp] theorem hasFlag_setState (e : KVPageEntry φ) (s : KVPageState) (f : KVPageFlag) :
    (e.setState s).hasFlag f = e.hasFlag f := rfl

@[simp] theorem state_setFlag (e : KVPageEntry φ) (f : KVPageFlag) :
    (e.setFlag f).state = e.state := rfl

@[simp] theorem state_clearFlag (e : KVPageEntry φ) (f : KVPageFlag) :
    (e.clearFlag f).state = e.state := rfl

@[simp] theorem state_setState (e : KVPageEntry φ) (s : KVPageState) :
    (e.setState s).state = s := rfl

/-- Only the state and the flags count. -/
theorem coherent_congr {e' : KVPageEntry φ} (hs : e'.state = e.state) (hf : e'.flags = e.flags) :
    e'.Coherent ↔ e.Coherent := by
  have hflag (f : KVPageFlag) : e'.hasFlag f = e.hasFlag f := by simp only [hasFlag, hf]
  constructor
  · rintro ⟨hc, hd, hp, he⟩
    simp only [hs, hflag] at hc hd hp he
    exact ⟨hc, hd, hp, he⟩
  · rintro ⟨hc, hd, hp, he⟩
    constructor <;> simpa only [hs, hflag]

/-- The evictable flag of a coherent page is that of its state. -/
theorem Coherent.evictable_iff (h : e.Coherent) (hf : e.FreeClear) :
    e.hasFlag .evictable = true ↔ e.state = .evictable := by
  refine ⟨fun hflag => ?_, fun hs => (h.evictable hs).1⟩
  cases hs : e.state with
  | free => exact absurd hflag (by simp [hf hs])
  | draft => exact absurd hflag (by simp [(h.draft hs).2.2])
  | committed => exact absurd hflag (by simp [(h.committed hs).2.2.2])
  | evictable => rfl
  | pinned => exact absurd hflag (by simp [(h.pinned hs).2])

/-- A commit leaves the evictable flag as it is, and so does a prefill. -/
theorem coherent_markPageCommitted (e : KVPageEntry φ) :
    e.markPageCommitted.Coherent ↔ e.hasFlag .evictable = false := by
  constructor
  · intro h
    simpa [markPageCommitted] using (h.committed (by simp [markPageCommitted])).2.2.2
  · intro h
    constructor <;> simp [markPageCommitted, h]

theorem coherent_markPagePinned (e : KVPageEntry φ) :
    e.markPageCommitted.markPagePinned.markPageResident.Coherent ↔
      e.hasFlag .evictable = false := by
  constructor
  · intro h
    have hpinned := (h.pinned (by simp [markPageResident, markPagePinned])).2
    simpa [markPageCommitted, markPagePinned, markPageResident] using hpinned
  · intro h
    constructor <;> simp [markPageCommitted, markPagePinned, markPageResident, h]

theorem Coherent.markPageDraft (hf : e.FreeClear) (hs : e.state = .free) :
    e.markPageDraft.Coherent := by
  have hclear := hf hs
  constructor <;> simp [KVPageEntry.markPageDraft, hclear]

theorem coherent_markPageEvictable (e : KVPageEntry φ) : e.markPageEvictable.Coherent := by
  constructor <;> simp [markPageEvictable]

theorem coherent_evictPage (e : KVPageEntry φ) : e.evictPage.Coherent := by
  constructor <;> simp [evictPage, markPageEvictable, clearPageSelected, hasFlag, clearFlag,
    setFlag, setState, KVPageFlag.shift]

/-- A touched page loses the flag that its state calls for. -/
theorem Coherent.not_touched (h : e.Coherent) (hf : e.FreeClear)
    (hflag : e.hasFlag .evictable = true) :
    ¬ (e.clearFlag .evictable).markPageResident.Coherent := by
  intro h'
  have hs := (h.evictable_iff hf).mp hflag
  have hnew := (h'.evictable (by simpa [markPageResident] using hs)).1
  simp [markPageResident] at hnew

end KVPageEntry

/-! ## The pages of a region -/

/-- The page lies in the region. -/
def InRegion (offset numPages j : Int) : Prop := offset ≤ j ∧ j < offset + numPages

section
variable {kv : KVPageTable φ} {offset numPages : Int}

/-- A fresh region is free and has no flags. -/
theorem entries_allocateFakeKvPagesForRequest (kv : KVPageTable φ)
    (requestId startToken pageSize : Int) {j : Int} (hj : InRegion offset numPages j) :
    let entry :=
      (allocateFakeKvPagesForRequest kv offset numPages requestId startToken pageSize).entries j
    entry.state = .free ∧ entry.flags = 0 := by
  have hloop : ∀ (is : List Int) (kv : KVPageTable φ),
      ((kv.entries j).state = .free ∧ (kv.entries j).flags = 0) ∨ (∃ i ∈ is, j = offset + i) →
      let entry := (is.foldl (fun kv i => kv.modify (offset + i) fun entry =>
        { entry with
          pageId := offset + i
          requestId := requestId
          startToken := startToken + i * pageSize
          tokenCount := 0
          state := .free
          flags := 0 }) kv).entries j
      entry.state = .free ∧ entry.flags = 0 := by
    intro is
    induction is with
    | nil =>
      rintro kv (h | ⟨i, hi, _⟩)
      · exact h
      · cases hi
    | cons i is ih =>
      intro kv h
      refine ih _ ?_
      rw [KVPageTable.modify_entries]
      by_cases hi : j = offset + i
      · rw [if_pos hi]
        exact Or.inl ⟨rfl, rfl⟩
      · rw [if_neg hi]
        refine h.imp id ?_
        rintro ⟨k, hk, heq⟩
        exact ⟨k, (List.mem_cons.mp hk).resolve_left fun hki => hi (hki ▸ heq), heq⟩
  refine hloop _ kv (Or.inr ⟨j - offset, Int.mem_range_iff.mpr ?_, by omega⟩)
  have := hj.1
  have := hj.2
  omega

/-- A loop over a range of pages acts on each of them. -/
theorem entries_modifyAll_range (kv : KVPageTable φ) (start stop : Int)
    (f : KVPageEntry φ → KVPageEntry φ) (j : Int) :
    (kv.modifyAll (Int.range start stop) f).entries j =
      if start ≤ j ∧ j < stop then f (kv.entries j) else kv.entries j := by
  rw [KVPageTable.modifyAll_entries kv f (nodup_range start stop)]
  simp only [Int.mem_range_iff]

/-- A loop keeps the pages of a region coherent exactly when each page that it meets allows it. -/
theorem coherent_modifyAll_iff (ok : KVPageEntry φ → Prop) {f : KVPageEntry φ → KVPageEntry φ}
    (h : ∀ j, InRegion offset numPages j → (kv.entries j).Coherent)
    (hf : ∀ j, InRegion offset numPages j → ((f (kv.entries j)).Coherent ↔ ok (kv.entries j)))
    (start count : Int) :
    (∀ j, InRegion offset numPages j →
        ((kv.modifyAll (Int.range start (start + count)) f).entries j).Coherent) ↔
      ∀ j, InRegion offset numPages j → InRegion start count j → ok (kv.entries j) := by
  refine forall_congr' fun j => forall_congr' fun hj => ?_
  rw [entries_modifyAll_range]
  by_cases hin : start ≤ j ∧ j < start + count
  · rw [if_pos hin]
    exact (hf j hj).trans ⟨fun hok _ => hok, fun hok => hok hin⟩
  · rw [if_neg hin]
    exact iff_of_true (h j hj) fun hno => absurd hno hin

theorem freeClear_modifyAll {f : KVPageEntry φ → KVPageEntry φ}
    (h : ∀ j, InRegion offset numPages j → (kv.entries j).FreeClear)
    (hf : ∀ e : KVPageEntry φ, e.FreeClear → (f e).FreeClear) (start stop : Int) {j : Int}
    (hj : InRegion offset numPages j) :
    ((kv.modifyAll (Int.range start stop) f).entries j).FreeClear := by
  rw [entries_modifyAll_range]
  split
  · exact hf _ (h j hj)
  · exact h j hj

end

/-- The scan of a page leaves the table alone or evicts that page. -/
theorem scanPage_kv (requestId : Int) (wantsDraft : Bool) (s : PressureScan φ) (idx : Int) :
    (scanPage requestId wantsDraft s idx).kv = s.kv ∨
      (scanPage requestId wantsDraft s idx).kv = s.kv.modify idx KVPageEntry.evictPage := by
  simp only [scanPage, apply_ite PressureScan.kv]
  split_ifs <;> simp only [true_or, or_true]

/-- What every eviction of a page keeps holds of every page after the kernel. -/
theorem kvPressureEvictionKernel_keeps {P : KVPageEntry φ → Prop} (hP : ∀ e, P e → P e.evictPage)
    {kv : KVPageTable φ} {j : Int} (h : P (kv.entries j)) (order : List Int)
    (pagesPerRequest evictionBudgetPages : Int) (metrics : Int → KVEvictionMetrics) :
    P ((kvPressureEvictionKernel kv order pagesPerRequest evictionBudgetPages
      metrics).1.entries j) := by
  have hpage (requestId : Int) (wantsDraft : Bool) (s : PressureScan φ) (idx : Int)
      (hs : P (s.kv.entries j)) : P ((scanPage requestId wantsDraft s idx).kv.entries j) := by
    obtain hkv | hkv := scanPage_kv requestId wantsDraft s idx
    · rw [hkv]
      exact hs
    · rw [hkv, KVPageTable.modify_entries]
      split
      · exact hP _ hs
      · exact hs
  have hpass (requestId : Int) (wantsDraft : Bool) (is : List Int) (s : PressureScan φ)
      (hs : P (s.kv.entries j)) :
      P ((is.foldl (scanPage requestId wantsDraft) s).kv.entries j) := by
    induction is generalizing s with
    | nil => exact hs
    | cons i is ih => exact ih _ (hpage requestId wantsDraft s i hs)
  have hblock (kv : KVPageTable φ) (requestSlot : Int) (hs : P (kv.entries j)) :
      P ((pressureEvictionBlock kv pagesPerRequest evictionBudgetPages
        requestSlot).kv.entries j) :=
    hpass _ false _ _ (hpass _ true _ _ hs)
  unfold kvPressureEvictionKernel
  induction order generalizing kv metrics with
  | nil => exact h
  | cons requestSlot order ih => exact ih (hblock kv requestSlot h) _

/-- The operation does not meet a page of the region with the evictable flag, unless it discards
or evicts. -/
def KVPageOp.KeepsFlags (offset numPages : Int) (kv : KVPageTable φ) : KVPageOp φ → Prop
  | .commitDraft start count | .touch start count =>
    ∀ j, InRegion offset numPages j → InRegion start count j →
      (kv.entries j).hasFlag .evictable = false
  | .prefill req => req.state = .prefillReady →
    ∀ j, InRegion offset numPages j → InRegion req.kvTableOffset req.kvNumPages j →
      (kv.entries j).hasFlag .evictable = false
  | .markDraft _ _ | .discardRejected _ _ | .pressureEviction _ _ _ => True

section
variable {kv : KVPageTable φ} {offset numPages : Int}

theorem freeClear_of_not_free {e : KVPageEntry φ} (h : e.state ≠ .free) : e.FreeClear :=
  fun hs => absurd hs h

theorem freeClear_prefill (e : KVPageEntry φ) (requestId : Int) : KVPageEntry.FreeClear
    { e.markPageCommitted.markPagePinned.markPageResident with requestId := requestId } := by
  refine freeClear_of_not_free ?_
  simp [KVPageEntry.markPageResident, KVPageEntry.markPagePinned]

/-- An operation never gives a free page the evictable flag. -/
theorem freeClear_apply (h : ∀ j, InRegion offset numPages j → (kv.entries j).FreeClear)
    (op : KVPageOp φ) {j : Int} (hj : InRegion offset numPages j) :
    ((op.apply kv).entries j).FreeClear := by
  cases op with
  | markDraft start count =>
    refine freeClear_modifyAll h (fun e he => ?_) _ _ hj
    split
    · exact he
    · exact freeClear_of_not_free nofun
  | commitDraft start count =>
    refine freeClear_modifyAll h (fun e _ => freeClear_of_not_free ?_) _ _ hj
    simp [KVPageEntry.markPageCommitted]
  | discardRejected start count =>
    refine freeClear_modifyAll h (fun e he => ?_) _ _ hj
    split
    · exact freeClear_of_not_free nofun
    · exact he
  | touch start count =>
    refine freeClear_modifyAll h (fun e he => ?_) _ _ hj
    split
    · exact fun _ => by simp [KVPageEntry.markPageResident]
    · exact he
  | prefill req =>
    simp only [KVPageOp.apply, stagePrefill]
    split
    · dsimp only
      split
      · exact freeClear_modifyAll h (fun e _ => freeClear_prefill e _) _ _ hj
      · exact h j hj
    · exact h j hj
  | pressureEviction order pagesPerRequest evictionBudgetPages =>
    exact kvPressureEvictionKernel_keeps (fun e _ => freeClear_of_not_free nofun) (h j hj) _ _ _ _

/-- An operation keeps the pages of the region coherent exactly when it meets none with the
evictable flag that it commits, fills or touches. -/
theorem coherent_apply_iff (h : ∀ j, InRegion offset numPages j → (kv.entries j).Coherent)
    (hf : ∀ j, InRegion offset numPages j → (kv.entries j).FreeClear) (op : KVPageOp φ) :
    (∀ j, InRegion offset numPages j → ((op.apply kv).entries j).Coherent) ↔
      op.KeepsFlags offset numPages kv := by
  cases op with
  | markDraft start count =>
    refine (coherent_modifyAll_iff (fun _ => True) h (fun j hj => ?_) start count).trans
      (iff_of_true (fun _ _ _ => trivial) trivial)
    refine iff_of_true ?_ trivial
    split
    · exact h j hj
    · next hs => exact KVPageEntry.Coherent.markPageDraft (hf j hj) (not_not.mp hs)
  | commitDraft start count =>
    exact coherent_modifyAll_iff (fun e => e.hasFlag .evictable = false) h
      (fun j _ => KVPageEntry.coherent_markPageCommitted (kv.entries j)) start count
  | discardRejected start count =>
    refine (coherent_modifyAll_iff (fun _ => True) h (fun j hj => ?_) start count).trans
      (iff_of_true (fun _ _ _ => trivial) trivial)
    refine iff_of_true ?_ trivial
    split
    · exact KVPageEntry.coherent_markPageEvictable _
    · exact h j hj
  | touch start count =>
    refine coherent_modifyAll_iff (fun e => e.hasFlag .evictable = false) h (fun j hj => ?_)
      start count
    split
    · next hflag =>
      refine iff_of_false ((h j hj).not_touched (hf j hj) hflag) ?_
      rw [hflag]
      decide
    · next hflag => exact iff_of_true (h j hj) (eq_false_of_ne_true hflag)
  | prefill req =>
    simp only [KVPageOp.apply, stagePrefill, KVPageOp.KeepsFlags]
    by_cases hs : req.state = .prefillReady
    · rw [if_pos hs, forall_prop_of_true hs]
      dsimp only
      by_cases hn : req.kvNumPages > 0
      · rw [if_pos (by exact hn)]
        refine coherent_modifyAll_iff (fun e => e.hasFlag .evictable = false) h (fun j _ => ?_)
          req.kvTableOffset req.kvNumPages
        have hpinned := KVPageEntry.coherent_markPagePinned (kv.entries j)
        refine Iff.trans (KVPageEntry.coherent_congr ?_ ?_) hpinned
        · rfl
        · rfl
      · rw [if_neg (by exact hn)]
        refine iff_of_true h fun j _ hj => ?_
        have := hj.1
        have := hj.2
        omega
    · rw [if_neg hs]
      exact iff_of_true h fun hno => absurd hno hs
  | pressureEviction order pagesPerRequest evictionBudgetPages =>
    exact iff_of_true (fun j hj => kvPressureEvictionKernel_keeps
      (fun e _ => KVPageEntry.coherent_evictPage e) (h j hj) _ _ _ _) trivial

end

/-- The operation returns that table. -/
def KVPageOp.Returns (kv : KVPageTable φ) (op : KVPageOp φ) (kv' : KVPageTable φ) : Prop :=
  kv' = op.apply kv

/-- The pages of a fresh region stay coherent through a sequence of operations exactly when none of
these commits, fills or touches a page that has the evictable flag. -/
theorem coherent_throughout_iff (kv : KVPageTable φ)
    (offset numPages requestId startToken pageSize : Int) (ops : List (KVPageOp φ)) :
    let kv₀ := allocateFakeKvPagesForRequest kv offset numPages requestId startToken pageSize
    Calls.Throughout KVPageOp.Returns
        (fun _ kv => ∀ j, InRegion offset numPages j → (kv.entries j).Coherent) kv₀ ops ↔
      Calls.EachCall KVPageOp.Returns (fun kv op => op.KeepsFlags offset numPages kv) kv₀ ops := by
  intro kv₀
  refine Calls.throughout_iff_eachCall
    (I := fun _ kv => ∀ j, InRegion offset numPages j → (kv.entries j).FreeClear)
    (fun j hj => ?_) (fun j hj => ?_) fun made op u u' _ hf h hs => ?_
  · obtain ⟨_, hflags⟩ :=
      entries_allocateFakeKvPagesForRequest kv requestId startToken pageSize hj
    intro _
    simp only [KVPageEntry.hasFlag, kv₀, hflags]
    decide
  · obtain ⟨hstate, _⟩ :=
      entries_allocateFakeKvPagesForRequest kv requestId startToken pageSize hj
    constructor <;> simp [kv₀, hstate]
  · cases hs
    exact ⟨coherent_apply_iff h hf op, fun _ j hj => freeClear_apply hf op hj⟩

/-- A draft that is discarded and committed after all keeps the evictable flag. -/
theorem discarded_page_committed_evictable :
    ¬ ∀ (kv : KVPageTable ℚ) (offset numPages requestId startToken pageSize : Int)
      (ops : List (KVPageOp ℚ)) (j : Int), InRegion offset numPages j →
      ((ops.foldl KVPageOp.apply (allocateFakeKvPagesForRequest kv offset numPages requestId
        startToken pageSize)).entries j).Coherent := by
  intro h
  let blank : KVPageTable ℚ :=
    { entries := fun i =>
        { pageId := i, requestId := 0, layerId := 0, startToken := 0, tokenCount := 0
          state := .free, flags := 0, score := 0, selected := 0, lastSelectedStep := -1
          sparseRank := -1 }
      numEntries := 1
      pageSizeTokens := 4
      bytesPerPage := 64 }
  have hpage := h blank 0 1 1 0 4 [.markDraft 0 1, .discardRejected 0 1, .commitDraft 0 1] 0
    (by unfold InRegion; decide)
  have hclear := (hpage.committed (by decide +kernel)).2.2.2
  revert hclear
  decide +kernel

end ResidentInference.Device

import ResidentInference.Device.MegakernelBlocks
import ResidentInference.Device.PageLifecycle
import ResidentInference.Device.Selection

/-! Whether the committed pages of a request cover its decoded tokens. A commit starts at the first
page of the request each time, while the decode position goes on from where it was. -/
namespace ResidentInference.Device
open Interleaving
variable {φ : Type}

/-! ## What a commit does to the pages -/

theorem coveredPages_eq_min (pageSizeTokens totalPages accepted : Int) :
    coveredPages pageSizeTokens totalPages accepted =
      min totalPages ((accepted + pageSizeTokens - 1).tdiv pageSizeTokens) := by
  simp only [coveredPages]
  split <;> omega

theorem coveredPages_le (pageSizeTokens totalPages accepted : Int) :
    coveredPages pageSizeTokens totalPages accepted ≤ totalPages := by
  rw [coveredPages_eq_min]
  exact min_le_left _ _

/-- No tokens cover no page. -/
theorem coveredPages_zero {pageSizeTokens : Int} (hps : 1 ≤ pageSizeTokens) (totalPages : Int) :
    coveredPages pageSizeTokens totalPages 0 ≤ 0 := by
  have hnone : (0 + pageSizeTokens - 1).tdiv pageSizeTokens = 0 :=
    Int.tdiv_eq_zero_of_lt (by omega) (by omega)
  rw [coveredPages_eq_min, hnone]
  exact min_le_right _ _

theorem tdiv_pages_nonneg {pageSizeTokens accepted : Int} (hps : 1 ≤ pageSizeTokens)
    (ha : 0 ≤ accepted) : 0 ≤ (accepted + pageSizeTokens - 1).tdiv pageSizeTokens :=
  Int.tdiv_nonneg (by omega) (by omega)

theorem coveredPages_nonneg {pageSizeTokens totalPages accepted : Int} (hps : 1 ≤ pageSizeTokens)
    (ht : 0 ≤ totalPages) (ha : 0 ≤ accepted) :
    0 ≤ coveredPages pageSizeTokens totalPages accepted := by
  rw [coveredPages_eq_min]
  exact le_min ht (tdiv_pages_nonneg hps ha)

/-- More tokens cover more pages. -/
theorem coveredPages_mono {pageSizeTokens m k : Int} (hps : 1 ≤ pageSizeTokens) (hm : 0 ≤ m)
    (h : m ≤ k) (totalPages : Int) :
    coveredPages pageSizeTokens totalPages m ≤ coveredPages pageSizeTokens totalPages k := by
  rw [coveredPages_eq_min, coveredPages_eq_min, Int.tdiv_eq_ediv_of_nonneg (by omega),
    Int.tdiv_eq_ediv_of_nonneg (by omega)]
  exact min_le_min le_rfl (Int.ediv_le_ediv (by omega) (by omega))

/-- After a commit a page is committed if the accepted tokens cover it or it was so before. -/
theorem committed_commitKvPages_iff {kv : KVPageTable φ} (hps : 1 ≤ kv.pageSizeTokens)
    {totalPages accepted : Int} (ht : 0 ≤ totalPages) (ha : 0 ≤ accepted) (offset j : Int) :
    ((commitKvPages kv offset totalPages accepted).entries j).state = .committed ↔
      InRegion offset (coveredPages kv.pageSizeTokens totalPages accepted) j ∨
        (kv.entries j).state = .committed := by
  have hnonneg := coveredPages_nonneg hps ht ha
  rw [commitKvPages_eq, commitAndReleasePages]
  generalize coveredPages kv.pageSizeTokens totalPages accepted = covered at hnonneg ⊢
  have hcommit : ((commitDraftKvRegion kv offset covered).entries j).state = .committed ↔
      InRegion offset covered j ∨ (kv.entries j).state = .committed := by
    rw [commitDraftKvRegion, entries_modifyAll_range]
    split
    · next hin => exact iff_of_true (by simp [KVPageEntry.markPageCommitted]) (Or.inl hin)
    · next hout => exact ⟨Or.inr, fun h => h.resolve_left hout⟩
  split
  · rw [discardRejectedKvRegion, entries_modifyAll_range, ← hcommit]
    split
    · split
      · next hdraft =>
        rw [hdraft]
        exact iff_of_false (by simp [KVPageEntry.markPageEvictable]) (by decide)
      · exact Iff.rfl
    · exact Iff.rfl
  · exact hcommit

theorem committed_stageCommit_iff {req : RequestDescriptor φ} {kv : KVPageTable φ}
    (hs : req.state = .commitReady) (hps : 1 ≤ kv.pageSizeTokens) (ha : 0 ≤ req.acceptedPrefixLen)
    (j : Int) :
    ((stageCommit req kv).2.entries j).state = .committed ↔
      InRegion req.kvTableOffset
          (coveredPages kv.pageSizeTokens req.kvNumPages req.acceptedPrefixLen) j ∨
        (kv.entries j).state = .committed := by
  have hnothing (hle : coveredPages kv.pageSizeTokens req.kvNumPages req.acceptedPrefixLen ≤ 0) :
      (kv.entries j).state = .committed ↔ InRegion req.kvTableOffset
          (coveredPages kv.pageSizeTokens req.kvNumPages req.acceptedPrefixLen) j ∨
        (kv.entries j).state = .committed := by
    refine ⟨Or.inr, fun h => h.resolve_left fun hin => ?_⟩
    have := hin.1
    have := hin.2
    omega
  simp only [stageCommit, hs, if_true]
  by_cases h0 : req.acceptedPrefixLen = 0
  · rw [if_pos h0]
    refine hnothing ?_
    rw [h0]
    exact coveredPages_zero hps _
  · rw [if_neg h0]
    dsimp only
    by_cases hn : req.kvNumPages > 0
    · rw [if_pos (by exact hn)]
      exact committed_commitKvPages_iff hps (by exact hn.le) ha req.kvTableOffset j
    · rw [if_neg (by exact hn)]
      exact hnothing ((coveredPages_le _ _ _).trans (not_lt.mp hn))

/-- What a commit does to the request. -/
theorem stageCommit_req {req : RequestDescriptor φ} (hs : req.state = .commitReady)
    (ha : 0 ≤ req.acceptedPrefixLen) (kv : KVPageTable φ) :
    (stageCommit req kv).1.decodePos = req.decodePos + max 1 req.acceptedPrefixLen ∧
      (stageCommit req kv).1.kvNumPages = req.kvNumPages ∧
      (stageCommit req kv).1.kvTableOffset = req.kvTableOffset := by
  simp only [stageCommit, hs, if_true]
  by_cases h0 : req.acceptedPrefixLen = 0
  · rw [if_pos h0, h0]
    simp only [RequestDescriptor.settleToken, RequestDescriptor.settle]
    split
    · exact ⟨rfl, rfl, rfl⟩
    · split <;> exact ⟨rfl, rfl, rfl⟩
  · have hmax : max 1 req.acceptedPrefixLen = req.acceptedPrefixLen := by omega
    rw [if_neg h0, hmax]
    simp only [RequestDescriptor.settle]
    split <;> exact ⟨rfl, rfl, rfl⟩

theorem stageCommit_pageSizeTokens (req : RequestDescriptor φ) (kv : KVPageTable φ) :
    (stageCommit req kv).2.pageSizeTokens = kv.pageSizeTokens := by
  have hcommit (offset total accepted : Int) :
      (commitKvPages kv offset total accepted).pageSizeTokens = kv.pageSizeTokens := by
    rw [commitKvPages_eq, commitAndReleasePages]
    split <;> simp [commitDraftKvRegion, discardRejectedKvRegion]
  simp only [stageCommit]
  split
  · split
    · rfl
    · dsimp only
      split
      · exact hcommit _ _ _
      · rfl
  · rfl

/-! ## Coverage of the decoded tokens -/

namespace RequestDescriptor

/-- The pages of the request that its decode position covers are committed. -/
def PagesCommitted (req : RequestDescriptor φ) (kv : KVPageTable φ) : Prop :=
  ∀ i, 0 ≤ i → i < coveredPages kv.pageSizeTokens req.kvNumPages req.decodePos →
    (kv.entries (req.kvTableOffset + i)).state = .committed

/-- No other page of the request is committed. -/
def OnlyPagesCommitted (req : RequestDescriptor φ) (kv : KVPageTable φ) : Prop :=
  ∀ i, 0 ≤ i → i < req.kvNumPages → (kv.entries (req.kvTableOffset + i)).state = .committed →
    i < coveredPages kv.pageSizeTokens req.kvNumPages req.decodePos

/-- The decode position covers no more pages after the commit than it covers before or than the
accepted tokens cover alone. -/
def CommitCovers (req : RequestDescriptor φ) (pageSizeTokens : Int) : Prop :=
  coveredPages pageSizeTokens req.kvNumPages (req.decodePos + max 1 req.acceptedPrefixLen) ≤
    max (coveredPages pageSizeTokens req.kvNumPages req.decodePos)
      (coveredPages pageSizeTokens req.kvNumPages req.acceptedPrefixLen)

instance (req : RequestDescriptor φ) (pageSizeTokens : Int) :
    Decidable (req.CommitCovers pageSizeTokens) :=
  inferInstanceAs (Decidable (_ ≤ _))

end RequestDescriptor

/-- What the pages below a position need, where those below two others have it and no more. -/
theorem forall_covered_iff {pageSizeTokens m k a : Int} (hps : 1 ≤ pageSizeTokens) (hm : 0 ≤ m)
    (ha : 0 ≤ a) (totalPages : Int) :
    (∀ i, 0 ≤ i → i < coveredPages pageSizeTokens totalPages k →
        i < coveredPages pageSizeTokens totalPages a ∨
          i < coveredPages pageSizeTokens totalPages m) ↔
      coveredPages pageSizeTokens totalPages k ≤
        max (coveredPages pageSizeTokens totalPages m)
          (coveredPages pageSizeTokens totalPages a) := by
  constructor
  · intro h
    have hm' := tdiv_pages_nonneg hps hm
    have ha' := tdiv_pages_nonneg hps ha
    have hlast := h (max (coveredPages pageSizeTokens totalPages m)
      (coveredPages pageSizeTokens totalPages a))
    simp only [coveredPages_eq_min] at hlast ⊢
    omega
  · intro h i _ hi
    omega

/-- A commit keeps the coverage exactly when the accepted tokens cover the pages that the position
enters. -/
theorem pagesCommitted_stageCommit_iff {req : RequestDescriptor φ} {kv : KVPageTable φ}
    (hs : req.state = .commitReady) (hps : 1 ≤ kv.pageSizeTokens) (hd : 0 ≤ req.decodePos)
    (ha : 0 ≤ req.acceptedPrefixLen) (h : req.PagesCommitted kv) (hno : req.OnlyPagesCommitted kv) :
    (stageCommit req kv).1.PagesCommitted (stageCommit req kv).2 ↔
      req.CommitCovers kv.pageSizeTokens := by
  obtain ⟨hpos, hpages, hoffset⟩ := stageCommit_req hs ha kv
  rw [RequestDescriptor.CommitCovers, ← forall_covered_iff hps hd ha]
  simp only [RequestDescriptor.PagesCommitted, hpos, hpages, hoffset, stageCommit_pageSizeTokens,
    committed_stageCommit_iff hs hps ha]
  refine forall_congr' fun i => forall_congr' fun h0 => forall_congr' fun hi => or_congr ?_ ?_
  · simp only [InRegion]
    omega
  · have hle := coveredPages_le kv.pageSizeTokens req.kvNumPages
      (req.decodePos + max 1 req.acceptedPrefixLen)
    exact ⟨hno i h0 (by omega), h i h0⟩

theorem onlyPagesCommitted_stageCommit {req : RequestDescriptor φ} {kv : KVPageTable φ}
    (hs : req.state = .commitReady) (hps : 1 ≤ kv.pageSizeTokens) (hd : 0 ≤ req.decodePos)
    (ha : 0 ≤ req.acceptedPrefixLen) (hno : req.OnlyPagesCommitted kv) :
    (stageCommit req kv).1.OnlyPagesCommitted (stageCommit req kv).2 := by
  obtain ⟨hpos, hpages, hoffset⟩ := stageCommit_req hs ha kv
  simp only [RequestDescriptor.OnlyPagesCommitted, hpos, hpages, hoffset,
    stageCommit_pageSizeTokens, committed_stageCommit_iff hs hps ha]
  intro i h0 hi hcommitted
  obtain hin | hbefore := hcommitted
  · have hmono := coveredPages_mono hps ha
      (by omega : req.acceptedPrefixLen ≤ req.decodePos + max 1 req.acceptedPrefixLen)
      req.kvNumPages
    have := hin.2
    omega
  · have hmono := coveredPages_mono hps hd
      (by omega : req.decodePos ≤ req.decodePos + max 1 req.acceptedPrefixLen) req.kvNumPages
    have := hno i h0 hi hbefore
    omega

/-- Only the pages of the request itself matter. -/
theorem pagesCommitted_congr {req : RequestDescriptor φ} {kv kv' : KVPageTable φ}
    (hsize : kv'.pageSizeTokens = kv.pageSizeTokens)
    (h : ∀ i, 0 ≤ i → i < req.kvNumPages →
      ((kv'.entries (req.kvTableOffset + i)).state = .committed ↔
        (kv.entries (req.kvTableOffset + i)).state = .committed)) :
    (req.PagesCommitted kv' ↔ req.PagesCommitted kv) ∧
      (req.OnlyPagesCommitted kv' ↔ req.OnlyPagesCommitted kv) := by
  simp only [RequestDescriptor.PagesCommitted, RequestDescriptor.OnlyPagesCommitted, hsize]
  have hle := coveredPages_le kv.pageSizeTokens req.kvNumPages req.decodePos
  refine ⟨forall_congr' fun i => forall_congr' fun h0 => forall_congr' fun hi => ?_,
    forall_congr' fun i => forall_congr' fun h0 => forall_congr' fun hi => ?_⟩
  · exact h i h0 (by omega)
  · exact imp_congr (h i h0 hi) Iff.rfl

/-! ## The blocks -/

theorem state_modifyAll {f : KVPageEntry φ → KVPageEntry φ} (hf : ∀ e, (f e).state = e.state)
    (is : List Int) (kv : KVPageTable φ) (j : Int) :
    ((kv.modifyAll is f).entries j).state = (kv.entries j).state := by
  induction is generalizing kv with
  | nil => rfl
  | cons i is ih =>
    refine (ih (kv.modify i f)).trans ?_
    rw [KVPageTable.modify_entries]
    split
    · exact hf _
    · rfl

/-- The selection leaves the states of the pages as they are. -/
theorem state_selectSparseKvBlocks [DeviceFloat φ] (req : RequestDescriptor φ) (kv : KVPageTable φ)
    (topK j : Int) :
    ((selectSparseKvBlocks req kv topK).entries j).state = (kv.entries j).state := by
  have hrounds (n : Nat) (rank : Int) (table : KVPageTable φ) :
      ((selectRounds req (req.promptLen + req.decodePos) n rank table).entries j).state =
        (table.entries j).state := by
    induction n generalizing rank table with
    | zero => rfl
    | succ n ih =>
      rw [selectRounds]
      split
      · rfl
      · rw [ih, KVPageTable.modify_entries]
        split <;> rfl
  rw [selectSparseKvBlocks_eq_rounds, hrounds, scorePages]
  apply state_modifyAll
  exact fun e => rfl

/-- A request in the loop: it speculates, its prefill is over, and a verified step has a count. -/
structure Speculates (req : RequestDescriptor φ) : Prop where
  speculative : req.hasFlag .speculativeEnabled = true
  prefilled : req.state ≠ .prefillReady
  accepted : req.state = .commitReady → 0 ≤ req.acceptedPrefixLen

/-- A step that does not commit: the position and the states of the pages stay. -/
structure KeepsPages (l : BlockState φ) (g : SharedState φ) (l' : BlockState φ)
    (g' : SharedState φ) : Prop where
  decodePos : l'.req.decodePos = l.req.decodePos
  kvNumPages : l'.req.kvNumPages = l.req.kvNumPages
  kvTableOffset : l'.req.kvTableOffset = l.req.kvTableOffset
  pageSizeTokens : g'.kv.pageSizeTokens = g.kv.pageSizeTokens
  state : ∀ j, (g'.kv.entries j).state = (g.kv.entries j).state

/-- The block is about to commit. -/
def Commits (l : BlockState φ) : Prop := l.point = .commit ∧ l.req.state = .commitReady

instance (l : BlockState φ) : Decidable (Commits l) := inferInstanceAs (Decidable (_ ∧ _))

theorem Speculates.settle {req : RequestDescriptor φ} (h : req.hasFlag .speculativeEnabled = true) :
    Speculates req.settle := by
  simp only [RequestDescriptor.settle]
  split
  · exact ⟨h, by simp [RequestDescriptor.setState], by simp [RequestDescriptor.setState]⟩
  · exact ⟨h, by simp [RequestDescriptor.setState], by simp [RequestDescriptor.setState]⟩

theorem Speculates.settleToken {req : RequestDescriptor φ}
    (h : req.hasFlag .speculativeEnabled = true) : Speculates req.settleToken := by
  simp only [RequestDescriptor.settleToken]
  split
  · refine ⟨?_, by simp [RequestDescriptor.setState], by simp [RequestDescriptor.setState]⟩
    have hflag := h
    simp only [RequestDescriptor.hasFlag] at hflag
    simp [RequestDescriptor.hasFlag, RequestDescriptor.setFlag, RequestDescriptor.setState, hflag]
  · exact Speculates.settle h

theorem Speculates.stageCommit {req : RequestDescriptor φ} (h : Speculates req)
    (kv : KVPageTable φ) : Speculates (stageCommit req kv).1 := by
  simp only [Device.stageCommit]
  split
  · split
    · exact Speculates.settleToken h.speculative
    · exact Speculates.settle h.speculative
  · exact h

theorem Speculates.stageDecode {req : RequestDescriptor φ} (h : Speculates req)
    (draftTokens : Option (Int → Int)) : Speculates (stageDecode req draftTokens).1 ∧
      (stageDecode req draftTokens).1.decodePos = req.decodePos ∧
      (stageDecode req draftTokens).1.kvNumPages = req.kvNumPages ∧
      (stageDecode req draftTokens).1.kvTableOffset = req.kvTableOffset := by
  by_cases hs : req.state = .decodeReady
  · rw [stageDecode_of_speculative hs h.speculative]
    exact ⟨⟨h.speculative, by simp, by simp⟩, rfl, rfl, rfl⟩
  · rw [stageDecode_of_ne hs]
    exact ⟨h, rfl, rfl, rfl⟩

theorem KeepsPages.pagesCommitted_iff {l l' : BlockState φ} {g g' : SharedState φ}
    (h : KeepsPages l g l' g') : l'.req.PagesCommitted g'.kv ↔ l.req.PagesCommitted g.kv := by
  simp only [RequestDescriptor.PagesCommitted, h.decodePos, h.kvNumPages, h.kvTableOffset,
    h.pageSizeTokens, h.state]

theorem KeepsPages.onlyPagesCommitted_iff {l l' : BlockState φ} {g g' : SharedState φ}
    (h : KeepsPages l g l' g') :
    l'.req.OnlyPagesCommitted g'.kv ↔ l.req.OnlyPagesCommitted g.kv := by
  simp only [RequestDescriptor.OnlyPagesCommitted, h.decodePos, h.kvNumPages, h.kvTableOffset,
    h.pageSizeTokens, h.state]

section
variable [DeviceFloat φ]

theorem Speculates.stageSpecVerify {req : RequestDescriptor φ} (h : Speculates req)
    (draftTokens : Option (Int → Int)) : Speculates (stageSpecVerify req draftTokens) := by
  simp only [Device.stageSpecVerify]
  split
  · exact ⟨h.speculative, by simp, fun _ => acceptedCount_nonneg req draftTokens⟩
  · exact h

/-- A step of a block either commits or keeps the pages. -/
theorem blockStep_pages {n : Nat} {launch : MegakernelLaunch} {b : Fin n} {l l' : BlockState φ}
    {g g' : SharedState φ} (hl : Speculates l.req)
    (h : megakernelBlockStep launch b l g = some (l', g')) :
    Speculates l'.req ∧
      (Commits l ∧ (l'.req, g'.kv) = stageCommit l.req g.kv ∨
        ¬ Commits l ∧ KeepsPages l g l' g') := by
  have hreq (hreq : l'.req = l.req) (hkv : g'.kv = g.kv) : KeepsPages l g l' g' := by
    constructor <;> simp [hreq, hkv]
  have hquiet (hp : l.point ≠ .commit) : ¬ Commits l := fun hc => hp hc.1
  cases blockMove h with
  | asbs point req init =>
    have hreq' : Speculates req ∧ req.decodePos = l.req.decodePos ∧
        req.kvNumPages = l.req.kvNumPages ∧ req.kvTableOffset = l.req.kvTableOffset := by
      rw [init]
      split
      · exact ⟨hl, rfl, rfl, rfl⟩
      · exact ⟨⟨hl.speculative, hl.prefilled, hl.accepted⟩, rfl, rfl, rfl⟩
    obtain ⟨hnext, hpos, hpages, hoffset⟩ := hreq'
    exact ⟨hnext, Or.inr ⟨hquiet (by simp [point]), hpos, hpages, hoffset, rfl, fun _ => rfl⟩⟩
  | prefill point =>
    have hstage := stagePrefill_of_ne hl.prefilled g.kv
    refine ⟨?_, Or.inr ⟨hquiet (by simp [point]), hreq ?_ ?_⟩⟩
    · simpa only [hstage] using hl
    · simp only [hstage]
    · simp only [hstage]
  | select point =>
    exact ⟨hl, Or.inr ⟨hquiet (by simp [point]), rfl, rfl, rfl,
      selectSparseKvBlocks_pageSizeTokens _ _ _, state_selectSparseKvBlocks _ _ _⟩⟩
  | decode point =>
    obtain ⟨hnext, hpos, hpages, hoffset⟩ := hl.stageDecode g.draftTokens
    exact ⟨hnext, Or.inr ⟨hquiet (by simp [point]), hpos, hpages, hoffset, rfl, fun _ => rfl⟩⟩
  | verify point =>
    refine ⟨hl.stageSpecVerify _, Or.inr ⟨hquiet (by simp [point]), ?_⟩⟩
    simp only [stageSpecVerify]
    split <;> exact ⟨rfl, rfl, rfl, rfl, fun _ => rfl⟩
  | commit point =>
    refine ⟨hl.stageCommit _, ?_⟩
    by_cases hs : l.req.state = .commitReady
    · exact Or.inl ⟨⟨point, hs⟩, rfl⟩
    · refine Or.inr ⟨fun hc => hs hc.2, ?_⟩
      simp only [stageCommit_of_ne hs]
      exact ⟨rfl, rfl, rfl, rfl, fun _ => rfl⟩
  | _ point => exact ⟨hl, Or.inr ⟨hquiet (by simp [point]), hreq rfl rfl⟩⟩

/-! ## Whole schedules -/

/-- Block `b` takes its next step. -/
def BlockReturns {n : Nat} (launch : MegakernelLaunch)
    (c : Config (Fin n) (BlockState φ) (SharedState φ)) (b : Fin n)
    (c' : Config (Fin n) (BlockState φ) (SharedState φ)) : Prop :=
  step (megakernelBlockStep launch) b c = some c'

/-- Requests and a table as the host sets them up: ready to decode with speculation, at position
zero, with regions of free pages that no two requests share. -/
structure SetUp {n : Nat} (requests : Fin n → RequestDescriptor φ) (kv : KVPageTable φ) :
    Prop where
  state : ∀ b, (requests b).state = .decodeReady
  speculative : ∀ b, (requests b).hasFlag .speculativeEnabled = true
  decodePos : ∀ b, (requests b).decodePos = 0
  pageSize : 1 ≤ kv.pageSizeTokens
  free : ∀ j, (kv.entries j).state = .free
  disjoint : ∀ b b' j, InRegion (requests b).kvTableOffset (requests b).kvNumPages j →
    InRegion (requests b').kvTableOffset (requests b').kvNumPages j → b = b'

/-- What holds of a request and the table throughout the kernel; `start` is the request as the host
set it up. -/
structure Decodes (start req : RequestDescriptor φ) (kv : KVPageTable φ) : Prop where
  speculates : Speculates req
  decodePos : 0 ≤ req.decodePos
  kvTableOffset : req.kvTableOffset = start.kvTableOffset
  kvNumPages : req.kvNumPages = start.kvNumPages
  pageSize : 1 ≤ kv.pageSizeTokens
  only : req.OnlyPagesCommitted kv

/-- If the block is about to commit, the accepted tokens cover the pages that its position
enters. -/
def CoversIfCommits (l : BlockState φ) (kv : KVPageTable φ) : Prop :=
  Commits l → l.req.CommitCovers kv.pageSizeTokens

section
variable {n : Nat} {launch : MegakernelLaunch} {b : Fin n} {l l' : BlockState φ}
  {g g' : SharedState φ} {start : RequestDescriptor φ}

/-- What a step does to the request of its block. -/
theorem decodes_step (hd : Decodes start l.req g.kv)
    (h : megakernelBlockStep launch b l g = some (l', g')) :
    Decodes start l'.req g'.kv ∧ (l.req.PagesCommitted g.kv →
      (l'.req.PagesCommitted g'.kv ↔ CoversIfCommits l g.kv)) := by
  obtain ⟨hl, hpages⟩ := blockStep_pages hd.speculates h
  obtain ⟨hc, hcommit⟩ | ⟨hc, hkeeps⟩ := hpages
  · have ha := hd.speculates.accepted hc.2
    have hreq : l'.req = (stageCommit l.req g.kv).1 := congrArg Prod.fst hcommit
    have hkv : g'.kv = (stageCommit l.req g.kv).2 := congrArg Prod.snd hcommit
    obtain ⟨hpos, hnum, hoffset⟩ := stageCommit_req hc.2 ha g.kv
    have hown := onlyPagesCommitted_stageCommit hc.2 hd.pageSize hd.decodePos ha hd.only
    have hiff := pagesCommitted_stageCommit_iff hc.2 hd.pageSize hd.decodePos ha
    have hsize := stageCommit_pageSizeTokens l.req g.kv
    rw [← hreq, ← hkv] at hown hiff
    rw [← hreq] at hpos hnum hoffset
    rw [← hkv] at hsize
    have := hd.decodePos
    refine ⟨⟨hl, by omega, hoffset.trans hd.kvTableOffset, hnum.trans hd.kvNumPages,
      hsize ▸ hd.pageSize, hown⟩, fun hall => ?_⟩
    rw [hiff hall hd.only]
    exact ⟨fun h _ => h, fun h => h hc⟩
  · refine ⟨⟨hl, hkeeps.decodePos ▸ hd.decodePos, hkeeps.kvTableOffset.trans hd.kvTableOffset,
      hkeeps.kvNumPages.trans hd.kvNumPages, hkeeps.pageSizeTokens ▸ hd.pageSize,
      hkeeps.onlyPagesCommitted_iff.mpr hd.only⟩, fun hall => ?_⟩
    exact iff_of_true (hkeeps.pagesCommitted_iff.mpr hall) fun hno => absurd hno hc

/-- A step leaves the pages of the other requests alone. -/
theorem decodes_others {start' req : RequestDescriptor φ} (hd : Decodes start l.req g.kv)
    (hd' : Decodes start' req g.kv)
    (hdisjoint : ∀ j, InRegion start'.kvTableOffset start'.kvNumPages j →
      ¬ InRegion start.kvTableOffset start.kvNumPages j)
    (h : megakernelBlockStep launch b l g = some (l', g')) :
    Decodes start' req g'.kv ∧ (req.PagesCommitted g'.kv ↔ req.PagesCommitted g.kv) := by
  obtain ⟨-, hpages⟩ := blockStep_pages hd.speculates h
  have hsame : g'.kv.pageSizeTokens = g.kv.pageSizeTokens ∧
      ∀ i, 0 ≤ i → i < req.kvNumPages →
        ((g'.kv.entries (req.kvTableOffset + i)).state = .committed ↔
          (g.kv.entries (req.kvTableOffset + i)).state = .committed) := by
    obtain ⟨hc, hcommit⟩ | ⟨-, hkeeps⟩ := hpages
    · have hkv : g'.kv = (stageCommit l.req g.kv).2 := congrArg Prod.snd hcommit
      rw [hkv]
      refine ⟨stageCommit_pageSizeTokens _ _, fun i h0 hi => ?_⟩
      rw [committed_stageCommit_iff hc.2 hd.pageSize (hd.speculates.accepted hc.2)]
      -- the commit only reaches pages of its own region
      refine or_iff_right fun hin => hdisjoint (req.kvTableOffset + i) ?_ ?_
      · rw [← hd'.kvTableOffset, ← hd'.kvNumPages]
        exact ⟨by omega, by omega⟩
      · have hle := coveredPages_le g.kv.pageSizeTokens l.req.kvNumPages l.req.acceptedPrefixLen
        rw [← hd.kvTableOffset, ← hd.kvNumPages]
        exact ⟨hin.1, hin.2.trans_le (by omega)⟩
    · exact ⟨hkeeps.pageSizeTokens, fun i _ _ => by rw [hkeeps.state]⟩
  obtain ⟨hall, honly⟩ := pagesCommitted_congr hsame.1 hsame.2
  exact ⟨⟨hd'.speculates, hd'.decodePos, hd'.kvTableOffset, hd'.kvNumPages,
    hsame.1 ▸ hd'.pageSize, honly.mpr hd'.only⟩, hall⟩

end

/-- The decoded tokens of every request are covered. -/
def AllCommitted {n : Nat} (c : Config (Fin n) (BlockState φ) (SharedState φ)) : Prop :=
  ∀ b, (c.locals b).req.PagesCommitted c.shared.kv

/-- The condition on the step of block `b`. -/
def StepCovers {n : Nat} (c : Config (Fin n) (BlockState φ) (SharedState φ)) (b : Fin n) : Prop :=
  CoversIfCommits (c.locals b) c.shared.kv

instance {n : Nat} (c : Config (Fin n) (BlockState φ) (SharedState φ)) (b : Fin n) :
    Decidable (StepCovers c b) :=
  inferInstanceAs (Decidable (Commits _ → RequestDescriptor.CommitCovers _ _))

theorem allCommitted_step {n : Nat} {launch : MegakernelLaunch}
    {requests : Fin n → RequestDescriptor φ} {kv : KVPageTable φ} (hsetup : SetUp requests kv)
    {b : Fin n} {c c' : Config (Fin n) (BlockState φ) (SharedState φ)}
    (hd : ∀ b, Decodes (requests b) (c.locals b).req c.shared.kv)
    (hs : BlockReturns launch c b c') :
    (∀ b, Decodes (requests b) (c'.locals b).req c'.shared.kv) ∧
      (AllCommitted c → (AllCommitted c' ↔ StepCovers c b)) := by
  obtain ⟨l, g, hbody, rfl⟩ := step_eq_some hs
  obtain ⟨hown, hiff⟩ := decodes_step (hd b) hbody
  have hothers (b' : Fin n) (hb : b' ≠ b) := decodes_others (hd b) (hd b')
    (fun j hj hj' => hb (hsetup.disjoint b' b j hj hj')) hbody
  constructor
  · intro b'
    by_cases hb : b' = b
    · subst hb
      simpa only [Function.update_self] using hown
    · simpa only [Function.update_of_ne hb] using (hothers b' hb).1
  · intro hall
    rw [StepCovers, ← hiff (hall b)]
    constructor
    · intro hall'
      simpa only [Function.update_self] using hall' b
    · intro hcommitted b'
      by_cases hb : b' = b
      · subst hb
        simpa only [Function.update_self] using hcommitted
      · simpa only [Function.update_of_ne hb] using (hothers b' hb).2.mpr (hall b')

/-- In every interleaving the decoded tokens stay covered by committed pages exactly when the
accepted tokens of each commit cover the pages that its decode position enters. -/
theorem allCommitted_iff {n : Nat} (launch : MegakernelLaunch)
    {requests : Fin n → RequestDescriptor φ} {kv : KVPageTable φ} (hsetup : SetUp requests kv)
    (draftTokens : Option (Int → Int)) (schedule : List (Fin n)) :
    Calls.Throughout (BlockReturns launch) (fun _ c => AllCommitted c)
        (launchMegakernel requests kv draftTokens) schedule ↔
      Calls.EachCall (BlockReturns launch) StepCovers
        (launchMegakernel requests kv draftTokens) schedule := by
  refine Calls.throughout_iff_eachCall
    (I := fun _ c => ∀ b, Decodes (requests b) (c.locals b).req c.shared.kv) (fun b => ?_)
    (fun b i h0 hi => ?_) fun made b c c' _ hd hall hs => ?_
  · refine ⟨⟨hsetup.speculative b, ?_, fun hs => ?_⟩, (hsetup.decodePos b).ge, rfl, rfl,
      hsetup.pageSize, fun i _ _ hi => ?_⟩
    · change (requests b).state ≠ .prefillReady
      rw [hsetup.state b]
      decide
    · change (requests b).state = .commitReady at hs
      rw [hsetup.state b] at hs
      cases hs
    · change (kv.entries ((requests b).kvTableOffset + i)).state = .committed at hi
      rw [hsetup.free] at hi
      cases hi
  · change i < coveredPages kv.pageSizeTokens (requests b).kvNumPages (requests b).decodePos at hi
    rw [hsetup.decodePos b] at hi
    have := coveredPages_zero hsetup.pageSize (requests b).kvNumPages
    omega
  · obtain ⟨hd', hiff⟩ := allCommitted_step hsetup hd hs
    exact ⟨hiff hall, fun _ => hd'⟩

theorem setUp_megakernelPath (n : Nat) (tokensPerRequest draftLen : Int) :
    SetUp (fun b : Fin n => (megakernelRequest tokensPerRequest draftLen b : RequestDescriptor φ))
      (megakernelTable n) where
  state := fun _ => rfl
  speculative := fun b =>
    (hasFlag_initRequest b tokensPerRequest (draftLen * 4) true .speculativeEnabled :
      (initRequest b tokensPerRequest true (draftLen * 4) : RequestDescriptor φ).hasFlag _ = _)
  decodePos := fun _ => rfl
  pageSize := by simp [megakernelTable]
  free := fun _ => rfl
  disjoint := fun b b' j h h' => by
    have hb : InRegion ((b : Int) * 4) 4 j := h
    have hb' : InRegion ((b' : Int) * 4) 4 j := h'
    simp only [InRegion] at hb hb'
    omega

/-- Two requests of five tokens on pages of sixteen, whose blocks take turns until both have left: the
first drafts of each are accepted, and its page stays the only one that it needs. -/
theorem allCommitted_two :
    let requests (b : Fin 2) : RequestDescriptor ℚ :=
      { megakernelRequest 5 3 b with lastToken := 11 - b }
    let kv : KVPageTable ℚ := { megakernelTable 2 with pageSizeTokens := 16 }
    Calls.Throughout (BlockReturns ⟨100, 3⟩) (fun _ c => AllCommitted c)
      (launchMegakernel requests kv (some fun _ => 0)) (List.replicate 32 [0, 1]).flatten := by
  intro requests kv
  have hhost := setUp_megakernelPath (φ := ℚ) 2 5 3
  have hsetup : SetUp requests kv :=
    ⟨hhost.state, hhost.speculative, hhost.decodePos, by decide, hhost.free, hhost.disjoint⟩
  refine (allCommitted_iff ⟨100, 3⟩ hsetup _ _).mpr (Calls.eachCall_of_metAlong ?_)
  decide +kernel

end

/-- The first draft of the first request, token 12, is rejected: its only token is decoded onto a
page that stays free. -/
theorem fallback_token_on_free_page :
    ¬ ∀ (n : Nat) (launch : MegakernelLaunch) (tokensPerRequest draftLen : Int)
      (drafts : Int → Int) (c : Config (Fin n) (BlockState ℚ) (SharedState ℚ)),
      Reaches (megakernelBlockStep launch)
        (launchMegakernelPath n tokensPerRequest draftLen drafts) c →
      ∀ b, (c.locals b).point = .count → (c.locals b).req.PagesCommitted c.shared.kv := by
  intro h
  have hpages := h 1 ⟨4, 1⟩ 4 1 (fun _ => 0) _ (reaches_runAlone 0 7 _) 0 (by decide +kernel)
  have hfirst := hpages 0 le_rfl (by decide +kernel)
  revert hfirst
  decide +kernel

end ResidentInference.Device

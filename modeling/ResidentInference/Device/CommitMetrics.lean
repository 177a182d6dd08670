import ResidentInference.Device.CommitCoverage
import Mathlib.Data.Set.Card

/-! What the metrics of the fused kernel count. The committed pages are marked whatever they hold,
but of the pages behind them only drafts are released, while the metrics count all of them. -/
namespace ResidentInference.Device
open Loops
variable {φ : Type}

theorem le_length_takeWhile_iff {α : Type*} {p : α → Bool} {l : List α} {k : Nat} :
    k ≤ (l.takeWhile p).length ↔ k ≤ l.length ∧ ∀ x ∈ l.take k, p x = true := by
  induction l generalizing k with
  | nil => simp
  | cons x l ih =>
    cases k with
    | zero => simp
    | succ k =>
      by_cases hx : p x = true
      · simp [List.takeWhile_cons_of_pos, hx, ih]
      · simp [List.takeWhile_cons_of_neg, hx]

namespace RequestDescriptor

/-- The pages of the request. -/
def kvPages (req : RequestDescriptor φ) : List Int :=
  Int.range req.kvTableOffset (req.kvTableOffset + req.kvNumPages)

/-- Verification may look at the first `count` drafts, and each of them passes its test. -/
def DraftsPass (req : RequestDescriptor φ) (draftTokens : Option (Int → Int)) (count : Int) : Prop :=
  ∃ tokens, draftTokens = some tokens ∧ count ≤ req.verifyLimit ∧
    ∀ i : Nat, (i : Int) < count → req.acceptsToken (tokens (req.draftOffset + i)) = true

theorem draftsPass_iff (req : RequestDescriptor φ) (draftTokens : Option (Int → Int)) {count : Int}
    (h : 1 ≤ count) : req.DraftsPass draftTokens count ↔ count ≤ req.acceptedCount draftTokens := by
  cases draftTokens with
  | none =>
    refine iff_of_false (fun ⟨_, hnone, _⟩ => by cases hnone) ?_
    simp only [acceptedCount]
    omega
  | some tokens =>
    obtain ⟨k, rfl⟩ : ∃ k : Nat, count = k := ⟨count.toNat, by omega⟩
    have hlength : (draftIndices req.draftOffset req.verifyLimit).length = req.verifyLimit.toNat :=
      by simp [draftIndices]
    have hk : k ≤ req.verifyLimit.toNat ↔ (k : Int) ≤ req.verifyLimit := by omega
    simp only [DraftsPass, Option.some.injEq, exists_eq_left', acceptedCount, acceptedDrafts,
      Nat.cast_le, le_length_takeWhile_iff, hlength, hk]
    refine and_congr_right fun hlimit => ?_
    have htake : (draftIndices req.draftOffset req.verifyLimit).take k =
        (List.range k).map fun i : Nat => req.draftOffset + i := by
      simp [draftIndices, Int.range, ← List.map_take, List.take_range, min_eq_left (hk.mpr hlimit)]
    simp [htake]

end RequestDescriptor

/-- A page is covered when its first token is accepted. -/
theorem lt_coveredPages_iff {pageSizeTokens totalPages accepted page : Int}
    (hps : 1 ≤ pageSizeTokens) (ha : 0 ≤ accepted) (hpage : page < totalPages) :
    page < coveredPages pageSizeTokens totalPages accepted ↔
      page * pageSizeTokens + 1 ≤ accepted := by
  rw [coveredPages_eq_min, lt_min_iff, and_iff_right hpage,
    Int.tdiv_eq_ediv_of_nonneg (by omega), ← Int.add_one_le_iff,
    Int.le_ediv_iff_mul_le (by omega), add_mul]
  omega

instance (offset numPages j : Int) : Decidable (InRegion offset numPages j) :=
  inferInstanceAs (Decidable (_ ∧ _))

theorem entries_modifyAll_region (kv : KVPageTable φ) (offset numPages : Int)
    (f : KVPageEntry φ → KVPageEntry φ) (j : Int) :
    (kv.modifyAll (Int.range offset (offset + numPages)) f).entries j =
      if InRegion offset numPages j then f (kv.entries j) else kv.entries j :=
  entries_modifyAll_range kv _ _ f j

theorem entries_commitAndReleasePages (kv : KVPageTable φ)
    (offset committedPages releasedPages j : Int) :
    (commitAndReleasePages kv offset committedPages releasedPages).entries j =
      if InRegion offset committedPages j then (kv.entries j).markPageCommitted
      else if InRegion (offset + committedPages) releasedPages j ∧ (kv.entries j).state = .draft then
        (kv.entries j).markPageEvictable
      else kv.entries j := by
  have hdisjoint : InRegion (offset + committedPages) releasedPages j →
      ¬ InRegion offset committedPages j := fun h h' => not_lt.mpr h.1 h'.2
  rw [commitAndReleasePages]
  split
  · rw [discardRejectedKvRegion, commitDraftKvRegion, entries_modifyAll_region,
      entries_modifyAll_region]
    by_cases hin : InRegion (offset + committedPages) releasedPages j
    · simp [hin, hdisjoint hin]
    · simp [hin]
  · next hnone =>
    have hout : ¬ InRegion (offset + committedPages) releasedPages j := by
      rintro ⟨h1, h2⟩
      omega
    rw [commitDraftKvRegion, entries_modifyAll_region]
    simp [hout]

theorem settle_output (req : RequestDescriptor φ) :
    req.settle.outputTokenCount = req.outputTokenCount ∧ req.settle.lastToken = req.lastToken := by
  rw [RequestDescriptor.settle]
  split <;> exact ⟨rfl, rfl⟩

theorem settleToken_output (req : RequestDescriptor φ) :
    req.settleToken.outputTokenCount = req.outputTokenCount ∧
      req.settleToken.lastToken = req.lastToken := by
  rw [RequestDescriptor.settleToken]
  split
  · exact ⟨rfl, rfl⟩
  · exact settle_output req

variable [DeviceFloat φ] {req : RequestDescriptor φ} {kv : KVPageTable φ}
  {draftTokens : Option (Int → Int)}

/-! ## The pages of a call -/

section
variable (kv draftTokens) (hstate : req.state = .draftReady ∨ req.state = .verifyReady)
include hstate

/-- Without an accepted draft or without pages the table stays. -/
theorem fusedVerifyAndCommitKernel_of_none
    (h : req.acceptedCount draftTokens = 0 ∨ req.kvNumPages ≤ 0) :
    (fusedVerifyAndCommitKernel req kv draftTokens).2.1 = kv ∧
      (fusedVerifyAndCommitKernel req kv draftTokens).2.2.committedPages = 0 ∧
      (fusedVerifyAndCommitKernel req kv draftTokens).2.2.releasedPages = 0 := by
  simp only [fusedVerifyAndCommitKernel, if_pos hstate]
  split
  · exact ⟨rfl, rfl, rfl⟩
  · next hsome =>
    have hnone : ¬ req.kvNumPages > 0 := not_lt.mpr (h.resolve_left hsome)
    simp [hnone]

/-- The pages of a commit with accepted drafts. -/
theorem fusedVerifyAndCommitKernel_of_some (ha : req.acceptedCount draftTokens ≠ 0)
    (hn : 0 < req.kvNumPages) :
    let covered := coveredPages kv.pageSizeTokens req.kvNumPages (req.acceptedCount draftTokens)
    (fusedVerifyAndCommitKernel req kv draftTokens).2.1 =
        commitAndReleasePages kv req.kvTableOffset covered (remainingPages req.kvNumPages covered) ∧
      (fusedVerifyAndCommitKernel req kv draftTokens).2.2.committedPages = covered ∧
      (fusedVerifyAndCommitKernel req kv draftTokens).2.2.releasedPages =
        remainingPages req.kvNumPages covered := by
  simp [fusedVerifyAndCommitKernel, hstate, ha, hn]

variable (hps : 1 ≤ kv.pageSizeTokens)
include hps

/-- The metrics report the pages whose first token is accepted as committed. -/
theorem lt_committedPages_iff {page : Int} (h0 : 0 ≤ page) (hpage : page < req.kvNumPages) :
    page < (fusedVerifyAndCommitKernel req kv draftTokens).2.2.committedPages ↔
      req.DraftsPass draftTokens (page * kv.pageSizeTokens + 1) := by
  have hnonneg : 0 ≤ page * kv.pageSizeTokens := Int.mul_nonneg h0 (by omega)
  have hcount := acceptedCount_nonneg req draftTokens
  rw [req.draftsPass_iff draftTokens (by omega)]
  by_cases ha : req.acceptedCount draftTokens = 0
  · rw [(fusedVerifyAndCommitKernel_of_none kv draftTokens hstate (Or.inl ha)).2.1]
    omega
  · rw [(fusedVerifyAndCommitKernel_of_some kv draftTokens hstate ha (by omega)).2.1]
    exact lt_coveredPages_iff hps hcount hpage

theorem committedPages_bounds :
    0 ≤ (fusedVerifyAndCommitKernel req kv draftTokens).2.2.committedPages ∧
      (fusedVerifyAndCommitKernel req kv draftTokens).2.2.committedPages ≤ max 0 req.kvNumPages := by
  by_cases h : req.acceptedCount draftTokens = 0 ∨ req.kvNumPages ≤ 0
  · rw [(fusedVerifyAndCommitKernel_of_none kv draftTokens hstate h).2.1]
    exact ⟨le_rfl, le_max_left _ _⟩
  · obtain ⟨ha, hn⟩ := not_or.mp h
    rw [(fusedVerifyAndCommitKernel_of_some kv draftTokens hstate ha (by omega)).2.1]
    exact ⟨coveredPages_nonneg hps (by omega) (acceptedCount_nonneg req draftTokens),
      (coveredPages_le _ _ _).trans (le_max_right _ _)⟩

/-- What the call makes of the pages of the request. -/
theorem entries_fusedVerifyAndCommitKernel {i : Int} (hi : i ∈ req.kvPages) :
    (fusedVerifyAndCommitKernel req kv draftTokens).2.1.entries i =
      if i < req.kvTableOffset +
          (fusedVerifyAndCommitKernel req kv draftTokens).2.2.committedPages then
        (kv.entries i).markPageCommitted
      else if req.acceptedCount draftTokens ≠ 0 ∧ (kv.entries i).state = .draft then
        (kv.entries i).markPageEvictable
      else kv.entries i := by
  obtain ⟨hlow, hhigh⟩ := Int.mem_range_iff.mp hi
  by_cases ha : req.acceptedCount draftTokens = 0
  · obtain ⟨htable, hcommitted, -⟩ :=
      fusedVerifyAndCommitKernel_of_none kv draftTokens hstate (Or.inl ha)
    rw [htable, hcommitted, if_neg (by omega)]
    simp [ha]
  · obtain ⟨htable, hcommitted, -⟩ :=
      fusedVerifyAndCommitKernel_of_some kv draftTokens hstate ha (by omega)
    have hbounds := committedPages_bounds kv draftTokens hstate hps
    rw [htable, entries_commitAndReleasePages, ← hcommitted]
    generalize (fusedVerifyAndCommitKernel req kv draftTokens).2.2.committedPages = c at hbounds ⊢
    have hfront : InRegion req.kvTableOffset c i ↔ i < req.kvTableOffset + c := by
      simp [InRegion, hlow]
    simp only [hfront]
    split
    · rfl
    · next hbehind =>
      have hrest : InRegion (req.kvTableOffset + c) (remainingPages req.kvNumPages c) i := by
        simp only [InRegion, remainingPages]
        split <;> omega
      simp [hrest, ha]

end

/-! ## What the metrics should count -/

/-- The pages of the request that the call moves into the state `EVICTABLE`. -/
def movedToEvictable (req : RequestDescriptor φ) (kv : KVPageTable φ)
    (draftTokens : Option (Int → Int)) : Nat :=
  req.kvPages.countP fun i => decide ((kv.entries i).state ≠ .evictable ∧
    ((fusedVerifyAndCommitKernel req kv draftTokens).2.1.entries i).state = .evictable)

/-- The call marks the page: whatever the page holds, it holds its mark afterwards. -/
def MarksCommitted (req : RequestDescriptor φ) (kv : KVPageTable φ)
    (draftTokens : Option (Int → Int)) (i : Int) : Prop :=
  ∀ entry : KVPageEntry φ,
    (fusedVerifyAndCommitKernel req { kv with entries := Function.update kv.entries i entry }
      draftTokens).2.1.entries i = entry.markPageCommitted

/-- The metrics of a call count what the call does. -/
structure CountsTransitions (req : RequestDescriptor φ) (kv : KVPageTable φ)
    (draftTokens : Option (Int → Int)) : Prop where
  released : (fusedVerifyAndCommitKernel req kv draftTokens).2.2.releasedPages =
    movedToEvictable req kv draftTokens
  committed : (fusedVerifyAndCommitKernel req kv draftTokens).2.2.committedPages =
    {i | i ∈ req.kvPages ∧ MarksCommitted req kv draftTokens i}.ncard
  candidates :
    let metric := (fusedVerifyAndCommitKernel req kv draftTokens).2.2
    metric.acceptedTokens + metric.rejectedTokens = metric.speculativeCandidates
  -- the fallback token is emitted, or the output grows by the accepted tokens
  accepted :
    let (req', _, metric) := fusedVerifyAndCommitKernel req kv draftTokens
    req'.lastToken = req.nextToken ∧ req'.outputTokenCount = req.outputTokenCount + 1 ∧
        metric.acceptedTokens = 0 ∨
      metric.acceptedTokens = req'.outputTokenCount - req.outputTokenCount

/-- Every page of the request that the accepted drafts leave uncovered is a draft. -/
def LeavesDrafts (req : RequestDescriptor φ) (kv : KVPageTable φ)
    (draftTokens : Option (Int → Int)) : Prop :=
  req.DraftsPass draftTokens 1 → ∀ page, 0 ≤ page → page < req.kvNumPages →
    ¬ req.DraftsPass draftTokens (page * kv.pageSizeTokens + 1) →
      (kv.entries (req.kvTableOffset + page)).state = .draft

section
variable (hstate : req.state = .draftReady ∨ req.state = .verifyReady)
include hstate

/-- The counts of tokens are right in every call. -/
theorem tokens_fusedVerifyAndCommitKernel (kv : KVPageTable φ)
    (draftTokens : Option (Int → Int)) :
    let out := fusedVerifyAndCommitKernel req kv draftTokens
    out.2.2.acceptedTokens + out.2.2.rejectedTokens = out.2.2.speculativeCandidates ∧
      (out.1.lastToken = req.nextToken ∧ out.1.outputTokenCount = req.outputTokenCount + 1 ∧
          out.2.2.acceptedTokens = 0 ∨
        out.2.2.acceptedTokens = out.1.outputTokenCount - req.outputTokenCount) := by
  intro out
  have hout : out = fusedVerifyAndCommitKernel req kv draftTokens := rfl
  simp only [fusedVerifyAndCommitKernel, if_pos hstate] at hout
  by_cases ha : req.acceptedCount draftTokens = 0
  · rw [if_pos ha] at hout
    rw [hout]
    obtain ⟨hcount, htoken⟩ := settleToken_output
      (req.recordAccepted (req.acceptedCount draftTokens) req.verifyLimit).emitNextToken
    exact ⟨by simp, Or.inl ⟨htoken, hcount, ha⟩⟩
  · rw [if_neg ha] at hout
    obtain ⟨hcount, -⟩ := settle_output ((req.recordAccepted (req.acceptedCount draftTokens)
      req.verifyLimit).emitAccepted (req.acceptedCount draftTokens))
    rw [hout]
    refine ⟨by split <;> simp, Or.inr ?_⟩
    rw [hcount]
    split <;> simp

variable (hps : 1 ≤ kv.pageSizeTokens)
include hps

theorem marksCommitted_iff {i : Int} (hi : i ∈ req.kvPages) :
    MarksCommitted req kv draftTokens i ↔ i < req.kvTableOffset +
      (fusedVerifyAndCommitKernel req kv draftTokens).2.2.committedPages := by
  obtain ⟨hlow, hhigh⟩ := Int.mem_range_iff.mp hi
  -- the number of committed pages does not depend on what the pages hold
  have hcount (entry : KVPageEntry φ) :
      i < req.kvTableOffset + (fusedVerifyAndCommitKernel req
          { kv with entries := Function.update kv.entries i entry } draftTokens).2.2.committedPages ↔
        i < req.kvTableOffset +
          (fusedVerifyAndCommitKernel req kv draftTokens).2.2.committedPages := by
    have hlow' : 0 ≤ i - req.kvTableOffset := by omega
    have hhigh' : i - req.kvTableOffset < req.kvNumPages := by omega
    have hold := lt_committedPages_iff kv draftTokens hstate hps hlow' hhigh'
    have hnew := lt_committedPages_iff { kv with entries := Function.update kv.entries i entry }
      draftTokens hstate hps hlow' hhigh'
    have hsame := hnew.trans hold.symm
    omega
  have hentries (entry : KVPageEntry φ) := entries_fusedVerifyAndCommitKernel
    { kv with entries := Function.update kv.entries i entry } draftTokens hstate hps hi
  simp only [hcount, Function.update_self] at hentries
  constructor
  · intro hmarks
    by_contra hbehind
    -- a free page behind the covered ones stays free
    have hfree := hmarks ((kv.entries i).setState .free)
    rw [hentries, if_neg hbehind, if_neg (by simp [KVPageEntry.setState])] at hfree
    have hstate' := congrArg KVPageEntry.state hfree
    simp [KVPageEntry.setState, KVPageEntry.markPageCommitted, KVPageEntry.setFlag,
      KVPageEntry.clearFlag] at hstate'
  · intro hfront entry
    rw [hentries, if_pos hfront]

theorem committed_fusedVerifyAndCommitKernel :
    (fusedVerifyAndCommitKernel req kv draftTokens).2.2.committedPages =
      {i | i ∈ req.kvPages ∧ MarksCommitted req kv draftTokens i}.ncard := by
  have hbounds := committedPages_bounds kv draftTokens hstate hps
  have hset : {i | i ∈ req.kvPages ∧ MarksCommitted req kv draftTokens i} =
      ((Int.range req.kvTableOffset (req.kvTableOffset +
        (fusedVerifyAndCommitKernel req kv draftTokens).2.2.committedPages)).toFinset : Set Int) := by
    ext i
    simp only [Set.mem_ofPred_eq, List.coe_toFinset]
    constructor
    · rintro ⟨hi, hmarks⟩
      have hfront := (marksCommitted_iff hstate hps hi).mp hmarks
      exact Int.mem_range_iff.mpr ⟨(Int.mem_range_iff.mp hi).1, hfront⟩
    · intro hi
      obtain ⟨hlow, hfront⟩ := Int.mem_range_iff.mp hi
      have hmem : i ∈ req.kvPages := Int.mem_range_iff.mpr ⟨hlow, by omega⟩
      exact ⟨hmem, (marksCommitted_iff hstate hps hmem).mpr hfront⟩
  rw [hset, Set.ncard_coe_finset, List.toFinset_card_of_nodup (nodup_range _ _), length_range]
  omega

/-- The pages behind the committed ones. -/
theorem releasedPages_fusedVerifyAndCommitKernel (ha : req.acceptedCount draftTokens ≠ 0) :
    (fusedVerifyAndCommitKernel req kv draftTokens).2.2.releasedPages =
      (req.kvPages.filter fun i => decide (req.kvTableOffset +
        (fusedVerifyAndCommitKernel req kv draftTokens).2.2.committedPages ≤ i)).length := by
  have hbounds := committedPages_bounds kv draftTokens hstate hps
  have hreleased : (fusedVerifyAndCommitKernel req kv draftTokens).2.2.releasedPages =
      max 0 req.kvNumPages -
        (fusedVerifyAndCommitKernel req kv draftTokens).2.2.committedPages := by
    by_cases hn : 0 < req.kvNumPages
    · obtain ⟨-, hcommitted, hrest⟩ := fusedVerifyAndCommitKernel_of_some kv draftTokens hstate ha hn
      rw [hcommitted] at hbounds
      rw [hcommitted, hrest, remainingPages]
      split <;> omega
    · obtain ⟨-, hcommitted, hrest⟩ :=
        fusedVerifyAndCommitKernel_of_none kv draftTokens hstate
          (Or.inr (not_lt.mp hn))
      rw [hcommitted, hrest]
      omega
  rw [hreleased]
  generalize (fusedVerifyAndCommitKernel req kv draftTokens).2.2.committedPages = c at hbounds ⊢
  have hperm : (req.kvPages.filter fun i => decide (req.kvTableOffset + c ≤ i)).Perm
      (Int.range (req.kvTableOffset + c) (req.kvTableOffset + req.kvNumPages)) := by
    refine (List.perm_ext_iff_of_nodup ((nodup_range _ _).filter _) (nodup_range _ _)).mpr
      fun i => ?_
    simp only [List.mem_filter, Int.mem_range_iff, decide_eq_true_eq]
    omega
  rw [hperm.length_eq, length_range]
  omega

/-- A page is moved exactly if it is an uncovered draft. -/
theorem moved_iff (ha : req.acceptedCount draftTokens ≠ 0) {i : Int} (hi : i ∈ req.kvPages) :
    ((kv.entries i).state ≠ .evictable ∧
        ((fusedVerifyAndCommitKernel req kv draftTokens).2.1.entries i).state = .evictable) ↔
      (kv.entries i).state = .draft ∧ req.kvTableOffset +
        (fusedVerifyAndCommitKernel req kv draftTokens).2.2.committedPages ≤ i := by
  rw [entries_fusedVerifyAndCommitKernel kv draftTokens hstate hps hi]
  split
  · next hfront =>
    refine iff_of_false (fun h => ?_) fun h => not_le.mpr hfront h.2
    simp [KVPageEntry.markPageCommitted, KVPageEntry.setState, KVPageEntry.setFlag,
      KVPageEntry.clearFlag] at h
  · next hbehind =>
    split
    · next hdraft =>
      refine iff_of_true ⟨by simp [hdraft.2], ?_⟩ ⟨hdraft.2, not_lt.mp hbehind⟩
      simp [KVPageEntry.markPageEvictable, KVPageEntry.setState, KVPageEntry.setFlag,
        KVPageEntry.clearFlag]
    · next hother =>
      exact iff_of_false (fun h => h.1 h.2) fun h => hother ⟨ha, h.1⟩

/-- The released pages are the moved ones exactly if all uncovered pages are drafts. -/
theorem released_eq_moved_iff :
    (fusedVerifyAndCommitKernel req kv draftTokens).2.2.releasedPages =
        movedToEvictable req kv draftTokens ↔ LeavesDrafts req kv draftTokens := by
  by_cases ha : req.acceptedCount draftTokens = 0
  · obtain ⟨htable, -, hreleased⟩ :=
      fusedVerifyAndCommitKernel_of_none kv draftTokens hstate (Or.inl ha)
    refine iff_of_true ?_ fun hpass => ?_
    · rw [hreleased, movedToEvictable, htable]
      simp
    · have hone := (req.draftsPass_iff draftTokens le_rfl).mp hpass
      omega
  · have hpass : req.DraftsPass draftTokens 1 := by
      have hcount := acceptedCount_nonneg req draftTokens
      exact (req.draftsPass_iff draftTokens le_rfl).mpr (by omega)
    have hmoved : movedToEvictable req kv draftTokens =
        (req.kvPages.filter fun i => decide (req.kvTableOffset +
          (fusedVerifyAndCommitKernel req kv draftTokens).2.2.committedPages ≤ i)).countP
            fun i => decide ((kv.entries i).state = .draft) := by
      rw [movedToEvictable, List.countP_filter]
      refine List.countP_congr fun i hi => ?_
      rw [← Bool.decide_and, decide_eq_true_eq, decide_eq_true_eq]
      exact moved_iff hstate hps ha hi
    rw [releasedPages_fusedVerifyAndCommitKernel hstate hps ha, hmoved, Nat.cast_inj, eq_comm,
      List.countP_eq_length, LeavesDrafts, imp_iff_right hpass]
    simp only [List.mem_filter, decide_eq_true_eq, RequestDescriptor.kvPages, Int.mem_range_iff]
    constructor
    · intro h page h0 hpage huncovered
      rw [← lt_committedPages_iff kv draftTokens hstate hps h0 hpage] at huncovered
      exact h _ ⟨⟨by omega, by omega⟩, by omega⟩
    · rintro h i ⟨⟨hlow, hhigh⟩, hbehind⟩
      have hpage := h (i - req.kvTableOffset) (by omega) (by omega)
      rw [← lt_committedPages_iff kv draftTokens hstate hps (by omega) (by omega)] at hpage
      have hdraft := hpage (by omega)
      rwa [add_sub_cancel] at hdraft

/-- The metrics count what a call does exactly if all pages that it leaves uncovered are drafts. -/
theorem countsTransitions_iff :
    CountsTransitions req kv draftTokens ↔ LeavesDrafts req kv draftTokens := by
  obtain ⟨hcandidates, haccepted⟩ := tokens_fusedVerifyAndCommitKernel hstate kv draftTokens
  rw [← released_eq_moved_iff hstate hps]
  exact ⟨fun h => h.released, fun h =>
    ⟨h, committed_fusedVerifyAndCommitKernel hstate hps, hcandidates, haccepted⟩⟩

end

/-- A second verification of a request of the host: its last three pages were released by the
first one, and the metrics count them again. -/
theorem released_pages_counted_again :
    let req : RequestDescriptor ℚ :=
      { megakernelRequest 8 3 0 with state := .draftReady, draftLen := 3 }
    let kv : KVPageTable ℚ :=
      { (megakernelTable 1 : KVPageTable ℚ) with entries := initKvEntry 4 4 .draft 0 }
    let first := fusedVerifyAndCommitKernel req kv (some (· + 1))
    let again := { first.1 with state := .draftReady, draftLen := 3 }
    (fusedVerifyAndCommitKernel again first.2.1 (some (· + 1))).2.2.releasedPages = 3 ∧
      movedToEvictable again first.2.1 (some (· + 1)) = 0 ∧
      ¬ CountsTransitions again first.2.1 (some (· + 1)) := by
  intro req kv first again
  have hreleased : (fusedVerifyAndCommitKernel again first.2.1 (some (· + 1))).2.2.releasedPages =
      3 := by decide +kernel
  have hmoved : movedToEvictable again first.2.1 (some (· + 1)) = 0 := by decide +kernel
  refine ⟨hreleased, hmoved, fun h => ?_⟩
  have hequal := h.released
  rw [hreleased, hmoved] at hequal
  exact absurd hequal (by decide)

/-- The first verification of the same request: all pages are drafts. -/
theorem countsTransitions_iff_fresh :
    let req : RequestDescriptor ℚ :=
      { megakernelRequest 8 3 0 with state := .draftReady, draftLen := 3 }
    let kv : KVPageTable ℚ :=
      { (megakernelTable 1 : KVPageTable ℚ) with entries := initKvEntry 4 4 .draft 0 }
    CountsTransitions req kv (some (· + 1)) := by
  intro req kv
  exact (countsTransitions_iff (Or.inl rfl) (by decide)).mpr fun _ _ _ _ _ => rfl

end ResidentInference.Device

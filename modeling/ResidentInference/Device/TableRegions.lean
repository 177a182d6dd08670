import ResidentInference.Device.Pipeline
import ResidentInference.Device.CommitMetrics

/-! Operations of the page table that read and write the pages of one region only: the selection of
a request, its gather and its commit. -/
namespace ResidentInference.Device
open Loops
variable {φ : Type} {offset numPages : Int}

/-- Two tables that differ in their entries only. -/
structure SameShape (kv kv' : KVPageTable φ) : Prop where
  numEntries : kv.numEntries = kv'.numEntries
  pageSizeTokens : kv.pageSizeTokens = kv'.pageSizeTokens
  bytesPerPage : kv.bytesPerPage = kv'.bytesPerPage

/-- Two tables with the same pages in a region. -/
structure SameRegion (offset numPages : Int) (kv kv' : KVPageTable φ) : Prop
    extends SameShape kv kv' where
  entries : ∀ i, InRegion offset numPages i → kv.entries i = kv'.entries i

theorem sameRegion_equivalence :
    Equivalence (SameRegion offset numPages : KVPageTable φ → KVPageTable φ → Prop) where
  refl _ := ⟨⟨rfl, rfl, rfl⟩, fun _ _ => rfl⟩
  symm h := ⟨⟨h.numEntries.symm, h.pageSizeTokens.symm, h.bytesPerPage.symm⟩,
    fun i hi => (h.entries i hi).symm⟩
  trans h h' := ⟨⟨h.numEntries.trans h'.numEntries, h.pageSizeTokens.trans h'.pageSizeTokens,
    h.bytesPerPage.trans h'.bytesPerPage⟩, fun i hi => (h.entries i hi).trans (h'.entries i hi)⟩

/-- An operation that reads and writes the pages of one region only. -/
structure LocalTo (offset numPages : Int) (f : KVPageTable φ → KVPageTable φ) : Prop where
  shape : ∀ kv, SameShape kv (f kv)
  outside : ∀ kv i, ¬ InRegion offset numPages i → (f kv).entries i = kv.entries i
  congr : ∀ {kv kv'}, SameRegion offset numPages kv kv' →
    SameRegion offset numPages (f kv) (f kv')

namespace LocalTo

/-- It changes no page of a disjoint region. -/
theorem sameRegion {f : KVPageTable φ → KVPageTable φ} (h : LocalTo offset numPages f)
    {offset' numPages' : Int}
    (hdisjoint : ∀ i, InRegion offset' numPages' i → ¬ InRegion offset numPages i)
    (kv : KVPageTable φ) : SameRegion offset' numPages' kv (f kv) :=
  ⟨h.shape kv, fun i hi => (h.outside kv i (hdisjoint i hi)).symm⟩

theorem id : LocalTo offset numPages (fun kv : KVPageTable φ => kv) :=
  ⟨fun _ => ⟨rfl, rfl, rfl⟩, fun _ _ _ => rfl, fun h => h⟩

theorem comp {f g : KVPageTable φ → KVPageTable φ} (hf : LocalTo offset numPages f)
    (hg : LocalTo offset numPages g) : LocalTo offset numPages fun kv => g (f kv) where
  shape kv := by
    have hf' := hf.shape kv
    have hg' := hg.shape (f kv)
    exact ⟨hf'.numEntries.trans hg'.numEntries, hf'.pageSizeTokens.trans hg'.pageSizeTokens,
      hf'.bytesPerPage.trans hg'.bytesPerPage⟩
  outside kv i hi := (hg.outside (f kv) i hi).trans (hf.outside kv i hi)
  congr h := hg.congr (hf.congr h)

/-- An operation that is chosen by what the region holds. -/
theorem choose {α : Type*} {q : KVPageTable φ → α} {F : α → KVPageTable φ → KVPageTable φ}
    (hq : ∀ {kv kv'}, SameRegion offset numPages kv kv' → q kv = q kv')
    (hF : ∀ kv, LocalTo offset numPages (F (q kv))) :
    LocalTo offset numPages fun kv => F (q kv) kv where
  shape kv := (hF kv).shape kv
  outside kv := (hF kv).outside kv
  congr {kv kv'} h := by
    rw [← hq h]
    exact (hF kv).congr h

theorem modify {i : Int} (hi : InRegion offset numPages i) (f : KVPageEntry φ → KVPageEntry φ) :
    LocalTo offset numPages fun kv => kv.modify i f where
  shape kv := ⟨rfl, rfl, rfl⟩
  outside kv j hj := by
    have hji : j ≠ i := fun h => hj (h ▸ hi)
    rw [KVPageTable.modify_entries, if_neg hji]
  congr {kv kv'} h := by
    refine ⟨⟨h.numEntries, h.pageSizeTokens, h.bytesPerPage⟩, fun j hj => ?_⟩
    rw [KVPageTable.modify_entries, KVPageTable.modify_entries, h.entries j hj]

theorem modifyAll {is : List Int} (his : ∀ i ∈ is, InRegion offset numPages i)
    (f : KVPageEntry φ → KVPageEntry φ) : LocalTo offset numPages fun kv => kv.modifyAll is f := by
  induction is with
  | nil => exact id
  | cons i is ih =>
    have hfirst := modify (his i List.mem_cons_self) f
    exact hfirst.comp (ih fun j hj => his j (List.mem_cons_of_mem i hj))

end LocalTo

/-! ## The operations of a request -/

theorem inRegion_of_mem_pageIndices {req : RequestDescriptor φ} {n i : Int}
    (hi : i ∈ req.pageIndices n) : InRegion req.kvTableOffset req.kvNumPages i := by
  have hmem := Int.mem_range_iff.mp hi
  exact ⟨hmem.1, by omega⟩

/-- The pages that are committed and those behind them make up the region. -/
theorem localTo_commitAndReleasePages {committedPages : Int} (h0 : 0 ≤ committedPages)
    (hle : committedPages ≤ numPages) :
    LocalTo offset numPages fun kv : KVPageTable φ =>
      commitAndReleasePages kv offset committedPages (remainingPages numPages committedPages) := by
  have hcommit : LocalTo offset numPages fun kv : KVPageTable φ =>
      commitDraftKvRegion kv offset committedPages := by
    refine LocalTo.modifyAll (fun i hi => ?_) KVPageEntry.markPageCommitted
    have hmem := Int.mem_range_iff.mp hi
    exact ⟨hmem.1, by omega⟩
  have hrelease : LocalTo offset numPages fun kv : KVPageTable φ =>
      discardRejectedKvRegion kv (offset + committedPages)
        (remainingPages numPages committedPages) := by
    refine LocalTo.modifyAll (fun i hi => ?_) _
    have hmem := Int.mem_range_iff.mp hi
    simp only [remainingPages] at hmem
    exact ⟨by omega, by split at hmem <;> omega⟩
  by_cases hpos : remainingPages numPages committedPages > 0
  · simp only [commitAndReleasePages, hpos, if_true]
    exact hcommit.comp hrelease
  · simp only [commitAndReleasePages, hpos, if_false]
    exact hcommit

/-- A commit of accepted tokens on the table; no tokens leave the pages as they are. -/
def commitPages (req : RequestDescriptor φ) (pageSizeTokens accepted : Int) (kv : KVPageTable φ) :
    KVPageTable φ :=
  if accepted = 0 then kv
  else
    let committedPages := coveredPages pageSizeTokens req.kvNumPages accepted
    commitAndReleasePages kv req.kvTableOffset committedPages
      (remainingPages req.kvNumPages committedPages)

theorem localTo_commitPages {req : RequestDescriptor φ} (hpages : 0 ≤ req.kvNumPages)
    {pageSizeTokens accepted : Int} (hps : 1 ≤ pageSizeTokens) (ha : 0 ≤ accepted) :
    LocalTo req.kvTableOffset req.kvNumPages (commitPages req pageSizeTokens accepted) := by
  have hcovered : LocalTo req.kvTableOffset req.kvNumPages fun kv : KVPageTable φ =>
      commitAndReleasePages kv req.kvTableOffset (coveredPages pageSizeTokens req.kvNumPages accepted)
        (remainingPages req.kvNumPages (coveredPages pageSizeTokens req.kvNumPages accepted)) :=
    localTo_commitAndReleasePages (coveredPages_nonneg hps hpages ha) (coveredPages_le _ _ _)
  by_cases h0 : accepted = 0
  · have hkeep : commitPages req pageSizeTokens accepted = fun kv => kv := by
      funext kv
      rw [commitPages, if_pos h0]
    exact hkeep ▸ LocalTo.id
  · have hcommit : commitPages req pageSizeTokens accepted = fun kv =>
        commitAndReleasePages kv req.kvTableOffset
          (coveredPages pageSizeTokens req.kvNumPages accepted)
          (remainingPages req.kvNumPages (coveredPages pageSizeTokens req.kvNumPages accepted)) := by
      funext kv
      rw [commitPages, if_neg h0]
    exact hcommit ▸ hcovered

theorem gatherSelected_congr {launch : GatherLaunch} {req : RequestDescriptor φ}
    {kv kv' : KVPageTable φ}
    (h : SameRegion req.kvTableOffset req.kvNumPages kv kv') :
    gatherSelected launch req kv = gatherSelected launch req kv' := by
  rw [gatherSelected, gatherSelected, ← h.numEntries]
  refine List.foldl_ext _ _ _ fun acc i hi => ?_
  rw [addSelected, addSelected, h.entries i (inRegion_of_mem_pageIndices hi)]

section
variable [DeviceFloat φ] {req : RequestDescriptor φ}

theorem bestPage_congr {kv kv' : KVPageTable φ}
    (h : SameRegion req.kvTableOffset req.kvNumPages kv kv') : bestPage req kv = bestPage req kv' := by
  rw [bestPage, bestPage, ← h.numEntries]
  refine List.foldl_ext _ _ _ fun best i hi => ?_
  rw [pickPage, pickPage, h.entries i (inRegion_of_mem_pageIndices hi)]

theorem localTo_selectRounds (hoff : 0 ≤ req.kvTableOffset) (decodeStep : Int) (n : Nat)
    (rank : Int) :
    LocalTo req.kvTableOffset req.kvNumPages (selectRounds req decodeStep n rank) := by
  induction n generalizing rank with
  | zero => exact LocalTo.id
  | succ n ih =>
    refine LocalTo.choose (q := bestPage req) (F := fun best kv =>
      if best.1 < 0 then kv
      else selectRounds req decodeStep n (rank + 1)
        (kv.modify best.1 (KVPageEntry.markPageSelected best.2 decodeStep rank)))
      bestPage_congr fun kv => ?_
    obtain ⟨hneg, -⟩ | ⟨hpos, hmem, -⟩ := bestPage_spec hoff kv
    · simp only [hneg, if_true]
      exact LocalTo.id
    · simp only [not_lt.mpr hpos, if_false]
      exact (LocalTo.modify (inRegion_of_mem_pageIndices hmem) _).comp (ih (rank + 1))

theorem localTo_selectSparseKvBlocks (hoff : 0 ≤ req.kvTableOffset) (topK : Int) :
    LocalTo req.kvTableOffset req.kvNumPages fun kv => selectSparseKvBlocks req kv topK := by
  have hscore : LocalTo req.kvTableOffset req.kvNumPages
      (scorePages req (req.promptLen + req.decodePos)) :=
    LocalTo.choose (q := KVPageTable.numEntries) (F := fun n kv =>
      kv.modifyAll (req.pageIndices n) fun entry => { entry.clearPageSelected with
        score := sparseKvPageScore entry.clearPageSelected (req.promptLen + req.decodePos) })
      (fun h => h.numEntries) fun kv =>
        LocalTo.modifyAll (fun _ hi => inRegion_of_mem_pageIndices hi) _
  exact hscore.comp (localTo_selectRounds hoff _ _ 0)

end
end ResidentInference.Device

import ResidentInference.KVCalls
import ResidentInference.KVAllocation

/-! The primitive changes that every call of the cache is made of: what they keep, the calls keep. -/
namespace ResidentInference.KVCache
variable {P : KVCache → Prop} {c : KVCache}

/-- The primitive changes of the cache, apart from a touch, keep `P`. -/
structure Closed (P : KVCache → Prop) : Prop where
  dropPage : ∀ {c} pid, P c → P (c.dropPage pid)
  table : ∀ {c : KVCache} table, P c → P { c with pageTable := table }
  evicted : ∀ {c : KVCache} bytes count, P c →
    P { c with evictedKvBytes := bytes, evictionCount := count }
  allocateOnePage : ∀ {c : KVCache} (r l start count : Int) (pinned : Bool), count ≤ c.pageSize →
    P c → P (c.allocateOnePage r l start count pinned).2
  updatePage : ∀ {c f} pid, Retag f → P c → P (updatePage f c pid)
  pinPage : ∀ {c} pid, P c → P (c.pinPage pid)
  unpinPage : ∀ {c} pid, P c → P (c.unpinPage pid)
  clampCounters : ∀ {c}, P c → P c.clampCounters

namespace Closed

theorem foldl {α : Type} {f : KVCache → α → KVCache} (hf : ∀ c a, P c → P (f c a)) (l : List α)
    (hc : P c) : P (l.foldl f c) := by
  induction l generalizing c with
  | nil => exact hc
  | cons a l ih => exact ih (hf c a hc)

variable (h : Closed P)
include h

theorem evictSinglePage (pid : Nat) (hc : P c) : P (c.evictSinglePage pid) := by
  unfold KVCache.evictSinglePage
  cases c.pages.get? pid with
  | none => exact hc
  | some page =>
    dsimp only
    rw [unlinkPage_eq]
    exact h.evicted _ _ (h.dropPage pid (h.table _ hc))

theorem evictAll (gone : List Nat) (hc : P c) : P (c.evictAll gone) :=
  foldl (fun _ pid hc => h.evictSinglePage pid hc) gone hc

theorem evictLru (n : Int) (hc : P c) : P (c.evictLru n).1 := by
  rw [evictLru_eq]
  exact h.evictAll _ hc

theorem makeRoom (needed : Int) (hc : P c) : P (c.makeRoom needed) := by
  rw [makeRoom_eq]
  exact h.evictAll _ hc

theorem allocatePages (r l total : Int) (pinned : Bool) (n : Nat) (start : Int) (ids : List Nat)
    (hc : P c) : P (allocatePages r l total pinned n start c ids).1 := by
  induction n generalizing start c ids with
  | zero => exact hc
  | succ n ih =>
    rw [allocatePages_succ]
    exact ih _ _ (h.allocateOnePage r l start _ pinned (min_le_left _ _) hc)

theorem allocateLayers (r total : Int) (pinned : Bool) (layers : List Int) (m : LayerPageMap)
    (hc : P c) : P (allocateLayers r total pinned layers c m).1 := by
  induction layers generalizing c m with
  | nil => exact hc
  | cons l layers ih =>
    rw [allocateLayers_cons]
    apply ih
    simp only [allocateLayer]
    split
    · exact h.allocatePages r l total pinned _ _ _ hc
    · exact hc

theorem allocateForRequest (r : RequestState) (total : Int) (pinned : Bool) (hc : P c) :
    P (c.allocateForRequest r total pinned).2 := by
  unfold KVCache.allocateForRequest
  cases c.pagesNeeded r total with
  | error e => exact hc
  | ok needed =>
    have hroom := h.makeRoom needed hc
    dsimp only
    split
    · exact hroom
    · exact h.allocateLayers _ _ _ _ _ hroom

theorem updateListed {f : KVPage → KVPage} (hf : Retag f) (r : Int) (layers : List Int)
    (hc : P c) : P (updateListed f c r layers) :=
  foldl (fun _ _ hc => foldl (fun _ pid hc => h.updatePage pid hf hc) _ hc) layers hc

theorem commitTokens (r : RequestState) (n : Int) (pin : Bool) (hc : P c) :
    P (c.commitTokens r n pin).2 :=
  commitTokens_rec (h.allocateForRequest r _ pin hc) fun _ => h.updateListed retag_commit _ _

theorem allocateDraftPages (r : RequestState) (n : Int) (hc : P c) :
    P (c.allocateDraftPages r n).2 :=
  allocateDraftPages_rec (h.allocateForRequest r _ true hc) fun _ =>
    h.updateListed retag_markDraft _ _

theorem ensureCapacity (r : RequestState) (n : Int) (hc : P c) : P (c.ensureCapacity r n).2 := by
  unfold KVCache.ensureCapacity
  cases c.pagesNeeded r (r.currentTokens + n) with
  | error e => exact hc
  | ok needed =>
    have hroom := h.makeRoom needed hc
    dsimp only
    split <;> exact hroom

theorem releaseDraftLayer (r l : Int) (hc : P c) : P (releaseDraftLayer r c l) := by
  have hpage : ∀ c pid, P c → P (releaseDraftPage (r, l) c pid) := by
    intro c pid hc
    unfold releaseDraftPage delistPage
    dsimp only
    split
    · exact h.dropPage pid (h.table _ hc)
    · exact h.dropPage pid hc
  have hall := foldl hpage ((c.pageIdsFor (r, l)).filter c.isDraftPage) hc
  unfold KVCache.releaseDraftLayer popIfEmpty
  dsimp only
  split
  · exact h.table _ hall
  · exact hall

theorem releaseRequest (r : Int) (hc : P c) : P (c.releaseRequest r) := by
  refine h.clampCounters (foldl (fun c key hc => ?_) _ hc)
  exact foldl (fun _ pid hc => h.dropPage pid hc) _ (h.table _ hc)

theorem pinPages (ids : List Nat) (hc : P c) : P (c.pinPages ids) :=
  foldl (fun _ pid hc => h.pinPage pid hc) ids hc

theorem unpinPages (ids : List Nat) (hc : P c) : P (c.unpinPages ids) :=
  foldl (fun _ pid hc => h.unpinPage pid hc) ids hc

theorem markSelection (config : RuntimeConfig) (r : RequestState) (decodeStep : Int) (hc : P c) :
    P (c.markSelection config r decodeStep) :=
  markSelection_rec config r decodeStep hc fun _ _ pid hf hc => h.updatePage pid hf hc

/-- What the primitives and the touches keep, every call keeps, also one that raises. -/
theorem call (htouch : ∀ c pid, P c → P (c.touchPage pid)) (call : CacheCall) (hc : P c) :
    P (call.apply c).2 := by
  cases call with
  | select config r decodeStep => exact h.markSelection config r decodeStep hc
  | operation op =>
    cases op with
    | allocateForRequest r total pinned =>
      simpa only [CacheCall.apply, KVOp.apply, raised_snd] using
        h.allocateForRequest r total pinned hc
    | commitTokens r n pin =>
      simpa only [CacheCall.apply, KVOp.apply, raised_snd] using h.commitTokens r n pin hc
    | allocateDraftPages r n =>
      simpa only [CacheCall.apply, KVOp.apply, raised_snd] using h.allocateDraftPages r n hc
    | acceptDraftPages r layers => exact h.updateListed retag_acceptDraft r layers hc
    | releaseDraftPages r layers => exact foldl (fun _ l hc => h.releaseDraftLayer r l hc) layers hc
    | releaseRequest r => exact h.releaseRequest r hc
    | evictLru n => exact h.evictLru n hc
    | ensureCapacity r n =>
      simpa only [CacheCall.apply, KVOp.apply, raised_snd] using h.ensureCapacity r n hc
    | pinPages ids => exact h.pinPages ids hc
    | unpinPages ids => exact h.unpinPages ids hc
    | touchPages ids => exact foldl htouch ids hc

theorem runCalls (htouch : ∀ c pid, P c → P (c.touchPage pid)) (calls : List CacheCall)
    (hc : P c) : P (c.runCalls calls) :=
  foldl (fun _ call hc => h.call htouch call hc) calls hc

end Closed
end ResidentInference.KVCache

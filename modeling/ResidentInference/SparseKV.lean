import ResidentInference.KVFrame
import Mathlib.Data.List.Sort

/-! The sparse selector: the top-k committed pages of a request by score. -/
namespace ResidentInference

structure SparseKVSelection where
  pageIds : List Nat
  totalBlocks : Int
  selectedBlocks : Int
  estimatedKvBytesRead : Int
  estimatedKvBytesSaved : Int

namespace KVPage

/-- The source converts the score to a double, exactly for every score below 2^53. -/
def scoreAt (page : KVPage) (decodeTokens : Int) : Int :=
  page.tokenCount * 10000 - |page.tokenStart + page.tokenCount - decodeTokens| * 100 - page.layerId

def isActive (page : KVPage) : Bool := page.isCommitted && !page.isDraft

def resetSelection (decodeStep : Int) (page : KVPage) : KVPage :=
  { page with
    selected := false
    sparseRank := -1
    score := if page.lastSelectedStep = decodeStep then page.score else 0 }

def setScore (decodeTokens : Int) (page : KVPage) : KVPage :=
  { page with score := page.scoreAt decodeTokens }

def markSelected (decodeStep : Int) (rank : Nat) (page : KVPage) : KVPage :=
  { page with selected := true, lastSelectedStep := decodeStep, sparseRank := rank }

/-- The order of `(-score, layer_id, token_start, page_id)`. -/
def RanksBefore (p q : KVPage) : Prop :=
  q.score < p.score ∨ q.score = p.score ∧
    (p.layerId < q.layerId ∨ p.layerId = q.layerId ∧
      (p.tokenStart < q.tokenStart ∨ p.tokenStart = q.tokenStart ∧ p.pageId ≤ q.pageId))

instance : DecidableRel RanksBefore := fun _ _ => inferInstanceAs (Decidable (_ ∨ _))

end KVPage

namespace KVCache

/-- The active pages of the request with their scores, best first. -/
def rankedPages (c : KVCache) (r : RequestState) : List KVPage :=
  (((c.pagesForRequest r.requestId).filter KVPage.isActive).map
    (KVPage.setScore r.currentTokens)).insertionSort KVPage.RanksBefore

def selectedPages (c : KVCache) (config : RuntimeConfig) (r : RequestState) : List KVPage :=
  (c.rankedPages r).take (max 0 (min config.sparseTopK (c.rankedPages r).length)).toNat

/-- What the selection writes into the pages of the request. -/
def markSelection (c : KVCache) (config : RuntimeConfig) (r : RequestState) (decodeStep : Int) :
    KVCache :=
  let allPages := c.pagesForRequest r.requestId
  let reset := allPages.foldl (fun c' page =>
    updatePage (KVPage.resetSelection decodeStep) c' page.pageId) c
  let scored := (allPages.filter KVPage.isActive).foldl (fun c' page =>
    updatePage (KVPage.setScore r.currentTokens) c' page.pageId) reset
  (c.selectedPages config r).zipIdx.foldl (fun c' p =>
    updatePage (KVPage.markSelected decodeStep p.2) c' p.1.pageId) scored

/-- `SparseKVSelector.select` -/
def select (c : KVCache) (config : RuntimeConfig) (r : RequestState) (decodeStep : Int) :
    SparseKVSelection × KVCache :=
  let totalBlocks := ((c.pagesForRequest r.requestId).filter KVPage.isActive).length
  let selectedPages := c.selectedPages config r
  let bytesPerPage := config.kvBlockSize * config.bytesPerTokenPerLayer
  ({ pageIds := selectedPages.map KVPage.pageId
     totalBlocks := totalBlocks
     selectedBlocks := selectedPages.length
     estimatedKvBytesRead := selectedPages.length * bytesPerPage
     estimatedKvBytesSaved := max ((totalBlocks : Int) - selectedPages.length) 0 * bytesPerPage },
    c.markSelection config r decodeStep)

variable {c : KVCache}

theorem retag_resetSelection (decodeStep : Int) : Retag (KVPage.resetSelection decodeStep) := by
  constructor <;> intro page <;> simp [KVPage.resetSelection, KVPage.key]

theorem retag_setScore (decodeTokens : Int) : Retag (KVPage.setScore decodeTokens) := by
  constructor <;> intro page <;> simp [KVPage.setScore, KVPage.key]

theorem retag_markSelected (decodeStep : Int) (rank : Nat) :
    Retag (KVPage.markSelected decodeStep rank) := by
  constructor <;> intro page <;> simp [KVPage.markSelected, KVPage.key]

/-- A property of caches that no retagging of a page changes survives the selection. -/
theorem markSelection_rec {P : KVCache → Prop} (config : RuntimeConfig) (r : RequestState)
    (decodeStep : Int) (h : P c)
    (hstep : ∀ c f pid, Retag f → P c → P (updatePage f c pid)) :
    P (c.markSelection config r decodeStep) := by
  refine List.foldlRecOn (motive := P) _ _ (List.foldlRecOn (motive := P) _ _
    (List.foldlRecOn (motive := P) _ _ h ?_) ?_) ?_
  · intro c hc page _
    exact hstep c _ _ (retag_resetSelection decodeStep) hc
  · intro c hc page _
    exact hstep c _ _ (retag_setScore r.currentTokens) hc
  · intro c hc p _
    exact hstep c _ _ (retag_markSelected decodeStep p.2) hc

theorem Rep.markSelection (h : Inv c) (config : RuntimeConfig) (r : RequestState)
    (decodeStep : Int) : Inv (c.markSelection config r decodeStep) :=
  markSelection_rec config r decodeStep h fun _ _ pid hf hc => hc.updatePage hf pid

theorem evolves_markSelection (grow : Int → Prop) (c : KVCache) (config : RuntimeConfig)
    (r : RequestState) (decodeStep : Int) :
    Evolves grow c (c.markSelection config r decodeStep) :=
  markSelection_rec (P := Evolves grow c) config r decodeStep (Evolves.refl grow c)
    fun c' _ pid hf hc => hc.trans (evolves_updatePage grow hf c' pid)

/-- The pages listed for a request are live and belong to it. -/
theorem Rep.mem_pagesForRequest (h : Inv c) {rid : Int} {page : KVPage}
    (hp : page ∈ c.pagesForRequest rid) :
    c.pages.get? page.pageId = some page ∧ page.requestId = rid := by
  obtain ⟨pid, hm, hget⟩ := List.mem_filterMap.mp hp
  obtain ⟨⟨key, ids⟩, he, hin⟩ := List.mem_flatMap.mp hm
  have hid := h.linked.pageId pid page hget
  subst hid
  refine ⟨hget, ?_⟩
  dsimp only at hin
  split at hin
  · next hr =>
    have hk := (Dict.get?_eq_some_iff _ _ _).mpr he
    obtain ⟨_, page', hget', hkey⟩ :=
      h.linked.live key page.pageId (pageIdsFor_of_get? hk ▸ hin)
    rw [hget] at hget'
    obtain rfl := Option.some.inj hget'
    rw [← hr, ← hkey]
    rfl
  · cases hin

theorem Rep.mem_select (h : Inv c) {config : RuntimeConfig} {r : RequestState} {pid : Nat}
    (hp : pid ∈ (c.selectedPages config r).map KVPage.pageId) :
    ∃ page, c.pages.get? pid = some page ∧ page.requestId = r.requestId := by
  obtain ⟨page, hpage, rfl⟩ := List.mem_map.mp hp
  have hranked := List.mem_of_mem_take hpage
  rw [rankedPages, List.mem_insertionSort] at hranked
  obtain ⟨page', hpage', rfl⟩ := List.mem_map.mp hranked
  exact ⟨page', h.mem_pagesForRequest (List.mem_of_mem_filter hpage')⟩

end KVCache
end ResidentInference

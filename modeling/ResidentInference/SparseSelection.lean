import ResidentInference.DraftDiscard
import ResidentInference.SparseKV
import Mathlib.Data.Prod.Lex

/-! What the sparse selector picks, what it writes into the pages of the request, and the bytes it
counts. -/
namespace ResidentInference
namespace KVPage

/-- The key that the source sorts by. -/
def sortKey (page : KVPage) : ℤ ×ₗ ℤ ×ₗ ℤ ×ₗ ℕ :=
  toLex (-page.score, toLex (page.layerId, toLex (page.tokenStart, page.pageId)))

theorem ranksBefore_iff (p q : KVPage) : RanksBefore p q ↔ p.sortKey ≤ q.sortKey := by
  simp only [RanksBefore, sortKey, Prod.Lex.le_iff, ofLex_toLex, neg_lt_neg_iff, neg_inj,
    eq_comm (a := q.score)]

instance : Std.Total RanksBefore :=
  ⟨fun p q => by simpa only [ranksBefore_iff] using le_total p.sortKey q.sortKey⟩

instance : IsTrans KVPage RanksBefore :=
  ⟨fun p q s => by simpa only [ranksBefore_iff] using le_trans⟩

/-- `RanksBefore` with the scores of a request that holds `decodeTokens` tokens. -/
def RanksBeforeAt (decodeTokens : Int) (p q : KVPage) : Prop :=
  (p.setScore decodeTokens).RanksBefore (q.setScore decodeTokens)

instance (decodeTokens : Int) : DecidableRel (RanksBeforeAt decodeTokens) :=
  fun _ _ => inferInstanceAs (Decidable (RanksBefore _ _))

instance (decodeTokens : Int) : Std.Total (RanksBeforeAt decodeTokens) :=
  ⟨fun p q => total_of RanksBefore (p.setScore decodeTokens) (q.setScore decodeTokens)⟩

instance (decodeTokens : Int) : IsTrans KVPage (RanksBeforeAt decodeTokens) :=
  ⟨fun _ _ _ => trans_of RanksBefore⟩

end KVPage

namespace KVCache
variable {c : KVCache}

/-! ### The pages of a request -/

theorem Rep.mem_pagesForRequest_iff (h : Inv c) {rid : Int} {page : KVPage} :
    page ∈ c.pagesForRequest rid ↔
      c.pages.get? page.pageId = some page ∧ page.requestId = rid := by
  refine ⟨h.mem_pagesForRequest, ?_⟩
  rintro ⟨hget, rfl⟩
  have hlisted := (h.linked.listed _ page hget).resolve_right id
  exact List.mem_filterMap.mpr ⟨page.pageId, mem_listedIds hlisted, hget⟩

/-- The request has a live page with that id. -/
def HasPage (c : KVCache) (rid : Int) (pid : Nat) : Prop :=
  ∃ page, c.pages.get? pid = some page ∧ page.requestId = rid

theorem HasPage.updatePage {f : KVPage → KVPage} {rid : Int} {q : Nat} (h : HasPage c rid q)
    (hf : Retag f) (pid : Nat) : HasPage (KVCache.updatePage f c pid) rid q := by
  obtain ⟨page, hget, hr⟩ := h
  by_cases hq : q = pid
  · refine ⟨f page, ?_, (hf.samePage page).requestId.trans hr⟩
    rw [KVCache.updatePage, Dict.get?_modify, if_pos hq, hget]
    rfl
  · exact ⟨page, by rw [KVCache.updatePage, Dict.get?_modify, if_neg hq, hget], hr⟩

theorem HasPage.of_updatePage {f : KVPage → KVPage} {rid : Int} {pid q : Nat}
    (h : HasPage (KVCache.updatePage f c pid) rid q) (hf : Retag f) : HasPage c rid q := by
  obtain ⟨page, hget, hr⟩ := h
  obtain ⟨old, hold, rfl | rfl⟩ := get?_modify_cases hget
  · exact ⟨_, hold, hr⟩
  · exact ⟨old, hold, (hf.samePage old).requestId.symm.trans hr⟩

/-- The selection neither adds nor removes a page. -/
theorem hasPage_markSelection (c : KVCache) (config : RuntimeConfig) (r : RequestState)
    (decodeStep rid : Int) (pid : Nat) :
    HasPage (c.markSelection config r decodeStep) rid pid ↔ HasPage c rid pid :=
  markSelection_rec (P := fun c' => HasPage c' rid pid ↔ HasPage c rid pid) config r decodeStep
    Iff.rfl fun _ _ q hf hc =>
      ⟨fun h => hc.mp (h.of_updatePage hf), fun h => (hc.mpr h).updatePage hf q⟩

theorem Rep.mem_pageIds_iff (h : Inv c) {rid : Int} {pid : Nat} :
    pid ∈ (c.pagesForRequest rid).map KVPage.pageId ↔ HasPage c rid pid := by
  refine ⟨fun hm => ?_, fun ⟨page, hget, hr⟩ => ?_⟩
  · obtain ⟨page, hpage, rfl⟩ := List.mem_map.mp hm
    exact ⟨page, h.mem_pagesForRequest hpage⟩
  · have hid := h.linked.pageId pid page hget
    subst hid
    exact List.mem_map_of_mem (h.mem_pagesForRequest_iff.mpr ⟨hget, hr⟩)

theorem listedIds_sublist (c : KVCache) (rid : Int) :
    (c.listedIds rid).Sublist c.pageTable.values.flatten := by
  unfold listedIds Dict.values
  rw [← List.flatMap_def]
  induction c.pageTable.items with
  | nil => exact List.Sublist.refl _
  | cons entry items ih =>
    rw [List.flatMap_cons, List.flatMap_cons]
    refine List.Sublist.append ?_ ih
    split
    · exact List.Sublist.refl _
    · exact List.nil_sublist _

theorem Rep.nodup_pageIds (h : Inv c) (rid : Int) :
    ((c.pagesForRequest rid).map KVPage.pageId).Nodup := by
  have hids : ((c.pagesForRequest rid).map KVPage.pageId).Sublist (c.listedIds rid) := by
    unfold pagesForRequest
    induction c.listedIds rid with
    | nil => exact List.Sublist.refl _
    | cons pid ids ih =>
      cases hget : c.pages.get? pid with
      | none =>
        rw [List.filterMap_cons_none hget]
        exact ih.cons pid
      | some page =>
        rw [List.filterMap_cons_some hget, List.map_cons, h.linked.pageId pid page hget]
        exact ih.cons_cons pid
  exact (hids.trans (listedIds_sublist c rid)).nodup h.linked.nodup_table

/-! ### The ranking -/

/-- The live pages of the request that attention may read. -/
structure Selectable (c : KVCache) (rid : Int) (page : KVPage) : Prop where
  live : c.pages.get? page.pageId = some page
  owner : page.requestId = rid
  committed : page.isCommitted = true
  notDraft : page.isDraft = false

/-- The active pages of the request as they are stored, best first. -/
def activePages (c : KVCache) (r : RequestState) : List KVPage :=
  ((c.pagesForRequest r.requestId).filter KVPage.isActive).insertionSort
    (KVPage.RanksBeforeAt r.currentTokens)

theorem rankedPages_eq (c : KVCache) (r : RequestState) :
    c.rankedPages r = (c.activePages r).map (KVPage.setScore r.currentTokens) :=
  (List.map_insertionSort (KVPage.RanksBeforeAt r.currentTokens) KVPage.RanksBefore
    (KVPage.setScore r.currentTokens) _ fun _ _ _ _ => Iff.rfl).symm

theorem Rep.mem_activePages (h : Inv c) {r : RequestState} {page : KVPage} :
    page ∈ c.activePages r ↔ Selectable c r.requestId page := by
  rw [activePages, List.mem_insertionSort, List.mem_filter, h.mem_pagesForRequest_iff,
    KVPage.isActive, Bool.and_eq_true, Bool.not_eq_true']
  exact ⟨fun ⟨⟨hget, hr⟩, hc, hd⟩ => ⟨hget, hr, hc, hd⟩,
    fun hs => ⟨⟨hs.live, hs.owner⟩, hs.committed, hs.notDraft⟩⟩

theorem Rep.nodup_activeIds (h : Inv c) (r : RequestState) :
    ((c.activePages r).map KVPage.pageId).Nodup := by
  have hperm := (List.perm_insertionSort (KVPage.RanksBeforeAt r.currentTokens)
    ((c.pagesForRequest r.requestId).filter KVPage.isActive)).map KVPage.pageId
  exact hperm.nodup_iff.mpr ((List.filter_sublist.map _).nodup (h.nodup_pageIds r.requestId))

/-- The ids that the selection returns. -/
theorem selectedIds_eq (c : KVCache) (config : RuntimeConfig) (r : RequestState) :
    (c.selectedPages config r).map KVPage.pageId =
      ((c.activePages r).take
        (max 0 (min config.sparseTopK (c.activePages r).length)).toNat).map KVPage.pageId := by
  simp only [selectedPages, rankedPages_eq, List.length_map, ← List.map_take, List.map_map]
  rfl

theorem Rep.nodup_selectedIds (h : Inv c) (config : RuntimeConfig) (r : RequestState) :
    ((c.selectedPages config r).map KVPage.pageId).Nodup := by
  rw [selectedIds_eq, List.map_take]
  exact (h.nodup_activeIds r).sublist (List.take_sublist _ _)

/-! ### The marks -/

/-- The marks of the pages of a request are those of the selection `ids`. -/
structure Marked (c : KVCache) (rid : Int) (ids : List Nat) : Prop where
  live : ∀ pid ∈ ids, HasPage c rid pid
  chosen : ∀ (k pid : Nat) (page : KVPage), ids[k]? = some pid → c.pages.get? pid = some page →
    page.selected = true ∧ page.sparseRank = k
  others : ∀ pid page, c.pages.get? pid = some page → page.requestId = rid → pid ∉ ids →
    page.selected = false ∧ page.sparseRank = -1

theorem resetSelection_idem (decodeStep : Int) (page : KVPage) :
    (page.resetSelection decodeStep).resetSelection decodeStep = page.resetSelection decodeStep := by
  unfold KVPage.resetSelection
  split <;> rfl

/-- The first loop leaves no mark on a page of the request. -/
theorem Rep.marked_reset (h : Inv c) (rid decodeStep : Int) :
    Marked ((c.pagesForRequest rid).foldl (fun c' page =>
      KVCache.updatePage (KVPage.resetSelection decodeStep) c' page.pageId) c) rid [] where
  live := fun _ hp => absurd hp List.not_mem_nil
  chosen := fun _ _ _ hk => by simp at hk
  others := by
    intro pid page hget hr _
    have hreset := updatePages_get? (resetSelection_idem decodeStep)
      ((c.pagesForRequest rid).map KVPage.pageId) c pid
    rw [List.foldl_map] at hreset
    rw [hreset] at hget
    by_cases hm : pid ∈ (c.pagesForRequest rid).map KVPage.pageId
    · rw [if_pos hm] at hget
      obtain ⟨old, -, rfl⟩ := Option.map_eq_some_iff.mp hget
      exact ⟨rfl, rfl⟩
    · rw [if_neg hm] at hget
      exact absurd (h.mem_pageIds_iff.mpr ⟨page, hget, hr⟩) hm

/-- The second loop changes no mark. -/
theorem Marked.score {rid : Int} {ids : List Nat} (hm : Marked c rid ids) (decodeTokens : Int)
    (pid : Nat) : Marked (updatePage (KVPage.setScore decodeTokens) c pid) rid ids where
  live := fun q hq => (hm.live q hq).updatePage (retag_setScore decodeTokens) pid
  chosen := by
    intro k q page hk hget
    obtain ⟨old, hold, rfl | rfl⟩ := get?_modify_cases hget
    · exact hm.chosen k q _ hk hold
    · exact hm.chosen k q old hk hold
  others := by
    intro q page hget hr hq
    obtain ⟨old, hold, rfl | rfl⟩ := get?_modify_cases hget
    · exact hm.others q _ hold hr hq
    · exact hm.others q old hold hr hq

/-- The third loop gives the next rank to a page that has none. -/
theorem Marked.mark {rid : Int} {ids : List Nat} (hm : Marked c rid ids) (decodeStep : Int)
    {pid : Nat} (hpid : HasPage c rid pid) (hnew : pid ∉ ids) :
    Marked (updatePage (KVPage.markSelected decodeStep ids.length) c pid) rid (ids ++ [pid]) where
  live := by
    intro q hq
    rw [List.mem_append, List.mem_singleton] at hq
    have hlive : HasPage c rid q := by
      obtain hq | rfl := hq
      · exact hm.live q hq
      · exact hpid
    exact hlive.updatePage (retag_markSelected decodeStep ids.length) pid
  chosen := by
    intro k q page hk hget
    rw [updatePage, Dict.get?_modify] at hget
    obtain hlt | rfl | hgt := lt_trichotomy k ids.length
    · rw [List.getElem?_append_left hlt] at hk
      have hne : q ≠ pid := fun he => hnew (he ▸ List.mem_of_getElem? hk)
      rw [if_neg hne] at hget
      exact hm.chosen k q page hk hget
    · rw [List.getElem?_concat_length, Option.some.injEq] at hk
      rw [if_pos hk.symm] at hget
      obtain ⟨old, -, rfl⟩ := Option.map_eq_some_iff.mp hget
      exact ⟨rfl, rfl⟩
    · have hlen : (ids ++ [pid]).length ≤ k := by
        rw [List.length_append, List.length_singleton]
        exact hgt
      rw [List.getElem?_eq_none hlen] at hk
      cases hk
  others := by
    intro q page hget hr hq
    rw [List.mem_append, List.mem_singleton, not_or] at hq
    rw [updatePage, Dict.get?_modify, if_neg hq.2] at hget
    exact hm.others q page hget hr hq.1

theorem Marked.marks {rid : Int} {ids : List Nat} (hm : Marked c rid ids) (decodeStep : Int)
    {pages : List KVPage} (hlive : ∀ page ∈ pages, HasPage c rid page.pageId)
    (hn : (ids ++ pages.map KVPage.pageId).Nodup) :
    Marked ((pages.zipIdx ids.length).foldl (fun c' p =>
      updatePage (KVPage.markSelected decodeStep p.2) c' p.1.pageId) c) rid
        (ids ++ pages.map KVPage.pageId) := by
  induction pages generalizing c ids with
  | nil => simpa using hm
  | cons page pages ih =>
    rw [List.forall_mem_cons] at hlive
    have hassoc : ids ++ (page :: pages).map KVPage.pageId =
        (ids ++ [page.pageId]) ++ pages.map KVPage.pageId := by
      rw [List.map_cons, List.append_assoc, List.singleton_append]
    have hnew : page.pageId ∉ ids := by
      rw [List.map_cons, List.nodup_append] at hn
      exact fun hin => hn.2.2 _ hin _ List.mem_cons_self rfl
    rw [hassoc] at hn ⊢
    have hrest := ih (hm.mark decodeStep hlive.1 hnew)
      (fun p hp => (hlive.2 p hp).updatePage (retag_markSelected decodeStep _) page.pageId) hn
    rw [List.length_append, List.length_singleton] at hrest
    exact hrest

theorem Rep.marked_select (h : Inv c) (config : RuntimeConfig) (r : RequestState)
    (decodeStep : Int) :
    Marked (c.markSelection config r decodeStep) r.requestId
      ((c.selectedPages config r).map KVPage.pageId) := by
  let P (c' : KVCache) : Prop :=
    Marked c' r.requestId [] ∧ ∀ pid, HasPage c r.requestId pid → HasPage c' r.requestId pid
  have hreset : P ((c.pagesForRequest r.requestId).foldl (fun c' page =>
      KVCache.updatePage (KVPage.resetSelection decodeStep) c' page.pageId) c) := by
    refine ⟨h.marked_reset r.requestId decodeStep, fun pid hp => ?_⟩
    exact List.foldlRecOn (motive := (HasPage · r.requestId pid)) _ _ hp
      fun _ hc page _ => hc.updatePage (retag_resetSelection decodeStep) page.pageId
  have hscored := List.foldlRecOn (motive := P)
    ((c.pagesForRequest r.requestId).filter KVPage.isActive)
    (fun c' page => KVCache.updatePage (KVPage.setScore r.currentTokens) c' page.pageId) hreset
    fun _ hc page _ => ⟨hc.1.score r.currentTokens page.pageId,
      fun pid hp => (hc.2 pid hp).updatePage (retag_setScore r.currentTokens) page.pageId⟩
  refine hscored.1.marks decodeStep (fun page hp => hscored.2 _ ?_) ?_
  · exact h.mem_select (List.mem_map_of_mem hp)
  · exact h.nodup_selectedIds config r

/-! ### The selection -/

/-- What `select` returns for a request, and how it leaves the pages of the request: `ranked` are
the pages that it chooses from. -/
structure TopK (c : KVCache) (config : RuntimeConfig) (r : RequestState) (ranked : List KVPage)
    (selection : SparseKVSelection) (c' : KVCache) : Prop where
  nodup : ranked.Nodup
  candidates : ∀ page, page ∈ ranked ↔ Selectable c r.requestId page
  sorted : ranked.Pairwise (KVPage.RanksBeforeAt r.currentTokens)
  pageIds : selection.pageIds =
    (ranked.take (max 0 (min config.sparseTopK ranked.length)).toNat).map KVPage.pageId
  pages : ∀ rid pid, HasPage c' rid pid ↔ HasPage c rid pid
  marked : Marked c' r.requestId selection.pageIds
  bytes : selection.estimatedKvBytesRead + selection.estimatedKvBytesSaved =
    ranked.length * (config.kvBlockSize * config.bytesPerTokenPerLayer)

theorem length_activePages (c : KVCache) (r : RequestState) :
    (c.activePages r).length = ((c.pagesForRequest r.requestId).filter KVPage.isActive).length :=
  List.length_insertionSort _ _

theorem select_bytes (c : KVCache) (config : RuntimeConfig) (r : RequestState) (decodeStep : Int) :
    (c.select config r decodeStep).1.estimatedKvBytesRead +
        (c.select config r decodeStep).1.estimatedKvBytesSaved =
      (c.activePages r).length * (config.kvBlockSize * config.bytesPerTokenPerLayer) := by
  have hle : (c.selectedPages config r).length ≤ (c.activePages r).length := by
    rw [← List.length_map KVPage.pageId, selectedIds_eq, List.length_map]
    exact List.length_take_le' _ _
  have hmax : max (((c.activePages r).length : Int) - (c.selectedPages config r).length) 0 =
      (c.activePages r).length - (c.selectedPages config r).length := max_eq_left (by omega)
  simp only [select]
  rw [← length_activePages, hmax]
  ring

/-- The selection takes the best of the committed pages of the request, in order, and the marks in
the cache and the byte accounting say the same. -/
theorem select_topK (h : Inv c) (config : RuntimeConfig) (r : RequestState) (decodeStep : Int) :
    ∃ ranked, TopK c config r ranked (c.select config r decodeStep).1
      (c.select config r decodeStep).2 := by
  refine ⟨c.activePages r,
    { nodup := List.Nodup.of_map _ (h.nodup_activeIds r)
      candidates := fun page => h.mem_activePages
      sorted := List.pairwise_insertionSort _ _
      pageIds := selectedIds_eq c config r
      pages := fun rid pid => hasPage_markSelection c config r decodeStep rid pid
      marked := h.marked_select config r decodeStep
      bytes := select_bytes c config r decodeStep }⟩

theorem select_topK_committed :
    let r : RequestState :=
      { requestId := 10, promptTokens := [1, 2, 3], targetTokens := [10, 11], maxNewTokens := 8
        eosTokenId := 0, layerIds := [0, 1] }
    let config : RuntimeConfig := { pageSize := 2, sparseTopK := 2, kvBlockSize := 2 }
    let c := (new 2 32 (some config)).runOps
      [.allocateForRequest r 7 false, .commitTokens r 4 false]
    (c.select config r 0).1.pageIds = [0, 1] ∧
      ∃ ranked, TopK c config r ranked (c.select config r 0).1 (c.select config r 0).2 := by
  refine ⟨by decide, select_topK (inv_runOps 2 32 _ _) _ _ 0⟩

end KVCache
end ResidentInference

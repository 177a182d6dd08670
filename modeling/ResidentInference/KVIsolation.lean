import ResidentInference.KVUses

/-! Requests are isolated in the cache: what an operation made for one request does to the pages of
the others. -/
namespace ResidentInference
namespace KVCache
variable {c c' c'' : KVCache} {rid : Int} {gone gone' : List Nat}

/-! ### The pages of the others -/

/-- The pages of the other requests are those from before without the ones in `gone`, and the
evictions counted since are those of the pages in `gone`. -/
structure Spares (rid : Int) (c c' : KVCache) (gone : List Nat) : Prop where
  pages : ∀ pid page, page.requestId ≠ rid →
    (c'.pages.get? pid = some page ↔ c.pages.get? pid = some page ∧ pid ∉ gone)
  count : c'.evictionCount = c.evictionCount + gone.length

theorem Spares.refl (rid : Int) (c : KVCache) : Spares rid c c [] where
  pages := by simp
  count := (Int.add_zero _).symm

theorem Spares.trans (h : Spares rid c c' gone) (h' : Spares rid c' c'' gone') :
    Spares rid c c'' (gone ++ gone') where
  pages := by
    intro pid page hr
    rw [h'.pages pid page hr, h.pages pid page hr, List.mem_append, not_or, and_assoc]
  count := by
    rw [h'.count, h.count, List.length_append]
    push_cast
    omega

theorem Spares.foldl {α : Type} {f : KVCache → α → KVCache} (hf : ∀ c a, Spares rid c (f c a) [])
    (l : List α) (c : KVCache) : Spares rid c (l.foldl f c) [] :=
  List.foldlRecOn (motive := (Spares rid c · [])) l f (Spares.refl rid c) fun c' hc a _ =>
    hc.trans (hf c' a)

theorem spares_evictLru (rid : Int) (c : KVCache) (n : Int) :
    Spares rid c (c.evictLru n).1 (c.evictLru n).2 where
  pages := by
    intro pid page _
    rw [(evicted_evictLru c n).pages]
    by_cases hm : pid ∈ (c.evictLru n).2
    · simp [hm]
    · simp [hm]
  count := (evicted_evictLru c n).count

/-- A page of the request is rewritten. -/
theorem spares_updatePage {f : KVPage → KVPage} (hf : Retag f) {pid : Nat}
    (ho : ∀ page, c.pages.get? pid = some page → page.requestId = rid) :
    Spares rid c (updatePage f c pid) [] where
  pages := by
    intro q page hr
    have hget : (updatePage f c pid).pages.get? q =
        if q = pid then (c.pages.get? q).map f else c.pages.get? q := Dict.get?_modify _ _ _ _
    rw [hget]
    by_cases hq : q = pid
    · subst hq
      rw [if_pos rfl, Option.map_eq_some_iff]
      constructor
      · rintro ⟨page', hp', rfl⟩
        exact absurd ((hf.samePage page').requestId.trans (ho page' hp')) hr
      · rintro ⟨hp, _⟩
        exact absurd (ho page hp) hr
    · simp [hq]
  count := (Int.add_zero _).symm

/-- A live page with that id belongs to the request. -/
def OwnId (c : KVCache) (rid : Int) (pid : Nat) : Prop :=
  ∀ page, c.pages.get? pid = some page → page.requestId = rid

theorem Spares.ownId (h : Spares rid c c' []) {pid : Nat} (ho : OwnId c rid pid) :
    OwnId c' rid pid := by
  intro page hp
  by_contra hr
  exact hr (ho page ((h.pages pid page hr).mp hp).1)

theorem spares_updatePages {α : Type} {f : α → KVPage → KVPage} {pid : α → Nat}
    (hf : ∀ a, Retag (f a)) {l : List α} (ho : ∀ a ∈ l, OwnId c rid (pid a)) :
    Spares rid c (l.foldl (fun c a => updatePage (f a) c (pid a)) c) [] :=
  List.foldlRecOn (motive := (Spares rid c · [])) l _ (Spares.refl rid c) fun _ hc a ha =>
    hc.trans (spares_updatePage (hf a) (hc.ownId (ho a ha)))

theorem Rep.spares_updateListed {f : KVPage → KVPage} (hf : Retag f) (h : Inv c) (rid : Int)
    (layers : List Int) : Spares rid c (KVCache.updateListed f c rid layers) [] := by
  induction layers generalizing c with
  | nil => exact Spares.refl rid c
  | cons l layers ih =>
    have hlayer : Inv ((c.pageIdsFor (rid, l)).foldl (KVCache.updatePage f) c) :=
      List.foldlRecOn _ _ h fun _ hc pid _ => hc.updatePage hf pid
    have hstep : Spares rid c ((c.pageIdsFor (rid, l)).foldl (KVCache.updatePage f) c) [] := by
      apply spares_updatePages (fun _ => hf)
      intro pid hm page hp
      obtain ⟨page', hp', hr⟩ := h.owned_of_listed hm
      rw [hp] at hp'
      exact Option.some.inj hp' ▸ hr
    exact hstep.trans (ih hlayer)

theorem Rep.spares_markSelection (h : Inv c) (config : RuntimeConfig) (r : RequestState)
    (decodeStep : Int) : Spares r.requestId c (c.markSelection config r decodeStep) [] := by
  have hown : ∀ page ∈ c.pagesForRequest r.requestId, OwnId c r.requestId page.pageId := by
    intro page hm page' hp'
    obtain ⟨hp, hr⟩ := h.mem_pagesForRequest hm
    rw [hp] at hp'
    exact Option.some.inj hp' ▸ hr
  have hreset := spares_updatePages (fun _ => retag_resetSelection decodeStep) hown
  have hactive : ∀ page ∈ (c.pagesForRequest r.requestId).filter KVPage.isActive,
      OwnId c r.requestId page.pageId := fun page hm => hown page (List.mem_of_mem_filter hm)
  have hscored := hreset.trans (spares_updatePages (fun _ => retag_setScore r.currentTokens)
    fun page hm => hreset.ownId (hactive page hm))
  refine hscored.trans (spares_updatePages
    (fun p : KVPage × Nat => retag_markSelected decodeStep p.2) ?_)
  intro p hm
  apply hscored.ownId
  intro page' hp'
  obtain ⟨page, hp, hr⟩ := h.mem_select (List.mem_map_of_mem (List.fst_mem_of_mem_zipIdx hm))
  rw [hp] at hp'
  exact Option.some.inj hp' ▸ hr

theorem Rep.spares_allocateLayers (h : Inv c) (rid total : Int) (pinned : Bool)
    (layers : List Int) (m : LayerPageMap) :
    Spares rid c (KVCache.allocateLayers rid total pinned layers c m).1 [] where
  pages := by
    intro pid page hr
    have ha : Adds rid layers c (KVCache.allocateLayers rid total pinned layers c m).1 :=
      adds_allocateLayers h (fun _ hl => hl) total pinned m
    simp only [List.not_mem_nil, not_false_eq_true, and_true]
    obtain hlt | hle := lt_or_ge pid c.nextPageId
    · rw [ha.old pid hlt]
    · constructor
      · intro hp
        exact absurd (ha.new pid page hle hp).2.1 hr
      · intro hp
        exact absurd (h.linked.below pid (Dict.mem_keys_of_get? hp)) (not_lt.mpr hle)
  count := by
    rw [(retains_allocateLayers rid total pinned layers c m).evictions]
    exact (Int.add_zero _).symm

theorem evictLru_zero (c : KVCache) : (c.evictLru 0).2 = [] := by
  rw [evictLru_eq]
  exact victims_of_nonpos le_rfl

theorem spares_makeRoom (rid : Int) (c : KVCache) (needed : Int) :
    Spares rid c (c.makeRoom needed) (c.evictLru (needed - c.freePages)).2 := by
  have hs := spares_evictLru rid c (needed - c.freePages)
  rw [evictLru_eq] at hs ⊢
  rwa [makeRoom_eq]

/-- An allocation evicts and then adds pages of its own request. -/
theorem Rep.spares_allocateForRequest (h : Inv c) (r : RequestState) (total : Int)
    (pinned : Bool) :
    ∃ n, Spares r.requestId c (c.allocateForRequest r total pinned).2 (c.evictLru n).2 := by
  unfold KVCache.allocateForRequest
  cases c.pagesNeeded r total with
  | error e => exact ⟨0, (evictLru_zero c).symm ▸ Spares.refl _ c⟩
  | ok needed =>
    have hroom := spares_makeRoom r.requestId c needed
    have hgrow := (h.makeRoom needed).spares_allocateLayers r.requestId total pinned r.layerIds
      Dict.empty
    refine ⟨needed - c.freePages, ?_⟩
    dsimp only
    split
    · exact hroom
    · simpa only [List.append_nil] using hroom.trans hgrow

theorem spares_ensureCapacity (c : KVCache) (rid : Int) (r : RequestState) (n : Int) :
    ∃ k, Spares rid c (c.ensureCapacity r n).2 (c.evictLru k).2 := by
  unfold ensureCapacity
  cases c.pagesNeeded r (r.currentTokens + n) with
  | error e => exact ⟨0, (evictLru_zero c).symm ▸ Spares.refl _ c⟩
  | ok needed =>
    have hroom := spares_makeRoom rid c needed
    refine ⟨needed - c.freePages, ?_⟩
    dsimp only
    split <;> exact hroom

theorem releaseDraftPages_evictionCount (c : KVCache) (rid : Int) (layers : List Int) :
    (c.releaseDraftPages rid layers).evictionCount = c.evictionCount := by
  have hpage (key : Int × Int) (c : KVCache) (pid : Nat) :
      (releaseDraftPage key c pid).evictionCount = c.evictionCount := by
    rw [releaseDraftPage, dropPage_evictionCount]
    simp only [delistPage]
    split <;> rfl
  refine List.foldlRecOn (motive := fun c' : KVCache => c'.evictionCount = c.evictionCount)
    layers _ rfl fun c' hc l _ => ?_
  have hpages : (((c'.pageIdsFor (rid, l)).filter c'.isDraftPage).foldl
      (releaseDraftPage (rid, l)) c').evictionCount = c.evictionCount :=
    List.foldlRecOn (motive := fun c' : KVCache => c'.evictionCount = c.evictionCount) _ _ hc
      fun c'' hc'' pid _ => (hpage _ c'' pid).trans hc''
  simp only [releaseDraftLayer, popIfEmpty]
  split
  · exact hpages
  · exact hpages

theorem Rep.spares_releaseDraftPages (h : Inv c) (rid : Int) (layers : List Int) :
    Spares rid c (c.releaseDraftPages rid layers) [] where
  pages := by
    intro pid page hr
    rw [h.releaseDraftPages_get?]
    simp only [List.not_mem_nil, not_false_eq_true, and_true, and_iff_left_iff_imp]
    exact fun _ hd => hr hd.2.1
  count := (releaseDraftPages_evictionCount c rid layers).trans (Int.add_zero _).symm

theorem Rep.spares_releaseRequest (h : Inv c) (rid : Int) :
    Spares rid c (c.releaseRequest rid) [] where
  pages := by
    intro pid page hr
    rw [h.releaseRequest_get?]
    simp [hr]
  count := (releaseRequest_evictionCount c rid).trans (Int.add_zero _).symm

end KVCache

/-- The request for which a call is made. -/
def CacheCall.requestId : CacheCall → Option Int
  | .operation (.allocateForRequest r _ _) => some r.requestId
  | .operation (.commitTokens r _ _) => some r.requestId
  | .operation (.allocateDraftPages r _) => some r.requestId
  | .operation (.releaseDraftPages rid _) => some rid
  | .operation (.acceptDraftPages rid _) => some rid
  | .operation (.releaseRequest rid) => some rid
  | .operation (.ensureCapacity r _) => some r.requestId
  | .select _ r _ => some r.requestId
  | .operation _ => none

/-- The call needs room for pages, and may evict pages for it. -/
def CacheCall.makesRoom : CacheCall → Bool
  | .operation op => op.demand.isSome
  | .select _ _ _ => false

namespace KVCache
variable {c c' : KVCache}

/-- What a call made for the request `rid` does to the other requests: their pages that are live
afterwards are what they were and stand in the lists as they did; the others were unpinned and have
been evicted, and every page evicted meanwhile is counted. -/
structure Isolated (rid : Int) (c c' : KVCache) (gone : List Nat) : Prop where
  page : ∀ pid page, c'.pages.get? pid = some page → page.requestId ≠ rid →
    c.pages.get? pid = some page
  order : ∀ key : Int × Int, key.1 ≠ rid →
    c'.pageIdsFor key = (c.pageIdsFor key).filter (· ∉ gone)
  evicted : ∀ pid page, c.pages.get? pid = some page → page.requestId ≠ rid →
    c'.pages.get? pid = none → pid ∈ gone
  unpinned : ∀ pid ∈ gone, ∃ page, c.pages.get? pid = some page ∧ page.pinned = false
  count : c'.evictionCount = c.evictionCount + gone.length

theorem Spares.isolated (h : Inv c) (h' : Inv c') {rid n : Int}
    (hs : Spares rid c c' (c.evictLru n).2) : Isolated rid c c' (c.evictLru n).2 where
  page := fun pid page hp hr => ((hs.pages pid page hr).mp hp).1
  order := by
    intro key hkey
    apply h'.pageIdsFor_eq ((h.linked.ordered key).filter _)
    intro pid
    rw [h'.mem_pageIdsFor, List.mem_filter, h.mem_pageIdsFor, decide_eq_true_iff]
    constructor
    · rintro ⟨page, hp, rfl⟩
      obtain ⟨hp', hm⟩ := (hs.pages pid page hkey).mp hp
      exact ⟨⟨page, hp', rfl⟩, hm⟩
    · rintro ⟨⟨page, hp, rfl⟩, hm⟩
      exact ⟨page, (hs.pages pid page hkey).mpr ⟨hp, hm⟩, rfl⟩
  evicted := by
    intro pid page hp hr hnone
    by_contra hm
    have hp' := (hs.pages pid page hr).mpr ⟨hp, hm⟩
    rw [hnone] at hp'
    cases hp'
  unpinned := by
    intro pid hm
    rw [evictLru_eq] at hm
    exact unpinned_of_mem_evictionOrder (List.mem_of_mem_take hm)
  count := hs.count

theorem Rep.spares_growth (h : Inv c) {op : KVOp} {r : RequestState} {total : Int}
    (hg : op.growth = some (r, total)) :
    ∃ n, Spares r.requestId c (op.apply c).2 (c.evictLru n).2 := by
  obtain ⟨pinned, f, layers, hf, happ⟩ := op.apply_growth hg c
  obtain ⟨n, hs⟩ := h.spares_allocateForRequest r total pinned
  have hinv := h.allocateForRequest r total pinned
  refine ⟨n, ?_⟩
  rw [happ]
  generalize c.allocateForRequest r total pinned = res at hs hinv ⊢
  obtain ⟨e | m, c'⟩ := res
  · exact hs
  · have hmark := hinv.spares_updateListed hf r.requestId layers
    simpa only [List.append_nil] using hs.trans hmark

/-- What a call takes from the others it evicts, and only if it needs room. -/
theorem Rep.spares_call (h : Inv c) {call : CacheCall} {rid : Int}
    (hr : call.requestId = some rid) :
    ∃ n, Spares rid c (call.apply c).2 (c.evictLru n).2 ∧
      (call.makesRoom = false → (c.evictLru n).2 = []) := by
  have hgrow {op : KVOp} {r : RequestState} {total : Int} (hg : op.growth = some (r, total))
      (hid : r.requestId = rid) (hd : op.demand.isSome = true) :
      ∃ n, Spares rid c (op.apply c).2 (c.evictLru n).2 ∧
        (op.demand.isSome = false → (c.evictLru n).2 = []) := by
    obtain ⟨n, hs⟩ := h.spares_growth hg
    exact ⟨n, hid ▸ hs, fun hno => absurd (hd.symm.trans hno) (by simp)⟩
  have hnone {c' : KVCache} (hs : Spares rid c c' []) :
      ∃ n, Spares rid c c' (c.evictLru n).2 ∧ (call.makesRoom = false → (c.evictLru n).2 = []) :=
    ⟨0, (evictLru_zero c).symm ▸ hs, fun _ => evictLru_zero c⟩
  cases call with
  | select config r decodeStep =>
    obtain rfl := Option.some.inj hr
    exact hnone (h.spares_markSelection config r decodeStep)
  | operation op =>
    cases op with
    | allocateForRequest r total pinned => exact hgrow rfl (Option.some.inj hr) rfl
    | commitTokens r n pin => exact hgrow rfl (Option.some.inj hr) rfl
    | allocateDraftPages r n => exact hgrow rfl (Option.some.inj hr) rfl
    | ensureCapacity r n =>
      obtain ⟨k, hs⟩ := c.spares_ensureCapacity rid r n
      refine ⟨k, ?_, fun hno => absurd hno (by simp [CacheCall.makesRoom, KVOp.demand])⟩
      simpa only [CacheCall.apply, KVOp.apply, raised_snd] using hs
    | acceptDraftPages rid' layers =>
      obtain rfl := Option.some.inj hr
      exact hnone (h.spares_updateListed retag_acceptDraft _ layers)
    | releaseDraftPages rid' layers =>
      obtain rfl := Option.some.inj hr
      exact hnone (h.spares_releaseDraftPages _ layers)
    | releaseRequest rid' =>
      obtain rfl := Option.some.inj hr
      exact hnone (h.spares_releaseRequest _)
    | _ => cases hr

/-- Every call made for a request leaves the other requests alone except for evicting some of their
unpinned pages, and a call that needs no room does not even do that. -/
theorem call_isolates_requests (pageSize maxPages : Int) (config : Option RuntimeConfig)
    (calls : List CacheCall) (hc : (new pageSize maxPages config).runCalls calls = c)
    (call : CacheCall) {rid : Int} (hr : call.requestId = some rid) :
    ∃ n, Isolated rid c (call.apply c).2 (c.evictLru n).2 ∧
      (call.makesRoom = false → (c.evictLru n).2 = []) := by
  have h : Inv c := hc ▸ inv_runCalls pageSize maxPages config calls
  obtain ⟨n, hs, hno⟩ := h.spares_call hr
  exact ⟨n, hs.isolated h (h.applyCall call), hno⟩

theorem growth_isolates_other_request :
    let q : RequestState :=
      { requestId := 1, promptTokens := [5], targetTokens := [], maxNewTokens := 4
        eosTokenId := 0 }
    let c := (new 1 2 none).runCalls [.operation (.allocateForRequest q 2 false)]
    let call : CacheCall := .operation (.allocateForRequest { q with requestId := 2 } 1 true)
    ∃ n, Isolated 2 c (call.apply c).2 (c.evictLru n).2 ∧
      (call.makesRoom = false → (c.evictLru n).2 = []) := by
  intro q c call
  have hc : (new 1 2 none).runCalls [.operation (.allocateForRequest q 2 false)] = c := rfl
  exact call_isolates_requests 1 2 none _ hc call rfl

end KVCache
end ResidentInference

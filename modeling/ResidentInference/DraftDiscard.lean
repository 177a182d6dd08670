import ResidentInference.KVOwnership

/-! Allocating the draft pages of a request and releasing them again: which pages are left, and
exactly when the cache is the one from before. -/
namespace ResidentInference.KVCache
variable {c c' c'' : KVCache}

/-! ### The order of the entries -/

/-- What `c` holds stands in the same order in `c'`. -/
structure KeysWithin (c c' : KVCache) : Prop where
  pages : c.pages.keys.Sublist c'.pages.keys
  lru : c.lru.keys.Sublist c'.lru.keys
  pageTable : c.pageTable.keys.Sublist c'.pageTable.keys

theorem KeysWithin.refl (c : KVCache) : KeysWithin c c :=
  ⟨List.Sublist.refl _, List.Sublist.refl _, List.Sublist.refl _⟩

theorem KeysWithin.trans (h : KeysWithin c c') (h' : KeysWithin c' c'') : KeysWithin c c'' :=
  ⟨h.pages.trans h'.pages, h.lru.trans h'.lru, h.pageTable.trans h'.pageTable⟩

theorem keysWithin_updateListed (f : KVPage → KVPage) (c : KVCache) (rid : Int)
    (layers : List Int) : KeysWithin c (updateListed f c rid layers) := by
  refine List.foldlRecOn (motive := KeysWithin c) layers _ (KeysWithin.refl c) ?_
  intro c₁ h₁ l _
  refine List.foldlRecOn (motive := KeysWithin c) _ _ h₁ ?_
  intro c₂ h₂ pid _
  refine h₂.trans ⟨?_, List.Sublist.refl _, List.Sublist.refl _⟩
  rw [updatePage, Dict.keys_modify]

theorem mem_pageTable_of_listed {key : Int × Int} {pid : Nat} (h : pid ∈ c.pageIdsFor key) :
    key ∈ c.pageTable.keys := by
  by_contra hk
  rw [pageIdsFor_of_not_mem hk] at h
  cases h

theorem keysWithin_dropPage (c : KVCache) (pid : Nat) : KeysWithin (c.dropPage pid) c := by
  unfold dropPage
  split
  · exact ⟨List.Sublist.refl _, Dict.keys_erase_sublist _ _, List.Sublist.refl _⟩
  · exact ⟨Dict.keys_erase_sublist _ _, Dict.keys_erase_sublist _ _, List.Sublist.refl _⟩

theorem keysWithin_delistPage (c : KVCache) (key : Int × Int) (pid : Nat) :
    KeysWithin (c.delistPage key pid) c := by
  simp only [delistPage]
  split
  · next hm =>
    refine ⟨List.Sublist.refl _, List.Sublist.refl _, ?_⟩
    rw [Dict.keys_set_of_mem _ (mem_pageTable_of_listed hm)]
  · exact KeysWithin.refl c

theorem keysWithin_popIfEmpty (c : KVCache) (key : Int × Int) :
    KeysWithin (c.popIfEmpty key) c := by
  simp only [popIfEmpty]
  split
  · exact ⟨List.Sublist.refl _, List.Sublist.refl _, Dict.keys_erase_sublist _ _⟩
  · exact KeysWithin.refl c

theorem keysWithin_releaseDraftPages (c : KVCache) (rid : Int) (layers : List Int) :
    KeysWithin (c.releaseDraftPages rid layers) c := by
  refine List.foldlRecOn (motive := (KeysWithin · c)) layers _ (KeysWithin.refl c) ?_
  intro c₁ h₁ l _
  refine (keysWithin_popIfEmpty _ _).trans ?_
  refine List.foldlRecOn (motive := (KeysWithin · c)) _ _ h₁ ?_
  intro c₂ h₂ pid _
  exact (keysWithin_dropPage _ pid).trans ((keysWithin_delistPage c₂ _ pid).trans h₂)

/-! ### What an allocation adds -/

/-- A page of the request in one of the layers. -/
def InLayers (rid : Int) (layers : List Int) (page : KVPage) : Prop :=
  page.requestId = rid ∧ page.layerId ∈ layers

instance (rid : Int) (layers : List Int) (page : KVPage) : Decidable (InLayers rid layers page) :=
  inferInstanceAs (Decidable (_ ∧ _))

/-- `c'` holds the pages of `c` and new ones, which are uncommitted pages of the request in the
layers. -/
structure Adds (rid : Int) (layers : List Int) (c c' : KVCache) : Prop where
  within : KeysWithin c c'
  next : c.nextPageId ≤ c'.nextPageId
  old : ∀ pid < c.nextPageId, c'.pages.get? pid = c.pages.get? pid
  new : ∀ pid page, c.nextPageId ≤ pid → c'.pages.get? pid = some page →
    page.isCommitted = false ∧ InLayers rid layers page

theorem Adds.refl (rid : Int) (layers : List Int)
    (h : Linked (fun _ => False) (fun _ => False) c) : Adds rid layers c c where
  within := KeysWithin.refl c
  next := le_rfl
  old := fun _ _ => rfl
  new := fun pid _ hn hp => absurd (h.below pid (Dict.mem_keys_of_get? hp)) (not_lt.mpr hn)

theorem Adds.trans {rid : Int} {layers : List Int} (h : Adds rid layers c c')
    (h' : Adds rid layers c' c'') : Adds rid layers c c'' where
  within := h.within.trans h'.within
  next := h.next.trans h'.next
  old := fun pid hn => (h'.old pid (hn.trans_le h.next)).trans (h.old pid hn)
  new := by
    intro pid page hn hp
    obtain hlt | hle := lt_or_ge pid c'.nextPageId
    · rw [h'.old pid hlt] at hp
      exact h.new pid page hn hp
    · exact h'.new pid page hle hp

theorem adds_allocateOnePage (h : Linked (fun _ => False) (fun _ => False) c) {rid l : Int}
    {layers : List Int} (hl : l ∈ layers) (start count : Int) (pinned : Bool) :
    Adds rid layers c (c.allocateOnePage rid l start count pinned).2 where
  within := by
    have hfresh : c.nextPageId ∉ c.pages.keys := (Dict.get?_eq_none_iff _ _).mp h.next_fresh
    have hlru : c.nextPageId ∉ c.lru.keys := fun hm => hfresh ((h.lru _).mp hm)
    exact ⟨Dict.keys_sublist_set _ _ _, Dict.keys_sublist_set_moveToEnd _ hlru,
      Dict.keys_sublist_set _ _ _⟩
  next := Nat.le_succ _
  old := fun pid hn => by rw [allocateOnePage_get?, if_neg hn.ne]
  new := by
    intro pid page hn hp
    rw [allocateOnePage_get?] at hp
    by_cases he : pid = c.nextPageId
    · rw [if_pos he] at hp
      obtain rfl := Option.some.inj hp
      exact ⟨rfl, rfl, hl⟩
    · rw [if_neg he] at hp
      exact absurd (h.below pid (Dict.mem_keys_of_get? hp)) (not_lt.mpr hn)

theorem adds_allocatePages (h : Linked (fun _ => False) (fun _ => False) c) {rid l : Int}
    {layers : List Int} (hl : l ∈ layers) (total : Int) (pinned : Bool) (n : Nat) (start : Int)
    (ids : List Nat) :
    Adds rid layers c (allocatePages rid l total pinned n start c ids).1 := by
  induction n generalizing c start ids with
  | zero => exact Adds.refl rid layers h
  | succ n ih =>
    rw [allocatePages_succ]
    exact (adds_allocateOnePage h hl start _ pinned).trans
      (ih (h.allocateOnePage rid l start _ pinned false false) _ _)

theorem adds_allocateLayer (h : Inv c) {rid l : Int} {layers : List Int} (hl : l ∈ layers)
    (total : Int) (pinned : Bool) :
    Adds rid layers c (c.allocateLayer rid total pinned l).1 := by
  simp only [allocateLayer]
  split
  · exact adds_allocatePages h.linked hl total pinned _ _ _
  · exact Adds.refl rid layers h.linked

theorem adds_allocateLayers (h : Inv c) {rid : Int} {layers served : List Int}
    (hs : ∀ l ∈ served, l ∈ layers) (total : Int) (pinned : Bool) (m : LayerPageMap) :
    Adds rid layers c (allocateLayers rid total pinned served c m).1 := by
  induction served generalizing c m with
  | nil => exact Adds.refl rid layers h.linked
  | cons l served ih =>
    rw [allocateLayers_cons]
    exact (adds_allocateLayer h (hs l List.mem_cons_self) total pinned).trans
      (ih (h.allocateLayer rid total pinned l) (fun l' hl' => hs l' (List.mem_cons_of_mem _ hl')) _)

/-- With enough free pages an allocation evicts nothing and succeeds. -/
theorem allocateForRequest_fits {r : RequestState} {total needed : Int} {pinned : Bool}
    (hn : c.pagesNeeded r total = .ok needed) (hfree : needed ≤ c.freePages) :
    ∃ m, c.allocateForRequest r total pinned =
      (.ok m, (allocateLayers r.requestId total pinned r.layerIds c Dict.empty).1) := by
  have hroom : c.makeRoom needed = c := by
    simp only [makeRoom]
    rw [if_neg (by omega)]
  refine ⟨(allocateLayers r.requestId total pinned r.layerIds c Dict.empty).2, ?_⟩
  simp only [allocateForRequest, hn, hroom]
  rw [if_neg (by omega)]

/-! ### What marking and releasing do to a page -/

theorem updatePages_get? {f : KVPage → KVPage} (hf : ∀ page, f (f page) = f page)
    (ids : List Nat) (c : KVCache) (q : Nat) :
    (ids.foldl (updatePage f) c).pages.get? q =
      if q ∈ ids then (c.pages.get? q).map f else c.pages.get? q :=
  foldl_update_get? (fun (c : KVCache) pid => c.pages.get? pid) f hf
    (fun _ _ _ => Dict.get?_modify _ _ _ _) ids c q

theorem inLayers_cons {rid l : Int} {layers : List Int} {page : KVPage} :
    InLayers rid (l :: layers) page ↔ page.key = (rid, l) ∨ InLayers rid layers page := by
  simp only [InLayers, List.mem_cons, KVPage.key, Prod.mk.injEq]
  tauto

theorem inLayers_congr {rid : Int} {layers : List Int} {p q : KVPage} (h : q.key = p.key) :
    InLayers rid layers q ↔ InLayers rid layers p := by
  have hr : q.requestId = p.requestId := congrArg Prod.fst h
  have hl : q.layerId = p.layerId := congrArg Prod.snd h
  rw [InLayers, InLayers, hr, hl]

/-- The update reaches the live pages of the request in the layers. -/
theorem Rep.updateListed_get? {f : KVPage → KVPage} (hf : Retag f)
    (hff : ∀ page, f (f page) = f page) (rid : Int) (layers : List Int) (h : Inv c) (pid : Nat) :
    (KVCache.updateListed f c rid layers).pages.get? pid =
      (c.pages.get? pid).map fun page => if InLayers rid layers page then f page else page := by
  induction layers generalizing c with
  | nil =>
    have hnone : ∀ page, ¬ InLayers rid [] page := fun _ hin => List.not_mem_nil hin.2
    simp only [hnone, if_false]
    exact Option.map_id'.symm
  | cons l layers ih =>
    have hlayer : Inv ((c.pageIdsFor (rid, l)).foldl (KVCache.updatePage f) c) :=
      List.foldlRecOn _ _ h fun _ hc q _ => hc.updatePage hf q
    have hrest := ih hlayer
    rw [updatePages_get? hff] at hrest
    rw [KVCache.updateListed, List.foldl_cons]
    refine hrest.trans ?_
    cases hp : c.pages.get? pid with
    | none => simp
    | some page =>
      by_cases hkey : page.key = (rid, l)
      · have hm : pid ∈ c.pageIdsFor (rid, l) := h.mem_pageIdsFor.mpr ⟨page, hp, hkey⟩
        simp [if_pos hm, hff, inLayers_cons, hkey]
      · have hm : pid ∉ c.pageIdsFor (rid, l) := by
          intro hm
          obtain ⟨page', hp', hkey'⟩ := h.mem_pageIdsFor.mp hm
          rw [hp] at hp'
          exact hkey (Option.some.inj hp' ▸ hkey')
        simp [if_neg hm, inLayers_cons, hkey]

theorem markDraft_twice (page : KVPage) : page.markDraft.markDraft = page.markDraft := by
  unfold KVPage.markDraft
  by_cases h : page.isCommitted = true <;> simp [h]

theorem delistPage_pages (c : KVCache) (key : Int × Int) (pid : Nat) :
    (c.delistPage key pid).pages = c.pages := by
  simp only [delistPage]
  split <;> rfl

theorem releaseDraftIds_get? (key : Int × Int) (ids : List Nat) (c : KVCache) (q : Nat) :
    (ids.foldl (releaseDraftPage key) c).pages.get? q =
      if q ∈ ids then none else c.pages.get? q := by
  induction ids generalizing c with
  | nil => simp
  | cons pid ids ih =>
    rw [List.foldl_cons, ih, releaseDraftPage, dropPage_get?, delistPage_pages]
    by_cases hq : q = pid
    · simp [hq]
    · simp [hq]

theorem popIfEmpty_pages (c : KVCache) (key : Int × Int) : (c.popIfEmpty key).pages = c.pages := by
  simp only [popIfEmpty]
  split <;> rfl

theorem Rep.releaseDraftLayer_get? (h : Inv c) (rid l : Int) {pid : Nat} {page : KVPage} :
    (KVCache.releaseDraftLayer rid c l).pages.get? pid = some page ↔
      c.pages.get? pid = some page ∧ ¬ (page.isDraft = true ∧ page.key = (rid, l)) := by
  have hm : pid ∈ (c.pageIdsFor (rid, l)).filter c.isDraftPage ↔
      ∃ p, c.pages.get? pid = some p ∧ p.isDraft = true ∧ p.key = (rid, l) := by
    rw [List.mem_filter, h.mem_pageIdsFor, isDraftPage]
    cases c.pages.get? pid with
    | none => simp
    | some p => simp [and_comm]
  rw [KVCache.releaseDraftLayer, popIfEmpty_pages, releaseDraftIds_get?]
  by_cases hrm : pid ∈ (c.pageIdsFor (rid, l)).filter c.isDraftPage
  · obtain ⟨p, hp, hd⟩ := hm.mp hrm
    rw [if_pos hrm]
    constructor
    · intro hnone
      cases hnone
    · intro hkeep
      obtain rfl := Option.some.inj (hp.symm.trans hkeep.1)
      exact absurd hd hkeep.2
  · rw [if_neg hrm]
    exact ⟨fun hp => ⟨hp, fun hd => hrm (hm.mpr ⟨page, hp, hd⟩)⟩, And.left⟩

/-- The release takes the draft pages of the request in the layers and no others. -/
theorem Rep.releaseDraftPages_get? (h : Inv c) (rid : Int) (layers : List Int) {pid : Nat}
    {page : KVPage} :
    (c.releaseDraftPages rid layers).pages.get? pid = some page ↔
      c.pages.get? pid = some page ∧ ¬ (page.isDraft = true ∧ InLayers rid layers page) := by
  induction layers generalizing c with
  | nil => simp [KVCache.releaseDraftPages, InLayers]
  | cons l layers ih =>
    rw [KVCache.releaseDraftPages, List.foldl_cons]
    refine (ih (h.releaseDraftLayer rid l)).trans ?_
    rw [h.releaseDraftLayer_get?, inLayers_cons]
    tauto

/-! ### The discarded draft -/

/-- Every live page of the request in its layers is committed. -/
def AllCommitted (c : KVCache) (r : RequestState) : Prop :=
  ∀ pid page, c.pages.get? pid = some page → InLayers r.requestId r.layerIds page →
    page.isCommitted = true

/-- The contents, the LRU order and the counters are those of `c`. -/
structure Restored (c c' : KVCache) : Prop where
  pageTable : c'.pageTable = c.pageTable
  pages : c'.pages = c.pages
  lru : c'.lru = c.lru
  live : c'.totalLiveKvBytes = c.totalLiveKvBytes
  pinned : c'.pinnedKvBytes = c.pinnedKvBytes
  used : c'.usedCapacityTokens = c.usedCapacityTokens
  capacity : c'.totalCapacityTokens = c.totalCapacityTokens

/-- What stays of the request after a draft and its release: its committed pages. -/
theorem discard_get? {r : RequestState} (h : Inv c) (h' : Inv c')
    (ha : Adds r.requestId r.layerIds c c') {pid : Nat} {page : KVPage} :
    ((updateListed KVPage.markDraft c' r.requestId r.layerIds).releaseDraftPages r.requestId
        r.layerIds).pages.get? pid = some page ↔
      c.pages.get? pid = some page ∧
        (InLayers r.requestId r.layerIds page → page.isCommitted = true) := by
  rw [(h'.updateListed retag_markDraft _ _).releaseDraftPages_get?,
    h'.updateListed_get? retag_markDraft markDraft_twice, Option.map_eq_some_iff]
  constructor
  · rintro ⟨⟨page', hp', heq⟩, hkeep⟩
    have hin : InLayers r.requestId r.layerIds page ↔ InLayers r.requestId r.layerIds page' := by
      rw [← heq]
      split
      · exact inLayers_congr (retag_markDraft.key page')
      · exact Iff.rfl
    -- a page in the layers that is not a draft by now was committed
    have hcommitted : InLayers r.requestId r.layerIds page' → page'.isCommitted = true := by
      intro hin'
      by_contra hc
      rw [if_pos hin', KVPage.markDraft, if_neg hc] at heq
      exact hkeep ⟨heq ▸ rfl, hin.mpr hin'⟩
    have hsame : page' = page := by
      by_cases hin' : InLayers r.requestId r.layerIds page'
      · rwa [if_pos hin', KVPage.markDraft, if_pos (hcommitted hin')] at heq
      · rwa [if_neg hin'] at heq
    subst hsame
    obtain hlt | hle := lt_or_ge pid c.nextPageId
    · exact ⟨(ha.old pid hlt).symm.trans hp', hcommitted⟩
    · obtain ⟨huncommitted, hin'⟩ := ha.new pid page' hle hp'
      rw [hcommitted hin'] at huncommitted
      cases huncommitted
  · rintro ⟨hp, hcommitted⟩
    have hp' : c'.pages.get? pid = some page := by
      rw [ha.old pid (h.linked.below pid (Dict.mem_keys_of_get? hp))]
      exact hp
    refine ⟨⟨page, hp', ?_⟩, fun hdraft => ?_⟩
    · split
      · next hin => rw [KVPage.markDraft, if_pos (hcommitted hin)]
      · rfl
    · exact h.sound.flags pid page hp ⟨hcommitted hdraft.2, hdraft.1⟩

theorem restored_of_pages {r : RequestState} (h : Inv c) (h' : Inv c') (hw : KeysWithin c c'')
    (hw' : KeysWithin c' c'') (he : Evolves (fun rid => rid = r.requestId) c c')
    (hp : c'.pages = c.pages) : Restored c c' := by
  have hids : ∀ key, c'.pageIdsFor key = c.pageIdsFor key := fun key => by
    refine h'.pageIdsFor_eq (h.linked.ordered key) fun pid => ?_
    rw [h'.mem_pageIdsFor, h.mem_pageIdsFor, hp]
  have hkeys : ∀ {d : KVCache}, Inv d → ∀ key, key ∈ d.pageTable.keys ↔ d.pageIdsFor key ≠ [] := by
    intro d hd key
    refine ⟨hd.linked.filled key, fun hne => ?_⟩
    by_contra hk
    exact hne (pageIdsFor_of_not_mem hk)
  have hbytes : c'.pageBytes = c.pageBytes := by
    funext page
    rw [pageBytes, pageBytes, bytesPerTokenPerLayer, bytesPerTokenPerLayer, he.config]
  refine ⟨?_, hp, ?_, ?_, ?_, ?_, ?_⟩
  · refine Dict.eq_of_sublists_keys hw'.pageTable hw.pageTable fun key => ?_
    have hmem : key ∈ c'.pageTable.keys ↔ key ∈ c.pageTable.keys := by
      rw [hkeys h', hkeys h, hids]
    have hid := hids key
    rw [pageIdsFor, pageIdsFor] at hid
    cases hg : c.pageTable.get? key with
    | none =>
      rw [Dict.get?_eq_none_iff, ← hmem, ← Dict.get?_eq_none_iff] at hg
      exact hg
    | some ids =>
      obtain ⟨ids', hg'⟩ := (Dict.mem_keys_iff _ _).mp (hmem.mpr (Dict.mem_keys_of_get? hg))
      rw [hg, hg'] at hid
      rw [hg']
      exact congrArg some hid
  · refine Dict.eq_of_sublists_keys hw'.lru hw.lru fun pid => ?_
    have hmem : pid ∈ c'.lru.keys ↔ pid ∈ c.lru.keys := by
      rw [h'.linked.lru, h.linked.lru, hp]
    cases hg : c.lru.get? pid with
    | none =>
      rw [Dict.get?_eq_none_iff, ← hmem, ← Dict.get?_eq_none_iff] at hg
      exact hg
    | some u =>
      obtain ⟨u', hg'⟩ := (Dict.mem_keys_iff _ _).mp (hmem.mpr (Dict.mem_keys_of_get? hg))
      exact hg'
  · rw [h'.accounted.live, h.accounted.live, hp, hbytes]
  · rw [h'.accounted.pinned, h.accounted.pinned, hp, hbytes]
  · rw [h'.accounted.used, h.accounted.used, hp]
  · rw [h'.accounted.capacity, h.accounted.capacity, hp, he.pageSize]

/-- A draft that fits into the free pages and its release give back the cache of a request exactly
when all of its pages were committed. -/
theorem discard_restores_iff (pageSize maxPages : Int) (config : Option RuntimeConfig)
    (ops : List KVOp) (r : RequestState) (n : Int) {needed : Int}
    (hn : ((new pageSize maxPages config).runOps ops).pagesNeeded r (r.currentTokens + n) =
      .ok needed)
    (hfree : needed ≤ ((new pageSize maxPages config).runOps ops).freePages) :
    (∃ m c', ((new pageSize maxPages config).runOps ops).allocateDraftPages r n = (.ok m, c') ∧
      Restored ((new pageSize maxPages config).runOps ops)
        (c'.releaseDraftPages r.requestId r.layerIds)) ↔
      AllCommitted ((new pageSize maxPages config).runOps ops) r := by
  have h := inv_runOps pageSize maxPages config ops
  generalize (new pageSize maxPages config).runOps ops = c at *
  obtain ⟨m, hok⟩ := allocateForRequest_fits hn hfree
  generalize hc₁ : (allocateLayers r.requestId (r.currentTokens + n) true r.layerIds c
    Dict.empty).1 = c₁ at hok
  have h₁ : Inv c₁ := hc₁ ▸ h.allocateLayers r.requestId _ true r.layerIds _
  have ha : Adds r.requestId r.layerIds c c₁ :=
    hc₁ ▸ adds_allocateLayers h (fun _ hl => hl) _ true _
  have hdraft : c.allocateDraftPages r n =
      (.ok m, updateListed KVPage.markDraft c₁ r.requestId r.layerIds) := by
    rw [allocateDraftPages, hok]
  constructor
  · rintro ⟨m', c', hrun, hrestored⟩ pid page hp hin
    rw [hdraft] at hrun
    obtain rfl := (Prod.mk.inj hrun).2
    have hp' := hp
    rw [← hrestored.pages, discard_get? h h₁ ha] at hp'
    exact hp'.2 hin
  · intro hall
    have hend : Inv ((updateListed KVPage.markDraft c₁ r.requestId r.layerIds).releaseDraftPages
        r.requestId r.layerIds) :=
      (h₁.updateListed retag_markDraft _ _).releaseDraftPages r.requestId r.layerIds
    have hevolves := evolves_allocateDraftPages c r n
    rw [hdraft] at hevolves
    refine ⟨m, _, hdraft, restored_of_pages h hend
      (ha.within.trans (keysWithin_updateListed KVPage.markDraft c₁ _ _))
      (keysWithin_releaseDraftPages _ _ _)
      (hevolves.trans (evolves_releaseDraftPages _ _ _ _)) ?_⟩
    refine Dict.eq_of_sublists_keys (keysWithin_releaseDraftPages _ _ _).pages
      (ha.within.trans (keysWithin_updateListed KVPage.markDraft c₁ _ _)).pages fun pid => ?_
    apply Option.ext
    intro page
    rw [discard_get? h h₁ ha]
    exact ⟨And.left, fun hp => ⟨hp, hall pid page hp⟩⟩

/-- The pages of a prefill are not committed, and a discarded draft takes them along. -/
theorem discard_drops_prefill :
    ¬ ∀ (pageSize maxPages : Int) (config : Option RuntimeConfig) (ops : List KVOp)
      (r : RequestState) (n needed : Int),
      let c := (new pageSize maxPages config).runOps ops
      (∀ page ∈ c.pages.values, page.requestId = r.requestId → page.isDraft = false) →
      c.pagesNeeded r (r.currentTokens + n) = .ok needed → needed ≤ c.freePages →
      ∃ m c', c.allocateDraftPages r n = (.ok m, c') ∧
        Restored c (c'.releaseDraftPages r.requestId r.layerIds) := by
  intro hall
  let r : RequestState :=
    { requestId := 50, promptTokens := [100, 101], targetTokens := [1, 2, 3, 0], maxNewTokens := 8
      eosTokenId := 0, layerIds := [0, 1] }
  have hr := hall 2 16 none [.allocateForRequest r 2 true] r 4 4 (by decide) (by decide) (by decide)
  obtain ⟨m, c', hrun, hrestored⟩ := hr
  have hc : (((new 2 16 none).runOps [.allocateForRequest r 2 true]).allocateDraftPages r 4).2 =
      c' := congrArg Prod.snd hrun
  subst hc
  have hsize := congrArg Dict.size hrestored.pages
  revert hsize
  decide

/-- After a commit the same draft is discarded without a trace. -/
theorem discard_restores_committed :
    let r : RequestState :=
      { requestId := 50, promptTokens := [100, 101], targetTokens := [1, 2, 3, 0]
        maxNewTokens := 8, eosTokenId := 0, layerIds := [0, 1] }
    let c := (new 2 16 none).runOps [.allocateForRequest r 2 true, .commitTokens r 0 true]
    ∃ m c', c.allocateDraftPages r 4 = (.ok m, c') ∧
      Restored c (c'.releaseDraftPages r.requestId r.layerIds) := by
  intro r c
  have hn : c.pagesNeeded r (r.currentTokens + 4) = .ok 4 := by decide
  refine (discard_restores_iff 2 16 none _ r 4 hn (by decide)).mpr fun pid page hp _ => ?_
  have hall : ∀ entry ∈ c.pages.items, entry.2.isCommitted = true := by decide
  exact hall (pid, page) ((Dict.get?_eq_some_iff _ _ _).mp hp)

end ResidentInference.KVCache

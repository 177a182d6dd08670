import ResidentInference.KVEviction

/-! What the operations of the cache leave alone: the parameters, the identity and the tokens
of the pages that stay, and the ids of the pages that are gone. -/
namespace ResidentInference.KVCache
variable {c c' c'' : KVCache}

/-- Two states of one page: it may change its flags, never its owner or its tokens. -/
structure SamePage (page page' : KVPage) : Prop where
  key : page'.key = page.key
  tokenStart : page'.tokenStart = page.tokenStart
  tokenCount : page'.tokenCount = page.tokenCount

theorem SamePage.refl (page : KVPage) : SamePage page page := ⟨rfl, rfl, rfl⟩

theorem SamePage.trans {p q r : KVPage} (h : SamePage p q) (h' : SamePage q r) : SamePage p r :=
  ⟨h'.key.trans h.key, h'.tokenStart.trans h.tokenStart, h'.tokenCount.trans h.tokenCount⟩

theorem SamePage.requestId {p q : KVPage} (h : SamePage p q) : q.requestId = p.requestId :=
  congrArg Prod.fst h.key

theorem samePage_setPinned (b : Bool) (page : KVPage) : SamePage page (page.setPinned b) :=
  ⟨rfl, rfl, rfl⟩

theorem Retag.samePage {f : KVPage → KVPage} (hf : Retag f) (page : KVPage) :
    SamePage page (f page) := ⟨hf.key page, hf.tokenStart page, hf.tokenCount page⟩

/-- What every operation respects: the parameters stay, a page that is live afterwards is
either an old one or a new one with a new id, and only the requests in `grow` get new ones. -/
structure Evolves (grow : Int → Prop) (c c' : KVCache) : Prop where
  pageSize : c'.pageSize = c.pageSize
  maxPages : c'.maxPages = c.maxPages
  config : c'.config = c.config
  next : c.nextPageId ≤ c'.nextPageId
  page : ∀ pid page', c'.pages.get? pid = some page' →
    (∃ page, c.pages.get? pid = some page ∧ SamePage page page') ∨
      (c.nextPageId ≤ pid ∧ grow page'.requestId)

theorem Evolves.refl (grow : Int → Prop) (c : KVCache) : Evolves grow c c where
  pageSize := rfl
  maxPages := rfl
  config := rfl
  next := le_rfl
  page := fun _ page hp => Or.inl ⟨page, hp, SamePage.refl page⟩

theorem Evolves.trans {grow : Int → Prop} (h : Evolves grow c c') (h' : Evolves grow c' c'') :
    Evolves grow c c'' where
  pageSize := h'.pageSize.trans h.pageSize
  maxPages := h'.maxPages.trans h.maxPages
  config := h'.config.trans h.config
  next := h.next.trans h'.next
  page := by
    intro pid page'' hp
    obtain ⟨page', hp', hs'⟩ | ⟨hn, hg⟩ := h'.page pid page'' hp
    · obtain ⟨page, hp0, hs⟩ | ⟨hn, hg⟩ := h.page pid page' hp'
      · exact Or.inl ⟨page, hp0, hs.trans hs'⟩
      · exact Or.inr ⟨hn, hs'.requestId ▸ hg⟩
    · exact Or.inr ⟨h.next.trans hn, hg⟩

theorem Evolves.mono {grow grow' : Int → Prop} (h : Evolves grow c c')
    (hg : ∀ r, grow r → grow' r) : Evolves grow' c c' :=
  { h with page := fun pid page' hp => (h.page pid page' hp).imp id fun hn => ⟨hn.1, hg _ hn.2⟩ }

theorem Evolves.requiredPages {grow : Int → Prop} (h : Evolves grow c c') (total : Int) :
    c'.requiredPages total = c.requiredPages total := by
  rw [KVCache.requiredPages, KVCache.requiredPages, h.pageSize]

theorem Evolves.foldl {grow : Int → Prop} {α : Type} {f : KVCache → α → KVCache}
    (hf : ∀ c a, Evolves grow c (f c a)) (l : List α) (c : KVCache) :
    Evolves grow c (l.foldl f c) := by
  induction l generalizing c with
  | nil => exact refl grow c
  | cons a l ih => exact (hf c a).trans (ih _)

/-- A cache whose pages are some of those of `c` under the same parameters. -/
theorem Evolves.of_subset (grow : Int → Prop) (hs : c'.pageSize = c.pageSize)
    (hm : c'.maxPages = c.maxPages) (hc : c'.config = c.config)
    (hn : c'.nextPageId = c.nextPageId)
    (hp : ∀ pid page, c'.pages.get? pid = some page → c.pages.get? pid = some page) :
    Evolves grow c c' :=
  ⟨hs, hm, hc, hn.ge, fun pid page h => Or.inl ⟨page, hp pid page h, SamePage.refl page⟩⟩

/-- A page id that is dead stays dead. -/
theorem Evolves.dead {grow : Int → Prop} (h : Evolves grow c c') {pid : Nat}
    (hn : pid < c.nextPageId) (hd : c.pages.get? pid = none) : c'.pages.get? pid = none := by
  cases hp : c'.pages.get? pid with
  | none => rfl
  | some page' =>
    obtain ⟨page, hp', _⟩ | ⟨hle, _⟩ := h.page pid page' hp
    · rw [hd] at hp'
      cases hp'
    · omega

section Primitives
variable (grow : Int → Prop)

theorem evolves_dropPage (c : KVCache) (pid : Nat) : Evolves grow c (c.dropPage pid) := by
  refine Evolves.of_subset grow (dropPage_pageSize c pid) ?_ ?_ (dropPage_nextPageId c pid) ?_
  · unfold dropPage
    cases c.pages.get? pid <;> rfl
  · unfold dropPage
    cases c.pages.get? pid <;> rfl
  · intro q page hq
    rw [dropPage_get?] at hq
    split at hq
    · cases hq
    · exact hq

theorem evolves_table (c : KVCache) (table : Dict (Int × Int) (List Nat)) :
    Evolves grow c { c with pageTable := table } :=
  Evolves.of_subset grow rfl rfl rfl rfl fun _ _ h => h

theorem evolves_unlinkPage (c : KVCache) (key : Int × Int) (pid : Nat) :
    Evolves grow c (c.unlinkPage key pid) := by
  rw [unlinkPage_eq]
  exact evolves_table grow c _

theorem evolves_evictSinglePage (c : KVCache) (pid : Nat) :
    Evolves grow c (c.evictSinglePage pid) := by
  unfold evictSinglePage
  cases c.pages.get? pid with
  | none => exact Evolves.refl grow c
  | some page =>
    have h := (evolves_unlinkPage grow c page.key pid).trans (evolves_dropPage grow _ pid)
    exact ⟨h.pageSize, h.maxPages, h.config, h.next, h.page⟩

theorem evolves_allocateOnePage {grow : Int → Prop} (c : KVCache) {r : Int} (hg : grow r)
    (l start count : Int) (pinned b d : Bool) :
    Evolves grow c (c.allocateOnePage r l start count pinned b d).2 where
  pageSize := rfl
  maxPages := rfl
  config := rfl
  next := Nat.le_succ _
  page := by
    intro pid page hp
    rw [allocateOnePage_get?] at hp
    by_cases he : pid = c.nextPageId
    · rw [if_pos he] at hp
      rw [← Option.some.inj hp]
      exact Or.inr ⟨he.ge, hg⟩
    · rw [if_neg he] at hp
      exact Or.inl ⟨page, hp, SamePage.refl page⟩

theorem evolves_modify (c : KVCache) (pid : Nat) {f : KVPage → KVPage}
    (hf : ∀ page, SamePage page (f page)) (bytes : Int) :
    Evolves grow c { c with pages := c.pages.modify pid f, pinnedKvBytes := bytes } := by
  refine ⟨rfl, rfl, rfl, le_rfl, ?_⟩
  intro q page hq
  obtain ⟨page', hp, rfl | rfl⟩ := get?_modify_cases hq
  · exact Or.inl ⟨page, hp, SamePage.refl page⟩
  · exact Or.inl ⟨page', hp, hf page'⟩

theorem evolves_updatePage {f : KVPage → KVPage} (hf : Retag f) (c : KVCache) (pid : Nat) :
    Evolves grow c (updatePage f c pid) :=
  evolves_modify grow c pid hf.samePage c.pinnedKvBytes

theorem evolves_pinPage (c : KVCache) (pid : Nat) : Evolves grow c (c.pinPage pid) := by
  obtain ⟨bytes, hpin⟩ := pinPage_eq c pid
  rw [hpin]
  exact evolves_modify grow c pid (samePage_setPinned true) bytes

theorem evolves_unpinPage (c : KVCache) (pid : Nat) : Evolves grow c (c.unpinPage pid) := by
  obtain ⟨bytes, hunpin⟩ := unpinPage_eq c pid
  rw [hunpin]
  exact evolves_modify grow c pid (samePage_setPinned false) bytes

theorem evolves_touchPage (c : KVCache) (pid : Nat) : Evolves grow c (c.touchPage pid) := by
  unfold touchPage
  cases c.pages.get? pid with
  | none => exact Evolves.of_subset grow rfl rfl rfl rfl fun _ _ h => h
  | some page => exact Evolves.of_subset grow rfl rfl rfl rfl fun _ _ h => h

/-! The loops over these. -/

theorem evolves_evictPass (draft : Bool) (n : Int) (ids : List Nat) (s : KVCache × List Nat) :
    Evolves grow s.1 (evictPass draft n ids s).1 := by
  induction ids generalizing s with
  | nil => exact Evolves.refl grow s.1
  | cons pid ids ih =>
    simp only [evictPass]
    split
    · exact Evolves.refl grow s.1
    · split
      · exact ih s
      · split
        · exact ih s
        · exact (evolves_evictSinglePage grow s.1 pid).trans
            (ih (s.1.evictSinglePage pid, s.2 ++ [pid]))

theorem evolves_evictLru (c : KVCache) (n : Int) : Evolves grow c (c.evictLru n).1 :=
  (evolves_evictPass grow true n _ (c, [])).trans (evolves_evictPass grow false n _ _)

theorem evolves_makeRoom (c : KVCache) (needed : Int) : Evolves grow c (c.makeRoom needed) := by
  unfold makeRoom
  dsimp only
  split
  · exact evolves_evictLru grow c _
  · exact Evolves.refl grow c

theorem evolves_allocatePages {grow : Int → Prop} {r : Int} (hg : grow r) (l total : Int)
    (pinned : Bool) (n : Nat) (start : Int) (c : KVCache) (ids : List Nat) :
    Evolves grow c (allocatePages r l total pinned n start c ids).1 := by
  induction n generalizing start c ids with
  | zero => exact Evolves.refl grow c
  | succ n ih => exact (evolves_allocateOnePage c hg l start _ pinned false false).trans (ih _ _ _)

theorem evolves_allocateLayer {grow : Int → Prop} {r : Int} (hg : grow r) (c : KVCache)
    (total : Int) (pinned : Bool) (l : Int) :
    Evolves grow c (c.allocateLayer r total pinned l).1 := by
  simp only [allocateLayer]
  split
  · exact evolves_allocatePages hg l total pinned _ _ c _
  · exact Evolves.refl grow c

theorem evolves_allocateLayers {grow : Int → Prop} {r : Int} (hg : grow r) (total : Int)
    (pinned : Bool) (layers : List Int) (c : KVCache) (m : LayerPageMap) :
    Evolves grow c (allocateLayers r total pinned layers c m).1 := by
  induction layers generalizing c m with
  | nil => exact Evolves.refl grow c
  | cons l layers ih => exact (evolves_allocateLayer hg c total pinned l).trans (ih _ _)

theorem evolves_allocateForRequest (c : KVCache) (r : RequestState) (total : Int)
    (pinned : Bool) :
    Evolves (fun rid => rid = r.requestId) c (c.allocateForRequest r total pinned).2 := by
  unfold allocateForRequest
  cases c.pagesNeeded r total with
  | error e => exact Evolves.refl _ c
  | ok needed =>
    have he := evolves_makeRoom (fun rid => rid = r.requestId) c needed
    have ha : Evolves (fun rid => rid = r.requestId) (c.makeRoom needed) (allocateLayers
        r.requestId total pinned r.layerIds (c.makeRoom needed) Dict.empty).1 := by
      apply evolves_allocateLayers
      rfl
    dsimp only
    split
    · exact he
    · exact he.trans ha

theorem evolves_updateListed {f : KVPage → KVPage} (hf : Retag f) (c : KVCache) (r : Int)
    (layers : List Int) : Evolves grow c (updateListed f c r layers) :=
  Evolves.foldl (fun c _ => Evolves.foldl (evolves_updatePage grow hf) _ c) layers c

theorem evolves_commitTokens (c : KVCache) (r : RequestState) (n : Int) (pin : Bool) :
    Evolves (fun rid => rid = r.requestId) c (c.commitTokens r n pin).2 :=
  commitTokens_rec (evolves_allocateForRequest c r (r.currentTokens + n) pin)
    fun _ ha => ha.trans (evolves_updateListed _ retag_commit _ _ _)

theorem evolves_allocateDraftPages (c : KVCache) (r : RequestState) (n : Int) :
    Evolves (fun rid => rid = r.requestId) c (c.allocateDraftPages r n).2 :=
  allocateDraftPages_rec (evolves_allocateForRequest c r (r.currentTokens + n) true)
    fun _ ha => ha.trans (evolves_updateListed _ retag_markDraft _ _ _)

theorem evolves_ensureCapacity (c : KVCache) (r : RequestState) (n : Int) :
    Evolves grow c (c.ensureCapacity r n).2 := by
  unfold ensureCapacity
  cases c.pagesNeeded r (r.currentTokens + n) with
  | error e => exact Evolves.refl grow c
  | ok needed =>
    have he := evolves_makeRoom grow c needed
    dsimp only
    split <;> exact he

theorem evolves_delistPage (c : KVCache) (key : Int × Int) (pid : Nat) :
    Evolves grow c (c.delistPage key pid) := by
  simp only [delistPage]
  split
  · exact evolves_table grow c _
  · exact Evolves.refl grow c

theorem evolves_releaseDraftPages (c : KVCache) (r : Int) (layers : List Int) :
    Evolves grow c (c.releaseDraftPages r layers) := by
  refine Evolves.foldl (fun c l => ?_) layers c
  have hd : ∀ c pid, Evolves grow c (releaseDraftPage (r, l) c pid) := fun c pid =>
    (evolves_delistPage grow c _ pid).trans (evolves_dropPage grow _ pid)
  refine (Evolves.foldl hd ((c.pageIdsFor (r, l)).filter c.isDraftPage) c).trans ?_
  simp only [releaseDraftLayer, popIfEmpty]
  split
  · exact evolves_table grow _ _
  · exact Evolves.refl grow _

theorem evolves_releaseRequest (c : KVCache) (r : Int) :
    Evolves grow c (c.releaseRequest r) := by
  have h : Evolves grow c (c.releaseKeys r) := by
    refine Evolves.foldl (fun c key => ?_) _ c
    exact (evolves_table grow c _).trans (Evolves.foldl (evolves_dropPage grow) _ _)
  exact ⟨h.pageSize, h.maxPages, h.config, h.next, h.page⟩

end Primitives

theorem updateListed_keys (f : KVPage → KVPage) (c : KVCache) (r : Int) (layers : List Int) :
    (updateListed f c r layers).pages.keys = c.pages.keys :=
  List.foldlRecOn (motive := fun c' : KVCache => c'.pages.keys = c.pages.keys) layers _ rfl
    fun _ hc _ _ =>
      List.foldlRecOn (motive := fun c' : KVCache => c'.pages.keys = c.pages.keys) _ _ hc
        fun _ hc' _ _ => (Dict.keys_modify _ _ _).trans hc'

theorem evolves_evictAll (c : KVCache) (gone : List Nat) :
    Evolves (fun _ => False) c (c.evictAll gone) :=
  Evolves.foldl (evolves_evictSinglePage _) gone c

end ResidentInference.KVCache

namespace ResidentInference

/-- The request for which a call may allocate pages, and the tokens that they are to hold. -/
def KVOp.growth : KVOp → Option (RequestState × Int)
  | .allocateForRequest r total _ => some (r, total)
  | .commitTokens r n _ => some (r, r.currentTokens + n)
  | .allocateDraftPages r n => some (r, r.currentTokens + n)
  | _ => none

def KVOp.grows (op : KVOp) (requestId : Int) : Prop :=
  ∃ r total, op.growth = some (r, total) ∧ requestId = r.requestId

/-- An allocating call allocates and then marks some of the pages that its request has. -/
theorem KVOp.apply_growth {op : KVOp} {r : RequestState} {total : Int}
    (h : op.growth = some (r, total)) (c : KVCache) : ∃ pinned f layers, KVCache.Retag f ∧
      op.apply c = match c.allocateForRequest r total pinned with
        | (.error e, c') => (some e, c')
        | (.ok _, c') => (none, KVCache.updateListed f c' r.requestId layers) := by
  cases op with
  | allocateForRequest r' total' pinned =>
    obtain ⟨rfl, rfl⟩ := Prod.mk.inj (Option.some.inj h)
    refine ⟨pinned, KVPage.commit, [], KVCache.retag_commit, ?_⟩
    simp only [apply]
    obtain ⟨e | m, c'⟩ := c.allocateForRequest r' total' pinned <;> rfl
  | commitTokens r' n pin =>
    obtain ⟨rfl, rfl⟩ := Prod.mk.inj (Option.some.inj h)
    refine ⟨pin, KVPage.commit, r'.layerIds, KVCache.retag_commit, ?_⟩
    simp only [apply, KVCache.commitTokens]
    obtain ⟨e | m, c'⟩ := c.allocateForRequest r' (r'.currentTokens + n) pin <;> rfl
  | allocateDraftPages r' n =>
    obtain ⟨rfl, rfl⟩ := Prod.mk.inj (Option.some.inj h)
    refine ⟨true, KVPage.markDraft, r'.layerIds, KVCache.retag_markDraft, ?_⟩
    simp only [apply, KVCache.allocateDraftPages]
    obtain ⟨e | m, c'⟩ := c.allocateForRequest r' (r'.currentTokens + n) true <;> rfl
  | _ => cases h

theorem KVCache.evolves_apply (c : KVCache) (op : KVOp) : Evolves op.grows c (op.apply c).2 := by
  cases op with
  | allocateForRequest r total pinned =>
    simp only [KVOp.apply, raised_snd]
    exact (evolves_allocateForRequest c r total pinned).mono fun _ h => ⟨r, _, rfl, h⟩
  | commitTokens r n pin =>
    simp only [KVOp.apply, raised_snd]
    exact (evolves_commitTokens c r n pin).mono fun _ h => ⟨r, _, rfl, h⟩
  | allocateDraftPages r n =>
    simp only [KVOp.apply, raised_snd]
    exact (evolves_allocateDraftPages c r n).mono fun _ h => ⟨r, _, rfl, h⟩
  | acceptDraftPages r layers => exact evolves_updateListed _ retag_acceptDraft c r layers
  | releaseDraftPages r layers => exact evolves_releaseDraftPages _ c r layers
  | releaseRequest r => exact evolves_releaseRequest _ c r
  | evictLru n => exact evolves_evictLru _ c n
  | ensureCapacity r n =>
    simp only [KVOp.apply, raised_snd]
    exact evolves_ensureCapacity _ c r n
  | pinPages ids => exact Evolves.foldl (evolves_pinPage _) ids c
  | unpinPages ids => exact Evolves.foldl (evolves_unpinPage _) ids c
  | touchPages ids => exact Evolves.foldl (evolves_touchPage _) ids c

end ResidentInference

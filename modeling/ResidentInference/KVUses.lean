import ResidentInference.KVReservation
import ResidentInference.DraftDiscard
import ResidentInference.Recency

/-! The eviction order is the order of the last use: the history of a cache is the list of the
pages that its calls allocated and touched, and the LRU order never departs from it. -/
namespace ResidentInference

namespace KVCache
variable {c c' c'' : KVCache}

/-! ### New pages and lost pages -/

/-- The ids given out between the two caches. -/
def newIds (c c' : KVCache) : List Nat :=
  List.range' c.nextPageId (c'.nextPageId - c.nextPageId)

/-- The LRU order lost pages and got the new ones at its end, the last one given out last. -/
structure Ages (c c' : KVCache) : Prop where
  next : c.nextPageId ≤ c'.nextPageId
  recent : ∀ uses, Recent uses c.lru.keys → Recent (uses ++ newIds c c') c'.lru.keys

theorem newIds_of_same (hn : c'.nextPageId = c.nextPageId) : newIds c c' = [] := by
  rw [newIds, hn, Nat.sub_self, List.range'_zero]

/-- No page is new, and those that stay keep their order. -/
theorem Ages.of_sublist (hn : c'.nextPageId = c.nextPageId)
    (hl : c'.lru.keys.Sublist c.lru.keys) : Ages c c' where
  next := hn.ge
  recent := by
    intro uses hr
    rw [newIds_of_same hn, List.append_nil]
    exact hr.sublist hl

theorem Ages.refl (c : KVCache) : Ages c c := Ages.of_sublist rfl (List.Sublist.refl _)

theorem newIds_append (h : c.nextPageId ≤ c'.nextPageId) (h' : c'.nextPageId ≤ c''.nextPageId) :
    newIds c c' ++ newIds c' c'' = newIds c c'' := by
  have hstart : c'.nextPageId = c.nextPageId + 1 * (c'.nextPageId - c.nextPageId) := by omega
  unfold newIds
  nth_rewrite 2 [hstart]
  rw [List.range'_append]
  congr 1
  omega

theorem Ages.trans (h : Ages c c') (h' : Ages c' c'') : Ages c c'' where
  next := h.next.trans h'.next
  recent := by
    intro uses hr
    have hlast := h'.recent _ (h.recent uses hr)
    rwa [List.append_assoc, newIds_append h.next h'.next] at hlast

theorem Ages.foldl {α : Type} {f : KVCache → α → KVCache} (hf : ∀ c a, Ages c (f c a))
    (l : List α) (c : KVCache) : Ages c (l.foldl f c) :=
  List.foldlRecOn l f (Ages.refl c) fun c' hc a _ => hc.trans (hf c' a)

theorem ages_dropPage (c : KVCache) (pid : Nat) : Ages c (c.dropPage pid) :=
  Ages.of_sublist (dropPage_nextPageId c pid) (keysWithin_dropPage c pid).lru

theorem ages_evictSinglePage (c : KVCache) (pid : Nat) : Ages c (c.evictSinglePage pid) := by
  cases hp : c.pages.get? pid with
  | none =>
    simp only [evictSinglePage, hp]
    exact Ages.refl c
  | some page =>
    apply Ages.of_sublist
    · simp only [evictSinglePage, hp, dropPage_nextPageId]
      rw [unlinkPage_eq]
    · rw [evictSinglePage_lru hp]
      exact Dict.keys_erase_sublist _ _

theorem ages_makeRoom (c : KVCache) (needed : Int) : Ages c (c.makeRoom needed) := by
  rw [makeRoom_eq]
  exact Ages.foldl ages_evictSinglePage _ c

theorem ages_allocateOnePage (c : KVCache) (r l start count : Int) (pinned : Bool) :
    Ages c (c.allocateOnePage r l start count pinned).2 where
  next := Nat.le_succ _
  recent := by
    intro uses hr
    have hids : newIds c (c.allocateOnePage r l start count pinned).2 = [c.nextPageId] := by
      simp [newIds]
    have hlru : (c.allocateOnePage r l start count pinned).2.lru.keys =
        c.lru.keys.filter (· ≠ c.nextPageId) ++ [c.nextPageId] :=
      Dict.keys_set_moveToEnd c.lru c.nextPageId ()
    rw [hids, hlru]
    exact hr.use c.nextPageId

theorem ages_allocatePages (r l total : Int) (pinned : Bool) (n : Nat) (start : Int)
    (c : KVCache) (ids : List Nat) :
    Ages c (allocatePages r l total pinned n start c ids).1 := by
  induction n generalizing start c ids with
  | zero => exact Ages.refl c
  | succ n ih =>
    rw [allocatePages_succ]
    exact (ages_allocateOnePage c r l start _ pinned).trans (ih _ _ _)

theorem ages_allocateLayers (r total : Int) (pinned : Bool) (layers : List Int) (c : KVCache)
    (m : LayerPageMap) : Ages c (allocateLayers r total pinned layers c m).1 := by
  induction layers generalizing c m with
  | nil => exact Ages.refl c
  | cons l layers ih =>
    rw [allocateLayers_cons]
    refine Ages.trans ?_ (ih _ _)
    simp only [allocateLayer]
    split
    · exact ages_allocatePages r l total pinned _ _ c _
    · exact Ages.refl c

theorem ages_allocateForRequest (c : KVCache) (r : RequestState) (total : Int) (pinned : Bool) :
    Ages c (c.allocateForRequest r total pinned).2 := by
  unfold allocateForRequest
  cases c.pagesNeeded r total with
  | error e => exact Ages.refl c
  | ok needed =>
    have hroom := ages_makeRoom c needed
    have hgrow := ages_allocateLayers r.requestId total pinned r.layerIds (c.makeRoom needed)
      Dict.empty
    dsimp only
    split
    · exact hroom
    · exact hroom.trans hgrow

theorem ages_updatePage (f : KVPage → KVPage) (c : KVCache) (pid : Nat) :
    Ages c (updatePage f c pid) := Ages.of_sublist rfl (List.Sublist.refl _)

theorem ages_updateListed (f : KVPage → KVPage) (c : KVCache) (r : Int) (layers : List Int) :
    Ages c (updateListed f c r layers) :=
  Ages.foldl (fun _ _ => Ages.foldl (ages_updatePage f) _ _) layers c

theorem ages_growth {op : KVOp} {r : RequestState} {total : Int}
    (hg : op.growth = some (r, total)) (c : KVCache) : Ages c (op.apply c).2 := by
  obtain ⟨pinned, f, layers, _, happ⟩ := op.apply_growth hg c
  have ha := ages_allocateForRequest c r total pinned
  rw [happ]
  generalize c.allocateForRequest r total pinned = res at ha ⊢
  obtain ⟨e | m, c'⟩ := res
  · exact ha
  · exact ha.trans (ages_updateListed f c' _ layers)

theorem ages_ensureCapacity (c : KVCache) (r : RequestState) (n : Int) :
    Ages c (c.ensureCapacity r n).2 := by
  unfold ensureCapacity
  cases c.pagesNeeded r (r.currentTokens + n) with
  | error e => exact Ages.refl c
  | ok needed =>
    have hroom := ages_makeRoom c needed
    dsimp only
    split <;> exact hroom

theorem ages_releaseDraftPages (c : KVCache) (r : Int) (layers : List Int) :
    Ages c (c.releaseDraftPages r layers) := by
  have htable (c : KVCache) (table : Dict (Int × Int) (List Nat)) :
      Ages c { c with pageTable := table } := Ages.of_sublist rfl (List.Sublist.refl _)
  refine Ages.foldl (fun c l => ?_) layers c
  have hpage (c : KVCache) (pid : Nat) : Ages c (releaseDraftPage (r, l) c pid) := by
    refine Ages.trans ?_ (ages_dropPage (c.delistPage (r, l) pid) pid)
    simp only [delistPage]
    split
    · exact htable c _
    · exact Ages.refl c
  refine (Ages.foldl hpage ((c.pageIdsFor (r, l)).filter c.isDraftPage) c).trans ?_
  simp only [releaseDraftLayer, popIfEmpty]
  split
  · exact htable _ _
  · exact Ages.refl _

theorem ages_releaseRequest (c : KVCache) (r : Int) : Ages c (c.releaseRequest r) := by
  have hkeys : Ages c (c.releaseKeys r) := by
    refine Ages.foldl (fun c key => ?_) _ c
    have htable : Ages c { c with pageTable := c.pageTable.erase key } :=
      Ages.of_sublist rfl (List.Sublist.refl _)
    exact htable.trans (Ages.foldl ages_dropPage _ _)
  exact ⟨hkeys.next, hkeys.recent⟩

theorem ages_setPins (b : Bool) (c : KVCache) (pid : Nat) (bytes : Int) :
    Ages c { c with pages := c.pages.modify pid (KVPage.setPinned b), pinnedKvBytes := bytes } :=
  Ages.of_sublist rfl (List.Sublist.refl _)

theorem ages_pinPage (c : KVCache) (pid : Nat) : Ages c (c.pinPage pid) := by
  obtain ⟨bytes, hpin⟩ := pinPage_eq c pid
  rw [hpin]
  exact ages_setPins true c pid bytes

theorem ages_unpinPage (c : KVCache) (pid : Nat) : Ages c (c.unpinPage pid) := by
  obtain ⟨bytes, hunpin⟩ := unpinPage_eq c pid
  rw [hunpin]
  exact ages_setPins false c pid bytes

/-! ### Touches -/

theorem Rep.recent_touchPage (h : Inv c) {uses : List Nat} (hr : Recent uses c.lru.keys)
    (pid : Nat) :
    Recent (uses ++ [pid].filter c.pages.contains) (c.touchPage pid).lru.keys := by
  cases hp : c.pages.get? pid with
  | none => simpa [KVCache.touchPage, Dict.contains, hp] using hr
  | some page =>
    have hmem := (h.linked.lru pid).mpr (Dict.mem_keys_of_get? hp)
    have hlru : (c.touchPage pid).lru.keys = c.lru.keys.filter (· ≠ pid) ++ [pid] := by
      simp only [KVCache.touchPage, hp]
      rw [Dict.keys_moveToEnd hmem, Dict.keys_erase]
    have huse : [pid].filter c.pages.contains = [pid] := by simp [Dict.contains, hp]
    rw [hlru, huse]
    exact hr.use pid

theorem Rep.recent_touchPages (h : Inv c) {uses : List Nat} (hr : Recent uses c.lru.keys)
    (ids : List Nat) :
    Recent (uses ++ ids.filter c.pages.contains) (c.touchPages ids).lru.keys := by
  induction ids generalizing c uses with
  | nil => simpa [KVCache.touchPages] using hr
  | cons pid ids ih =>
    have hrest := ih (h.touchPage pid) (h.recent_touchPage hr pid)
    rw [touchPage_pages, List.append_assoc, ← List.filter_append] at hrest
    exact hrest

end KVCache

/-! ### The history of a run -/

/-- The pages that the call allocates, or the live ones that it touches, in this order. -/
def CacheCall.uses (c : KVCache) : CacheCall → List Nat
  | .operation (.touchPages ids) => ids.filter c.pages.contains
  | call => KVCache.newIds c (call.apply c).2

namespace KVCache
variable {c : KVCache}

/-- The uses of all calls, in the order in which they are made. -/
def usesOf (c : KVCache) : List CacheCall → List Nat
  | [] => []
  | call :: calls => call.uses c ++ usesOf (call.apply c).2 calls

theorem Rep.recent_apply (h : Inv c) {uses : List Nat} (hr : Recent uses c.lru.keys)
    (call : CacheCall) : Recent (uses ++ call.uses c) (call.apply c).2.lru.keys := by
  have hages {op : KVOp} (ha : Ages c (op.apply c).2) :
      Recent (uses ++ newIds c (op.apply c).2) (op.apply c).2.lru.keys := ha.recent uses hr
  cases call with
  | select config r decodeStep =>
    have ha : Ages c (c.markSelection config r decodeStep) :=
      markSelection_rec (P := Ages c) config r decodeStep (Ages.refl c) fun c' f pid _ hc =>
        hc.trans (ages_updatePage f c' pid)
    exact ha.recent uses hr
  | operation op =>
    cases op with
    | touchPages ids => exact h.recent_touchPages hr ids
    | allocateForRequest r total pinned => exact hages (ages_growth rfl c)
    | commitTokens r n pin => exact hages (ages_growth rfl c)
    | allocateDraftPages r n => exact hages (ages_growth rfl c)
    | ensureCapacity r n =>
      refine hages ?_
      simp only [KVOp.apply, raised_snd]
      exact ages_ensureCapacity c r n
    | acceptDraftPages r layers => exact hages (ages_updateListed _ c r layers)
    | releaseDraftPages r layers => exact hages (ages_releaseDraftPages c r layers)
    | releaseRequest r => exact hages (ages_releaseRequest c r)
    | evictLru n =>
      refine hages ?_
      simp only [KVOp.apply, evictLru_eq]
      exact Ages.foldl ages_evictSinglePage _ c
    | pinPages ids => exact hages (Ages.foldl ages_pinPage ids c)
    | unpinPages ids => exact hages (Ages.foldl ages_unpinPage ids c)

/-- The live pages of every reachable cache have been used, and the LRU order is that of their
last uses. -/
theorem recent_runCalls (h : Inv c) {uses : List Nat} (hr : Recent uses c.lru.keys)
    (calls : List CacheCall) :
    Recent (uses ++ c.usesOf calls) (c.runCalls calls).lru.keys := by
  induction calls generalizing c uses with
  | nil => simpa [usesOf, runCalls] using hr
  | cons call calls ih =>
    have hrest := ih (h.applyCall call) (h.recent_apply hr call)
    rwa [List.append_assoc] at hrest

/-! ### What an eviction takes -/

theorem dropPage_evictedKvBytes (c : KVCache) (pid : Nat) :
    (c.dropPage pid).evictedKvBytes = c.evictedKvBytes := by
  unfold dropPage
  split
  · rfl
  · rfl

theorem evictSinglePage_counters {pid : Nat} {page : KVPage} (h : c.pages.get? pid = some page) :
    (c.evictSinglePage pid).evictionCount = c.evictionCount + 1 ∧
      (c.evictSinglePage pid).evictedKvBytes = c.evictedKvBytes + c.pageBytes page := by
  simp only [evictSinglePage, h, dropPage_evictionCount, dropPage_evictedKvBytes]
  rw [unlinkPage_eq]
  exact ⟨rfl, rfl⟩

theorem evictAll_counters {gone : List Nat} (hn : gone.Nodup)
    (hl : ∀ pid ∈ gone, pid ∈ c.pages.keys) :
    (c.evictAll gone).evictionCount = c.evictionCount + gone.length ∧
      (c.evictAll gone).evictedKvBytes =
        c.evictedKvBytes + ((gone.filterMap c.pages.get?).map c.pageBytes).sum := by
  induction gone generalizing c with
  | nil => exact ⟨(Int.add_zero _).symm, (Int.add_zero _).symm⟩
  | cons pid gone ih =>
    obtain ⟨⟨page, hp⟩, hn', hlive⟩ := evict_head hn hl
    obtain ⟨hcount, hbytes⟩ := ih hn' hlive
    obtain ⟨hcount₁, hbytes₁⟩ := evictSinglePage_counters hp
    have hget : gone.filterMap (c.evictSinglePage pid).pages.get? =
        gone.filterMap c.pages.get? := by
      apply List.filterMap_congr
      intro q hq
      have hne : q ≠ pid := fun he => (List.nodup_cons.mp hn).1 (he ▸ hq)
      rw [evictSinglePage_get?, if_neg hne]
    have hsize : (c.evictSinglePage pid).pageBytes = c.pageBytes := by
      funext page
      have hconfig := (evolves_evictSinglePage (fun _ => False) c pid).config
      simp only [pageBytes, bytesPerTokenPerLayer, hconfig]
    rw [hget, hsize] at hbytes
    rw [evictAll_cons, hcount, hbytes, hcount₁, hbytes₁, List.filterMap_cons_some hp,
      List.map_cons, List.sum_cons, List.length_cons]
    constructor
    · push_cast
      omega
    · omega

/-- The pages for which `p` holds, each once, the least recently used one first. -/
structure ByLastUse (uses : List Nat) (p : Nat → Prop) (l : List Nat) : Prop where
  mem : ∀ pid, pid ∈ l ↔ p pid
  order : l.Pairwise fun a b => lastUse uses a < lastUse uses b

/-- The live pages that are unpinned and drafts, or unpinned and no drafts. -/
def Unpinned (c : KVCache) (draft : Bool) (pid : Nat) : Prop :=
  ∃ page, c.pages.get? pid = some page ∧ page.pinned = false ∧ page.isDraft = draft

/-- `c'` is `c` without the pages in `gone`, which are counted as evicted. -/
structure Evicted (c c' : KVCache) (gone : List Nat) : Prop where
  pages : ∀ pid, c'.pages.get? pid = if pid ∈ gone then none else c.pages.get? pid
  pinned : ∀ pid page, c.pages.get? pid = some page → page.pinned = true → pid ∉ gone
  lru : c'.lru.keys = c.lru.keys.filter (· ∉ gone)
  count : c'.evictionCount = c.evictionCount + gone.length
  bytes : c'.evictedKvBytes =
    c.evictedKvBytes + ((gone.filterMap c.pages.get?).map c.pageBytes).sum

theorem evicted_evictLru (c : KVCache) (n : Int) :
    Evicted c (c.evictLru n).1 (c.evictLru n).2 := by
  rw [evictLru_eq]
  have hn := c.victims_nodup n
  have hl : ∀ pid ∈ c.victims n, pid ∈ c.pages.keys := fun _ => mem_keys_of_mem_victims
  obtain ⟨hcount, hbytes⟩ := evictAll_counters hn hl
  refine ⟨evictAll_get? c _, ?_, evictAll_lru hn hl, hcount, hbytes⟩
  intro pid page hp hpin hm
  obtain ⟨page', hp', hfree⟩ := unpinned_of_mem_evictionOrder (List.mem_of_mem_take hm)
  rw [hp] at hp'
  rw [Option.some.inj hp', hfree] at hpin
  exact Bool.false_ne_true hpin

theorem Rep.byLastUse (h : Inv c) {uses : List Nat} (hr : Recent uses c.lru.keys) (draft : Bool) :
    ByLastUse uses (Unpinned c draft) (c.lru.keys.filter (c.evictable draft)) where
  mem := by
    intro pid
    rw [List.mem_filter, h.linked.lru]
    constructor
    · rintro ⟨_, he⟩
      cases hp : c.pages.get? pid with
      | none => simp [evictable, hp] at he
      | some page => exact ⟨page, hp, by simpa [evictable, hp] using he⟩
    · rintro ⟨page, hp, hpin, hd⟩
      exact ⟨Dict.mem_keys_of_get? hp, by simp [evictable, hp, hpin, hd]⟩
  order := hr.order.sublist List.filter_sublist

/-- In every reachable cache an eviction takes the first `n` of the unpinned drafts and then of the
other unpinned pages, both in the order of their last allocation or touch, and nothing else. -/
theorem evictLru_takes_least_recent (pageSize maxPages : Int) (config : Option RuntimeConfig)
    (calls : List CacheCall) (n : Int) :
    let c := (new pageSize maxPages config).runCalls calls
    let uses := (new pageSize maxPages config).usesOf calls
    (∀ pid ∈ c.pages.keys, pid ∈ uses) ∧
      (∃ drafts others, ByLastUse uses (Unpinned c true) drafts ∧
        ByLastUse uses (Unpinned c false) others ∧
        (c.evictLru n).2 = (drafts ++ others).take n.toNat) ∧
      Evicted c (c.evictLru n).1 (c.evictLru n).2 := by
  intro c uses
  have h : Inv c := inv_runCalls pageSize maxPages config calls
  have hr : Recent uses c.lru.keys :=
    recent_runCalls (inv_new pageSize maxPages config) (Recent.nil []) calls
  refine ⟨?_, ?_, evicted_evictLru c n⟩
  · intro pid hp
    exact hr.used pid ((h.linked.lru pid).mpr hp)
  · refine ⟨_, _, h.byLastUse hr true, h.byLastUse hr false, ?_⟩
    rw [evictLru_eq]
    rfl

/-- The page touched last is evicted last. -/
example :
    let r : RequestState :=
      { requestId := 1, promptTokens := [5, 6], targetTokens := [], maxNewTokens := 4
        eosTokenId := 0 }
    let c := (new 1 4 none).runCalls
      [.operation (.allocateForRequest r 3 false), .operation (.touchPages [0])]
    (c.evictLru 2).2 = [1, 2] := by decide

end KVCache
end ResidentInference

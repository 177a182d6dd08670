import ResidentInference.KVFrame
import ResidentInference.KVAllocation
import ResidentInference.SparseKV

/-! Which pages belong to a request, and which of them are pinned: what an allocation hands out
is owned by its request, a release takes all of a request, and pins do what they say. -/
namespace ResidentInference.KVCache
variable {c c' : KVCache}

/-- The page is live and belongs to the request. -/
def Owned (c : KVCache) (rid : Int) (pid : Nat) : Prop :=
  ∃ page, c.pages.get? pid = some page ∧ page.requestId = rid

theorem Owned.live {rid : Int} {pid : Nat} (h : Owned c rid pid) : pid ∈ c.pages.keys := by
  obtain ⟨page, hp, _⟩ := h
  exact Dict.mem_keys_of_get? hp

/-- A page keeps its owner as long as it is live. -/
theorem Evolves.owned {grow : Int → Prop} (he : Evolves grow c c') {rid : Int} {pid : Nat}
    (hn : pid < c.nextPageId) (hl : pid ∈ c'.pages.keys) (ho : Owned c rid pid) :
    Owned c' rid pid := by
  obtain ⟨page, hp, hr⟩ := ho
  obtain ⟨page', hp'⟩ := (Dict.mem_keys_iff _ _).mp hl
  cases he.page pid page' hp' with
  | inl hold =>
    obtain ⟨page₀, hp₀, hs⟩ := hold
    rw [hp] at hp₀
    exact ⟨page', hp', hs.requestId.trans (Option.some.inj hp₀ ▸ hr)⟩
  | inr hnew => exact absurd hn (not_lt.mpr hnew.1)

theorem Rep.lt_next (h : Inv c) {rid : Int} {pid : Nat} (ho : Owned c rid pid) :
    pid < c.nextPageId := h.linked.below pid ho.live

theorem Rep.owned_of_listed (h : Inv c) {rid l : Int} {pid : Nat}
    (hm : pid ∈ c.pageIdsFor (rid, l)) : Owned c rid pid := by
  obtain ⟨page, hp, hk⟩ := h.mem_pageIdsFor.mp hm
  exact ⟨page, hp, congrArg Prod.fst hk⟩

/-! ### Allocation -/

theorem allocateLayer_ids (c : KVCache) (rid total : Int) (pinned : Bool) (l : Int) :
    (c.allocateLayer rid total pinned l).2 =
      (c.allocateLayer rid total pinned l).1.pageIdsFor (rid, l) := by
  simp only [allocateLayer]
  split
  · rw [allocatePages_ids, allocatePages_pageIdsFor, if_pos rfl]
  · rfl

theorem allocateLayer_old (c : KVCache) (rid total : Int) (pinned : Bool) (l : Int) {pid : Nat}
    (hn : pid < c.nextPageId) :
    (c.allocateLayer rid total pinned l).1.pages.get? pid = c.pages.get? pid := by
  simp only [allocateLayer]
  split
  · exact allocatePages_old _ _ _ _ _ _ _ _ hn
  · rfl

/-- Every id of the map is that of a page of the request. -/
def MapOwned (c : KVCache) (rid : Int) (m : LayerPageMap) : Prop :=
  ∀ l ids, m.get? l = some ids → ∀ pid ∈ ids, Owned c rid pid

theorem allocateLayers_owned (h : Inv c) (rid total : Int) (pinned : Bool) (layers : List Int)
    {m : LayerPageMap} (hm : MapOwned c rid m) :
    MapOwned (allocateLayers rid total pinned layers c m).1 rid
      (allocateLayers rid total pinned layers c m).2 := by
  induction layers generalizing c m with
  | nil => exact hm
  | cons l layers ih =>
    have h' := h.allocateLayer rid total pinned l
    rw [allocateLayers_cons]
    refine ih h' ?_
    intro l' ids hget pid hpid
    rw [Dict.get?_set] at hget
    by_cases hl : l' = l
    · rw [if_pos hl] at hget
      rw [← Option.some.inj hget, allocateLayer_ids] at hpid
      exact h'.owned_of_listed hpid
    · rw [if_neg hl] at hget
      obtain ⟨page, hp, hr⟩ := hm l' ids hget pid hpid
      refine ⟨page, ?_, hr⟩
      rw [allocateLayer_old c rid total pinned l (h.lt_next ⟨page, hp, hr⟩)]
      exact hp

theorem allocateForRequest_owned (h : Inv c) {r : RequestState} {total : Int} {pinned : Bool}
    {m : LayerPageMap} (hok : c.allocateForRequest r total pinned = (.ok m, c')) :
    MapOwned c' r.requestId m := by
  unfold allocateForRequest at hok
  split at hok
  · cases hok
  · next needed _ =>
    dsimp only at hok
    split at hok
    · cases hok
    · cases hok
      refine allocateLayers_owned (h.makeRoom needed) r.requestId total pinned r.layerIds ?_
      intro l ids hget
      cases hget

theorem commitTokens_ok {r : RequestState} {n : Int} {pin : Bool} {m : LayerPageMap}
    (hok : c.commitTokens r n pin = (.ok m, c')) :
    ∃ c₁, c.allocateForRequest r (r.currentTokens + n) pin = (.ok m, c₁) ∧
      c' = updateListed KVPage.commit c₁ r.requestId r.layerIds := by
  unfold commitTokens at hok
  split at hok
  · cases hok
  · next c₁ ha =>
    cases hok
    exact ⟨c₁, ha, rfl⟩

theorem commitTokens_owned (h : Inv c) {r : RequestState} {n : Int} {pin : Bool}
    {m : LayerPageMap} (hok : c.commitTokens r n pin = (.ok m, c')) :
    MapOwned c' r.requestId m := by
  obtain ⟨c₁, ha, rfl⟩ := commitTokens_ok hok
  have h₁ : Inv c₁ := by
    have := h.allocateForRequest r (r.currentTokens + n) pin
    rwa [ha] at this
  intro l ids hget pid hpid
  have ho := allocateForRequest_owned h ha l ids hget pid hpid
  refine (evolves_updateListed (fun _ => False) retag_commit c₁ _ _).owned (h₁.lt_next ho) ?_ ho
  rw [updateListed_keys]
  exact ho.live

/-! ### Touches, pins and selection -/

theorem touchPage_pages (c : KVCache) (pid : Nat) : (c.touchPage pid).pages = c.pages := by
  unfold touchPage
  cases c.pages.get? pid <;> rfl

theorem touchPages_pages (c : KVCache) (ids : List Nat) : (c.touchPages ids).pages = c.pages :=
  List.foldlRecOn (motive := fun c' : KVCache => c'.pages = c.pages) ids _ rfl
    fun c' hc pid _ => (touchPage_pages c' pid).trans hc

theorem pinPage_get? (c : KVCache) (pid q : Nat) :
    (c.pinPage pid).pages.get? q =
      if q = pid then (c.pages.get? q).map (KVPage.setPinned true) else c.pages.get? q := by
  obtain ⟨bytes, hpin⟩ := pinPage_eq c pid
  rw [hpin]
  exact Dict.get?_modify _ _ _ _

theorem pinPages_get? (c : KVCache) (ids : List Nat) (q : Nat) :
    (c.pinPages ids).pages.get? q =
      if q ∈ ids then (c.pages.get? q).map (KVPage.setPinned true) else c.pages.get? q :=
  foldl_update_get? (fun (c : KVCache) pid => c.pages.get? pid) (KVPage.setPinned true)
    (fun _ => rfl) pinPage_get? ids c q

theorem markSelection_keys (c : KVCache) (config : RuntimeConfig) (r : RequestState)
    (decodeStep : Int) : (c.markSelection config r decodeStep).pages.keys = c.pages.keys :=
  markSelection_rec (P := fun c' => c'.pages.keys = c.pages.keys) config r decodeStep rfl
    fun _ _ _ _ hc => (Dict.keys_modify _ _ _).trans hc

/-! ### Release -/

theorem dropPages_pageIdsFor (ids : List Nat) (c : KVCache) (key : Int × Int) :
    (ids.foldl dropPage c).pageIdsFor key = c.pageIdsFor key := by
  refine List.foldlRecOn (motive := fun c' : KVCache => c'.pageIdsFor key = c.pageIdsFor key)
    ids _ rfl fun c' hsame pid _ => ?_
  simpa only [pageIdsFor, dropPage_pageTable] using hsame

theorem dropPages_get? {pid : Nat} {page : KVPage} (ids : List Nat) (c : KVCache)
    (h : (ids.foldl dropPage c).pages.get? pid = some page) : c.pages.get? pid = some page := by
  induction ids generalizing c with
  | nil => exact h
  | cons q ids ih =>
    have hq := ih _ h
    rw [dropPage_get?] at hq
    split at hq
    · cases hq
    · exact hq

theorem releaseKey_pageIdsFor (c : KVCache) (key k : Int × Int) :
    (c.releaseKey key).pageIdsFor k = if k = key then [] else c.pageIdsFor k := by
  rw [← pageIdsFor_erase]
  exact dropPages_pageIdsFor _ _ k

theorem releaseKeys_get? {pid : Nat} {page : KVPage} (keys : List (Int × Int)) (c : KVCache)
    (h : (keys.foldl releaseKey c).pages.get? pid = some page) :
    c.pages.get? pid = some page := by
  induction keys generalizing c with
  | nil => exact h
  | cons key keys ih =>
    have hkey : (c.releaseKey key).pages.get? pid = some page := ih _ h
    exact dropPages_get? (c.pageIdsFor key) { c with pageTable := c.pageTable.erase key } hkey

theorem releaseKeys_pageIdsFor (c : KVCache) (rid : Int) (k : Int × Int) :
    (c.releaseKeys rid).pageIdsFor k = if k.1 = rid then [] else c.pageIdsFor k := by
  have hfold : ∀ (keys : List (Int × Int)) (c : KVCache),
      (keys.foldl releaseKey c).pageIdsFor k = if k ∈ keys then [] else c.pageIdsFor k := by
    intro keys
    induction keys with
    | nil => simp
    | cons key keys ih =>
      intro c
      rw [List.foldl_cons, ih, releaseKey_pageIdsFor]
      by_cases hk : k = key
      · simp [hk]
      · simp [hk]
  unfold releaseKeys
  rw [hfold]
  by_cases hr : k.1 = rid
  · rw [if_pos hr]
    by_cases hk : k ∈ c.pageTable.keys
    · rw [if_pos (List.mem_filter.mpr ⟨hk, by simpa using hr⟩)]
    · rw [pageIdsFor_of_not_mem hk, ite_self]
  · rw [if_neg hr, if_neg (by simp [hr])]

/-- A release takes the pages of the request and no others. -/
theorem Rep.releaseRequest_get? (h : Inv c) (rid : Int) {pid : Nat} {page : KVPage} :
    (c.releaseRequest rid).pages.get? pid = some page ↔
      c.pages.get? pid = some page ∧ page.requestId ≠ rid := by
  have h' := h.releaseRequest rid
  have hold : ∀ page, (c.releaseRequest rid).pages.get? pid = some page →
      c.pages.get? pid = some page := fun _ => releaseKeys_get? _ c
  have hlists : ∀ k, (c.releaseRequest rid).pageIdsFor k =
      if k.1 = rid then [] else c.pageIdsFor k := c.releaseKeys_pageIdsFor rid
  constructor
  · intro hp
    refine ⟨hold page hp, fun hr => ?_⟩
    have hm := h'.mem_pageIdsFor.mpr ⟨page, hp, rfl⟩
    have hkey : page.key.1 = rid := hr
    rw [hlists, if_pos hkey] at hm
    cases hm
  · intro hp
    obtain ⟨hget, hr⟩ := hp
    have hkey : page.key.1 ≠ rid := hr
    have hm : pid ∈ (c.releaseRequest rid).pageIdsFor page.key := by
      rw [hlists, if_neg hkey]
      exact h.mem_pageIdsFor.mpr ⟨page, hget, rfl⟩
    obtain ⟨page', hp', _⟩ := h'.mem_pageIdsFor.mp hm
    have hsame := hold page' hp'
    rw [hget] at hsame
    rw [hp', ← Option.some.inj hsame]

end ResidentInference.KVCache

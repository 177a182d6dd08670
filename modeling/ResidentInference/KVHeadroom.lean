import ResidentInference.KVAdmission
import Mathlib.Algebra.Order.BigOperators.Group.Multiset

/-! What happens to the cache as long as there is room: nothing is evicted and no page goes. There
is room for a request when the pages that each request may need fit in the cache together. -/
namespace ResidentInference.KVCache
variable {c c' : KVCache}

/-! ### Caches that evict nothing -/

/-- Nothing has been evicted, and no page has gone. -/
structure Retains (c c' : KVCache) : Prop where
  evictions : c'.evictionCount = c.evictionCount
  live : c.pages.keys ⊆ c'.pages.keys

theorem Retains.refl (c : KVCache) : Retains c c := ⟨rfl, fun _ h => h⟩

theorem Retains.trans {c'' : KVCache} (h : Retains c c') (h' : Retains c' c'') : Retains c c'' :=
  ⟨h'.evictions.trans h.evictions, fun _ hp => h'.live (h.live hp)⟩

theorem Retains.foldl {α : Type} {f : KVCache → α → KVCache} (hf : ∀ c a, Retains c (f c a))
    (l : List α) (c : KVCache) : Retains c (l.foldl f c) :=
  List.foldlRecOn l f (Retains.refl c) fun c' hc a _ => hc.trans (hf c' a)

theorem retains_modify (c : KVCache) (pid : Nat) (f : KVPage → KVPage) {c' : KVCache}
    (hp : c'.pages = c.pages.modify pid f) (he : c'.evictionCount = c.evictionCount) :
    Retains c c' := by
  refine ⟨he, fun q hq => ?_⟩
  rw [hp, Dict.keys_modify]
  exact hq

theorem retains_updatePage (f : KVPage → KVPage) (c : KVCache) (pid : Nat) :
    Retains c (updatePage f c pid) := retains_modify c pid f rfl rfl

theorem retains_updateListed (f : KVPage → KVPage) (c : KVCache) (rid : Int) (layers : List Int) :
    Retains c (updateListed f c rid layers) :=
  Retains.foldl (fun _ _ => Retains.foldl (retains_updatePage f) _ _) layers c

theorem retains_pinPage (c : KVCache) (pid : Nat) : Retains c (c.pinPage pid) := by
  obtain ⟨bytes, hpin⟩ := pinPage_eq c pid
  rw [hpin]
  exact retains_modify c pid _ rfl rfl

theorem retains_unpinPage (c : KVCache) (pid : Nat) : Retains c (c.unpinPage pid) := by
  obtain ⟨bytes, hunpin⟩ := unpinPage_eq c pid
  rw [hunpin]
  exact retains_modify c pid _ rfl rfl

theorem retains_touchPage (c : KVCache) (pid : Nat) : Retains c (c.touchPage pid) := by
  unfold touchPage
  split
  · exact ⟨rfl, fun _ h => h⟩
  · exact ⟨rfl, fun _ h => h⟩

theorem retains_markSelection (c : KVCache) (config : RuntimeConfig) (r : RequestState)
    (decodeStep : Int) : Retains c (c.markSelection config r decodeStep) :=
  markSelection_rec (P := Retains c) config r decodeStep (Retains.refl c)
    fun c' f pid _ hc => hc.trans (retains_updatePage f c' pid)

theorem retains_allocatePages (rid l total : Int) (pinned : Bool) (n : Nat) (start : Int)
    (c : KVCache) (ids : List Nat) :
    Retains c (allocatePages rid l total pinned n start c ids).1 := by
  induction n generalizing start c ids with
  | zero => exact Retains.refl c
  | succ n ih =>
    have hone : Retains c
        (c.allocateOnePage rid l start (min c.pageSize (total - start)) pinned).2 :=
      ⟨rfl, fun pid hp => (Dict.mem_keys_set _ _ _ _).mpr (Or.inr hp)⟩
    rw [allocatePages_succ]
    exact hone.trans (ih _ _ _)

theorem retains_allocateLayers (rid total : Int) (pinned : Bool) (layers : List Int)
    (c : KVCache) (m : LayerPageMap) :
    Retains c (allocateLayers rid total pinned layers c m).1 := by
  induction layers generalizing c m with
  | nil => exact Retains.refl c
  | cons l layers ih =>
    rw [allocateLayers_cons]
    refine Retains.trans ?_ (ih _ _)
    simp only [allocateLayer]
    split
    · exact retains_allocatePages rid l total pinned _ _ c _
    · exact Retains.refl c

/-- An allocation that needs no more than the free pages evicts nothing. -/
theorem retains_allocate {r : RequestState} {total : Int} {pinned : Bool} {m : LayerPageMap}
    (hroom : c.neededPages r total ≤ c.freePages)
    (hok : c.allocateForRequest r total pinned = (.ok m, c')) : Retains c c' := by
  have hlayers := allocateForRequest_ok hok
  have hnone : c.victims (c.neededPages r total - c.freePages) = [] :=
    victims_of_nonpos (by omega)
  have hgrow := retains_allocateLayers r.requestId total pinned r.layerIds c Dict.empty
  rw [hnone] at hlayers
  have hsame : c.evictAll [] = c := rfl
  rw [hsame] at hlayers
  rw [hlayers] at hgrow
  exact hgrow

theorem retains_commit {r : RequestState} {n : Int} {pin : Bool} {m : LayerPageMap}
    (hroom : c.neededPages r (r.currentTokens + n) ≤ c.freePages)
    (hok : c.commitTokens r n pin = (.ok m, c')) : Retains c c' := by
  obtain ⟨c₁, ha, rfl⟩ := commitTokens_ok hok
  exact (retains_allocate hroom ha).trans (retains_updateListed _ c₁ _ _)

theorem dropPage_evictionCount (c : KVCache) (pid : Nat) :
    (c.dropPage pid).evictionCount = c.evictionCount := by
  unfold dropPage
  split
  · rfl
  · rfl

/-- A release is no eviction. -/
theorem releaseRequest_evictionCount (c : KVCache) (rid : Int) :
    (c.releaseRequest rid).evictionCount = c.evictionCount := by
  have hkey (c : KVCache) (key : Int × Int) :
      (c.releaseKey key).evictionCount = c.evictionCount :=
    List.foldlRecOn (motive := fun c' : KVCache => c'.evictionCount = c.evictionCount) _ _ rfl
      fun c' hc pid _ => (dropPage_evictionCount c' pid).trans hc
  exact List.foldlRecOn (motive := fun c' : KVCache => c'.evictionCount = c.evictionCount) _ _ rfl
    fun c' hc key _ => (hkey c' key).trans hc

/-! ### Snapshots -/

theorem hasSnapshot_iff {r : RequestState} :
    c.hasSnapshot r = true ↔ r.kvSnapshot ≠ none ∧ ∀ pid ∈ r.kvPageIds, pid ∈ c.pages.keys := by
  unfold hasSnapshot
  split
  · next hs => simp [hs]
  · next hs => simp [hs, Dict.contains_iff]

theorem Retains.hasSnapshot (h : Retains c c') {r : RequestState} (hs : c.hasSnapshot r = true) :
    c'.hasSnapshot r = true := by
  obtain ⟨hsome, hlive⟩ := hasSnapshot_iff.mp hs
  exact hasSnapshot_iff.mpr ⟨hsome, fun pid hp => h.live (hlive pid hp)⟩

/-- The request keeps its snapshot and its layers. -/
theorem hasSnapshot_congr {r r' : RequestState} (hs : r'.kvSnapshot = r.kvSnapshot)
    (hl : r'.layerIds = r.layerIds) : c.hasSnapshot r' = c.hasSnapshot r := by
  simp only [KVCache.hasSnapshot, RequestState.kvPageIds, hs, hl]

/-! ### Room for all requests -/

/-- Elements counted by what they belong to. -/
theorem countP_le_sum {α σ : Type} (l : List α) {p : α → Bool} (owns : σ → α → Bool)
    {owners : Multiset σ} (h : ∀ a ∈ l, p a = true → ∃ o ∈ owners, owns o a = true) :
    l.countP p ≤ (owners.map fun o => l.countP (owns o)).sum := by
  induction l with
  | nil => simp
  | cons a l ih =>
    have hrest := ih fun b hb => h b (List.mem_cons_of_mem a hb)
    simp only [List.countP_cons, Multiset.sum_map_add]
    by_cases hp : p a = true
    · obtain ⟨o, ho, hown⟩ := h a List.mem_cons_self hp
      have hmem : (1 : Nat) ∈ owners.map fun o => if owns o a = true then 1 else 0 :=
        Multiset.mem_map.mpr ⟨o, ho, if_pos hown⟩
      have hone := Multiset.le_sum_of_mem hmem
      rw [if_pos hp]
      omega
    · rw [if_neg hp]
      omega

/-- The pages of the other requests. -/
def foreignPages (c : KVCache) (rid : Int) : Nat :=
  c.pages.values.countP fun page => decide (page.requestId ≠ rid)

theorem size_eq_own_add_foreign (c : KVCache) (rid : Int) :
    c.pages.size = c.ownPages rid + c.foreignPages rid := by
  have hsize : c.pages.values.length = c.pages.size := List.length_map _
  have hcount := List.length_eq_countP_add_countP
    (fun page : KVPage => decide (page.requestId = rid)) (l := c.pages.values)
  simpa [ownPages, foreignPages, hsize] using hcount

theorem foreignPins_le_foreignPages (c : KVCache) (rid : Int) :
    c.foreignPins rid ≤ c.foreignPages rid := by
  refine List.countP_mono_left fun page _ h => ?_
  exact (Bool.and_eq_true_iff.mp h).2

theorem foreignPages_le {rid : Int} {rest : Multiset RequestState}
    (h : ∀ pid page, c.pages.get? pid = some page → page.requestId ≠ rid →
      ∃ q ∈ rest, q.requestId = page.requestId) :
    c.foreignPages rid ≤ (rest.map fun q => c.ownPages q.requestId).sum := by
  refine countP_le_sum c.pages.values (fun (q : RequestState) page =>
    decide (page.requestId = q.requestId)) fun page hpage hne => ?_
  obtain ⟨entry, hentry, rfl⟩ := List.mem_map.mp hpage
  obtain ⟨q, hq, hid⟩ := h entry.1 entry.2 ((Dict.get?_eq_some_iff _ _ _).mpr hentry)
    (of_decide_eq_true hne)
  exact ⟨q, hq, decide_eq_true hid.symm⟩

/-- What a request still needs and what it has is what its tokens ask for. -/
theorem Housed.needed_add_own {r : RequestState} {total : Int}
    (h : Housed c r.requestId r.layerIds (c.requiredPages total)) (hi : Inv c) :
    c.neededPages r total + c.ownPages r.requestId ≤
      r.layerIds.length * c.requiredPages total := by
  have hown := h.ownPages_le hi
  have hsum := needed_add_listed c r total r.layerIds fun l hl => by
    have hle := h l
    rwa [if_pos hl] at hle
  unfold neededPages
  omega

end ResidentInference.KVCache

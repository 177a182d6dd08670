import ResidentInference.KVCoverage
import ResidentInference.KVOwnership

/-! When an allocation finds room. Only unpinned pages can be evicted, so what counts is how many
pages the other requests hold pinned and how many pages the growing request is to have. -/
namespace ResidentInference.KVCache
variable {c c' : KVCache}

/-! ### Pins -/

/-- The pinned pages of the other requests. -/
def foreignPins (c : KVCache) (rid : Int) : Nat :=
  c.pages.values.countP fun page => page.pinned && decide (page.requestId ≠ rid)

/-- The pinned pages of the request. -/
def ownPins (c : KVCache) (rid : Int) : Nat :=
  c.pages.values.countP fun page => page.pinned && decide (page.requestId = rid)

/-- The pages of the request. -/
def ownPages (c : KVCache) (rid : Int) : Nat :=
  c.pages.values.countP fun page => decide (page.requestId = rid)

/-- Pages for `total` tokens in each layer fit beside the pages that others hold pinned. -/
def Fits (c : KVCache) (r : RequestState) (total : Int) : Prop :=
  c.foreignPins r.requestId + r.layerIds.length * c.requiredPages total ≤ c.maxPages

instance (c : KVCache) (r : RequestState) (total : Int) : Decidable (c.Fits r total) :=
  inferInstanceAs (Decidable (_ ≤ _))

theorem length_eq_pins (pages : List KVPage) (rid : Int) :
    pages.length = pages.countP (fun page => !page.pinned) +
      (pages.countP (fun page => page.pinned && decide (page.requestId ≠ rid)) +
        pages.countP fun page => page.pinned && decide (page.requestId = rid)) := by
  induction pages with
  | nil => rfl
  | cons page pages ih =>
    rw [List.length_cons, List.countP_cons, List.countP_cons, List.countP_cons, ih]
    cases hp : page.pinned with
    | false =>
      simp only [Bool.not_false, Bool.false_and, if_true, Bool.false_eq_true, if_false]
      omega
    | true =>
      by_cases hr : page.requestId = rid
      · simp only [Bool.not_true, hr, ne_eq, not_true_eq_false, decide_false, decide_true,
          Bool.and_self, Bool.and_false, Bool.false_eq_true, if_true, if_false]
        omega
      · simp only [Bool.not_true, hr, ne_eq, not_false_eq_true, decide_false, decide_true,
          Bool.and_self, Bool.and_false, Bool.false_eq_true, if_true, if_false]
        omega

/-- Every live page is evictable, pinned by the request or pinned by another one. -/
theorem size_eq_pins (c : KVCache) (rid : Int) :
    c.pages.size = c.evictablePages + (c.foreignPins rid + c.ownPins rid) := by
  have hlen := length_eq_pins c.pages.values rid
  have hsize : c.pages.values.length = c.pages.size := List.length_map _
  exact hsize ▸ hlen

/-- An eviction can reach every page that is not pinned. -/
theorem Rep.evictablePages_le (h : Inv c) : c.evictablePages ≤ c.evictionOrder.length := by
  rw [evictablePages, Dict.countP_values]
  have hnodup := c.pages.nodup.sublist
    ((List.filter_sublist (p := fun x : Nat × KVPage => !x.2.pinned) (l := c.pages.items)).map
      Prod.fst)
  refine (List.subperm_of_subset hnodup ?_).length_le
  intro pid hp
  obtain ⟨x, hx, rfl⟩ := List.mem_map.mp hp
  obtain ⟨hmem, hfree⟩ := List.mem_filter.mp hx
  have hget : c.pages.get? x.1 = some x.2 := (Dict.get?_eq_some_iff _ _ _).mpr hmem
  have hlru := (h.linked.lru x.1).mpr (Dict.mem_keys_of_get? hget)
  cases hd : x.2.isDraft with
  | true =>
    have hev : c.evictable true x.1 = true := by simpa [evictable, hget, hd] using hfree
    exact List.mem_append_left _ (List.mem_filter.mpr ⟨hlru, hev⟩)
  | false =>
    have hev : c.evictable false x.1 = true := by simpa [evictable, hget, hd] using hfree
    exact List.mem_append_right _ (List.mem_filter.mpr ⟨hlru, hev⟩)

/-! ### Room -/

/-- An allocation whose missing pages fit beside all the pinned pages succeeds. -/
theorem allocateForRequest_succeeds (h : Inv c) (hps : 0 < c.pageSize) {r : RequestState}
    {total : Int} (pinned : Bool)
    (hroom : c.neededPages r total + (c.foreignPins r.requestId + c.ownPins r.requestId : Nat) ≤
      c.maxPages) :
    ∃ m c', c.allocateForRequest r total pinned = (.ok m, c') := by
  generalize hd : c.neededPages r total - c.freePages = deficit
  have hsize := c.size_eq_pins r.requestId
  have horder := h.evictablePages_le
  have hlen := c.length_victims deficit
  have hv := c.evictAll_victims_size deficit
  have hmax := (c.evolves_evictAll (c.victims deficit)).maxPages
  have hfree : c.freePages = c.maxPages - c.pages.size := rfl
  have hfree' : (c.evictAll (c.victims deficit)).freePages =
      c.maxPages - (c.evictAll (c.victims deficit)).pages.size := by rw [freePages, hmax]
  have hok : ¬ (c.evictAll (c.victims deficit)).freePages < c.neededPages r total := by omega
  rw [allocateForRequest_eq hps, hd]
  simp only [if_neg hok]
  exact ⟨_, _, rfl⟩

theorem canAllocate_succeeds (hps : 0 < c.pageSize) {r : RequestState} {n : Int}
    (hroom : c.neededPages r (r.currentTokens + n) +
      (c.foreignPins r.requestId + c.ownPins r.requestId : Nat) ≤ c.maxPages) :
    c.canAllocate r n = .ok true := by
  have hsize := c.size_eq_pins r.requestId
  have hfree : c.freePages = c.maxPages - c.pages.size := rfl
  have hz : ¬ (c.pageSize = 0 ∧ 0 < r.currentTokens + n ∧ r.layerIds ≠ []) := fun hz => by omega
  have hge : c.freePages + c.evictablePages ≥ c.neededPages r (r.currentTokens + n) := by omega
  rw [canAllocate, pagesNeeded, if_neg hz]
  simp only [bind, Except.bind, pure, Except.pure, decide_eq_true hge, ite_self]

/-! ### The pages of one request -/

/-- In each of its layers the request has at most `n` pages, and none elsewhere. -/
def Housed (c : KVCache) (rid : Int) (layers : List Int) (n : Int) : Prop :=
  ∀ l, ((c.pageIdsFor (rid, l)).length : Int) ≤ if l ∈ layers then n else 0

theorem Housed.mono {rid n n' : Int} {layers : List Int} (h : Housed c rid layers n)
    (hle : n ≤ n') : Housed c rid layers n' := by
  intro l
  have hl := h l
  by_cases hm : l ∈ layers
  · rw [if_pos hm] at hl ⊢
    exact hl.trans hle
  · rw [if_neg hm] at hl ⊢
    exact hl

/-- A request that gets no page keeps to its layers. -/
theorem Housed.evolves {grow : Int → Prop} {rid n : Int} {layers : List Int}
    (h : Housed c rid layers n) (hi : Inv c) (hi' : Inv c') (he : Evolves grow c c')
    (hg : ¬ grow rid) : Housed c' rid layers n := by
  intro l
  have hsub : ∀ pid ∈ c'.pageIdsFor (rid, l), pid ∈ c.pageIdsFor (rid, l) := by
    intro pid hp
    obtain ⟨page', hpage', hkey⟩ := hi'.mem_pageIdsFor.mp hp
    cases he.page pid page' hpage' with
    | inl hold =>
      obtain ⟨page, hpage, hs⟩ := hold
      exact hi.mem_pageIdsFor.mpr ⟨page, hpage, hs.key.symm.trans hkey⟩
    | inr hnew =>
      have hr : page'.requestId = rid := congrArg Prod.fst hkey
      exact absurd (hr ▸ hnew.2) hg
  have hle := (List.subperm_of_subset (hi'.linked.nodup (rid, l)) hsub).length_le
  have hl := h l
  omega

/-- An allocation gives a layer of the request what `total` asks for, if it has not that much. -/
theorem Housed.allocate (hi : Inv c) (hps : 0 < c.pageSize) {r : RequestState} {total n : Int}
    {pinned : Bool} {m : LayerPageMap}
    (hok : c.allocateForRequest r total pinned = (.ok m, c'))
    (h : Housed c r.requestId r.layerIds n) :
    Housed c' r.requestId r.layerIds (max n (c.requiredPages total)) := by
  have hlayers := allocateForRequest_ok hok
  generalize c.victims (c.neededPages r total - c.freePages) = gone at hlayers
  have he := c.evolves_evictAll gone
  have hgone := h.evolves hi (hi.evictAll gone) he not_false
  intro l
  obtain ⟨_, hlen⟩ := allocateLayers_layer (hi.evictAll gone) (he.pageSize.symm ▸ hps) r total
    pinned r.layerIds Dict.empty l
  have hreq := he.requiredPages total
  have hl := hgone l
  rw [hlayers] at hlen
  simp only [pagesNeededForLayer, hreq] at hlen
  by_cases hm : l ∈ r.layerIds
  · rw [if_pos hm] at hl hlen ⊢
    omega
  · rw [if_neg hm] at hl hlen ⊢
    omega

theorem needed_add_listed (c : KVCache) (r : RequestState) (total : Int) (layers : List Int)
    (h : ∀ l ∈ layers, ((c.pageIdsFor (r.requestId, l)).length : Int) ≤ c.requiredPages total) :
    (layers.map (c.pagesNeededForLayer r total)).sum +
        (layers.flatMap fun l => c.pageIdsFor (r.requestId, l)).length =
      layers.length * c.requiredPages total := by
  induction layers with
  | nil => simp
  | cons l layers ih =>
    have hl := h l List.mem_cons_self
    have hi := ih fun l' hl' => h l' (List.mem_cons_of_mem l hl')
    have hneed : c.pagesNeededForLayer r total l =
        c.requiredPages total - (c.pageIdsFor (r.requestId, l)).length := by
      rw [pagesNeededForLayer, max_eq_left (by omega)]
    rw [List.map_cons, List.sum_cons, List.flatMap_cons, List.length_append, List.length_cons,
      hneed]
    push_cast
    linarith

theorem Housed.ownPages_le {rid n : Int} {layers : List Int} (h : Housed c rid layers n)
    (hi : Inv c) : c.ownPages rid ≤ (layers.flatMap fun l => c.pageIdsFor (rid, l)).length := by
  rw [ownPages, Dict.countP_values]
  have hnodup := c.pages.nodup.sublist ((List.filter_sublist
    (p := fun x : Nat × KVPage => decide (x.2.requestId = rid)) (l := c.pages.items)).map Prod.fst)
  refine (List.subperm_of_subset hnodup ?_).length_le
  intro pid hp
  obtain ⟨x, hx, rfl⟩ := List.mem_map.mp hp
  obtain ⟨hmem, hown⟩ := List.mem_filter.mp hx
  have hr : x.2.requestId = rid := of_decide_eq_true hown
  have hlisted : x.1 ∈ c.pageIdsFor (rid, x.2.layerId) :=
    hi.mem_pageIdsFor.mpr ⟨x.2, (Dict.get?_eq_some_iff _ _ _).mpr hmem, Prod.ext hr rfl⟩
  have hlayer : x.2.layerId ∈ layers := by
    by_contra hl
    have hle := h x.2.layerId
    rw [if_neg hl] at hle
    have hpos := List.length_pos_of_mem hlisted
    omega
  exact List.mem_flatMap.mpr ⟨x.2.layerId, hlayer, hlisted⟩

theorem ownPins_le_ownPages (c : KVCache) (rid : Int) : c.ownPins rid ≤ c.ownPages rid := by
  refine List.countP_mono_left fun page _ h => ?_
  exact (Bool.and_eq_true_iff.mp h).2

theorem neededPages_mono (hps : 0 < c.pageSize) (r : RequestState) {total total' : Int}
    (hle : total ≤ total') : c.neededPages r total ≤ c.neededPages r total' := by
  apply List.sum_le_sum
  intro l _
  have hreq := c.requiredPages_mono hps hle
  unfold pagesNeededForLayer
  omega

/-- A request that keeps to its layers and fits finds room to grow. -/
theorem Housed.room {r : RequestState} {total : Int} (hi : Inv c)
    (h : Housed c r.requestId r.layerIds (c.requiredPages total)) (hfits : c.Fits r total) :
    c.neededPages r total + (c.foreignPins r.requestId + c.ownPins r.requestId : Nat) ≤
      c.maxPages := by
  have hown := (c.ownPins_le_ownPages r.requestId).trans (h.ownPages_le hi)
  have hsum := needed_add_listed c r total r.layerIds fun l hl => by
    have hle := h l
    rwa [if_pos hl] at hle
  unfold Fits at hfits
  unfold neededPages
  push_cast
  omega

/-! ### What leaves the pins of the others alone -/

/-- Every page that another request holds pinned afterwards it held pinned before. -/
def KeepsPins (rid : Int) (c c' : KVCache) : Prop :=
  ∀ pid page', c'.pages.get? pid = some page' → page'.pinned = true → page'.requestId ≠ rid →
    ∃ page, c.pages.get? pid = some page ∧ page.pinned = true ∧ page.requestId ≠ rid

theorem KeepsPins.foreignPins_le {rid : Int} (h : KeepsPins rid c c') :
    c'.foreignPins rid ≤ c.foreignPins rid := by
  apply Dict.countP_values_le
  intro pid page' hp' hq
  rw [Bool.and_eq_true, decide_eq_true_eq] at hq
  obtain ⟨page, hp, hpin, hr⟩ := h pid page' hp' hq.1 hq.2
  exact ⟨page, hp, by rw [hpin, decide_eq_true hr]; rfl⟩

theorem KeepsPins.fits {r : RequestState} {total : Int} (h : KeepsPins r.requestId c c')
    (hs : c'.pageSize = c.pageSize) (hm : c'.maxPages = c.maxPages) (hf : c.Fits r total) :
    c'.Fits r total := by
  have hle := h.foreignPins_le
  have hreq : c'.requiredPages total = c.requiredPages total := by
    rw [requiredPages, requiredPages, hs]
  unfold Fits at hf ⊢
  rw [hreq, hm]
  omega

end ResidentInference.KVCache

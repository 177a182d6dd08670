import ResidentInference.KVEviction
import Mathlib.Algebra.BigOperators.Group.Finset.Basic

/-! What an allocation adds: consecutive new ids at the end of the lists of the request, as many
as the layers still miss after the eviction. -/
namespace ResidentInference.KVCache
variable {c : KVCache}

/-! ### The pages of one layer -/

section Pages
variable (r l total : Int) (pinned : Bool)

theorem allocatePages_succ (n : Nat) (start : Int) (c : KVCache) (ids : List Nat) :
    allocatePages r l total pinned (n+1) start c ids =
      allocatePages r l total pinned n (start + min c.pageSize (total - start))
        (c.allocateOnePage r l start (min c.pageSize (total - start)) pinned).2
        (ids ++ [c.nextPageId]) := rfl

@[simp] theorem allocateOnePage_next (c : KVCache) (start count : Int) :
    (c.allocateOnePage r l start count pinned).2.nextPageId = c.nextPageId + 1 := rfl

theorem allocatePages_ids (n : Nat) (start : Int) (c : KVCache) (ids : List Nat) :
    (allocatePages r l total pinned n start c ids).2 = ids ++ List.range' c.nextPageId n := by
  induction n generalizing start c ids with
  | zero => simp [allocatePages]
  | succ n ih =>
    rw [allocatePages_succ, ih, allocateOnePage_next, List.append_assoc, List.range'_succ,
      List.singleton_append]

theorem allocatePages_pageIdsFor (n : Nat) (start : Int) (c : KVCache) (ids : List Nat)
    (k : Int × Int) :
    (allocatePages r l total pinned n start c ids).1.pageIdsFor k =
      if k = (r, l) then c.pageIdsFor k ++ List.range' c.nextPageId n else c.pageIdsFor k := by
  induction n generalizing start c ids with
  | zero => simp [allocatePages]
  | succ n ih =>
    rw [allocatePages_succ, ih, allocateOnePage_pageIdsFor, allocateOnePage_next]
    by_cases hk : k = (r, l)
    · simp only [if_pos hk, List.append_assoc, List.range'_succ, List.singleton_append]
    · simp only [if_neg hk]

theorem allocatePages_old {q : Nat} (n : Nat) (start : Int) (c : KVCache) (ids : List Nat)
    (hq : q < c.nextPageId) :
    (allocatePages r l total pinned n start c ids).1.pages.get? q = c.pages.get? q := by
  induction n generalizing start c ids with
  | zero => rfl
  | succ n ih =>
    rw [allocatePages_succ, ih _ _ _ (Nat.lt_succ_of_lt hq), allocateOnePage_get?,
      if_neg (by omega)]

theorem allocatePages_size (n : Nat) (start : Int) (c : KVCache) (ids : List Nat)
    (h : ∀ pid ∈ c.pages.keys, pid < c.nextPageId) :
    (allocatePages r l total pinned n start c ids).1.pages.size = c.pages.size + n := by
  induction n generalizing start c ids with
  | zero => rfl
  | succ n ih =>
    have hfresh : c.pages.get? c.nextPageId = none := by
      rw [Dict.get?_eq_none_iff]
      exact fun hm => lt_irrefl _ (h _ hm)
    rw [allocatePages_succ, ih]
    · simp only [allocateOnePage, Dict.size_set_new _ hfresh]
      omega
    · intro pid hp
      obtain rfl | hp := (Dict.mem_keys_set _ _ _ _).mp hp
      · exact Nat.lt_succ_self _
      · exact Nat.lt_succ_of_lt (h pid hp)

theorem allocatePages_pageSize (n : Nat) (start : Int) (c : KVCache) (ids : List Nat) :
    (allocatePages r l total pinned n start c ids).1.pageSize = c.pageSize := by
  induction n generalizing start c ids with
  | zero => rfl
  | succ n ih => rw [allocatePages_succ, ih, allocateOnePage]

end Pages

/-! ### One layer -/

/-- The allocation makes up for exactly the pages that the layer misses. -/
theorem allocateLayer_eq (hps : 0 < c.pageSize) (r : RequestState) (total : Int) (pinned : Bool)
    (l : Int) :
    c.allocateLayer r.requestId total pinned l =
      allocatePages r.requestId l total pinned (c.pagesNeededForLayer r total l).toNat
        ((c.pageIdsFor (r.requestId, l)).length * c.pageSize) c
        (c.pageIdsFor (r.requestId, l)) := by
  simp only [allocateLayer, pagesNeededForLayer, requiredPages]
  generalize hn : ((c.pageIdsFor (r.requestId, l)).length : Int) = n
  have hnn : 0 ≤ n * c.pageSize := mul_nonneg (by omega) hps.le
  by_cases hcap : n * c.pageSize < total
  · have hle : n < ceilDiv total c.pageSize := (lt_ceilDiv_iff hps).mpr hcap
    rw [if_pos hcap, if_neg (by omega), ceilDiv_sub_mul hps, max_eq_left (by omega)]
  · have hle : (if total ≤ 0 then 0 else ceilDiv total c.pageSize) ≤ n := by
      split
      · omega
      · exact (ceilDiv_le_iff hps).mpr (not_lt.mp hcap)
    rw [if_neg hcap, max_eq_right (by omega)]
    rfl

theorem allocateLayer_pageIdsFor (hps : 0 < c.pageSize) (r : RequestState) (total : Int)
    (pinned : Bool) (l : Int) (k : Int × Int) :
    (c.allocateLayer r.requestId total pinned l).1.pageIdsFor k =
      if k = (r.requestId, l) then
        c.pageIdsFor k ++ List.range' c.nextPageId (c.pagesNeededForLayer r total l).toNat
      else c.pageIdsFor k := by
  rw [allocateLayer_eq hps, allocatePages_pageIdsFor]

@[simp] theorem allocateLayer_pageSize (r total : Int) (pinned : Bool) (l : Int) :
    (c.allocateLayer r total pinned l).1.pageSize = c.pageSize := by
  simp only [allocateLayer]
  split
  · exact allocatePages_pageSize r l total pinned _ _ c _
  · rfl

/-- Once a layer has been served it misses nothing; the other layers miss what they missed. -/
theorem allocateLayer_needed (hps : 0 < c.pageSize) (r : RequestState) (total : Int)
    (pinned : Bool) (l l' : Int) :
    (c.allocateLayer r.requestId total pinned l).1.pagesNeededForLayer r total l' =
      if l' = l then 0 else c.pagesNeededForLayer r total l' := by
  have hreq : (c.allocateLayer r.requestId total pinned l).1.requiredPages total =
      c.requiredPages total := by simp only [requiredPages, allocateLayer_pageSize]
  simp only [pagesNeededForLayer, hreq, allocateLayer_pageIdsFor hps]
  by_cases hl : l' = l
  · simp only [hl, if_true, List.length_append, List.length_range']
    push_cast
    omega
  · simp only [hl, Prod.mk.injEq, and_false, if_false]

/-! ### All layers -/

theorem allocateLayers_cons (rid total : Int) (pinned : Bool) (l : Int) (layers : List Int)
    (c : KVCache) (m : LayerPageMap) :
    allocateLayers rid total pinned (l :: layers) c m =
      allocateLayers rid total pinned layers (c.allocateLayer rid total pinned l).1
        (m.set l (c.allocateLayer rid total pinned l).2) := rfl

/-- A layer that misses no page is left as it is. -/
theorem allocateLayer_same {r : RequestState} {total l : Int} (pinned : Bool)
    (h : c.pagesNeededForLayer r total l = 0) :
    (c.allocateLayer r.requestId total pinned l).1 = c := by
  by_cases hps : 0 < c.pageSize
  · rw [allocateLayer_eq hps, h]
    rfl
  · simp only [allocateLayer]
    split
    · next hless =>
      have hle : ceilDiv (total - (c.pageIdsFor (r.requestId, l)).length * c.pageSize)
          c.pageSize ≤ 0 := ceilDiv_nonpos (by omega) (not_lt.mp hps)
      rw [Int.toNat_of_nonpos hle]
      rfl
    · rfl

theorem allocateLayers_same {r : RequestState} {total : Int} (pinned : Bool) {layers : List Int}
    (m : LayerPageMap) (h : ∀ l ∈ layers, c.pagesNeededForLayer r total l = 0) :
    (allocateLayers r.requestId total pinned layers c m).1 = c := by
  induction layers generalizing m with
  | nil => rfl
  | cons l layers ih =>
    obtain ⟨hl, hrest⟩ := List.forall_mem_cons.mp h
    rw [allocateLayers_cons, allocateLayer_same pinned hl]
    exact ih _ hrest

/-- A layer that is asked for twice is served once. -/
theorem sum_insert_served (f : Int → Int) (l : Int) (s : Finset Int) :
    (insert l s).sum f = f l + s.sum fun l' => if l' = l then 0 else f l' := by
  have hz : s.sum (fun l' => if l' = l then 0 else f l') =
      (s.erase l).sum fun l' => if l' = l then 0 else f l' := by
    rw [Finset.sum_erase]
    simp
  have he : (s.erase l).sum (fun l' => if l' = l then 0 else f l') = (s.erase l).sum f := by
    apply Finset.sum_congr rfl
    intro l' hl'
    rw [if_neg (Finset.ne_of_mem_erase hl')]
  rw [hz, he, ← Finset.add_sum_erase _ f (Finset.mem_insert_self l s), Finset.erase_insert_eq_erase]

theorem pagesNeededForLayer_nonneg (c : KVCache) (r : RequestState) (total l : Int) :
    0 ≤ c.pagesNeededForLayer r total l := le_max_right _ _

theorem allocateLayers_size (h : Inv c) (hps : 0 < c.pageSize) (r : RequestState) (total : Int)
    (pinned : Bool) (layers : List Int) (m : LayerPageMap) :
    ((allocateLayers r.requestId total pinned layers c m).1.pages.size : Int) =
      c.pages.size + layers.toFinset.sum (c.pagesNeededForLayer r total) := by
  induction layers generalizing c m with
  | nil => simp [allocateLayers]
  | cons l layers ih =>
    have hsize : (c.allocateLayer r.requestId total pinned l).1.pages.size =
        c.pages.size + (c.pagesNeededForLayer r total l).toNat := by
      rw [allocateLayer_eq hps, allocatePages_size _ _ _ _ _ _ _ _ h.linked.below]
    have hnn := c.pagesNeededForLayer_nonneg r total l
    rw [allocateLayers, ih (h.allocateLayer r.requestId total pinned l)
      (by rwa [allocateLayer_pageSize]), hsize, List.toFinset_cons, sum_insert_served]
    simp only [allocateLayer_needed hps]
    push_cast
    omega

/-! ### A whole call -/

theorem pagesNeeded_ok {r : RequestState} {total needed : Int}
    (h : c.pagesNeeded r total = .ok needed) : c.neededPages r total = needed := by
  unfold pagesNeeded at h
  split at h
  · cases h
  · exact Except.ok.inj h

/-- The cache within which an allocation works, once it has made room. -/
theorem allocateForRequest_of_needed {r : RequestState} {total : Int} (pinned : Bool)
    (hn : c.pagesNeeded r total = .ok (c.neededPages r total)) :
    c.allocateForRequest r total pinned =
      let c' := c.evictAll (c.victims (c.neededPages r total - c.freePages))
      if c'.freePages < c.neededPages r total then (.error .kvCannotAllocate, c')
      else
        let p := allocateLayers r.requestId total pinned r.layerIds c' Dict.empty
        (.ok p.2, p.1) := by
  simp only [allocateForRequest, hn, makeRoom_eq]

theorem allocateForRequest_eq (hps : 0 < c.pageSize) (r : RequestState) (total : Int)
    (pinned : Bool) :
    c.allocateForRequest r total pinned =
      let c' := c.evictAll (c.victims (c.neededPages r total - c.freePages))
      if c'.freePages < c.neededPages r total then (.error .kvCannotAllocate, c')
      else
        let p := allocateLayers r.requestId total pinned r.layerIds c' Dict.empty
        (.ok p.2, p.1) := by
  apply allocateForRequest_of_needed
  rw [pagesNeeded, if_neg (by omega)]

theorem allocateForRequest_error (hps : 0 < c.pageSize) {r : RequestState} {total : Int}
    {pinned : Bool} {e : Fault} {c' : KVCache}
    (he : c.allocateForRequest r total pinned = (.error e, c')) :
    c.evictAll (c.victims (c.neededPages r total - c.freePages)) = c' := by
  rw [allocateForRequest_eq hps] at he
  simp only at he
  split at he
  · exact (Prod.mk.inj he).2
  · cases he

/-- What a successful allocation is made of. -/
theorem allocateForRequest_ok {r : RequestState} {total : Int} {pinned : Bool} {m : LayerPageMap}
    {c' : KVCache} (hok : c.allocateForRequest r total pinned = (.ok m, c')) :
    allocateLayers r.requestId total pinned r.layerIds
      (c.evictAll (c.victims (c.neededPages r total - c.freePages))) Dict.empty = (c', m) := by
  cases hn : c.pagesNeeded r total with
  | error e =>
    rw [allocateForRequest, hn] at hok
    cases hok
  | ok needed =>
    obtain rfl := pagesNeeded_ok hn
    rw [allocateForRequest_of_needed pinned hn] at hok
    dsimp only at hok
    split at hok
    · cases hok
    · cases hok
      rfl

end ResidentInference.KVCache

import ResidentInference.KVCalls
import ResidentInference.KVHeadroom
import ResidentInference.KVCapacity

/-! When an allocation raises and what it then leaves behind, and what the two checks made before
an allocation promise about it. -/
namespace ResidentInference.KVCache
variable {c c' : KVCache}

/-! ### Counting what can be evicted -/

theorem evictable_pinned {draft : Bool} {pid : Nat} (h : c.evictable draft pid = true) :
    ∃ page, c.pages.get? pid = some page ∧ page.pinned = false := by
  cases hp : c.pages.get? pid with
  | none => simp [evictable, hp] at h
  | some page =>
    have hfree : page.pinned = false ∧ page.isDraft = draft := by simpa [evictable, hp] using h
    exact ⟨page, rfl, hfree.1⟩

theorem unpinned_of_mem_evictionOrder {pid : Nat} (h : pid ∈ c.evictionOrder) :
    ∃ page, c.pages.get? pid = some page ∧ page.pinned = false := by
  obtain h | h := List.mem_append.mp h
  · exact evictable_pinned (List.mem_filter.mp h).2
  · exact evictable_pinned (List.mem_filter.mp h).2

/-- The eviction order lists the unpinned pages. -/
theorem Rep.mem_evictionOrder (h : Inv c) {pid : Nat} :
    pid ∈ c.evictionOrder ↔ ∃ page, c.pages.get? pid = some page ∧ page.pinned = false := by
  refine ⟨unpinned_of_mem_evictionOrder, ?_⟩
  rintro ⟨page, hp, hpin⟩
  have hlru := (h.linked.lru pid).mpr (Dict.mem_keys_of_get? hp)
  cases hd : page.isDraft with
  | true =>
    have hev : c.evictable true pid = true := by simp [evictable, hp, hd, hpin]
    exact List.mem_append_left _ (List.mem_filter.mpr ⟨hlru, hev⟩)
  | false =>
    have hev : c.evictable false pid = true := by simp [evictable, hp, hd, hpin]
    exact List.mem_append_right _ (List.mem_filter.mpr ⟨hlru, hev⟩)

theorem evictionOrder_length_le (c : KVCache) : c.evictionOrder.length ≤ c.evictablePages := by
  rw [evictablePages, Dict.countP_values]
  refine (List.subperm_of_subset c.evictionOrder_nodup ?_).length_le
  intro pid hm
  obtain ⟨page, hp, hpin⟩ := unpinned_of_mem_evictionOrder hm
  exact List.mem_map.mpr
    ⟨(pid, page), List.mem_filter.mpr ⟨(Dict.get?_eq_some_iff _ _ _).mp hp, by simp [hpin]⟩, rfl⟩

theorem Rep.evictionOrder_length (h : Inv c) : c.evictionOrder.length = c.evictablePages :=
  le_antisymm c.evictionOrder_length_le h.evictablePages_le

/-- Evicting pages turns evictable pages into free ones, one for one. -/
theorem free_add_evictable (c : KVCache) (n : Int) :
    (c.evictAll (c.victims n)).freePages + (c.evictAll (c.victims n)).evictablePages =
      c.freePages + c.evictablePages := by
  have hsame (q : KVPage → Bool) (hq : ∀ page, q page = page.pinned) :
      (c.evictAll (c.victims n)).pages.values.countP q = c.pages.values.countP q := by
    apply le_antisymm
    · apply Dict.countP_values_le
      intro pid page hp hpin
      rw [evictAll_get?] at hp
      split at hp
      · cases hp
      · exact ⟨page, hp, hpin⟩
    · apply Dict.countP_values_le
      intro pid page hp hpin
      refine ⟨page, ?_, hpin⟩
      rw [evictAll_get?, if_neg, hp]
      intro hm
      obtain ⟨page', hp', hfree⟩ := unpinned_of_mem_evictionOrder (List.mem_of_mem_take hm)
      rw [hp] at hp'
      rw [hq, Option.some.inj hp', hfree] at hpin
      exact Bool.false_ne_true hpin
  have hsplit (c : KVCache) :
      c.pages.size = c.evictablePages + c.pages.values.countP KVPage.pinned := by
    have hlen := List.length_eq_countP_add_countP (fun page : KVPage => !page.pinned)
      (l := c.pages.values)
    have hsize : c.pages.values.length = c.pages.size := List.length_map _
    simpa [evictablePages, hsize] using hlen
  have hp := hsame KVPage.pinned fun _ => rfl
  have hs := hsplit c
  have hs' := hsplit (c.evictAll (c.victims n))
  have hmax := (c.evolves_evictAll (c.victims n)).maxPages
  have hsize := c.evictAll_victims_size n
  simp only [freePages, hmax]
  omega

/-! ### When an allocation finds room -/

/-- The missing pages can be counted and are no more than the free and the unpinned pages. -/
def RoomFor (c : KVCache) (r : RequestState) (total : Int) : Prop :=
  c.pagesNeeded r total = .ok (c.neededPages r total) ∧
    c.neededPages r total ≤ c.freePages + c.evictablePages

/-- Counting the pages can only fail in the division. -/
theorem pagesNeeded_error {r : RequestState} {total : Int} {e : Fault}
    (h : c.pagesNeeded r total = .error e) : e = .zeroDivision := by
  unfold pagesNeeded at h
  split at h
  · exact (Except.error.inj h).symm
  · cases h

theorem canAllocate_error {r : RequestState} {n : Int} {e : Fault}
    (h : c.canAllocate r n = .error e) : e = .zeroDivision := by
  unfold canAllocate at h
  cases hn : c.pagesNeeded r (r.currentTokens + n) with
  | error e' =>
    simp only [hn, bind, Except.bind] at h
    exact Except.error.inj h ▸ pagesNeeded_error hn
  | ok needed =>
    simp only [hn, bind, Except.bind, pure, Except.pure] at h
    split at h <;> cases h

theorem lt_neededPages_of_canAllocate {r : RequestState} {n : Int}
    (h : c.canAllocate r n = .ok false) :
    c.freePages + c.evictablePages < c.neededPages r (r.currentTokens + n) := by
  unfold canAllocate at h
  cases hn : c.pagesNeeded r (r.currentTokens + n) with
  | error e => simp [hn, bind, Except.bind] at h
  | ok needed =>
    obtain rfl := pagesNeeded_ok hn
    simp only [hn, bind, Except.bind, pure, Except.pure] at h
    split at h
    · cases h
    · exact not_le.mp (of_decide_eq_false (Except.ok.inj h))

theorem neededPages_nonneg (c : KVCache) (r : RequestState) (total : Int) :
    0 ≤ c.neededPages r total := by
  apply List.sum_nonneg
  intro x hx
  obtain ⟨l, _, rfl⟩ := List.mem_map.mp hx
  exact c.pagesNeededForLayer_nonneg r total l

/-- The free pages once an allocation has made room. -/
theorem Rep.free_evicted (h : Inv c) (n : Int) :
    (c.evictAll (c.victims n)).freePages = c.freePages + min n.toNat c.evictablePages := by
  have hsize := c.evictAll_victims_size n
  have hlen := c.length_victims n
  have hmax := (c.evolves_evictAll (c.victims n)).maxPages
  rw [h.evictionOrder_length] at hlen
  simp only [freePages, hmax]
  omega

theorem Rep.allocate_ok_iff (h : Inv c) (r : RequestState) (total : Int) (pinned : Bool) :
    (∃ m c', c.allocateForRequest r total pinned = (.ok m, c')) ↔ c.RoomFor r total := by
  cases hn : c.pagesNeeded r total with
  | error e => simp [KVCache.allocateForRequest, RoomFor, hn]
  | ok needed =>
    obtain rfl := pagesNeeded_ok hn
    have hfree := h.free_evicted (c.neededPages r total - c.freePages)
    rw [allocateForRequest_of_needed pinned hn]
    by_cases hless : (c.evictAll (c.victims (c.neededPages r total - c.freePages))).freePages <
        c.neededPages r total
    · simp only [RoomFor, hn, true_and, if_pos hless]
      constructor
      · rintro ⟨m, c', he⟩
        cases he
      · intro hle
        omega
    · simp only [RoomFor, hn, true_and, if_neg hless]
      constructor
      · intro _
        omega
      · intro _
        exact ⟨_, _, rfl⟩

theorem commit_ok_iff (c : KVCache) (r : RequestState) (n : Int) (pin : Bool) :
    (∃ m c', c.commitTokens r n pin = (.ok m, c')) ↔
      ∃ m c', c.allocateForRequest r (r.currentTokens + n) pin = (.ok m, c') := by
  unfold commitTokens
  obtain ⟨e | m, c'⟩ := c.allocateForRequest r (r.currentTokens + n) pin
  · simp
  · simp

theorem canAllocate_iff_room (hsize : c.pages.size ≤ c.maxPages) (r : RequestState) (n : Int) :
    c.canAllocate r n = .ok true ↔ c.RoomFor r (r.currentTokens + n) := by
  unfold canAllocate
  cases hn : c.pagesNeeded r (r.currentTokens + n) with
  | error e => simp [RoomFor, hn, bind, Except.bind]
  | ok needed =>
    obtain rfl := pagesNeeded_ok hn
    have hfree : c.freePages = c.maxPages - c.pages.size := rfl
    simp only [bind, Except.bind, pure, Except.pure, RoomFor, hn, true_and]
    split
    · next hz =>
      have hle : c.neededPages r (r.currentTokens + n) ≤ c.freePages + c.evictablePages := by omega
      simp [hle]
    · simp

/-- The admission check is exact: it says yes if and only if the commit will not raise. -/
theorem canAllocate_iff_commit_succeeds (h : Inv c) (hsize : c.pages.size ≤ c.maxPages)
    (r : RequestState) (n : Int) (pin : Bool) :
    c.canAllocate r n = .ok true ↔ ∃ m c', c.commitTokens r n pin = (.ok m, c') := by
  rw [canAllocate_iff_room hsize, commit_ok_iff, h.allocate_ok_iff]

/-- A full cache of one pinned and one unpinned page: the check counts the unpinned one. -/
theorem full_cache_admits_one_page :
    let r : RequestState :=
      { requestId := 1, promptTokens := [5], targetTokens := [], maxNewTokens := 4
        eosTokenId := 0 }
    let q : RequestState := { r with requestId := 2 }
    let c := (new 1 2 none).runOps [.allocateForRequest q 1 false, .allocateForRequest r 1 true]
    c.canAllocate r 1 = .ok true ∧ ∃ m c', c.commitTokens r 1 = (.ok m, c') := by
  intro r q c
  have hyes : c.canAllocate r 1 = .ok true := by decide +kernel
  exact ⟨hyes, (canAllocate_iff_commit_succeeds (inv_runOps 1 2 none _) (by decide) r 1 true).mp
    hyes⟩

/-! ### What a failed call leaves -/

/-- The cache is what an eviction of `n` pages leaves: no page is new or altered, the pinned ones
are all there, and it is the old cache exactly if that had nothing to evict. -/
structure OnlyEvicted (c c' : KVCache) (n : Int) : Prop where
  deficit : 0 < n
  evicted : c' = (c.evictLru n).1
  pins : ∀ pid page, c.pages.get? pid = some page → page.pinned = true →
    c'.pages.get? pid = some page
  old : ∀ pid page, c'.pages.get? pid = some page → c.pages.get? pid = some page
  same : c' = c ↔ ∀ pid page, c.pages.get? pid = some page → page.pinned = true

theorem Rep.onlyEvicted (h : Inv c) {n : Int} (hn : 0 < n) :
    OnlyEvicted c (c.evictAll (c.victims n)) n where
  deficit := hn
  evicted := by rw [evictLru_eq]
  pins := by
    intro pid page hp hpin
    rw [evictAll_get?, if_neg, hp]
    intro hm
    obtain ⟨page', hp', hfree⟩ := unpinned_of_mem_evictionOrder (List.mem_of_mem_take hm)
    rw [hp] at hp'
    rw [Option.some.inj hp', hfree] at hpin
    exact Bool.false_ne_true hpin
  old := by
    intro pid page hp
    rw [evictAll_get?] at hp
    split at hp
    · cases hp
    · exact hp
  same := by
    have hlen := c.length_victims n
    constructor
    · intro hsame pid page hp
      have hsize := c.evictAll_victims_size n
      rw [hsame] at hsize
      have hnil : c.evictionOrder = [] := List.length_eq_zero_iff.mp (by omega)
      by_contra hpin
      have hm := h.mem_evictionOrder.mpr ⟨page, hp, Bool.eq_false_iff.mpr hpin⟩
      simp [hnil] at hm
    · intro hall
      have hnil : c.evictionOrder = [] := by
        apply List.eq_nil_iff_forall_not_mem.mpr
        intro pid hm
        obtain ⟨page, hp, hfree⟩ := unpinned_of_mem_evictionOrder hm
        rw [hall pid page hp] at hfree
        exact Bool.false_ne_true hfree.symm
      rw [victims, hnil, List.take_nil]
      rfl

theorem Rep.allocate_raises (h : Inv c) {r : RequestState} {total : Int} {pinned : Bool}
    (he : c.allocateForRequest r total pinned = (.error .kvCannotAllocate, c')) :
    c.evictablePages < c.neededPages r total - c.freePages ∧
      c' = c.evictAll (c.victims (c.neededPages r total - c.freePages)) := by
  cases hn : c.pagesNeeded r total with
  | error e => simp [KVCache.allocateForRequest, hn, pagesNeeded_error hn] at he
  | ok needed =>
    obtain rfl := pagesNeeded_ok hn
    have hfree := h.free_evicted (c.neededPages r total - c.freePages)
    rw [allocateForRequest_of_needed pinned hn] at he
    dsimp only at he
    split at he
    · exact ⟨by omega, (Prod.mk.inj he).2.symm⟩
    · cases he

/-- The second check of `ensureCapacity` fails only after the eviction of a positive deficit. -/
theorem ensure_raises {r : RequestState} {n : Int}
    (he : c.ensureCapacity r n = (.error .kvCannotAllocate, c')) :
    0 < c.neededPages r (r.currentTokens + n) - c.freePages ∧
      c' = c.evictAll (c.victims (c.neededPages r (r.currentTokens + n) - c.freePages)) := by
  unfold ensureCapacity at he
  cases hn : c.pagesNeeded r (r.currentTokens + n) with
  | error e => simp [hn, pagesNeeded_error hn] at he
  | ok needed =>
    obtain rfl := pagesNeeded_ok hn
    simp only [hn, makeRoom_eq] at he
    split at he
    · next e hcan =>
      have hz := canAllocate_error hcan
      subst hz
      cases he
    · cases he
    · next hcan =>
      refine ⟨?_, (Prod.mk.inj he).2.symm⟩
      by_contra hle
      have hnil : c.victims (c.neededPages r (r.currentTokens + n) - c.freePages) = [] :=
        victims_of_nonpos (by omega)
      rw [hnil] at hcan
      have hcan' : c.canAllocate r n = .ok false := hcan
      simp only [canAllocate, hn, bind, Except.bind, pure, Except.pure] at hcan'
      split at hcan'
      · cases hcan'
      · have := Except.ok.inj hcan'
        rw [decide_eq_false_iff_not] at this
        omega

end ResidentInference.KVCache

namespace ResidentInference

/-- The request for which a call needs pages, and the tokens that they are to hold. -/
def KVOp.demand : KVOp → Option (RequestState × Int)
  | .ensureCapacity r n => some (r, r.currentTokens + n)
  | op => op.growth

namespace KVCache
variable {c c' : KVCache}

/-- A call that raises for lack of room asked for pages of a request, and has only evicted. -/
theorem Rep.raising_call (h : Inv c) {op : KVOp}
    (he : (op.apply c).1 = some .kvCannotAllocate) :
    ∃ r total, op.demand = some (r, total) ∧
      OnlyEvicted c (op.apply c).2 (c.neededPages r total - c.freePages) ∧
      (op.growth ≠ none → c.evictablePages < c.neededPages r total - c.freePages) := by
  have hgrow {r : RequestState} {total : Int} (hg : op.growth = some (r, total)) :
      OnlyEvicted c (op.apply c).2 (c.neededPages r total - c.freePages) ∧
        c.evictablePages < c.neededPages r total - c.freePages := by
    obtain ⟨pinned, f, layers, _, happ⟩ := op.apply_growth hg c
    rw [happ] at he ⊢
    generalize hres : c.allocateForRequest r total pinned = res at he ⊢
    obtain ⟨e | m, c'⟩ := res
    · obtain rfl := Option.some.inj he
      obtain ⟨hless, rfl⟩ := h.allocate_raises hres
      exact ⟨h.onlyEvicted (by omega), hless⟩
    · cases he
  cases op with
  | allocateForRequest r total pinned =>
    obtain ⟨hev, hless⟩ := hgrow rfl
    exact ⟨r, total, rfl, hev, fun _ => hless⟩
  | commitTokens r n pin =>
    obtain ⟨hev, hless⟩ := hgrow rfl
    exact ⟨r, _, rfl, hev, fun _ => hless⟩
  | allocateDraftPages r n =>
    obtain ⟨hev, hless⟩ := hgrow rfl
    exact ⟨r, _, rfl, hev, fun _ => hless⟩
  | ensureCapacity r n =>
    refine ⟨r, _, rfl, ?_, fun hg => absurd rfl hg⟩
    simp only [KVOp.apply, raised_snd] at he ⊢
    generalize hres : c.ensureCapacity r n = res at he ⊢
    obtain ⟨e | u, c'⟩ := res
    · obtain rfl := Option.some.inj he
      obtain ⟨hpos, rfl⟩ := ensure_raises hres
      exact h.onlyEvicted hpos
    · cases he
  | _ => cases he

/-- A call that fails for lack of room leaves what the eviction of the pages that were missing
leaves; after a failed allocation every page that is left is pinned. -/
theorem failed_call_only_evicts (pageSize maxPages : Int) (config : Option RuntimeConfig)
    (calls : List CacheCall) (hc : (new pageSize maxPages config).runCalls calls = c) (op : KVOp)
    (he : (op.apply c).1 = some .kvCannotAllocate) :
    ∃ r total, op.demand = some (r, total) ∧
      OnlyEvicted c (op.apply c).2 (c.neededPages r total - c.freePages) ∧
      (op.growth ≠ none →
        ∀ pid page, (op.apply c).2.pages.get? pid = some page → page.pinned = true) := by
  have h : Inv c := hc ▸ inv_runCalls pageSize maxPages config calls
  obtain ⟨r, total, hd, hev, hless⟩ := h.raising_call he
  refine ⟨r, total, hd, hev, ?_⟩
  intro hg pid page hp
  by_contra hfree
  have hm := h.mem_evictionOrder.mpr ⟨page, hev.old pid page hp, Bool.eq_false_iff.mpr hfree⟩
  -- the deficit is larger than the number of unpinned pages, so all of them were taken
  have hall : c.victims (c.neededPages r total - c.freePages) = c.evictionOrder := by
    have hlt := hless hg
    have hlen := h.evictionOrder_length
    exact List.take_of_length_le (by omega)
  rw [hev.evicted, evictLru_eq, evictAll_get?, hall, if_pos hm] at hp
  cases hp

/-- The growth of request 2 is hopeless in a cache of two pages, but the page of request 1 is gone
before that is found out. -/
theorem failed_growth_takes_page :
    ¬ ∀ (pageSize maxPages : Int) (config : Option RuntimeConfig) (calls : List CacheCall)
      (op : KVOp),
      (op.apply ((new pageSize maxPages config).runCalls calls)).1 = some .kvCannotAllocate →
        (op.apply ((new pageSize maxPages config).runCalls calls)).2.pages.keys =
            ((new pageSize maxPages config).runCalls calls).pages.keys ∧
          (op.apply ((new pageSize maxPages config).runCalls calls)).2.evictionCount =
            ((new pageSize maxPages config).runCalls calls).evictionCount := by
  intro h
  let q : RequestState :=
    { requestId := 1, promptTokens := [5], targetTokens := [], maxNewTokens := 4, eosTokenId := 0 }
  let r : RequestState := { q with requestId := 2 }
  have h' := h 1 2 none [.operation (.allocateForRequest q 1 false)] (.allocateForRequest r 3 true)
    (by decide)
  revert h'
  decide

theorem failed_growth_leaves_pinned_page :
    let q : RequestState :=
      { requestId := 1, promptTokens := [5], targetTokens := [], maxNewTokens := 4
        eosTokenId := 0 }
    let r : RequestState := { q with requestId := 2 }
    let c := (new 1 2 none).runCalls [.operation (.allocateForRequest q 1 true)]
    let op : KVOp := .allocateForRequest r 3 true
    ∃ r total, op.demand = some (r, total) ∧
      OnlyEvicted c (op.apply c).2 (c.neededPages r total - c.freePages) ∧
      (op.growth ≠ none →
        ∀ pid page, (op.apply c).2.pages.get? pid = some page → page.pinned = true) := by
  intro q r c op
  have hraise : (op.apply c).1 = some .kvCannotAllocate := by decide
  have hc : (new 1 2 none).runCalls [.operation (.allocateForRequest q 1 true)] = c := rfl
  exact failed_call_only_evicts 1 2 none _ hc op hraise

/-! ### What `ensureCapacity` ensures -/

/-- What the layers of the request miss, each as often as it is listed, when the pages in `gone`
are taken away. -/
def neededWithout (c : KVCache) (gone : List Nat) (r : RequestState) (total : Int) : Int :=
  (r.layerIds.map fun l =>
    max (c.requiredPages total - ((c.pageIdsFor (r.requestId, l)).filter (· ∉ gone)).length) 0).sum

theorem Rep.neededPages_evictAll (h : Inv c) (gone : List Nat) (r : RequestState) (total : Int) :
    (c.evictAll gone).neededPages r total = c.neededWithout gone r total := by
  unfold neededPages neededWithout
  refine congrArg List.sum (List.map_congr_left fun l _ => ?_)
  exact evictAll_needed h gone r total l

/-- Evicting pages never makes a request need less. -/
theorem neededPages_le_without (c : KVCache) (gone : List Nat) (r : RequestState) (total : Int) :
    c.neededPages r total ≤ c.neededWithout gone r total := by
  apply List.sum_le_sum
  intro l _
  have hlen := List.length_filter_le (fun pid => decide (pid ∉ gone))
    (c.pageIdsFor (r.requestId, l))
  unfold pagesNeededForLayer
  omega

/-- The free pages hold what the request still needs, and a commit made now succeeds without
evicting a page. -/
def Ensured (c : KVCache) (r : RequestState) (n : Int) : Prop :=
  c.neededPages r (r.currentTokens + n) ≤ c.freePages ∧
    ∀ pin, ∃ m c', c.commitTokens r n pin = (.ok m, c') ∧ Retains c c'

/-- The pages that make up for the deficit are not pages that the request then needs back, unless
there is no room for it at all. -/
def SparesNeed (c : KVCache) (r : RequestState) (total : Int) : Prop :=
  let gone := c.victims (c.neededPages r total - c.freePages)
  c.neededWithout gone r total ≤ c.freePages + c.evictablePages →
    c.neededWithout gone r total ≤ c.neededPages r total

instance (c : KVCache) (r : RequestState) (total : Int) : Decidable (c.SparesNeed r total) :=
  inferInstanceAs (Decidable (_ → _))

theorem Rep.ensured_iff (h : Inv c) {r : RequestState} {n : Int}
    (hok : c.pagesNeeded r (r.currentTokens + n) = .ok (c.neededPages r (r.currentTokens + n))) :
    c.Ensured r n ↔ c.neededPages r (r.currentTokens + n) ≤ c.freePages := by
  refine ⟨fun he => he.1, fun hle => ⟨hle, fun pin => ?_⟩⟩
  obtain ⟨m, c', hc⟩ := (commit_ok_iff c r n pin).mpr
    ((h.allocate_ok_iff r _ pin).mpr ⟨hok, by omega⟩)
  refine ⟨m, c', hc, ?_⟩
  obtain ⟨c₁, ha, rfl⟩ := commitTokens_ok hc
  refine Retains.trans ?_ (retains_updateListed _ c₁ _ _)
  have hnone : c.victims (c.neededPages r (r.currentTokens + n) - c.freePages) = [] :=
    victims_of_nonpos (by omega)
  rw [allocateForRequest_of_needed pin hok, hnone] at ha
  dsimp only at ha
  split at ha
  · cases ha
  · cases ha
    exact retains_allocateLayers r.requestId _ pin r.layerIds c Dict.empty

/-- Whether the pages can be counted depends on the parameters of the cache alone. -/
theorem Evolves.pagesNeeded_ok {grow : Int → Prop} (he : Evolves grow c c') {r : RequestState}
    {total : Int} (hok : c.pagesNeeded r total = .ok (c.neededPages r total)) :
    c'.pagesNeeded r total = .ok (c'.neededPages r total) := by
  unfold KVCache.pagesNeeded at hok ⊢
  rw [he.pageSize]
  split at hok
  · cases hok
  · next hz => rw [if_neg hz]

/-- What `ensureCapacity` leaves and when it returns. -/
theorem Rep.ensureCapacity_eq (h : Inv c) (hsize : c.pages.size ≤ c.maxPages) {r : RequestState}
    {n : Int} {gone : List Nat}
    (hg : c.victims (c.neededPages r (r.currentTokens + n) - c.freePages) = gone)
    (hok : c.pagesNeeded r (r.currentTokens + n) = .ok (c.neededPages r (r.currentTokens + n))) :
    (c.ensureCapacity r n).2 = c.evictAll gone ∧
      ((c.ensureCapacity r n).1 = .ok () ↔
        c.neededWithout gone r (r.currentTokens + n) ≤ c.freePages + c.evictablePages) := by
  have hev := c.evolves_evictAll gone
  have hfit : ((c.evictAll gone).pages.size : Int) ≤ (c.evictAll gone).maxPages := by
    have hle := hev.size_le fun _ hf => hf
    rw [hev.maxPages]
    omega
  have hroom : (c.evictAll gone).RoomFor r (r.currentTokens + n) ↔
      c.neededWithout gone r (r.currentTokens + n) ≤ c.freePages + c.evictablePages := by
    have hcount := c.free_add_evictable (c.neededPages r (r.currentTokens + n) - c.freePages)
    rw [hg] at hcount
    rw [RoomFor, hev.pagesNeeded_ok hok, h.neededPages_evictAll, hcount]
    exact and_iff_right rfl
  rw [← hroom, ← canAllocate_iff_room hfit]
  simp only [KVCache.ensureCapacity, hok, makeRoom_eq, hg]
  split
  · next e he => simp [he]
  · next he => simp [he]
  · next he => simp [he]

/-- A page size of zero asks for no pages. -/
theorem neededWithout_zeroSize (hz : c.pageSize = 0) (gone : List Nat) (r : RequestState)
    (total : Int) : c.neededWithout gone r total ≤ 0 := by
  have hreq : c.requiredPages total ≤ 0 := by
    unfold requiredPages
    split
    · exact le_rfl
    · exact ceilDiv_nonpos (by omega) hz.le
  refine (List.sum_eq_zero fun x hx => ?_).le
  obtain ⟨l, _, rfl⟩ := List.mem_map.mp hx
  omega

/-- A returning `ensureCapacity` has ensured what it promises exactly if the pages it evicted are
not pages that the request needs. -/
theorem ensureCapacity_ensures_iff (h : Inv c) (hsize : c.pages.size ≤ c.maxPages)
    (r : RequestState) (n : Int) :
    ((c.ensureCapacity r n).1 = .ok () → (c.ensureCapacity r n).2.Ensured r n) ↔
      c.SparesNeed r (r.currentTokens + n) := by
  cases hn : c.pagesNeeded r (r.currentTokens + n) with
  | error e =>
    have hz : c.pageSize = 0 := by
      unfold pagesNeeded at hn
      split at hn
      · next hz => exact hz.1
      · cases hn
    have hnn := c.neededPages_nonneg r (r.currentTokens + n)
    simp only [ensureCapacity, hn]
    constructor
    · intro _ _
      exact (neededWithout_zeroSize hz _ r _).trans hnn
    · intro _ he
      cases he
  | ok needed =>
    obtain rfl := pagesNeeded_ok hn
    generalize hg : c.victims (c.neededPages r (r.currentTokens + n) - c.freePages) = gone
    obtain ⟨hleft, hret⟩ := h.ensureCapacity_eq hsize hg hn
    have hle := c.neededPages_le_without gone r (r.currentTokens + n)
    have hfree := h.free_evicted (c.neededPages r (r.currentTokens + n) - c.freePages)
    rw [hg] at hfree
    rw [hret, hleft, (h.evictAll gone).ensured_iff ((c.evolves_evictAll gone).pagesNeeded_ok hn),
      h.neededPages_evictAll, SparesNeed]
    simp only [hg]
    by_cases hp : c.neededPages r (r.currentTokens + n) ≤ c.freePages
    · -- nothing is missing, so nothing is evicted
      have hnil : gone = [] := hg ▸ victims_of_nonpos (by omega)
      have hsame : c.neededWithout gone r (r.currentTokens + n) =
          c.neededPages r (r.currentTokens + n) := by
        rw [hnil, ← h.neededPages_evictAll]
        rfl
      rw [hsame]
      constructor
      · exact fun _ _ => le_rfl
      · intro _ _
        omega
    · -- if there is room at all, then as many pages are free afterwards as were missing before
      constructor
      · intro hall hroom
        have hens := hall hroom
        omega
      · intro hall hroom
        have hspared := hall hroom
        omega

/-- The oldest of the two pages of the request is evicted to make room for the third, and then two
pages are missing where one is free. -/
theorem ensured_growth_lacks_page :
    ¬ ∀ c : KVCache, Inv c → c.pages.size ≤ c.maxPages → ∀ (r : RequestState) (n : Int), 0 ≤ n →
      (c.ensureCapacity r n).1 = .ok () →
        (c.ensureCapacity r n).2.neededPages r (r.currentTokens + n) ≤
          (c.ensureCapacity r n).2.freePages := by
  intro h
  let r : RequestState :=
    { requestId := 1, promptTokens := [5, 6], targetTokens := [], maxNewTokens := 4
      eosTokenId := 0 }
  have h' := h ((new 1 2 none).runOps [.allocateForRequest r 2 false]) (inv_runOps 1 2 none _)
    (by decide) r 1 (by decide) (by decide +kernel)
  revert h'
  decide +kernel

/-- The page of the other request is the one that goes. -/
theorem ensured_growth_has_page :
    let q : RequestState :=
      { requestId := 1, promptTokens := [5], targetTokens := [], maxNewTokens := 4
        eosTokenId := 0 }
    let r : RequestState := { q with requestId := 2 }
    let c := (new 1 2 none).runOps [.allocateForRequest q 1 false, .allocateForRequest r 1 false]
    (c.ensureCapacity r 1).2.Ensured r 1 := by
  intro q r c
  have hspares : c.SparesNeed r (r.currentTokens + 1) := by decide +kernel
  have hret : (c.ensureCapacity r 1).1 = .ok () := by decide +kernel
  exact (ensureCapacity_ensures_iff (inv_runOps 1 2 none _) (by decide) r 1).mpr hspares hret

end KVCache
end ResidentInference

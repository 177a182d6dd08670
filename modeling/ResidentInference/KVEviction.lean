import ResidentInference.KVInvariant
import Mathlib.Data.List.Sort

/-! Which pages an eviction takes: the unpinned drafts and then the other unpinned pages, both
in LRU order. -/
namespace ResidentInference.KVCache
variable {c c' : KVCache}

/-! ### One page -/

theorem unlinkPage_pages (c : KVCache) (key : Int × Int) (pid : Nat) :
    (c.unlinkPage key pid).pages = c.pages := by
  rw [unlinkPage_eq]

theorem evictSinglePage_get? (c : KVCache) (pid q : Nat) :
    (c.evictSinglePage pid).pages.get? q = if q = pid then none else c.pages.get? q := by
  unfold evictSinglePage
  cases hp : c.pages.get? pid with
  | none =>
    by_cases hq : q = pid
    · simp [hq, hp]
    · simp [hq]
  | some page =>
    have hd := dropPage_get? (c.unlinkPage page.key pid) pid q
    rw [unlinkPage_pages] at hd
    exact hd

theorem evictSinglePage_lru {pid : Nat} {page : KVPage} (h : c.pages.get? pid = some page) :
    (c.evictSinglePage pid).lru = c.lru.erase pid := by
  simp only [evictSinglePage, h, dropPage_lru]
  rw [unlinkPage_eq]

theorem evictSinglePage_size {pid : Nat} {page : KVPage} (h : c.pages.get? pid = some page) :
    (c.evictSinglePage pid).pages.size + 1 = c.pages.size := by
  have hu : (c.unlinkPage page.key pid).pages.get? pid = some page := by
    rw [unlinkPage_pages, h]
  have hs := Dict.size_erase h
  simpa only [evictSinglePage, h, dropPage, hu, unaccount, unlinkPage_pages] using hs

theorem Rep.mem_pageIdsFor (h : Inv c) {key : Int × Int} {pid : Nat} :
    pid ∈ c.pageIdsFor key ↔ ∃ page, c.pages.get? pid = some page ∧ page.key = key := by
  constructor
  · exact fun hm => (h.linked.live key pid hm).2
  · rintro ⟨page, hp, rfl⟩
    exact (h.linked.listed pid page hp).resolve_right id

/-- The lists of the page table are ordered by id, so their members determine them. -/
theorem Rep.pageIdsFor_eq (h : Inv c) {key : Int × Int} {ids : List Nat}
    (hs : ids.Pairwise (· < ·)) (hm : ∀ pid, pid ∈ c.pageIdsFor key ↔ pid ∈ ids) :
    c.pageIdsFor key = ids :=
  (h.linked.ordered key).eq_of_mem_iff hs hm

/-! ### A list of pages -/

def evictAll (c : KVCache) (gone : List Nat) : KVCache := gone.foldl evictSinglePage c

theorem evictAll_cons (c : KVCache) (pid : Nat) (gone : List Nat) :
    c.evictAll (pid :: gone) = (c.evictSinglePage pid).evictAll gone := rfl

theorem evictAll_append (c : KVCache) (gone gone' : List Nat) :
    c.evictAll (gone ++ gone') = (c.evictAll gone).evictAll gone' := List.foldl_append

theorem evictAll_get? (c : KVCache) (gone : List Nat) (q : Nat) :
    (c.evictAll gone).pages.get? q = if q ∈ gone then none else c.pages.get? q := by
  induction gone generalizing c with
  | nil => simp [evictAll]
  | cons pid gone ih =>
    rw [evictAll_cons, ih, evictSinglePage_get?]
    by_cases hq : q = pid
    · simp [hq]
    · simp [hq]

theorem Rep.evictAll (h : Inv c) (gone : List Nat) : Inv (c.evictAll gone) :=
  List.foldlRecOn gone _ h fun _ hc pid _ => hc.evictSinglePage pid

theorem evictAll_pageIdsFor (h : Inv c) (gone : List Nat) (key : Int × Int) :
    (c.evictAll gone).pageIdsFor key = (c.pageIdsFor key).filter (· ∉ gone) := by
  apply (h.evictAll gone).pageIdsFor_eq ((h.linked.ordered key).filter _)
  intro pid
  rw [(h.evictAll gone).mem_pageIdsFor, evictAll_get?, List.mem_filter, h.mem_pageIdsFor]
  by_cases hp : pid ∈ gone
  · simp [hp]
  · simp [hp]

/-- What an eviction of live pages finds at its first page, and leaves for the others. -/
theorem evict_head {pid : Nat} {gone : List Nat} (hn : (pid :: gone).Nodup)
    (hl : ∀ q ∈ pid :: gone, q ∈ c.pages.keys) :
    (∃ page, c.pages.get? pid = some page) ∧ gone.Nodup ∧
      ∀ q ∈ gone, q ∈ (c.evictSinglePage pid).pages.keys := by
  obtain ⟨hnot, hn'⟩ := List.nodup_cons.mp hn
  refine ⟨(Dict.mem_keys_iff _ _).mp (hl pid List.mem_cons_self), hn', ?_⟩
  intro q hq
  have hne : q ≠ pid := fun he => hnot (he ▸ hq)
  rw [Dict.mem_keys_iff, evictSinglePage_get?, if_neg hne, ← Dict.mem_keys_iff]
  exact hl q (List.mem_cons_of_mem pid hq)

theorem evictAll_size {gone : List Nat} (hn : gone.Nodup) (hl : ∀ pid ∈ gone, pid ∈ c.pages.keys) :
    (c.evictAll gone).pages.size + gone.length = c.pages.size := by
  induction gone generalizing c with
  | nil => rfl
  | cons pid gone ih =>
    obtain ⟨⟨page, hp⟩, hn, hlive⟩ := evict_head hn hl
    have hs := evictSinglePage_size hp
    have hi := ih hn hlive
    rw [evictAll_cons, List.length_cons]
    omega

theorem evictAll_lru {gone : List Nat} (hn : gone.Nodup) (hl : ∀ pid ∈ gone, pid ∈ c.pages.keys) :
    (c.evictAll gone).lru.keys = c.lru.keys.filter (· ∉ gone) := by
  induction gone generalizing c with
  | nil => simp [evictAll]
  | cons pid gone ih =>
    obtain ⟨⟨page, hp⟩, hn, hlive⟩ := evict_head hn hl
    rw [evictAll_cons, ih hn hlive, evictSinglePage_lru hp, Dict.keys_erase, List.filter_filter]
    apply List.filter_congr
    intro q _
    simp [Bool.and_comm]

/-! ### The two passes -/

def evictable (draft : Bool) (c : KVCache) (pid : Nat) : Bool :=
  match c.pages.get? pid with
  | none => false
  | some page => !page.pinned && page.isDraft == draft

/-- The pages that an eviction may take, in the order in which it takes them. -/
def evictionOrder (c : KVCache) : List Nat :=
  c.lru.keys.filter (c.evictable true) ++ c.lru.keys.filter (c.evictable false)

def victims (c : KVCache) (n : Int) : List Nat := c.evictionOrder.take n.toNat

theorem victims_of_nonpos {n : Int} (hn : n ≤ 0) : c.victims n = [] := by
  rw [victims, Int.toNat_of_nonpos hn, List.take_zero]

theorem length_victims (c : KVCache) (n : Int) :
    (c.victims n).length = min n.toNat c.evictionOrder.length := by
  rw [victims, List.length_take]

theorem evictable_of_get?_eq {draft : Bool} {pid : Nat}
    (h : c'.pages.get? pid = c.pages.get? pid) :
    c'.evictable draft pid = c.evictable draft pid := by
  rw [evictable, evictable, h]

theorem mem_keys_of_evictable {draft : Bool} {pid : Nat} (h : c.evictable draft pid = true) :
    pid ∈ c.pages.keys := by
  cases hp : c.pages.get? pid with
  | none => simp [evictable, hp] at h
  | some page => exact Dict.mem_keys_of_get? hp

theorem evictPass_eq (draft : Bool) (n : Int) (ids : List Nat) (hn : ids.Nodup) (c : KVCache)
    (evicted : List Nat) :
    evictPass draft n ids (c, evicted) =
      (c.evictAll ((ids.filter (c.evictable draft)).take (n - evicted.length).toNat),
        evicted ++ (ids.filter (c.evictable draft)).take (n - evicted.length).toNat) := by
  induction ids generalizing c evicted with
  | nil => simp [evictPass, evictAll]
  | cons pid ids ih =>
    obtain ⟨hnot, hn⟩ := List.nodup_cons.mp hn
    unfold evictPass
    by_cases hle : n ≤ evicted.length
    · have hz : (n - evicted.length).toNat = 0 := by omega
      simp [hle, hz, evictAll]
    · rw [if_neg hle]
      cases hp : c.pages.get? pid with
      | none =>
        have he : c.evictable draft pid = false := by simp [evictable, hp]
        simp only [ih hn, List.filter_cons, he, Bool.false_eq_true, if_false]
      | some page =>
        have he : c.evictable draft pid = !(page.pinned || page.isDraft != draft) := by
          simp [evictable, hp, bne]
        cases hb : page.pinned || page.isDraft != draft with
        | true =>
          simp only [hb, ih hn, List.filter_cons, he, Bool.not_true, Bool.false_eq_true, if_false,
            if_true]
        | false =>
          -- the page goes; the others on the list are what they were
          have hf : ids.filter ((c.evictSinglePage pid).evictable draft) =
              ids.filter (c.evictable draft) := by
            apply List.filter_congr
            intro q hq
            have hne : q ≠ pid := fun h => hnot (h ▸ hq)
            exact evictable_of_get?_eq (by rw [evictSinglePage_get?, if_neg hne])
          have hk : (n - evicted.length).toNat =
              (n - (evicted ++ [pid]).length).toNat + 1 := by
            simp only [List.length_append, List.length_singleton]
            omega
          simp only [hb, ih hn, hf, List.filter_cons, he, Bool.not_false, Bool.false_eq_true,
            if_false, if_true, hk, List.take_succ_cons, evictAll_cons, List.append_assoc,
            List.singleton_append]

theorem evictionOrder_nodup (c : KVCache) : c.evictionOrder.Nodup := by
  have hn := c.lru.nodup_keys
  rw [evictionOrder, List.nodup_append]
  refine ⟨hn.filter _, hn.filter _, ?_⟩
  rintro p hp q hq rfl
  have h1 := (List.mem_filter.mp hp).2
  have h2 := (List.mem_filter.mp hq).2
  unfold evictable at h1 h2
  cases hpage : c.pages.get? p with
  | none => simp [hpage] at h1
  | some page => simp_all

theorem mem_keys_of_mem_evictionOrder {pid : Nat} (h : pid ∈ c.evictionOrder) :
    pid ∈ c.pages.keys := by
  obtain h | h := List.mem_append.mp h
  · exact mem_keys_of_evictable (List.mem_filter.mp h).2
  · exact mem_keys_of_evictable (List.mem_filter.mp h).2

theorem victims_nodup (c : KVCache) (n : Int) : (c.victims n).Nodup :=
  c.evictionOrder_nodup.sublist (List.take_sublist _ _)

theorem mem_keys_of_mem_victims {pid : Nat} {n : Int} (h : pid ∈ c.victims n) :
    pid ∈ c.pages.keys := mem_keys_of_mem_evictionOrder (List.mem_of_mem_take h)

/-- An eviction takes the first `n` pages of the order and nothing else. -/
theorem evictLru_eq (c : KVCache) (n : Int) :
    c.evictLru n = (c.evictAll (c.victims n), c.victims n) := by
  have hn := c.lru.nodup_keys
  have h1 := evictPass_eq true n c.lru.keys hn c []
  simp only [List.length_nil, Nat.cast_zero, sub_zero, List.nil_append] at h1
  simp only [evictLru, h1]
  generalize hv : (c.lru.keys.filter (c.evictable true)).take n.toNat = drafts
  have hsub : drafts.Sublist (c.lru.keys.filter (c.evictable true)) := hv ▸ List.take_sublist _ _
  have hdraft : ∀ pid ∈ drafts, c.evictable true pid = true := fun pid hp =>
    (List.mem_filter.mp (hsub.subset hp)).2
  have hlru := evictAll_lru (hn.sublist (hsub.trans List.filter_sublist))
    fun pid hp => mem_keys_of_evictable (hdraft pid hp)
  -- what the second pass finds evictable is what was evictable for it at the start
  have hrest : (c.evictAll drafts).lru.keys.filter ((c.evictAll drafts).evictable false) =
      c.lru.keys.filter (c.evictable false) := by
    rw [hlru, List.filter_filter]
    apply List.filter_congr
    intro pid _
    by_cases hp : pid ∈ drafts
    · have hd := hdraft pid hp
      unfold evictable at hd ⊢
      cases hpage : c.pages.get? pid with
      | none => simp [hpage] at hd
      | some page => simp_all
    · have he : (c.evictAll drafts).evictable false pid = c.evictable false pid :=
        evictable_of_get?_eq (by rw [evictAll_get?, if_neg hp])
      simp [hp, he]
  have hcount : (n - drafts.length).toNat =
      n.toNat - (c.lru.keys.filter (c.evictable true)).length ∨
      (c.lru.keys.filter (c.evictable false)).take (n - drafts.length).toNat = [] ∧
        n.toNat ≤ (c.lru.keys.filter (c.evictable true)).length := by
    have hlen : drafts.length = min n.toNat (c.lru.keys.filter (c.evictable true)).length := by
      rw [← hv, List.length_take]
    obtain hle | hle := le_total n.toNat (c.lru.keys.filter (c.evictable true)).length
    · right
      have hz : (n - drafts.length).toNat = 0 := by omega
      exact ⟨by rw [hz, List.take_zero], hle⟩
    · left
      omega
  have htake : c.victims n =
      drafts ++ (c.lru.keys.filter (c.evictable false)).take (n - drafts.length).toNat := by
    rw [victims, evictionOrder, List.take_append, hv]
    obtain he | ⟨he, hle⟩ := hcount
    · rw [he]
    · rw [he, Nat.sub_eq_zero_of_le hle, List.take_zero]
  rw [evictPass_eq false n _ (c.evictAll drafts).lru.nodup_keys, hrest, htake, evictAll_append]

theorem makeRoom_eq (c : KVCache) (needed : Int) :
    c.makeRoom needed = c.evictAll (c.victims (needed - c.freePages)) := by
  simp only [makeRoom, evictLru_eq]
  by_cases hd : 0 < needed - c.freePages
  · rw [if_pos (by omega), max_eq_left hd.le]
  · rw [if_neg (by omega), victims_of_nonpos (by omega)]
    rfl

theorem evictAll_victims_size (c : KVCache) (n : Int) :
    (c.evictAll (c.victims n)).pages.size + (c.victims n).length = c.pages.size :=
  evictAll_size (c.victims_nodup n) fun _ => mem_keys_of_mem_victims

end ResidentInference.KVCache

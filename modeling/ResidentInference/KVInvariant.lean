import ResidentInference.KVCache

/-! The representation invariant of the KV cache. Pages, LRU order and page table index one
set of ids, and the counters are sums over the live pages. -/
namespace ResidentInference.KVCache

/-- The three indexes agree. The ids in `loose` may be live without being listed, and the
lists of the keys in `hollow` may be empty: this is what holds inside a removal. -/
structure Linked (loose : Nat → Prop) (hollow : Int × Int → Prop) (c : KVCache) : Prop where
  lru : ∀ pid, pid ∈ c.lru.keys ↔ pid ∈ c.pages.keys
  pageId : ∀ pid page, c.pages.get? pid = some page → page.pageId = pid
  below : ∀ pid ∈ c.pages.keys, pid < c.nextPageId
  listed : ∀ pid page, c.pages.get? pid = some page → pid ∈ c.pageIdsFor page.key ∨ loose pid
  live : ∀ key, ∀ pid ∈ c.pageIdsFor key,
    ¬ loose pid ∧ ∃ page, c.pages.get? pid = some page ∧ page.key = key
  ordered : ∀ key, (c.pageIdsFor key).Pairwise (· < ·)
  filled : ∀ key ∈ c.pageTable.keys, c.pageIdsFor key = [] → hollow key

/-- What holds of every live page by itself. -/
structure PagesSound (c : KVCache) : Prop where
  flags : ∀ pid page, c.pages.get? pid = some page →
    ¬(page.isCommitted = true ∧ page.isDraft = true)
  count : ∀ pid page, c.pages.get? pid = some page → 0 < page.tokenCount
  size : ∀ pid page, c.pages.get? pid = some page → 0 < c.pageSize

structure Accounted (c : KVCache) : Prop where
  live : c.totalLiveKvBytes = c.pages.sumBy c.pageBytes
  pinned : c.pinnedKvBytes = c.pages.sumBy fun page => if page.pinned then c.pageBytes page else 0
  used : c.usedCapacityTokens = c.pages.sumBy KVPage.tokenCount
  capacity : c.totalCapacityTokens = c.pageSize * c.pages.size

structure Rep (loose : Nat → Prop) (hollow : Int × Int → Prop) (c : KVCache) : Prop where
  linked : Linked loose hollow c
  sound : PagesSound c
  accounted : Accounted c

/-- The representation invariant. -/
abbrev Inv (c : KVCache) : Prop := Rep (fun _ => False) (fun _ => False) c

variable {loose : Nat → Prop} {hollow : Int × Int → Prop} {c : KVCache}

theorem Linked.nodup (h : Linked loose hollow c) (key : Int × Int) : (c.pageIdsFor key).Nodup :=
  (h.ordered key).imp Nat.ne_of_lt

theorem pageIdsFor_of_not_mem {key : Int × Int} (h : key ∉ c.pageTable.keys) :
    c.pageIdsFor key = [] := by
  rw [pageIdsFor, (Dict.get?_eq_none_iff _ _).mpr h]
  rfl

theorem inv_new (pageSize maxPages : Int) (config : Option RuntimeConfig) :
    Inv (new pageSize maxPages config) where
  linked :=
    { lru := fun _ => Iff.rfl
      pageId := by simp [new]
      below := by simp [new, Dict.keys, Dict.empty]
      listed := by simp [new]
      live := by simp [new, pageIdsFor]
      ordered := by simp [new, pageIdsFor]
      filled := by simp [new, Dict.keys, Dict.empty] }
  sound := { flags := by simp [new], count := by simp [new], size := by simp [new] }
  accounted :=
    { live := by simp [new], pinned := by simp [new], used := by simp [new]
      capacity := by simp [new, Dict.size, Dict.empty] }

/-! ### Dropping a page -/

theorem dropPage_get? (c : KVCache) (pid q : Nat) :
    (c.dropPage pid).pages.get? q = if q = pid then none else c.pages.get? q := by
  unfold dropPage
  cases h : c.pages.get? pid with
  | none =>
    by_cases hq : q = pid
    · simp [hq, h]
    · simp [hq]
  | some page => simp only [unaccount, Dict.get?_erase]

theorem dropPage_lru (c : KVCache) (pid : Nat) :
    (c.dropPage pid).lru = c.lru.erase pid := by
  unfold dropPage
  cases c.pages.get? pid <;> rfl

@[simp] theorem dropPage_pageTable (c : KVCache) (pid : Nat) :
    (c.dropPage pid).pageTable = c.pageTable := by
  unfold dropPage
  cases c.pages.get? pid <;> rfl

@[simp] theorem dropPage_nextPageId (c : KVCache) (pid : Nat) :
    (c.dropPage pid).nextPageId = c.nextPageId := by
  unfold dropPage
  cases c.pages.get? pid <;> rfl

@[simp] theorem dropPage_pageSize (c : KVCache) (pid : Nat) :
    (c.dropPage pid).pageSize = c.pageSize := by
  unfold dropPage
  cases c.pages.get? pid <;> rfl

theorem dropPage_mem_keys (c : KVCache) (pid q : Nat) :
    q ∈ (c.dropPage pid).pages.keys ↔ q ∈ c.pages.keys ∧ q ≠ pid := by
  simp only [Dict.mem_keys_iff, dropPage_get?]
  by_cases hq : q = pid
  · simp [hq]
  · simp [hq]

/-- Dropping a live page that no list holds leaves the indexes in agreement. -/
theorem Linked.drop {pid : Nat} (h : Linked (fun q => q = pid ∨ loose q) hollow c) :
    Linked loose hollow (c.dropPage pid) where
  lru q := by
    rw [dropPage_lru, Dict.keys_erase, List.mem_filter, dropPage_mem_keys, h.lru]
    simp
  pageId q page hq := by
    rw [dropPage_get?] at hq
    split at hq
    · cases hq
    · exact h.pageId q page hq
  below q hq := by
    rw [dropPage_nextPageId]
    exact h.below q ((dropPage_mem_keys c pid q).mp hq).1
  listed q page hq := by
    rw [dropPage_get?] at hq
    by_cases hqp : q = pid
    · simp [hqp] at hq
    · rw [if_neg hqp] at hq
      have hl := h.listed q page hq
      simpa only [pageIdsFor, dropPage_pageTable, hqp, false_or] using hl
  live key q hq := by
    simp only [pageIdsFor, dropPage_pageTable] at hq
    obtain ⟨hl, page, hpage, hkey⟩ := h.live key q hq
    have hqp : q ≠ pid := fun he => hl (Or.inl he)
    refine ⟨fun hlq => hl (Or.inr hlq), page, ?_, hkey⟩
    rw [dropPage_get?, if_neg hqp, hpage]
  ordered key := by
    simp only [pageIdsFor, dropPage_pageTable]
    exact h.ordered key
  filled key hk he := by
    simp only [pageIdsFor, dropPage_pageTable] at hk he
    exact h.filled key hk he

theorem PagesSound.drop (h : PagesSound c) (pid : Nat) : PagesSound (c.dropPage pid) := by
  have old : ∀ q page, (c.dropPage pid).pages.get? q = some page → c.pages.get? q = some page := by
    intro q page hq
    rw [dropPage_get?] at hq
    split at hq
    · cases hq
    · exact hq
  exact
    { flags := fun q page hq => h.flags q page (old q page hq)
      count := fun q page hq => h.count q page (old q page hq)
      size := fun q page hq => by
        rw [dropPage_pageSize]
        exact h.size q page (old q page hq) }

theorem Accounted.drop (h : Accounted c) (pid : Nat) : Accounted (c.dropPage pid) := by
  unfold dropPage
  cases hp : c.pages.get? pid with
  | none => exact ⟨h.live, h.pinned, h.used, h.capacity⟩
  | some page =>
    have hlive := Dict.sumBy_erase c.pageBytes hp
    have hpin := Dict.sumBy_erase (fun p => if p.pinned then c.pageBytes p else 0) hp
    have hused := Dict.sumBy_erase KVPage.tokenCount hp
    have hsize := Dict.size_erase hp
    refine ⟨?_, ?_, ?_, ?_⟩
    · change c.totalLiveKvBytes - c.pageBytes page = (c.pages.erase pid).sumBy c.pageBytes
      rw [h.live]
      omega
    · change (if page.pinned then c.pinnedKvBytes - c.pageBytes page else c.pinnedKvBytes) =
        (c.pages.erase pid).sumBy fun p => if p.pinned then c.pageBytes p else 0
      rw [h.pinned]
      cases hb : page.pinned with
      | false => simpa [hb] using hpin.symm
      | true =>
        simp only [hb, if_true] at hpin ⊢
        omega
    · change c.usedCapacityTokens - page.tokenCount = (c.pages.erase pid).sumBy KVPage.tokenCount
      rw [h.used]
      omega
    · change c.totalCapacityTokens - c.pageSize = c.pageSize * ((c.pages.erase pid).size : Int)
      rw [h.capacity, ← hsize]
      push_cast
      ring

theorem Rep.drop {pid : Nat} (h : Rep (fun q => q = pid ∨ loose q) hollow c) :
    Rep loose hollow (c.dropPage pid) :=
  ⟨h.linked.drop, h.sound.drop pid, h.accounted.drop pid⟩

/-! ### Taking an id out of its list -/

/-- A live page leaves its list and becomes loose; which keys may be left with an empty list
depends on how the table was written. -/
theorem Linked.unlist {hollow' : Int × Int → Prop} {pid : Nat} {page : KVPage}
    {table : Dict (Int × Int) (List Nat)} (h : Linked loose hollow c)
    (hpage : c.pages.get? pid = some page)
    (hids : ∀ key, { c with pageTable := table }.pageIdsFor key =
      if key = page.key then (c.pageIdsFor key).erase pid else c.pageIdsFor key)
    (hfilled : ∀ key ∈ table.keys,
      { c with pageTable := table }.pageIdsFor key = [] → hollow' key) :
    Linked (fun q => q = pid ∨ loose q) hollow' { c with pageTable := table } where
  lru := h.lru
  pageId := h.pageId
  below := h.below
  listed q page' hq := by
    by_cases hqp : q = pid
    · exact Or.inr (Or.inl hqp)
    · rw [hids]
      obtain hl | hl := h.listed q page' hq
      · refine Or.inl ?_
        split
        · exact (List.mem_erase_of_ne hqp).mpr hl
        · exact hl
      · exact Or.inr (Or.inr hl)
  live key q hq := by
    rw [hids] at hq
    have hmem : q ∈ c.pageIdsFor key := by
      split at hq
      · exact List.mem_of_mem_erase hq
      · exact hq
    obtain ⟨hl, page', hpage', hkey⟩ := h.live key q hmem
    refine ⟨?_, page', hpage', hkey⟩
    rintro (rfl | hlq)
    · -- the id is listed under its own key only, and there the erasure took it out
      have hk : key = page.key := by
        rw [hpage] at hpage'
        rw [← hkey, Option.some.inj hpage']
      rw [if_pos hk] at hq
      exact (h.nodup key).not_mem_erase hq
    · exact hl hlq
  ordered key := by
    rw [hids]
    split
    · exact (h.ordered key).sublist List.erase_sublist
    · exact h.ordered key
  filled := hfilled

theorem pageIdsFor_erase (c : KVCache) (key k : Int × Int) :
    { c with pageTable := c.pageTable.erase key }.pageIdsFor k =
      if k = key then [] else c.pageIdsFor k := by
  simp only [pageIdsFor, Dict.get?_erase]
  split <;> rfl

theorem pageIdsFor_set (c : KVCache) (key k : Int × Int) (ids : List Nat) :
    { c with pageTable := c.pageTable.set key ids }.pageIdsFor k =
      if k = key then ids else c.pageIdsFor k := by
  simp only [pageIdsFor, Dict.get?_set]
  split <;> rfl

theorem unlinkPage_pageIdsFor (c : KVCache) (key k : Int × Int) (pid : Nat) :
    (c.unlinkPage key pid).pageIdsFor k =
      if k = key then (c.pageIdsFor k).erase pid else c.pageIdsFor k := by
  unfold unlinkPage
  by_cases hm : pid ∈ c.pageIdsFor key
  · simp only [if_pos hm]
    by_cases he : (c.pageIdsFor key).erase pid = []
    · rw [if_pos he, pageIdsFor_erase]
      by_cases hk : k = key
      · simp [hk, he]
      · simp [hk]
    · rw [if_neg he, pageIdsFor_set]
      by_cases hk : k = key
      · simp [hk]
      · simp [hk]
  · simp only [if_neg hm]
    by_cases hk : k = key
    · rw [if_pos hk, hk, List.erase_of_not_mem hm]
    · simp [hk]

/-- `unlinkPage` only writes the page table. -/
theorem unlinkPage_eq (c : KVCache) (key : Int × Int) (pid : Nat) :
    c.unlinkPage key pid = { c with pageTable := (c.unlinkPage key pid).pageTable } := by
  unfold unlinkPage
  by_cases hm : pid ∈ c.pageIdsFor key
  · simp only [if_pos hm]
    split <;> rfl
  · simp only [if_neg hm]

theorem unlinkPage_filled (c : KVCache) (key : Int × Int) (pid : Nat)
    (h : ∀ k ∈ c.pageTable.keys, c.pageIdsFor k = [] → hollow k) :
    ∀ k ∈ (c.unlinkPage key pid).pageTable.keys,
      (c.unlinkPage key pid).pageIdsFor k = [] → hollow k := by
  intro k hk he
  rw [unlinkPage_pageIdsFor] at he
  unfold unlinkPage at hk
  by_cases hm : pid ∈ c.pageIdsFor key
  · simp only [if_pos hm] at hk
    by_cases hkk : k = key
    · -- the emptied list was removed from the table with its key
      subst hkk
      rw [if_pos rfl] at he
      simp [he] at hk
    · rw [if_neg hkk] at he
      have hk' : k ∈ c.pageTable.keys := by
        split at hk
        · rw [Dict.keys_erase] at hk
          exact (List.mem_filter.mp hk).1
        · exact ((Dict.mem_keys_set _ _ _ _).mp hk).resolve_left hkk
      exact h k hk' he
  · simp only [if_neg hm] at hk
    by_cases hkk : k = key
    · rw [if_pos hkk, hkk, List.erase_of_not_mem hm] at he
      exact h k hk (hkk ▸ he)
    · exact h k hk (by rwa [if_neg hkk] at he)

theorem Linked.unlink {pid : Nat} {page : KVPage} (h : Linked loose hollow c)
    (hpage : c.pages.get? pid = some page) :
    Linked (fun q => q = pid ∨ loose q) hollow (c.unlinkPage page.key pid) := by
  have hids := fun key => unlinkPage_pageIdsFor c page.key key pid
  have hfilled := unlinkPage_filled c page.key pid h.filled
  rw [unlinkPage_eq] at hids hfilled ⊢
  exact h.unlist hpage hids hfilled

/-- The pages and the counters of a cache are read off these fields alone. -/
theorem Rep.of_linked {loose' : Nat → Prop} {hollow' : Int × Int → Prop}
    {table : Dict (Int × Int) (List Nat)} (h : Rep loose hollow c)
    (hl : Linked loose' hollow' { c with pageTable := table }) :
    Rep loose' hollow' { c with pageTable := table } :=
  ⟨hl, ⟨h.sound.flags, h.sound.count, h.sound.size⟩,
    ⟨h.accounted.live, h.accounted.pinned, h.accounted.used, h.accounted.capacity⟩⟩

theorem Rep.evictSinglePage (h : Rep loose hollow c) (pid : Nat) :
    Rep loose hollow (c.evictSinglePage pid) := by
  unfold KVCache.evictSinglePage
  cases hpage : c.pages.get? pid with
  | none => exact h
  | some page =>
    have hl := h.linked.unlink hpage
    rw [unlinkPage_eq] at hl
    have hd := (h.of_linked hl).drop
    rw [← unlinkPage_eq] at hd
    obtain ⟨⟨l1, l2, l3, l4, l5, l6, l7⟩, ⟨s1, s2, s3⟩, ⟨a1, a2, a3, a4⟩⟩ := hd
    exact ⟨⟨l1, l2, l3, l4, l5, l6, l7⟩, ⟨s1, s2, s3⟩, ⟨a1, a2, a3, a4⟩⟩

/-! ### Allocating a page -/

theorem allocateOnePage_pageIdsFor (c : KVCache) (r l start count : Int) (pinned b d : Bool)
    (k : Int × Int) :
    (c.allocateOnePage r l start count pinned b d).2.pageIdsFor k =
      if k = (r, l) then c.pageIdsFor k ++ [c.nextPageId] else c.pageIdsFor k := by
  simp only [allocateOnePage, pageIdsFor, Dict.get?_set]
  by_cases hk : k = (r, l)
  · simp [hk]
  · simp [hk]

theorem allocateOnePage_get? (c : KVCache) (r l start count : Int) (pinned b d : Bool) (q : Nat) :
    (c.allocateOnePage r l start count pinned b d).2.pages.get? q =
      if q = c.nextPageId then
        some { pageId := c.nextPageId, requestId := r, layerId := l, tokenStart := start,
               tokenCount := count, pinned := pinned, isCommitted := b, isDraft := d }
      else c.pages.get? q := by
  simp only [allocateOnePage, Dict.get?_set]

theorem Linked.next_fresh (h : Linked loose hollow c) : c.pages.get? c.nextPageId = none := by
  rw [Dict.get?_eq_none_iff]
  intro hm
  exact lt_irrefl _ (h.below _ hm)

theorem Linked.next_not_listed (h : Linked loose hollow c) (key : Int × Int) :
    c.nextPageId ∉ c.pageIdsFor key := by
  intro hm
  obtain ⟨_, page, hpage, _⟩ := h.live key _ hm
  rw [h.next_fresh] at hpage
  cases hpage

theorem Linked.allocateOnePage (h : Linked (fun _ => False) hollow c) (r l start count : Int)
    (pinned b d : Bool) :
    Linked (fun _ => False) hollow (c.allocateOnePage r l start count pinned b d).2 where
  lru q := by
    simp only [KVCache.allocateOnePage, Dict.mem_keys_moveToEnd, Dict.mem_keys_set, h.lru]
  pageId q page hq := by
    rw [allocateOnePage_get?] at hq
    split at hq
    · next he => rw [← Option.some.inj hq, he]
    · exact h.pageId q page hq
  below q hq := by
    obtain rfl | hq := (Dict.mem_keys_set _ _ _ _).mp hq
    · exact Nat.lt_succ_self _
    · exact Nat.lt_succ_of_lt (h.below q hq)
  listed q page hq := by
    rw [allocateOnePage_get?] at hq
    rw [allocateOnePage_pageIdsFor]
    refine Or.inl ?_
    by_cases he : q = c.nextPageId
    · rw [if_pos he] at hq
      have hkey : page.key = (r, l) := by rw [← Option.some.inj hq]; rfl
      simp [hkey, he]
    · rw [if_neg he] at hq
      have hl := (h.listed q page hq).resolve_right id
      split
      · exact List.mem_append_left _ hl
      · exact hl
  live key q hq := by
    refine ⟨not_false, ?_⟩
    rw [allocateOnePage_pageIdsFor] at hq
    rw [allocateOnePage_get?]
    by_cases he : q = c.nextPageId
    · have hkey : key = (r, l) := by
        by_contra hk
        rw [if_neg hk, he] at hq
        exact h.next_not_listed key hq
      exact ⟨_, if_pos he, hkey.symm⟩
    · have hl : q ∈ c.pageIdsFor key := by
        split at hq
        · exact (List.mem_append.mp hq).resolve_right (by simpa using he)
        · exact hq
      obtain ⟨_, page, hpage, hkey⟩ := h.live key q hl
      exact ⟨page, by rw [if_neg he, hpage], hkey⟩
  ordered key := by
    rw [allocateOnePage_pageIdsFor]
    split
    · rw [List.pairwise_append]
      refine ⟨h.ordered key, by simp, ?_⟩
      intro a ha b hb
      obtain ⟨_, page, hpage, _⟩ := h.live key a ha
      rw [List.mem_singleton.mp hb]
      exact h.below a (Dict.mem_keys_of_get? hpage)
    · exact h.ordered key
  filled key hk he := by
    rw [allocateOnePage_pageIdsFor] at he
    by_cases hkey : key = (r, l)
    · simp [hkey] at he
    · rw [if_neg hkey] at he
      exact h.filled key (((Dict.mem_keys_set _ _ _ _).mp hk).resolve_left hkey) he

theorem PagesSound.allocateOnePage (h : PagesSound c) (r l start : Int) {count : Int}
    (pinned b d : Bool) (hcount : 0 < count) (hsize : 0 < c.pageSize)
    (hflags : ¬(b = true ∧ d = true)) :
    PagesSound (c.allocateOnePage r l start count pinned b d).2 where
  flags q page hq := by
    rw [allocateOnePage_get?] at hq
    split at hq
    · rw [← Option.some.inj hq]
      exact hflags
    · exact h.flags q page hq
  count q page hq := by
    rw [allocateOnePage_get?] at hq
    split at hq
    · rw [← Option.some.inj hq]
      exact hcount
    · exact h.count q page hq
  size _ _ _ := hsize

theorem Accounted.allocateOnePage (h : Accounted c) (hfresh : c.pages.get? c.nextPageId = none)
    (r l start count : Int) (pinned b d : Bool) :
    Accounted (c.allocateOnePage r l start count pinned b d).2 := by
  refine ⟨?_, ?_, ?_, ?_⟩
  · exact (congrArg (· + _) h.live).trans (Dict.sumBy_set_new c.pageBytes _ hfresh).symm
  · have hs := Dict.sumBy_set_new (fun p => if p.pinned then c.pageBytes p else 0)
      ⟨c.nextPageId, r, l, start, count, pinned, b, d, 0, false, -1, -1⟩ hfresh
    rw [← h.pinned] at hs
    refine Eq.trans ?_ hs.symm
    cases pinned
    · exact (add_zero _).symm
    · rfl
  · exact (congrArg (· + count) h.used).trans (Dict.sumBy_set_new KVPage.tokenCount
      ⟨c.nextPageId, r, l, start, count, pinned, b, d, 0, false, -1, -1⟩ hfresh).symm
  · change c.totalCapacityTokens + c.pageSize = c.pageSize * ((c.pages.set _ _).size : Int)
    rw [h.capacity, Dict.size_set_new _ hfresh]
    push_cast
    ring

theorem Rep.allocateOnePage (h : Rep (fun _ => False) hollow c) (r l start : Int) {count : Int}
    (pinned : Bool) (hcount : 0 < count) (hsize : 0 < c.pageSize) :
    Rep (fun _ => False) hollow (c.allocateOnePage r l start count pinned).2 :=
  ⟨h.linked.allocateOnePage r l start count pinned false false,
    h.sound.allocateOnePage r l start pinned false false hcount hsize (by simp),
    h.accounted.allocateOnePage h.linked.next_fresh r l start count pinned false false⟩

/-! ### Updating a page in place -/

/-- An update of a page that leaves its identity, its tokens and its pin alone, and does not
make it both committed and draft. -/
structure Retag (f : KVPage → KVPage) : Prop where
  pageId : ∀ page, (f page).pageId = page.pageId
  key : ∀ page, (f page).key = page.key
  tokenStart : ∀ page, (f page).tokenStart = page.tokenStart
  tokenCount : ∀ page, (f page).tokenCount = page.tokenCount
  pinned : ∀ page, (f page).pinned = page.pinned
  flags : ∀ page, ¬(page.isCommitted = true ∧ page.isDraft = true) →
    ¬((f page).isCommitted = true ∧ (f page).isDraft = true)

theorem retag_commit : Retag KVPage.commit := by
  constructor <;> intro page <;> simp [KVPage.commit, KVPage.key]

theorem retag_markDraft : Retag KVPage.markDraft := by
  constructor <;> intro page <;> unfold KVPage.markDraft <;> split <;> simp_all [KVPage.key]

theorem retag_acceptDraft : Retag KVPage.acceptDraft := by
  constructor <;> intro page <;> unfold KVPage.acceptDraft <;> split <;>
    simp_all [KVPage.commit, KVPage.key]

theorem get?_modify_cases {f : KVPage → KVPage} {pid q : Nat} {page : KVPage}
    (h : (c.pages.modify pid f).get? q = some page) :
    ∃ page', c.pages.get? q = some page' ∧ (page = page' ∨ page = f page') := by
  rw [Dict.get?_modify] at h
  by_cases hq : q = pid
  · rw [if_pos hq] at h
    obtain ⟨page', hp, hf⟩ := Option.map_eq_some_iff.mp h
    exact ⟨page', hp, Or.inr hf.symm⟩
  · rw [if_neg hq] at h
    exact ⟨page, h, Or.inl rfl⟩

/-- The indexes only see the identity of a page. -/
theorem Linked.modify (h : Linked loose hollow c) {f : KVPage → KVPage} (pid : Nat)
    (hid : ∀ page, (f page).pageId = page.pageId) (hkey : ∀ page, (f page).key = page.key) :
    Linked loose hollow { c with pages := c.pages.modify pid f } where
  lru q := by simpa only [Dict.keys_modify] using h.lru q
  pageId q page hq := by
    obtain ⟨page', hp, rfl | rfl⟩ := get?_modify_cases hq
    · exact h.pageId q page hp
    · exact (hid page').trans (h.pageId q page' hp)
  below q hq := h.below q (by simpa only [Dict.keys_modify] using hq)
  listed q page hq := by
    obtain ⟨page', hp, rfl | rfl⟩ := get?_modify_cases hq
    · exact h.listed q page hp
    · rw [hkey page']
      exact h.listed q page' hp
  live key q hq := by
    obtain ⟨hl, page, hp, hk⟩ := h.live key q hq
    refine ⟨hl, ?_⟩
    by_cases hqp : q = pid
    · subst hqp
      exact ⟨f page, by simp [Dict.get?_modify, hp], (hkey page).trans hk⟩
    · exact ⟨page, by simp [Dict.get?_modify, hqp, hp], hk⟩
  ordered := h.ordered
  filled := h.filled

theorem Rep.updatePage (h : Rep loose hollow c) {f : KVPage → KVPage} (hf : Retag f) (pid : Nat) :
    Rep loose hollow (updatePage f c pid) where
  linked := h.linked.modify pid hf.pageId hf.key
  sound :=
    { flags := fun q page hq => by
        obtain ⟨page', hp, rfl | rfl⟩ := get?_modify_cases hq
        · exact h.sound.flags q page hp
        · exact hf.flags page' (h.sound.flags q page' hp)
      count := fun q page hq => by
        obtain ⟨page', hp, rfl | rfl⟩ := get?_modify_cases hq
        · exact h.sound.count q page hp
        · exact (hf.tokenCount page').symm ▸ h.sound.count q page' hp
      size := fun q page hq => by
        obtain ⟨page', hp, _⟩ := get?_modify_cases hq
        exact h.sound.size q page' hp }
  accounted :=
    { live := h.accounted.live.trans (Dict.sumBy_modify_same c.pageBytes f fun page _ => by
        simp only [pageBytes, hf.tokenCount]).symm
      pinned := h.accounted.pinned.trans (Dict.sumBy_modify_same _ f fun page _ => by
        simp only [pageBytes, hf.tokenCount, hf.pinned]).symm
      used := h.accounted.used.trans (Dict.sumBy_modify_same _ f fun page _ =>
        hf.tokenCount page).symm
      capacity := h.accounted.capacity.trans (by simp [KVCache.updatePage]) }

theorem modify_setPinned_self {c : KVCache} {pid : Nat} {b : Bool}
    (h : ∀ page, c.pages.get? pid = some page → page.pinned = b) :
    c.pages.modify pid (KVPage.setPinned b) = c.pages :=
  Dict.modify_eq_self fun page hp => h page hp ▸ rfl

/-- A pin marks the page if it is live, and may move its bytes. -/
theorem pinPage_eq (c : KVCache) (pid : Nat) :
    ∃ bytes, c.pinPage pid =
      { c with pages := c.pages.modify pid (KVPage.setPinned true), pinnedKvBytes := bytes } := by
  unfold KVCache.pinPage
  cases hpage : c.pages.get? pid with
  | none =>
    refine ⟨c.pinnedKvBytes, ?_⟩
    rw [modify_setPinned_self (by simp [hpage])]
  | some page =>
    cases hpin : page.pinned with
    | true =>
      refine ⟨c.pinnedKvBytes, ?_⟩
      rw [modify_setPinned_self (by simpa [hpage] using hpin)]
      simp only [hpin, if_true]
    | false => exact ⟨_, by simp only [hpin, Bool.false_eq_true, if_false]; rfl⟩

theorem unpinPage_eq (c : KVCache) (pid : Nat) :
    ∃ bytes, c.unpinPage pid =
      { c with pages := c.pages.modify pid (KVPage.setPinned false), pinnedKvBytes := bytes } := by
  unfold KVCache.unpinPage
  cases hpage : c.pages.get? pid with
  | none =>
    refine ⟨c.pinnedKvBytes, ?_⟩
    rw [modify_setPinned_self (by simp [hpage])]
  | some page =>
    cases hpin : page.pinned with
    | true => exact ⟨_, by simp only [hpin, if_true]; rfl⟩
    | false =>
      refine ⟨c.pinnedKvBytes, ?_⟩
      rw [modify_setPinned_self (by simpa [hpage] using hpin)]
      simp only [hpin, Bool.false_eq_true, if_false]

/-- Pinning or unpinning a page, with the pinned bytes moved along. -/
theorem Rep.setPinned (h : Rep loose hollow c) {pid : Nat} {page : KVPage}
    (hpage : c.pages.get? pid = some page) (b : Bool) {bytes : Int}
    (hbytes : bytes + (if page.pinned then c.pageBytes page else 0) =
      c.pinnedKvBytes + (if b then c.pageBytes page else 0)) :
    Rep loose hollow { c with
      pages := c.pages.modify pid (KVPage.setPinned b)
      pinnedKvBytes := bytes } where
  linked := by
    obtain ⟨l1, l2, l3, l4, l5, l6, l7⟩ :=
      h.linked.modify pid (f := KVPage.setPinned b) (fun _ => rfl) (fun _ => rfl)
    exact ⟨l1, l2, l3, l4, l5, l6, l7⟩
  sound :=
    { flags := fun q p hq => by
        obtain ⟨p', hp, rfl | rfl⟩ := get?_modify_cases hq
        · exact h.sound.flags q p hp
        · exact h.sound.flags q p' hp
      count := fun q p hq => by
        obtain ⟨p', hp, rfl | rfl⟩ := get?_modify_cases hq
        · exact h.sound.count q p hp
        · exact h.sound.count q p' hp
      size := fun q p hq => by
        obtain ⟨p', hp, _⟩ := get?_modify_cases hq
        exact h.sound.size q p' hp }
  accounted :=
    { live := h.accounted.live.trans (Dict.sumBy_modify_same c.pageBytes
        (KVPage.setPinned b) fun _ _ => rfl).symm
      pinned := by
        have hs := Dict.sumBy_modify (fun p => if p.pinned then c.pageBytes p else 0)
          (KVPage.setPinned b) hpage
        rw [← h.accounted.pinned] at hs
        exact add_right_cancel (hbytes.trans hs.symm)
      used := h.accounted.used.trans (Dict.sumBy_modify_same KVPage.tokenCount
        (KVPage.setPinned b) fun _ _ => rfl).symm
      capacity := h.accounted.capacity.trans (by simp) }

theorem Rep.pinPage (h : Rep loose hollow c) (pid : Nat) : Rep loose hollow (c.pinPage pid) := by
  unfold KVCache.pinPage
  cases hpage : c.pages.get? pid with
  | none => exact h
  | some page =>
    cases hpin : page.pinned with
    | true => simpa [hpin] using h
    | false =>
      simp only [hpin]
      exact h.setPinned hpage true (by simp [hpin])

theorem Rep.unpinPage (h : Rep loose hollow c) (pid : Nat) :
    Rep loose hollow (c.unpinPage pid) := by
  unfold KVCache.unpinPage
  cases hpage : c.pages.get? pid with
  | none => exact h
  | some page =>
    cases hpin : page.pinned with
    | false => simpa [hpin] using h
    | true =>
      simp only [hpin]
      exact h.setPinned hpage false (by simp [hpin])

theorem Rep.touchPage (h : Rep loose hollow c) (pid : Nat) :
    Rep loose hollow (c.touchPage pid) := by
  unfold KVCache.touchPage
  obtain ⟨⟨l1, l2, l3, l4, l5, l6, l7⟩, ⟨s1, s2, s3⟩, ⟨a1, a2, a3, a4⟩⟩ := h
  cases c.pages.get? pid with
  | none => exact ⟨⟨l1, l2, l3, l4, l5, l6, l7⟩, ⟨s1, s2, s3⟩, ⟨a1, a2, a3, a4⟩⟩
  | some page =>
    refine ⟨⟨?_, l2, l3, l4, l5, l6, l7⟩, ⟨s1, s2, s3⟩, ⟨a1, a2, a3, a4⟩⟩
    intro q
    rw [Dict.mem_keys_moveToEnd]
    exact l1 q

/-! ### The loops -/

theorem Rep.evictPass (draft : Bool) (n : Int) (ids : List Nat) (s : KVCache × List Nat)
    (h : Rep loose hollow s.1) : Rep loose hollow (evictPass draft n ids s).1 := by
  induction ids generalizing s with
  | nil => exact h
  | cons pid ids ih =>
    simp only [KVCache.evictPass]
    split
    · exact h
    · split
      · exact ih s h
      · split
        · exact ih s h
        · exact ih _ (h.evictSinglePage pid)

theorem Rep.evictLru (h : Rep loose hollow c) (n : Int) : Rep loose hollow (c.evictLru n).1 :=
  evictPass false n _ _ (evictPass true n _ (c, []) h)

theorem Rep.makeRoom (h : Rep loose hollow c) (needed : Int) :
    Rep loose hollow (c.makeRoom needed) := by
  unfold KVCache.makeRoom
  dsimp only
  split
  · exact h.evictLru _
  · exact h

/-- The counting loop never asks for a page without a token: while `n` pages remain, the
tokens from `start` on fill at least `n` pages. -/
theorem Rep.allocatePages (r l total : Int) (pinned : Bool) (n : Nat) (start : Int) (ids : List Nat)
    (h : Rep (fun _ => False) hollow c) (hn : (n : Int) ≤ ceilDiv (total - start) c.pageSize)
    (hsize : 0 < c.pageSize) :
    Rep (fun _ => False) hollow (allocatePages r l total pinned n start c ids).1 := by
  induction n generalizing c start ids with
  | zero => exact h
  | succ n ih =>
    have hpos : n * c.pageSize < total - start :=
      (lt_ceilDiv_iff hsize).mp (by push_cast at hn; omega)
    have hnn : 0 ≤ n * c.pageSize := by positivity
    refine ih _ _ (h.allocateOnePage r l start pinned (by omega) hsize) ?_ hsize
    change (n : Int) ≤ ceilDiv (total - (start + min c.pageSize (total - start))) c.pageSize
    obtain hle | hle := le_total c.pageSize (total - start)
    · have he : total - (start + c.pageSize) = total - start - 1 * c.pageSize := by ring
      rw [min_eq_left hle, he, ceilDiv_sub_mul hsize]
      push_cast at hn
      omega
    · have hz : n = 0 := by
        by_contra hne
        have : 1 * c.pageSize ≤ n * c.pageSize := by
          apply mul_le_mul_of_nonneg_right _ hsize.le
          omega
        omega
      have he : total - (start + (total - start)) = 0 := by ring
      rw [min_eq_right hle, hz, he]
      simp [ceilDiv]

theorem Rep.allocateLayer (h : Rep (fun _ => False) hollow c) (r total : Int) (pinned : Bool)
    (l : Int) : Rep (fun _ => False) hollow (c.allocateLayer r total pinned l).1 := by
  unfold KVCache.allocateLayer
  by_cases hcap : (c.pageIdsFor (r, l)).length * c.pageSize < total
  · simp only [if_pos hcap]
    obtain hsize | hsize := lt_or_ge 0 c.pageSize
    · have hpos := (ceilDiv_pos hsize).mpr (sub_pos.mpr hcap)
      exact allocatePages r l total pinned _ _ _ h (by omega) hsize
    · have hz := ceilDiv_nonpos (sub_pos.mpr hcap) hsize
      rw [Int.toNat_of_nonpos hz]
      exact h
  · simpa only [if_neg hcap] using h

theorem Rep.allocateLayers (r total : Int) (pinned : Bool) (layers : List Int) (m : LayerPageMap)
    (h : Rep (fun _ => False) hollow c) :
    Rep (fun _ => False) hollow (allocateLayers r total pinned layers c m).1 := by
  induction layers generalizing c m with
  | nil => exact h
  | cons l layers ih => exact ih _ (h.allocateLayer r total pinned l)

theorem Rep.allocateForRequest (h : Rep (fun _ => False) hollow c) (r : RequestState)
    (total : Int) (pinned : Bool) :
    Rep (fun _ => False) hollow (c.allocateForRequest r total pinned).2 := by
  unfold KVCache.allocateForRequest
  cases c.pagesNeeded r total with
  | error e => exact h
  | ok needed =>
    have he := h.makeRoom needed
    dsimp only
    split
    · exact he
    · exact allocateLayers _ _ _ _ _ he

theorem Rep.updateListed (h : Rep loose hollow c) {f : KVPage → KVPage} (hf : Retag f) (r : Int)
    (layers : List Int) : Rep loose hollow (updateListed f c r layers) :=
  List.foldlRecOn layers _ h fun _ hc _ _ =>
    List.foldlRecOn _ _ hc fun _ hc' pid _ => hc'.updatePage hf pid

/-- A commit keeps what its allocation and the marking of the pages keep. -/
theorem commitTokens_rec {P : KVCache → Prop} {c : KVCache} {r : RequestState} {n : Int}
    {pin : Bool} (ha : P (c.allocateForRequest r (r.currentTokens + n) pin).2)
    (hmark : ∀ c', P c' → P (KVCache.updateListed KVPage.commit c' r.requestId r.layerIds)) :
    P (c.commitTokens r n pin).2 := by
  unfold KVCache.commitTokens
  split
  · next e c' he => rwa [he] at ha
  · next m c' he =>
    rw [he] at ha
    exact hmark c' ha

theorem allocateDraftPages_rec {P : KVCache → Prop} {c : KVCache} {r : RequestState} {n : Int}
    (ha : P (c.allocateForRequest r (r.currentTokens + n) true).2)
    (hmark : ∀ c', P c' → P (KVCache.updateListed KVPage.markDraft c' r.requestId r.layerIds)) :
    P (c.allocateDraftPages r n).2 := by
  unfold KVCache.allocateDraftPages
  split
  · next e c' he => rwa [he] at ha
  · next m c' he =>
    rw [he] at ha
    exact hmark c' ha

theorem Rep.commitTokens (h : Rep (fun _ => False) hollow c) (r : RequestState) (n : Int)
    (pin : Bool) : Rep (fun _ => False) hollow (c.commitTokens r n pin).2 :=
  commitTokens_rec (h.allocateForRequest r (r.currentTokens + n) pin)
    fun _ ha => ha.updateListed retag_commit _ _

theorem Rep.allocateDraftPages (h : Rep (fun _ => False) hollow c) (r : RequestState) (n : Int) :
    Rep (fun _ => False) hollow (c.allocateDraftPages r n).2 :=
  allocateDraftPages_rec (h.allocateForRequest r (r.currentTokens + n) true)
    fun _ ha => ha.updateListed retag_markDraft _ _

theorem Rep.ensureCapacity (h : Rep loose hollow c) (r : RequestState) (n : Int) :
    Rep loose hollow (c.ensureCapacity r n).2 := by
  unfold KVCache.ensureCapacity
  cases c.pagesNeeded r (r.currentTokens + n) with
  | error e => exact h
  | ok needed =>
    have he := h.makeRoom needed
    dsimp only
    split <;> exact he

/-! ### Releases -/

theorem delistPage_pageIdsFor (c : KVCache) (key k : Int × Int) (pid : Nat) :
    (c.delistPage key pid).pageIdsFor k =
      if k = key then (c.pageIdsFor k).erase pid else c.pageIdsFor k := by
  unfold delistPage
  by_cases hm : pid ∈ c.pageIdsFor key
  · simp only [if_pos hm, pageIdsFor_set]
    by_cases hk : k = key
    · simp [hk]
    · simp [hk]
  · simp only [if_neg hm]
    by_cases hk : k = key
    · rw [if_pos hk, hk, List.erase_of_not_mem hm]
    · rw [if_neg hk]

theorem releaseDraftPage_pageIdsFor (key k : Int × Int) (c : KVCache) (pid : Nat) :
    (releaseDraftPage key c pid).pageIdsFor k =
      if k = key then (c.pageIdsFor k).erase pid else c.pageIdsFor k := by
  rw [← delistPage_pageIdsFor]
  simp only [releaseDraftPage, pageIdsFor, dropPage_pageTable]

theorem Rep.releaseDraftPage {key : Int × Int} {pid : Nat}
    (h : Rep (fun _ => False) (fun k => k = key) c) (hm : pid ∈ c.pageIdsFor key) :
    Rep (fun _ => False) (fun k => k = key) (releaseDraftPage key c pid) := by
  obtain ⟨_, page, hpage, hkey⟩ := h.linked.live key pid hm
  subst hkey
  have hids := fun k => delistPage_pageIdsFor c page.key k pid
  simp only [delistPage, if_pos hm] at hids
  unfold KVCache.releaseDraftPage
  simp only [delistPage, if_pos hm]
  refine Rep.drop (h.of_linked (h.linked.unlist hpage hids ?_))
  intro k hk he
  by_contra hne
  rw [hids, if_neg hne] at he
  exact hne (h.linked.filled k (((Dict.mem_keys_set _ _ _ _).mp hk).resolve_left hne) he)

/-- The ids still to be released stay in the list while the others leave it. -/
theorem Rep.releaseDraftIds {key : Int × Int} (ids : List Nat) (hn : ids.Nodup)
    (h : Rep (fun _ => False) (fun k => k = key) c) (hm : ∀ pid ∈ ids, pid ∈ c.pageIdsFor key) :
    Rep (fun _ => False) (fun k => k = key) (ids.foldl (KVCache.releaseDraftPage key) c) := by
  induction ids generalizing c with
  | nil => exact h
  | cons pid ids ih =>
    obtain ⟨hnot, hn'⟩ := List.nodup_cons.mp hn
    refine ih hn' (h.releaseDraftPage (hm pid (by simp))) ?_
    intro q hq
    have hne : q ≠ pid := fun he => hnot (he ▸ hq)
    rw [releaseDraftPage_pageIdsFor, if_pos rfl]
    exact (List.mem_erase_of_ne hne).mpr (hm q (List.mem_cons_of_mem pid hq))

theorem Linked.hollow_mono {hollow' : Int × Int → Prop} (h : Linked loose hollow c)
    (hh : ∀ key ∈ c.pageTable.keys, hollow key → c.pageIdsFor key = [] → hollow' key) :
    Linked loose hollow' c :=
  { h with filled := fun key hk he => hh key hk (h.filled key hk he) he }

theorem popIfEmpty_pageIdsFor (c : KVCache) (key k : Int × Int) :
    (c.popIfEmpty key).pageIdsFor k = c.pageIdsFor k := by
  unfold popIfEmpty
  split
  · next he =>
    rw [pageIdsFor_erase]
    by_cases hk : k = key
    · rw [if_pos hk, hk, he]
    · rw [if_neg hk]
  · rfl

/-- The only list that may be empty goes out of the table with its key. -/
theorem Rep.popIfEmpty {key : Int × Int} (h : Rep loose (fun k => k = key) c) :
    Rep loose (fun _ => False) (c.popIfEmpty key) := by
  have hids := popIfEmpty_pageIdsFor c key
  unfold KVCache.popIfEmpty at hids ⊢
  by_cases he : c.pageIdsFor key = []
  · simp only [if_pos he] at hids ⊢
    obtain ⟨l1, l2, l3, l4, l5, l6, l7⟩ := h.linked
    refine h.of_linked ⟨l1, l2, l3, ?_, ?_, ?_, ?_⟩
    · simpa only [hids] using l4
    · simpa only [hids] using l5
    · simpa only [hids] using l6
    · intro k hk he'
      rw [hids] at he'
      rw [Dict.keys_erase, List.mem_filter] at hk
      exact (by simpa using hk.2 : k ≠ key) (l7 k hk.1 he')
  · simp only [if_neg he]
    exact ⟨h.linked.hollow_mono fun k _ hk hk' => he (hk ▸ hk'), h.sound, h.accounted⟩

theorem Rep.releaseDraftLayer (h : Inv c) (r l : Int) : Inv (releaseDraftLayer r c l) := by
  have h' : Rep (fun _ => False) (fun k => k = (r, l)) c :=
    ⟨h.linked.hollow_mono fun _ _ hf _ => hf.elim, h.sound, h.accounted⟩
  exact Rep.popIfEmpty (releaseDraftIds _ ((h.linked.nodup (r, l)).filter _) h'
    fun pid hp => (List.mem_filter.mp hp).1)

theorem Rep.releaseDraftPages (h : Inv c) (r : Int) (layers : List Int) :
    Inv (c.releaseDraftPages r layers) :=
  List.foldlRecOn layers _ h fun _ hc l _ => releaseDraftLayer hc r l

theorem Rep.dropAll (ids : List Nat) (h : Rep (fun q => q ∈ ids ∨ loose q) hollow c) :
    Rep loose hollow (ids.foldl dropPage c) := by
  induction ids generalizing c with
  | nil => simpa using h
  | cons pid ids ih =>
    have he : (fun q => q ∈ pid :: ids ∨ loose q) = fun q => q = pid ∨ (q ∈ ids ∨ loose q) := by
      funext q
      simp [or_assoc]
    exact ih (Rep.drop (he ▸ h))

theorem Rep.releaseKey (h : Inv c) (key : Int × Int) : Inv (c.releaseKey key) := by
  have hids := pageIdsFor_erase c key
  refine dropAll _ (h.of_linked ?_)
  refine ⟨h.linked.lru, h.linked.pageId, h.linked.below, ?_, ?_, ?_, ?_⟩
  · intro pid page hp
    rw [hids]
    have hl := (h.linked.listed pid page hp).resolve_right id
    by_cases hk : page.key = key
    · exact Or.inr (Or.inl (hk ▸ hl))
    · rw [if_neg hk]
      exact Or.inl hl
  · intro k pid hp
    rw [hids] at hp
    by_cases hk : k = key
    · simp [hk] at hp
    · rw [if_neg hk] at hp
      obtain ⟨_, page, hpage, hkey⟩ := h.linked.live k pid hp
      refine ⟨?_, page, hpage, hkey⟩
      rintro (hq | hf)
      · obtain ⟨_, page', hpage', hkey'⟩ := h.linked.live key pid hq
        rw [hpage] at hpage'
        exact hk (hkey.symm.trans (Option.some.inj hpage' ▸ hkey'))
      · exact hf
  · intro k
    rw [hids]
    split
    · exact List.Pairwise.nil
    · exact h.linked.ordered k
  · intro k hk he
    rw [hids] at he
    rw [Dict.keys_erase, List.mem_filter] at hk
    rw [if_neg (by simpa using hk.2)] at he
    exact h.linked.filled k hk.1 he

theorem Rep.releaseKeys (h : Inv c) (r : Int) : Inv (c.releaseKeys r) :=
  List.foldlRecOn _ _ h fun _ hc key _ => releaseKey hc key

theorem bytesPerTokenPerLayer_nonneg (c : KVCache) : 0 ≤ c.bytesPerTokenPerLayer := by
  unfold bytesPerTokenPerLayer
  cases c.config with
  | none => norm_num
  | some g =>
    simp only [RuntimeConfig.bytesPerTokenPerLayer]
    positivity

theorem Rep.pageBytes_nonneg (h : Rep loose hollow c) {pid : Nat} {page : KVPage}
    (hp : c.pages.get? pid = some page) : 0 ≤ c.pageBytes page :=
  mul_nonneg (h.sound.count pid page hp).le c.bytesPerTokenPerLayer_nonneg

/-- Under the invariant no counter is negative, so the clamps have nothing to do. -/
theorem Rep.clampCounters_eq (h : Rep loose hollow c) : c.clampCounters = c := by
  have hlive : 0 ≤ c.totalLiveKvBytes :=
    h.accounted.live ▸ Dict.sumBy_nonneg fun _ _ hp => h.pageBytes_nonneg hp
  have hpinned : 0 ≤ c.pinnedKvBytes := by
    rw [h.accounted.pinned]
    refine Dict.sumBy_nonneg fun _ page hp => ?_
    split
    · exact h.pageBytes_nonneg hp
    · exact le_rfl
  have hused : 0 ≤ c.usedCapacityTokens :=
    h.accounted.used ▸ Dict.sumBy_nonneg fun _ _ hp => (h.sound.count _ _ hp).le
  have hcapacity : 0 ≤ c.totalCapacityTokens := by
    have he : c.pageSize * (c.pages.size : Int) = c.pages.sumBy fun _ => c.pageSize := by
      simp [Dict.sumBy, Dict.size, mul_comm]
    rw [h.accounted.capacity, he]
    exact Dict.sumBy_nonneg fun _ _ hp => (h.sound.size _ _ hp).le
  simp only [clampCounters, if_neg (not_lt.mpr hlive), if_neg (not_lt.mpr hpinned),
    if_neg (not_lt.mpr hused), if_neg (not_lt.mpr hcapacity)]

theorem Rep.releaseRequest (h : Inv c) (r : Int) : Inv (c.releaseRequest r) := by
  unfold KVCache.releaseRequest
  rw [(releaseKeys h r).clampCounters_eq]
  exact releaseKeys h r

/-! ### Whole runs -/

theorem raised_snd {α : Type} (p : Except Fault α × KVCache) :
    (KVOp.apply.raised p).2 = p.2 := by
  obtain ⟨e | a, c⟩ := p <;> rfl

/-- Every operation keeps the invariant, whether it returns or raises. -/
theorem Rep.apply (h : Inv c) (op : KVOp) : Inv (op.apply c).2 := by
  cases op with
  | allocateForRequest r total pinned =>
    simpa only [KVOp.apply, raised_snd] using h.allocateForRequest r total pinned
  | commitTokens r n pin => simpa only [KVOp.apply, raised_snd] using h.commitTokens r n pin
  | allocateDraftPages r n => simpa only [KVOp.apply, raised_snd] using h.allocateDraftPages r n
  | acceptDraftPages r layers => exact h.updateListed retag_acceptDraft r layers
  | releaseDraftPages r layers => exact releaseDraftPages h r layers
  | releaseRequest r => exact releaseRequest h r
  | evictLru n => exact h.evictLru n
  | ensureCapacity r n => simpa only [KVOp.apply, raised_snd] using h.ensureCapacity r n
  | pinPages ids => exact List.foldlRecOn ids _ h fun _ hc pid _ => hc.pinPage pid
  | unpinPages ids => exact List.foldlRecOn ids _ h fun _ hc pid _ => hc.unpinPage pid
  | touchPages ids => exact List.foldlRecOn ids _ h fun _ hc pid _ => hc.touchPage pid

theorem Rep.runOps (h : Inv c) (ops : List KVOp) : Inv (c.runOps ops) :=
  List.foldlRecOn ops _ h fun _ hc op _ => Rep.apply hc op

theorem inv_runOps (pageSize maxPages : Int) (config : Option RuntimeConfig) (ops : List KVOp) :
    Inv ((new pageSize maxPages config).runOps ops) :=
  Rep.runOps (inv_new pageSize maxPages config) ops

/-- What the invariant says of the stored data: the indexes name the same pages, each once,
and the counters are the sums that `releaseRequest` would otherwise have to clamp. -/
structure Consistent (c : KVCache) : Prop where
  sameKeys : ∀ pid, pid ∈ c.pages.keys ↔ pid ∈ c.lru.keys
  listedOnce : ∀ pid page, c.pages.get? pid = some page →
    page.pageId = pid ∧ pid ∈ c.pageIdsFor page.key ∧ c.pageTable.values.flatten.count pid = 1
  listsLive : ∀ key ids, c.pageTable.get? key = some ids →
    ids ≠ [] ∧ ∀ pid ∈ ids, ∃ page, c.pages.get? pid = some page ∧ page.key = key
  below : ∀ pid ∈ c.pages.keys, pid < c.nextPageId
  notBoth : ∀ pid page, c.pages.get? pid = some page →
    ¬(page.isCommitted = true ∧ page.isDraft = true)
  liveBytes : c.totalLiveKvBytes =
    c.pages.sumBy fun page => page.tokenCount * c.bytesPerTokenPerLayer
  pinnedBytes : c.pinnedKvBytes =
    c.pages.sumBy fun page => if page.pinned then page.tokenCount * c.bytesPerTokenPerLayer else 0
  usedTokens : c.usedCapacityTokens = c.pages.sumBy fun page => page.tokenCount
  capacityTokens : c.totalCapacityTokens = c.pageSize * c.pages.size
  noClamp : ∀ requestId, c.releaseRequest requestId = c.releaseKeys requestId

theorem get?_of_mem_pageIdsFor {key : Int × Int} {pid : Nat} (h : pid ∈ c.pageIdsFor key) :
    ∃ ids, c.pageTable.get? key = some ids ∧ pid ∈ ids := by
  rw [pageIdsFor] at h
  cases hk : c.pageTable.get? key with
  | none => simp [hk] at h
  | some ids => exact ⟨ids, rfl, by simpa [hk] using h⟩

theorem pageIdsFor_of_get? {key : Int × Int} {ids : List Nat}
    (h : c.pageTable.get? key = some ids) : c.pageIdsFor key = ids := by
  rw [pageIdsFor, h]
  rfl

theorem mem_listedIds {rid l : Int} {pid : Nat} (hp : pid ∈ c.pageIdsFor (rid, l)) :
    pid ∈ c.listedIds rid := by
  obtain ⟨ids, hk, hm⟩ := get?_of_mem_pageIdsFor hp
  rw [listedIds, List.mem_flatMap]
  exact ⟨((rid, l), ids), (Dict.get?_eq_some_iff _ _ _).mp hk, by simpa using hm⟩

theorem Linked.nodup_table (h : Linked loose hollow c) : c.pageTable.values.flatten.Nodup := by
  apply Dict.nodup_flatten_values
  · intro key ids hk
    exact pageIdsFor_of_get? hk ▸ h.nodup key
  · intro key key' ids ids' hk hk' hne pid hm hm'
    obtain ⟨_, page, hp, hkey⟩ := h.live key pid (pageIdsFor_of_get? hk ▸ hm)
    obtain ⟨_, page', hp', hkey'⟩ := h.live key' pid (pageIdsFor_of_get? hk' ▸ hm')
    rw [hp] at hp'
    exact hne (hkey.symm.trans (Option.some.inj hp' ▸ hkey'))

/-- Every sequence of calls, raising ones included, leaves a consistent cache. -/
theorem consistent_runOps (pageSize maxPages : Int) (config : Option RuntimeConfig)
    (ops : List KVOp) : Consistent ((new pageSize maxPages config).runOps ops) := by
  have h := inv_runOps pageSize maxPages config ops
  refine
    { sameKeys := fun pid => (h.linked.lru pid).symm
      listedOnce := ?_
      listsLive := ?_
      below := h.linked.below
      notBoth := h.sound.flags
      liveBytes := h.accounted.live
      pinnedBytes := h.accounted.pinned
      usedTokens := h.accounted.used
      capacityTokens := h.accounted.capacity
      noClamp := fun requestId => (Rep.releaseKeys h requestId).clampCounters_eq }
  · intro pid page hp
    have hl := (h.linked.listed pid page hp).resolve_right id
    obtain ⟨ids, hk, hm⟩ := get?_of_mem_pageIdsFor hl
    exact ⟨h.linked.pageId pid page hp, hl,
      List.count_eq_one_of_mem h.linked.nodup_table (Dict.mem_flatten_values hk hm)⟩
  · intro key ids hk
    have he := pageIdsFor_of_get? hk
    subst he
    exact ⟨fun he => h.linked.filled key (Dict.mem_keys_of_get? hk) he,
      fun pid hm => (h.linked.live key pid hm).2⟩

end ResidentInference.KVCache

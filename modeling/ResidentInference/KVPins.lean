import ResidentInference.KVReservation
import ResidentInference.KVAdmission

/-! Where pins come from: only a pin and an allocation that asks for it set one, and an allocation
pins exactly the pages that it adds. -/
namespace ResidentInference.KVCache
variable {c c' c'' : KVCache}

/-! ### Pins that were there before -/

/-- Every pinned page was a pinned page of the same request, except for those of the requests in
`grow`. -/
def PinsFrom (grow : Int → Prop) (c c' : KVCache) : Prop :=
  ∀ pid page', c'.pages.get? pid = some page' → page'.pinned = true →
    grow page'.requestId ∨
      ∃ page, c.pages.get? pid = some page ∧ page.requestId = page'.requestId ∧ page.pinned = true

section Relation
variable {grow : Int → Prop}

theorem PinsFrom.refl (grow : Int → Prop) (c : KVCache) : PinsFrom grow c c :=
  fun _ page hp hpin => Or.inr ⟨page, hp, rfl, hpin⟩

theorem PinsFrom.trans (h : PinsFrom grow c c') (h' : PinsFrom grow c' c'') :
    PinsFrom grow c c'' := by
  intro pid page'' hp hpin
  obtain hg | ⟨page', hp', hr', hpin'⟩ := h' pid page'' hp hpin
  · exact Or.inl hg
  · rw [← hr']
    exact h pid page' hp' hpin'

theorem PinsFrom.mono {grow' : Int → Prop} (h : PinsFrom grow c c') (hg : ∀ q, grow q → grow' q) :
    PinsFrom grow' c c' :=
  fun pid page hp hpin => (h pid page hp hpin).imp (hg _) id

theorem PinsFrom.of_subset
    (h : ∀ pid page, c'.pages.get? pid = some page → c.pages.get? pid = some page) :
    PinsFrom grow c c' :=
  fun pid page hp hpin => Or.inr ⟨page, h pid page hp, rfl, hpin⟩

theorem PinsFrom.foldl {α : Type} {f : KVCache → α → KVCache} (hf : ∀ c a, PinsFrom grow c (f c a))
    (l : List α) (c : KVCache) : PinsFrom grow c (l.foldl f c) :=
  List.foldlRecOn l f (PinsFrom.refl grow c) fun c' hc a _ => hc.trans (hf c' a)

end Relation

/-- No page of the request is pinned. -/
def HoldsNoPin (c : KVCache) (rid : Int) : Prop :=
  ∀ pid page, c.pages.get? pid = some page → page.requestId = rid → page.pinned = false

/-- The pins that the request holds are on these pages. -/
def PinsWithin (c : KVCache) (rid : Int) (ids : List Nat) : Prop :=
  ∀ pid page, c.pages.get? pid = some page → page.requestId = rid → page.pinned = true → pid ∈ ids

theorem HoldsNoPin.within {rid : Int} (h : HoldsNoPin c rid) (ids : List Nat) :
    PinsWithin c rid ids := by
  intro pid page hp hr hpin
  rw [h pid page hp hr] at hpin
  cases hpin

theorem PinsFrom.within {grow : Int → Prop} {rid : Int} {ids : List Nat}
    (h : PinsFrom grow c c') (hg : ¬ grow rid) (hw : PinsWithin c rid ids) :
    PinsWithin c' rid ids := by
  intro pid page' hp' hr' hpin'
  obtain hgrow | ⟨page, hp, hr, hpin⟩ := h pid page' hp' hpin'
  · exact absurd (hr' ▸ hgrow) hg
  · exact hw pid page hp (hr.trans hr') hpin

theorem PinsFrom.holdsNoPin {grow : Int → Prop} {rid : Int} (h : PinsFrom grow c c')
    (hg : ¬ grow rid) (hno : HoldsNoPin c rid) : HoldsNoPin c' rid := by
  intro pid page hp hr
  by_contra hpin
  have hm := h.within hg (hno.within []) pid page hp hr (Bool.not_eq_false _ ▸ hpin)
  cases hm

/-- The others have no pins but those that they had before. -/
theorem PinsFrom.keepsPins {rid : Int} (h : PinsFrom (fun q => q = rid) c c') :
    KeepsPins rid c c' := by
  intro pid page' hp' hpin' hr'
  obtain ⟨page, hp, hr, hpin⟩ := (h pid page' hp' hpin').resolve_left hr'
  exact ⟨page, hp, hpin, hr ▸ hr'⟩

/-! ### Operations that set no pin -/

section Primitives
variable (grow : Int → Prop)

theorem pinsFrom_updatePage {f : KVPage → KVPage} (hf : Retag f) (c : KVCache) (pid : Nat) :
    PinsFrom grow c (updatePage f c pid) := by
  intro q page' hp hpin
  obtain ⟨page, hpage, rfl | rfl⟩ := get?_modify_cases hp
  · exact Or.inr ⟨page', hpage, rfl, hpin⟩
  · have hkey : (f page).requestId = page.requestId := congrArg Prod.fst (hf.key page)
    exact Or.inr ⟨page, hpage, hkey.symm, hf.pinned page ▸ hpin⟩

theorem pinsFrom_updateListed {f : KVPage → KVPage} (hf : Retag f) (c : KVCache) (rid : Int)
    (layers : List Int) : PinsFrom grow c (updateListed f c rid layers) :=
  PinsFrom.foldl (fun c _ => PinsFrom.foldl (pinsFrom_updatePage grow hf) _ c) layers c

theorem pinsFrom_markSelection (c : KVCache) (config : RuntimeConfig) (r : RequestState)
    (decodeStep : Int) : PinsFrom grow c (c.markSelection config r decodeStep) :=
  markSelection_rec (P := PinsFrom grow c) config r decodeStep (PinsFrom.refl grow c)
    fun c' _ pid hf hc => hc.trans (pinsFrom_updatePage grow hf c' pid)

theorem pinsFrom_touchPages (c : KVCache) (ids : List Nat) :
    PinsFrom grow c (c.touchPages ids) := by
  refine PinsFrom.of_subset fun pid page hp => ?_
  rwa [touchPages_pages] at hp

theorem pinsFrom_releaseRequest (c : KVCache) (rid : Int) :
    PinsFrom grow c (c.releaseRequest rid) :=
  PinsFrom.of_subset fun _ _ hp => releaseKeys_get? _ c hp

theorem pinsFrom_evictAll (c : KVCache) (gone : List Nat) :
    PinsFrom grow c (c.evictAll gone) := by
  refine PinsFrom.of_subset fun pid page hp => ?_
  rw [evictAll_get?] at hp
  split at hp
  · cases hp
  · exact hp

end Primitives

/-! ### Pins and unpins -/

theorem unpinPage_get? (c : KVCache) (pid q : Nat) :
    (c.unpinPage pid).pages.get? q =
      if q = pid then (c.pages.get? q).map (KVPage.setPinned false) else c.pages.get? q := by
  obtain ⟨bytes, hunpin⟩ := unpinPage_eq c pid
  rw [hunpin]
  exact Dict.get?_modify _ _ _ _

theorem unpinPages_get? (c : KVCache) (ids : List Nat) (q : Nat) :
    (c.unpinPages ids).pages.get? q =
      if q ∈ ids then (c.pages.get? q).map (KVPage.setPinned false) else c.pages.get? q :=
  foldl_update_get? (fun (c : KVCache) pid => c.pages.get? pid) (KVPage.setPinned false)
    (fun _ => rfl) unpinPage_get? ids c q

theorem pinsFrom_unpinPages (grow : Int → Prop) (c : KVCache) (ids : List Nat) :
    PinsFrom grow c (c.unpinPages ids) := by
  intro pid page' hp hpin
  rw [unpinPages_get?] at hp
  split at hp
  · obtain ⟨page, _, rfl⟩ := Option.map_eq_some_iff.mp hp
    cases hpin
  · exact Or.inr ⟨page', hp, rfl, hpin⟩

/-- Unpinning the pages that hold the pins of a request leaves it none. -/
theorem PinsWithin.unpin {rid : Int} {ids : List Nat} (h : PinsWithin c rid ids) :
    HoldsNoPin (c.unpinPages ids) rid := by
  intro pid page hp hr
  rw [unpinPages_get?] at hp
  split at hp
  · obtain ⟨page₀, _, rfl⟩ := Option.map_eq_some_iff.mp hp
    rfl
  · next hm =>
    by_contra hpin
    exact hm (h pid page hp hr (Bool.not_eq_false _ ▸ hpin))

/-- A pin on another page stays. -/
theorem unpinPages_not_mem {ids : List Nat} {pid : Nat} (hm : pid ∉ ids) :
    (c.unpinPages ids).pages.get? pid = c.pages.get? pid := by
  rw [unpinPages_get?, if_neg hm]

theorem pinsFrom_pinPages {grow : Int → Prop} {ids : List Nat}
    (h : ∀ pid ∈ ids, ∀ page, c.pages.get? pid = some page → grow page.requestId) :
    PinsFrom grow c (c.pinPages ids) := by
  intro pid page' hp hpin
  rw [pinPages_get?] at hp
  split at hp
  · next hm =>
    obtain ⟨page, hpage, rfl⟩ := Option.map_eq_some_iff.mp hp
    exact Or.inl (h pid hm page hpage)
  · exact Or.inr ⟨page', hp, rfl, hpin⟩

theorem PinsWithin.pin {rid : Int} {ids : List Nat} (h : PinsWithin c rid ids) :
    PinsWithin (c.pinPages ids) rid ids := by
  intro pid page hp hr hpin
  rw [pinPages_get?] at hp
  split at hp
  · next hm => exact hm
  · exact h pid page hp hr hpin

/-! ### Allocation -/

/-- The pages of `c'` are those of `c` and new ones of the request, which are pinned as asked. -/
structure Stamps (rid : Int) (pinned : Bool) (c c' : KVCache) : Prop where
  next : c.nextPageId ≤ c'.nextPageId
  page : ∀ pid page, c'.pages.get? pid = some page → c.pages.get? pid = some page ∨
    c.nextPageId ≤ pid ∧ page.requestId = rid ∧ page.pinned = pinned

section Stamps
variable {rid : Int} {pinned : Bool}

theorem Stamps.refl (rid : Int) (pinned : Bool) (c : KVCache) : Stamps rid pinned c c :=
  ⟨le_rfl, fun _ _ hp => Or.inl hp⟩

theorem Stamps.trans (h : Stamps rid pinned c c') (h' : Stamps rid pinned c' c'') :
    Stamps rid pinned c c'' where
  next := h.next.trans h'.next
  page := by
    intro pid page hp
    obtain hp' | ⟨hn, hnew⟩ := h'.page pid page hp
    · exact h.page pid page hp'
    · exact Or.inr ⟨h.next.trans hn, hnew⟩

theorem stamps_allocatePages (rid l total : Int) (pinned : Bool) (n : Nat) (start : Int)
    (c : KVCache) (ids : List Nat) :
    Stamps rid pinned c (allocatePages rid l total pinned n start c ids).1 := by
  induction n generalizing start c ids with
  | zero => exact Stamps.refl rid pinned c
  | succ n ih =>
    rw [allocatePages_succ]
    refine Stamps.trans ⟨Nat.le_succ _, ?_⟩ (ih _ _ _)
    intro pid page hp
    rw [allocateOnePage_get?] at hp
    by_cases he : pid = c.nextPageId
    · rw [if_pos he] at hp
      obtain rfl := Option.some.inj hp
      exact Or.inr ⟨he.ge, rfl, rfl⟩
    · rw [if_neg he] at hp
      exact Or.inl hp

theorem stamps_allocateLayers (rid total : Int) (pinned : Bool) (layers : List Int)
    (c : KVCache) (m : LayerPageMap) :
    Stamps rid pinned c (allocateLayers rid total pinned layers c m).1 := by
  induction layers generalizing c m with
  | nil => exact Stamps.refl rid pinned c
  | cons l layers ih =>
    rw [allocateLayers_cons]
    refine Stamps.trans ?_ (ih _ _)
    simp only [allocateLayer]
    split
    · exact stamps_allocatePages rid l total pinned _ _ c _
    · exact Stamps.refl rid pinned c

theorem Stamps.pinsFrom {grow : Int → Prop} (h : Stamps rid pinned c c')
    (hg : pinned = true → grow rid) : PinsFrom grow c c' := by
  intro pid page hp hpin
  obtain hold | ⟨_, hr, hnew⟩ := h.page pid page hp
  · exact Or.inr ⟨page, hold, rfl, hpin⟩
  · exact Or.inl (hr ▸ hg (hnew ▸ hpin))

end Stamps

theorem pinsFrom_allocate {grow : Int → Prop} {r : RequestState} {total : Int} {pinned : Bool}
    {m : LayerPageMap} (hg : pinned = true → grow r.requestId)
    (hok : c.allocateForRequest r total pinned = (.ok m, c')) : PinsFrom grow c c' := by
  have hlayers := allocateForRequest_ok hok
  generalize c.victims (c.neededPages r total - c.freePages) = gone at hlayers
  have hs := stamps_allocateLayers r.requestId total pinned r.layerIds (c.evictAll gone) Dict.empty
  rw [hlayers] at hs
  exact (pinsFrom_evictAll grow c gone).trans (hs.pinsFrom hg)

theorem pinsFrom_commit {grow : Int → Prop} {r : RequestState} {n : Int} {pin : Bool}
    {m : LayerPageMap} (hg : pin = true → grow r.requestId)
    (hok : c.commitTokens r n pin = (.ok m, c')) : PinsFrom grow c c' := by
  obtain ⟨c₁, ha, rfl⟩ := commitTokens_ok hok
  exact (pinsFrom_allocate hg ha).trans (pinsFrom_updateListed grow retag_commit c₁ _ _)

theorem allocateLayer_pageIdsFor_ne (c : KVCache) (rid total : Int) (pinned : Bool) {l l' : Int}
    (hne : l' ≠ l) : (c.allocateLayer rid total pinned l).1.pageIdsFor (rid, l') =
      c.pageIdsFor (rid, l') := by
  simp only [allocateLayer]
  split
  · rw [allocatePages_pageIdsFor, if_neg (by simp [hne])]
  · rfl

/-- The map of an allocation lists all the pages of its layers. -/
theorem allocateLayers_listed (rid total : Int) (pinned : Bool) (layers : List Int)
    (m : LayerPageMap) (l : Int)
    (hl : l ∈ layers ∨ m.get? l = some (c.pageIdsFor (rid, l))) :
    (allocateLayers rid total pinned layers c m).2.get? l =
      some ((allocateLayers rid total pinned layers c m).1.pageIdsFor (rid, l)) := by
  induction layers generalizing c m with
  | nil => exact hl.resolve_left List.not_mem_nil
  | cons l' layers ih =>
    rw [allocateLayers_cons]
    apply ih
    rw [Dict.get?_set]
    by_cases he : l = l'
    · exact Or.inr (by rw [if_pos he, he, allocateLayer_ids])
    · rw [if_neg he, allocateLayer_pageIdsFor_ne c rid total pinned he]
      exact hl.imp (fun hm => (List.mem_cons.mp hm).resolve_left he) id

/-! ### Whether an allocation adds a page -/

/-- The layers of the request have pages for the tokens, also without the pages that an allocation
for them evicts first: it has none to add. -/
def HasPagesFor (c : KVCache) (r : RequestState) (total : Int) : Prop :=
  c.neededWithout (c.victims (c.neededPages r total - c.freePages)) r total = 0

instance (c : KVCache) (r : RequestState) (total : Int) : Decidable (c.HasPagesFor r total) :=
  inferInstanceAs (Decidable (_ = _))

theorem neededPages_eq_zero {r : RequestState} {total : Int} :
    c.neededPages r total = 0 ↔ ∀ l ∈ r.layerIds, c.pagesNeededForLayer r total l = 0 := by
  have hnn : ∀ x ∈ r.layerIds.map (c.pagesNeededForLayer r total), 0 ≤ x := by
    intro x hx
    obtain ⟨l, _, rfl⟩ := List.mem_map.mp hx
    exact c.pagesNeededForLayer_nonneg r total l
  constructor
  · intro hz l hl
    have hle := List.single_le_sum hnn _ (List.mem_map_of_mem hl)
    exact le_antisymm (hle.trans hz.le) (c.pagesNeededForLayer_nonneg r total l)
  · intro hall
    apply List.sum_eq_zero
    intro x hx
    obtain ⟨l, hl, rfl⟩ := List.mem_map.mp hx
    exact hall l hl

/-- A layer can only miss a page if the pages hold tokens. -/
theorem pageSize_pos_of_needed {r : RequestState} {total l : Int}
    (h : 0 < c.pagesNeededForLayer r total l) : 0 < c.pageSize := by
  by_contra hps
  have hreq : c.requiredPages total ≤ 0 := by
    unfold requiredPages
    split
    · exact le_rfl
    · exact ceilDiv_nonpos (by omega) (not_lt.mp hps)
  unfold pagesNeededForLayer at h
  omega

/-- If a layer misses a page, then a page is new, and it is pinned as asked. -/
theorem allocateLayers_new (h : Inv c) {r : RequestState} {total : Int} (pinned : Bool)
    {layers : List Int} (m : LayerPageMap) {l : Int} (hl : l ∈ layers)
    (hneed : 0 < c.pagesNeededForLayer r total l) :
    ∃ pid page, c.nextPageId ≤ pid ∧
      (allocateLayers r.requestId total pinned layers c m).1.pages.get? pid = some page ∧
      page.requestId = r.requestId ∧ page.pinned = pinned := by
  have hsize := allocateLayers_size h (pageSize_pos_of_needed hneed) r total pinned layers m
  have hstamps := stamps_allocateLayers r.requestId total pinned layers c m
  have hmore : c.pagesNeededForLayer r total l ≤
      layers.toFinset.sum (c.pagesNeededForLayer r total) :=
    Finset.single_le_sum (fun l' _ => c.pagesNeededForLayer_nonneg r total l')
      (List.mem_toFinset.mpr hl)
  by_contra hnone
  have hle : (allocateLayers r.requestId total pinned layers c m).1.pages.size ≤
      c.pages.size := by
    apply Dict.size_le_of_subset
    intro pid hp
    obtain ⟨page, hp⟩ := (Dict.mem_keys_iff _ _).mp hp
    obtain hold | ⟨hn, hr, hpin⟩ := hstamps.page pid page hp
    · exact Dict.mem_keys_of_get? hold
    · exact absurd ⟨pid, page, hn, hp, hr, hpin⟩ hnone
  omega

/-- A page keeps its request and its pin when flags are rewritten. -/
theorem updateListed_page {f : KVPage → KVPage} (hf : Retag f) (rid : Int) (layers : List Int)
    {pid : Nat} {page : KVPage} (hp : c.pages.get? pid = some page) :
    ∃ page', (updateListed f c rid layers).pages.get? pid = some page' ∧
      page'.requestId = page.requestId ∧ page'.pinned = page.pinned := by
  refine List.foldlRecOn (motive := fun c' : KVCache => ∃ page', c'.pages.get? pid = some page' ∧
    page'.requestId = page.requestId ∧ page'.pinned = page.pinned) layers _ ⟨page, hp, rfl, rfl⟩
    fun c₁ h₁ l _ => ?_
  refine List.foldlRecOn (motive := fun c' : KVCache => ∃ page', c'.pages.get? pid = some page' ∧
    page'.requestId = page.requestId ∧ page'.pinned = page.pinned) _ _ h₁ fun c₂ h₂ q _ => ?_
  obtain ⟨page', hp', hr, hpin⟩ := h₂
  have hget : (updatePage f c₂ q).pages.get? pid =
      if pid = q then (c₂.pages.get? pid).map f else c₂.pages.get? pid := Dict.get?_modify _ _ _ _
  rw [hget]
  by_cases hq : pid = q
  · refine ⟨f page', by rw [if_pos hq, hp']; rfl, ?_, (hf.pinned page').trans hpin⟩
    exact (hf.samePage page').requestId.trans hr
  · exact ⟨page', by rw [if_neg hq, hp'], hr, hpin⟩

/-- A commit that has no page to add sets no pin. -/
theorem Rep.commit_sets_no_pin (h : Inv c) {r : RequestState} {n : Int} {pin : Bool}
    {m : LayerPageMap} (hok : c.commitTokens r n pin = (.ok m, c'))
    (hp : c.HasPagesFor r (r.currentTokens + n)) : PinsFrom (fun _ => False) c c' := by
  obtain ⟨c₁, ha, rfl⟩ := commitTokens_ok hok
  have hlayers := allocateForRequest_ok ha
  unfold HasPagesFor at hp
  generalize c.victims (c.neededPages r (r.currentTokens + n) - c.freePages) = gone at hp hlayers
  rw [← h.neededPages_evictAll, neededPages_eq_zero] at hp
  have hsame := allocateLayers_same pin Dict.empty hp
  rw [hlayers] at hsame
  have hevict : PinsFrom (fun _ => False) c c₁ := by
    have hc : c₁ = c.evictAll gone := hsame
    exact hc ▸ pinsFrom_evictAll _ c gone
  exact hevict.trans (pinsFrom_updateListed _ retag_commit c₁ _ _)

/-- A commit that has pages to add pins a page that is new. -/
theorem Rep.commit_pins_new (h : Inv c) {r : RequestState} {n : Int} {m : LayerPageMap}
    (hok : c.commitTokens r n = (.ok m, c')) (hp : ¬ c.HasPagesFor r (r.currentTokens + n)) :
    ∃ pid page, c.nextPageId ≤ pid ∧ c'.pages.get? pid = some page ∧
      page.requestId = r.requestId ∧ page.pinned = true := by
  obtain ⟨c₁, ha, rfl⟩ := commitTokens_ok hok
  have hlayers := allocateForRequest_ok ha
  unfold HasPagesFor at hp
  generalize c.victims (c.neededPages r (r.currentTokens + n) - c.freePages) = gone at hp hlayers
  rw [← h.neededPages_evictAll, neededPages_eq_zero] at hp
  push Not at hp
  obtain ⟨l, hl, hne⟩ := hp
  have hneed : 0 < (c.evictAll gone).pagesNeededForLayer r (r.currentTokens + n) l :=
    lt_of_le_of_ne ((c.evictAll gone).pagesNeededForLayer_nonneg r _ l) hne.symm
  obtain ⟨pid, page, hn, hpage, hr, hpin⟩ :=
    allocateLayers_new (h.evictAll gone) true Dict.empty hl hneed
  rw [hlayers] at hpage
  obtain ⟨page', hpage', hr', hpin'⟩ :=
    updateListed_page retag_commit r.requestId r.layerIds hpage
  exact ⟨pid, page', (c.evolves_evictAll gone).next.trans hn, hpage', hr'.trans hr,
    hpin'.trans hpin⟩

/-- A commit whose request then unpins the pages it read leaves it a pin exactly if it added a
page: a new page is none of those. -/
theorem Rep.commit_unpin_iff (h : Inv c) {r : RequestState} {n : Int} {m : LayerPageMap}
    (hok : c.commitTokens r n true = (.ok m, c')) {ids : List Nat}
    (hlive : ∀ pid ∈ ids, pid < c.nextPageId) (hw : PinsWithin c r.requestId ids) :
    HoldsNoPin (c'.unpinPages ids) r.requestId ↔ c.HasPagesFor r (r.currentTokens + n) := by
  constructor
  · intro hnone
    by_contra hadds
    obtain ⟨pid, page, hn, hp, hr, hpinned⟩ := h.commit_pins_new hok hadds
    have hout : pid ∉ ids := fun hmem => absurd (hlive pid hmem) (not_lt.mpr hn)
    have hfree := hnone pid page ((unpinPages_not_mem hout).trans hp) hr
    rw [hpinned] at hfree
    cases hfree
  · intro hin
    exact ((h.commit_sets_no_pin hok hin).within not_false hw).unpin

end ResidentInference.KVCache

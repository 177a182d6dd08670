import ResidentInference.IdlePins
import ResidentInference.Headroom

/-! Runs with `pin_ready_decode_pages` on: a pin stays until its own request lets go of it, so the
pages of every unfinished request stay resident and no request is ever rehydrated. -/
namespace ResidentInference
open StateTransition

namespace KVCache
variable {c c' c'' : KVCache} {keep : Int → Prop}

/-! ### Pins that stay -/

/-- The pinned pages of the requests in `keep` are still there, and still pinned. -/
def Guards (keep : Int → Prop) (c c' : KVCache) : Prop :=
  ∀ pid page, c.pages.get? pid = some page → page.pinned = true → keep page.requestId →
    ∃ page', c'.pages.get? pid = some page' ∧ page'.requestId = page.requestId ∧
      page'.pinned = true

/-- Every page of the request is pinned. -/
def AllPinned (c : KVCache) (rid : Int) : Prop :=
  ∀ pid page, c.pages.get? pid = some page → page.requestId = rid → page.pinned = true

theorem Guards.of_same (h : ∀ pid page, c.pages.get? pid = some page → page.pinned = true →
    keep page.requestId → c'.pages.get? pid = some page) : Guards keep c c' :=
  fun pid page hp hpin hk => ⟨page, h pid page hp hpin hk, rfl, hpin⟩

theorem Guards.refl (keep : Int → Prop) (c : KVCache) : Guards keep c c :=
  Guards.of_same fun _ _ hp _ _ => hp

theorem Guards.trans (h : Guards keep c c') (h' : Guards keep c' c'') : Guards keep c c'' := by
  intro pid page hp hpin hk
  obtain ⟨page', hp', hr', hpin'⟩ := h pid page hp hpin hk
  rw [← hr'] at hk ⊢
  exact h' pid page' hp' hpin' hk

theorem Guards.foldl {α : Type} {f : KVCache → α → KVCache} (hf : ∀ c a, Guards keep c (f c a))
    (l : List α) (c : KVCache) : Guards keep c (l.foldl f c) := by
  induction l generalizing c with
  | nil => exact Guards.refl keep c
  | cons a l ih => exact (hf c a).trans (ih (f c a))

section Primitives
variable (keep)

theorem guards_updatePage {f : KVPage → KVPage} (hf : Retag f) (c : KVCache) (pid : Nat) :
    Guards keep c (updatePage f c pid) := by
  intro q page hp hpin _
  have hget : (updatePage f c pid).pages.get? q =
      if q = pid then (c.pages.get? q).map f else c.pages.get? q := Dict.get?_modify _ _ _ _
  by_cases hq : q = pid
  · refine ⟨f page, by rw [hget, if_pos hq, hp]; rfl, ?_, (hf.pinned page).trans hpin⟩
    exact (hf.samePage page).requestId
  · exact ⟨page, by rw [hget, if_neg hq, hp], rfl, hpin⟩

theorem guards_updateListed {f : KVPage → KVPage} (hf : Retag f) (c : KVCache) (rid : Int)
    (layers : List Int) : Guards keep c (updateListed f c rid layers) :=
  Guards.foldl (fun c _ => Guards.foldl (guards_updatePage keep hf) _ c) layers c

theorem guards_markSelection (c : KVCache) (config : RuntimeConfig) (r : RequestState)
    (decodeStep : Int) : Guards keep c (c.markSelection config r decodeStep) :=
  markSelection_rec (P := Guards keep c) config r decodeStep (Guards.refl keep c)
    fun c' _ pid hf hc => hc.trans (guards_updatePage keep hf c' pid)

theorem guards_touchPages (c : KVCache) (ids : List Nat) : Guards keep c (c.touchPages ids) :=
  Guards.of_same fun pid page hp _ _ => by rwa [touchPages_pages]

theorem guards_pinPages (c : KVCache) (ids : List Nat) : Guards keep c (c.pinPages ids) := by
  intro pid page hp hpin _
  by_cases hm : pid ∈ ids
  · exact ⟨page.setPinned true, by rw [pinPages_get?, if_pos hm, hp]; rfl, rfl, rfl⟩
  · exact ⟨page, by rw [pinPages_get?, if_neg hm, hp], rfl, hpin⟩

/-- An eviction takes none of the pinned pages. -/
theorem guards_evictAll (c : KVCache) (n : Int) : Guards keep c (c.evictAll (c.victims n)) := by
  refine Guards.of_same fun pid page hp hpin _ => ?_
  rw [evictAll_get?, if_neg, hp]
  intro hm
  obtain ⟨page', hp', hfree⟩ := unpinned_of_mem_evictionOrder (List.mem_of_mem_take hm)
  rw [hp] at hp'
  obtain rfl := Option.some.inj hp'
  exact Bool.false_ne_true (hfree.symm.trans hpin)

end Primitives

theorem guards_allocate (keep : Int → Prop) (h : Inv c) {r : RequestState} {total : Int}
    {pinned : Bool} {m : LayerPageMap} (hok : c.allocateForRequest r total pinned = (.ok m, c')) :
    Guards keep c c' := by
  have hlayers := allocateForRequest_ok hok
  have hevict := guards_evictAll keep c (c.neededPages r total - c.freePages)
  have h₁ := h.evictAll (c.victims (c.neededPages r total - c.freePages))
  have ha : Adds r.requestId r.layerIds _ _ :=
    adds_allocateLayers h₁ (fun _ hl => hl) total pinned Dict.empty
  rw [hlayers] at ha
  refine hevict.trans (Guards.of_same fun pid page hp _ _ => ?_)
  rw [ha.old pid (h₁.linked.below pid (Dict.mem_keys_of_get? hp))]
  exact hp

theorem guards_commit (keep : Int → Prop) (h : Inv c) {r : RequestState} {n : Int} {pin : Bool}
    {m : LayerPageMap} (hok : c.commitTokens r n pin = (.ok m, c')) : Guards keep c c' := by
  obtain ⟨c₁, ha, rfl⟩ := commitTokens_ok hok
  exact (guards_allocate keep h ha).trans (guards_updateListed keep retag_commit c₁ _ _)

/-- Unpinning pages of one request leaves the pins of the others. -/
theorem guards_unpinPages {rid : Int} {ids : List Nat}
    (hids : ∀ pid ∈ ids, ∀ page, c.pages.get? pid = some page → page.requestId = rid) :
    Guards (fun q => q ≠ rid) c (c.unpinPages ids) := by
  refine Guards.of_same fun pid page hp _ hne => ?_
  rw [unpinPages_not_mem fun hm => hne (hids pid hm page hp), hp]

theorem Rep.guards_releaseRequest (h : Inv c) (rid : Int) :
    Guards (fun q => q ≠ rid) c (c.releaseRequest rid) :=
  Guards.of_same fun _ _ hp _ hne => (h.releaseRequest_get? rid).mpr ⟨hp, hne⟩

/-! ### Requests that are pinned throughout -/

/-- A request whose pins are kept and that gets no page stays pinned throughout. -/
theorem AllPinned.guarded {grow : Int → Prop} {rid : Int} (h : AllPinned c rid)
    (he : Evolves grow c c') (hg : Guards keep c c') (hk : keep rid) (hno : ¬ grow rid) :
    AllPinned c' rid := by
  intro pid page' hp' hr'
  cases he.page pid page' hp' with
  | inl hold =>
    obtain ⟨page, hp, hs⟩ := hold
    have hr : page.requestId = rid := hs.requestId ▸ hr'
    obtain ⟨page'', hp'', -, hpin⟩ := hg pid page hp (h pid page hp hr) (hr ▸ hk)
    rw [hp'] at hp''
    exact Option.some.inj hp'' ▸ hpin
  | inr hnew => exact absurd (hr' ▸ hnew.2) hno

/-- Pages that are added with their pins leave the request pinned throughout. -/
theorem AllPinned.stamped {rid : Int} (h : AllPinned c rid) (hs : Stamps rid true c c') :
    AllPinned c' rid := by
  intro pid page hp hr
  cases hs.page pid page hp with
  | inl hold => exact h pid page hold hr
  | inr hnew => exact hnew.2.2

theorem AllPinned.evictAll {rid : Int} (h : AllPinned c rid) (gone : List Nat) :
    AllPinned (c.evictAll gone) rid := by
  intro pid page hp hr
  rw [evictAll_get?] at hp
  split at hp
  · cases hp
  · exact h pid page hp hr

theorem AllPinned.updatePage {rid : Int} (h : AllPinned c rid) {f : KVPage → KVPage}
    (hf : Retag f) (pid : Nat) : AllPinned (updatePage f c pid) rid := by
  have hevolves : Evolves (fun _ => False) c (KVCache.updatePage f c pid) :=
    KVCache.evolves_updatePage _ hf c pid
  exact h.guarded hevolves (guards_updatePage (fun _ => True) hf c pid) trivial not_false

theorem AllPinned.updateListed {rid : Int} (h : AllPinned c rid) {f : KVPage → KVPage}
    (hf : Retag f) (q : Int) (layers : List Int) : AllPinned (updateListed f c q layers) rid :=
  h.guarded (evolves_updateListed (fun _ => False) hf c q layers)
    (guards_updateListed (fun _ => True) hf c q layers) trivial not_false

theorem AllPinned.allocate {r : RequestState} {total : Int} {m : LayerPageMap}
    (h : AllPinned c r.requestId) (hok : c.allocateForRequest r total true = (.ok m, c')) :
    AllPinned c' r.requestId := by
  have hlayers := allocateForRequest_ok hok
  have hs := stamps_allocateLayers r.requestId total true r.layerIds
    (c.evictAll (c.victims (c.neededPages r total - c.freePages))) Dict.empty
  rw [hlayers] at hs
  exact (h.evictAll _).stamped hs

theorem AllPinned.commit {r : RequestState} {n : Int} {m : LayerPageMap}
    (h : AllPinned c r.requestId) (hok : c.commitTokens r n true = (.ok m, c')) :
    AllPinned c' r.requestId := by
  obtain ⟨c₁, ha, rfl⟩ := commitTokens_ok hok
  exact (h.allocate ha).updateListed retag_commit _ _

end KVCache

open KVCache

/-- The pages of the snapshot are resident, and every page of the request is pinned. -/
structure Kept (c : KVCache) (r : RequestState) : Prop where
  live : c.hasSnapshot r = true
  pinned : AllPinned c r.requestId

theorem Kept.congr {c : KVCache} {r r' : RequestState} (h : Kept c r)
    (hs : r'.kvSnapshot = r.kvSnapshot) (hl : r'.layerIds = r.layerIds)
    (hid : r'.requestId = r.requestId) : Kept c r' where
  live := (hasSnapshot_congr hs hl).trans h.live
  pinned := hid ▸ h.pinned

/-- Every page of the snapshot is live, belongs to the request and is pinned. -/
theorem Kept.resident {c : KVCache} {r : RequestState} (h : Kept c r) (hres : Resident c r) :
    ∀ pid ∈ r.kvPageIds, ∃ page, c.pages.get? pid = some page ∧ page.requestId = r.requestId ∧
      page.pinned = true := by
  intro pid hp
  obtain ⟨page, hpage⟩ := (Dict.mem_keys_iff _ _).mp ((hasSnapshot_iff.mp h.live).2 pid hp)
  have howner := (hres pid hp).2 page hpage
  exact ⟨page, hpage, howner, h.pinned pid page hpage howner⟩

/-- A request stays kept while the cache serves another one. -/
theorem Kept.guarded {c c' : KVCache} {q : RequestState} {rid : Int} (h : Kept c q)
    (hres : Resident c q) (he : Evolves (fun p => p = rid) c c')
    (hg : Guards (fun p => p ≠ rid) c c') (hne : q.requestId ≠ rid) : Kept c' q where
  live := by
    refine hasSnapshot_iff.mpr ⟨(hasSnapshot_iff.mp h.live).1, fun pid hp => ?_⟩
    obtain ⟨page, hpage, howner, hpin⟩ := h.resident hres pid hp
    obtain ⟨page', hpage', -, -⟩ := hg pid page hpage hpin (howner ▸ hne)
    exact Dict.mem_keys_of_get? hpage'
  pinned := h.pinned.guarded he hg hne hne

/-! ### The stages of a worker -/

theorem prefill_guards (keep : Int → Prop) {pin : Bool} {idx : Nat} {c c' : KVCache}
    {r r' : RequestState} (h : Inv c) (hrun : prefillProcess pin idx c r = (.ok r', c')) :
    Guards keep c c' := by
  obtain ⟨m, c₁, ha, rfl, rfl⟩ := prefillProcess_ok hrun
  exact (guards_allocate keep h ha).trans (guards_touchPages keep c₁ m.pageIds)

theorem prefill_kept {idx : Nat} {c c' : KVCache} {r r' : RequestState} (h : Inv c)
    (hless : Pageless c r.requestId) (hrun : prefillProcess true idx c r = (.ok r', c')) :
    Kept c' r' := by
  obtain ⟨m, c₁, ha, rfl, rfl⟩ := prefillProcess_ok hrun
  have hnone : AllPinned c r.requestId := fun pid page hp hr => absurd hr (hless pid page hp)
  have hall : AllPinned c₁ r.requestId := AllPinned.allocate hnone ha
  have howned : MapOwned c₁ r.requestId m := allocateForRequest_owned h ha
  have htouch : Retains c₁ (c₁.touchPages m.pageIds) := Retains.foldl retains_touchPage _ c₁
  refine ⟨htouch.hasSnapshot (PersistentDecodeRuntime.hasSnapshot_of_owned howned rfl), ?_⟩
  intro pid page hp hr
  rw [touchPages_pages] at hp
  exact hall pid page hp hr

theorem rehydrate_guards {c c' : KVCache} {r r' : RequestState} (h : Inv c)
    (hrun : rehydrateIfNeeded c r = (.ok r', c')) : Guards (fun q => q ≠ r.requestId) c c' := by
  cases rehydrateIfNeeded_ok hrun with
  | inl hkeep =>
    obtain ⟨-, rfl, rfl⟩ := hkeep
    exact Guards.refl _ _
  | inr hnew =>
    obtain ⟨m, ha, -⟩ := hnew
    exact (h.guards_releaseRequest _).trans (guards_allocate _ (h.releaseRequest _) ha)

namespace PersistentDecodeRuntime
variable {rt : PersistentDecodeRuntime}

theorem guards_selectReads (keep : Int → Prop) (rt : PersistentDecodeRuntime) (c : KVCache)
    (r : RequestState) : Guards keep c (rt.selectReads c r).2 := by
  simp only [selectReads]
  split
  · exact guards_markSelection keep c _ _ _
  · exact Guards.refl keep c

theorem guards_reads (keep : Int → Prop) (rt : PersistentDecodeRuntime) (c : KVCache)
    (r : RequestState) (ids : List Nat) :
    Guards keep c (((rt.selectReads c r).2.pinPages ids).touchPages ids) :=
  ((guards_selectReads keep rt c r).trans (guards_pinPages keep _ ids)).trans
    (guards_touchPages keep _ ids)

theorem prepare_guards {c c' : KVCache} {r r' : RequestState} {reads : KVReads} (h : Inv c)
    (hrun : rt.prepare c r = (.ok (r', reads), c')) :
    Guards (fun q => q ≠ r.requestId) c c' := by
  obtain ⟨c₁, hre, -, rfl⟩ := prepare_ok hrun
  exact (rehydrate_guards h hre).trans (guards_reads _ rt c₁ r' _)

theorem commitAccepted_guards (keep : Int → Prop) {c c' : KVCache} {r r' : RequestState}
    {accepted : List Int} (h : Inv c) (hrun : commitAccepted c r accepted = (.ok r', c')) :
    Guards keep c c' := by
  by_cases hne : accepted = []
  · rw [hne, commitAccepted_nil] at hrun
    cases hrun
    exact Guards.refl keep c
  · obtain ⟨m, hc, -⟩ := commitAccepted_unevicted h hne hrun
    exact guards_commit keep h hc

/-- The step ends by unpinning pages of its own request only. -/
theorem settle_guards (rt : PersistentDecodeRuntime) {c : KVCache} {r : RequestState}
    (spec : Speculation) {reads : KVReads} (hres : Resident c r)
    (hreads : ∀ pid ∈ reads.pageIds, ∀ page, c.pages.get? pid = some page →
      page.requestId = r.requestId) :
    Guards (fun q => q ≠ r.requestId) c (rt.settle c r spec reads).2 := by
  unfold settle
  split
  · exact guards_unpinPages fun pid hp page hpage => (hres pid hp).2 page hpage
  · cases rt.config.pinReadyDecodePages with
    | true => exact Guards.refl _ c
    | false => exact guards_unpinPages hreads

/-- A decode step lets go of no page that another request has pinned. -/
theorem decode_guards {idx : Nat} {c c' : KVCache} {r r' : RequestState} {t : DecodeStepTrace}
    (h : Inv c) (hres : Resident c r) (hrun : rt.decodeProcess idx c r = (.ok (r', t), c')) :
    Guards (fun q => q ≠ r.requestId) c c' := by
  obtain ⟨ready, reads, spec, committed, prepared, grown, hst⟩ := decodeProcess_ok hrun
  have htaken : Resident c (taken idx r) := hres.congr rfl rfl rfl
  obtain ⟨hm, hres₁, hprepared⟩ := prepare_moves h htaken hst.prepare
  obtain ⟨hid, hlay, hsnap⟩ := adapt_frame rt prepared ready spec.proposal spec.adaptiveMask
  obtain ⟨hm₂, hres₂⟩ := commitAccepted_moves hm.inv (hres₁.congr hsnap hlay hid) hst.commit
  obtain ⟨c₁, hre, -, -⟩ := prepare_ok hst.prepare
  have hready : ready.requestId = r.requestId :=
    RequestState.requestId_eq (rehydrateIfNeeded_tokens hre).1
  have hcommitted : committed.requestId = r.requestId :=
    (RequestState.requestId_eq (commitAccepted_tokens hst.commit).1).trans (hid.trans hready)
  have h₁ := prepare_guards h hst.prepare
  have h₂ := commitAccepted_guards (fun q => q ≠ r.requestId) hm.inv hst.commit
  have h₃ := rt.settle_guards spec hres₂ fun pid hp page hpage => by
    obtain ⟨page₀, hpage₀, howner, -⟩ := hprepared.pinned pid hp
    obtain ⟨page', hpage', hr'⟩ := hm₂.evolves.owned
      (hm.inv.linked.below pid (Dict.mem_keys_of_get? hpage₀)) (Dict.mem_keys_of_get? hpage)
      ⟨page₀, hpage₀, howner⟩
    rw [hpage] at hpage'
    exact (Option.some.inj hpage' ▸ hr').trans hcommitted.symm
  rw [hst.settle, hcommitted] at h₃
  exact (h₁.trans h₂).trans h₃

/-- The commit of a kept request leaves it kept. -/
theorem commitAccepted_kept {c c' : KVCache} {r r' : RequestState} {accepted : List Int}
    (h : Inv c) (hk : Kept c r) (hrun : commitAccepted c r accepted = (.ok r', c')) :
    Kept c' r' ∧ r'.rehydrationCount = r.rehydrationCount := by
  by_cases hne : accepted = []
  · rw [hne, commitAccepted_nil] at hrun
    cases hrun
    exact ⟨hk, rfl⟩
  · obtain ⟨m, hc, rfl⟩ := commitAccepted_unevicted h hne hrun
    have hlive := hasSnapshot_of_owned (r := { r.commit accepted with
      kvSnapshot := some (r.snapshot m) }) (commitTokens_owned h hc) rfl
    exact ⟨⟨hlive, hk.pinned.commit hc⟩, rfl⟩

/-- With its pages resident a request is not rehydrated, and reading keeps them. -/
theorem prepare_kept {c c' : KVCache} {r r' : RequestState} {reads : KVReads} (hk : Kept c r)
    (hrun : rt.prepare c r = (.ok (r', reads), c')) : r' = r ∧ Kept c' r := by
  obtain ⟨c₁, hre, -, rfl⟩ := prepare_ok hrun
  rw [rehydrate_of_snapshot hk.live] at hre
  cases hre
  refine ⟨rfl, (retains_reads rt c r _).hasSnapshot hk.live, ?_⟩
  exact hk.pinned.guarded (evolves_reads rt c r _) (guards_reads (fun _ => True) rt c r _)
    trivial not_false

/-- A decode step of a kept request rehydrates nothing, and leaves it kept unless it is done. -/
theorem decode_kept (hpin : rt.config.pinReadyDecodePages = true) {idx : Nat} {c c' : KVCache}
    {r r' : RequestState} {t : DecodeStepTrace} (h : Inv c) (hres : Resident c r) (hk : Kept c r)
    (hrun : rt.decodeProcess idx c r = (.ok (r', t), c')) :
    r'.rehydrationCount = r.rehydrationCount ∧ (r'.finished = false → Kept c' r') := by
  obtain ⟨ready, reads, spec, committed, prepared, grown, hst⟩ := decodeProcess_ok hrun
  have htaken : Resident c (taken idx r) := hres.congr rfl rfl rfl
  obtain ⟨hm, -, -⟩ := prepare_moves h htaken hst.prepare
  obtain ⟨rfl, hk₁⟩ := prepare_kept (r := taken idx r) (hk.congr rfl rfl rfl) hst.prepare
  obtain ⟨hid, hlay, hsnap⟩ := adapt_frame rt prepared (taken idx r) spec.proposal
    spec.adaptiveMask
  have hcount := rt.adapt_rehydrationCount prepared
    { taken idx r with draftTokens := spec.proposal } spec.adaptiveMask
  obtain ⟨hk₂, hcount'⟩ := commitAccepted_kept hm.inv (hk₁.congr hsnap hlay hid) hst.commit
  have hsettle := hst.settle
  unfold settle at hsettle
  split at hsettle
  · cases hsettle
    exact ⟨hcount'.trans hcount, fun hf => nomatch hf⟩
  · cases hsettle
    exact ⟨hcount'.trans hcount, fun _ => hk₂.congr rfl rfl rfl⟩

/-! ### Whole runs -/

/-- The live pages belong to requests that have been through their prefill, and those of them that
are unfinished are kept. -/
structure AllKept (s : RuntimeState) : Prop where
  owners : ∀ pid page, s.cache.pages.get? pid = some page →
    ∃ r ∈ s.prefilled, r.requestId = page.requestId
  kept : ∀ r ∈ s.prefilled, r.finished = false → Kept s.cache r

theorem allKept_start (rt : PersistentDecodeRuntime) (requests : List RequestState) :
    AllKept (rt.start requests) := by
  refine ⟨fun pid page hp => ?_, fun r hr => ?_⟩
  · cases hp
  · have hnone : (rt.start requests).prefilled = 0 := rfl
    rw [hnone] at hr
    exact absurd hr (Multiset.notMem_zero r)

/-- A request that has not been through its prefill has no pages. -/
theorem AllKept.pageless {s : RuntimeState} (h : AllKept s)
    (hids : (s.bag.map RequestState.requestId).Nodup) {r : RequestState}
    (hr : s.nextPrefill = some r) : Pageless s.cache r.requestId := by
  intro pid page hp heq
  obtain ⟨q, hq, hid⟩ := h.owners pid page hp
  rw [PoolState.bag_eq, Multiset.map_add, Multiset.nodup_add] at hids
  have hqueue := PoolState.mem_prefillQueue_of_nextPrefill hr
  exact Multiset.disjoint_left.mp hids.2.2
    (Multiset.mem_map_of_mem _ (Multiset.mem_coe.mpr hqueue))
    (Multiset.mem_map.mpr ⟨q, hq, hid.trans heq⟩)

/-- One request moves on and the others stay. -/
theorem AllKept.moved {s s' : RuntimeState} {r r' : RequestState} {others : Multiset RequestState}
    (h : AllKept s) (hothers : ∀ q ∈ others, q ∈ s.prefilled ∧ Resident s.cache q ∧
      q.requestId ≠ r.requestId)
    (howners : ∀ q ∈ s.prefilled, q ∈ others ∨ q.requestId = r.requestId)
    (hid : r'.requestId = r.requestId) (hs' : s'.prefilled = r' ::ₘ others)
    (he : Evolves (fun q => q = r.requestId) s.cache s'.cache)
    (hg : Guards (fun q => q ≠ r.requestId) s.cache s'.cache)
    (hr' : r'.finished = false → Kept s'.cache r') : AllKept s' := by
  refine ⟨fun pid page' hp' => ?_, ?_⟩
  · rw [hs']
    cases he.page pid page' hp' with
    | inl hold =>
      obtain ⟨page, hp, hsame⟩ := hold
      obtain ⟨q, hq, hqid⟩ := h.owners pid page hp
      cases howners q hq with
      | inl hmem => exact ⟨q, Multiset.mem_cons_of_mem hmem, hqid.trans hsame.requestId.symm⟩
      | inr heq =>
        refine ⟨r', Multiset.mem_cons_self r' others, ?_⟩
        rw [hid, ← heq, hqid, hsame.requestId]
    | inr hnew => exact ⟨r', Multiset.mem_cons_self r' others, hid.trans hnew.2.symm⟩
  · rw [hs']
    refine Multiset.forall_mem_cons.mpr ⟨hr', fun q hq hf => ?_⟩
    obtain ⟨hold, hres, hne⟩ := hothers q hq
    exact (h.kept q hold hf).guarded hres he hg hne

theorem AllKept.step (hpin : rt.config.pinReadyDecodePages = true) {s s' : RuntimeState}
    (h : AllKept s) (htidy : Tidy rt s) (ho : rt.workers.Orderly s)
    (hids : (s.bag.map RequestState.requestId).Nodup) (hs : rt.workers.step s = some s') :
    AllKept s' ∨ Workers.Raised s' := by
  have hbag : ∀ {q}, q ∈ s.prefilled → q ∈ s.bag := fun hq => by
    rw [PoolState.bag_eq]
    exact Multiset.mem_add.mpr (Or.inr hq)
  cases Workers.step_handled hs with
  | same cache prefilled =>
    refine Or.inl ⟨?_, ?_⟩
    · rw [cache, prefilled]
      exact h.owners
    · rw [cache, prefilled]
      exact h.kept
  | joined i r r' next run prefilled =>
    have run' : prefillProcess true i s.cache r = (.ok r', s'.cache) := hpin ▸ run
    have hless := h.pageless hids next
    refine Or.inl (h.moved (fun q hq => ⟨hq, htidy.resident q (hbag hq), ?_⟩)
      (fun q hq => Or.inl hq) (rt.workers_lawful.prefillId run) prefilled
      (prefill_moves htidy.inv run').1.evolves (prefill_guards _ htidy.inv run')
      fun _ => prefill_kept htidy.inv hless run')
    intro heq
    rw [PoolState.bag_eq, Multiset.map_add, Multiset.nodup_add] at hids
    exact Multiset.disjoint_left.mp hids.2.2
      (Multiset.mem_map_of_mem _
        (Multiset.mem_coe.mpr (PoolState.mem_prefillQueue_of_nextPrefill next)))
      (Multiset.mem_map.mpr ⟨q, hq, heq⟩)
  | decoded i r r' trace others next prefilled run prefilled' =>
    have hwaiting := Workers.nextDecode_waiting next
    have hr : r ∈ s.prefilled := Workers.nextDecode_prefilled next
    have hres := htidy.resident r (hbag hr)
    have hunfinished : r.finished = false := ho.waiting r hwaiting
    refine Or.inl (h.moved (fun q hq => ?_) (fun q hq => ?_) (rt.workers_lawful.decodeId run)
      prefilled' (decode_moves htidy.inv hres run).1.evolves (decode_guards htidy.inv hres run)
      (decode_kept hpin htidy.inv hres (h.kept r hr hunfinished) run).2)
    · have hq' : q ∈ s.prefilled := prefilled ▸ Multiset.mem_cons_of_mem hq
      refine ⟨hq', htidy.resident q (hbag hq'), fun heq => ?_⟩
      rw [PoolState.bag_eq, Multiset.map_add, Multiset.nodup_add, prefilled, Multiset.map_cons,
        Multiset.nodup_cons] at hids
      exact hids.2.1.1 (Multiset.mem_map.mpr ⟨q, hq, heq⟩)
    · rw [prefilled, Multiset.mem_cons] at hq
      cases hq with
      | inl heq => exact Or.inr (congrArg RequestState.requestId heq)
      | inr hmem => exact Or.inl hmem
  | left r bag prefilled cache =>
    have hrelease : s'.cache = s.cache.releaseRequest r.requestId := cache
    refine Or.inl ⟨fun pid page hp => ?_, fun q hq hf => ?_⟩
    · rw [hrelease] at hp
      obtain ⟨hold, hne⟩ := (htidy.inv.releaseRequest_get? r.requestId).mp hp
      obtain ⟨q, hq, hid⟩ := h.owners pid page hold
      rw [prefilled, Multiset.mem_cons] at hq
      cases hq with
      | inl heq => exact absurd (heq ▸ hid).symm hne
      | inr hmem => exact ⟨q, hmem, hid⟩
    · have hq' : q ∈ s.prefilled := prefilled ▸ Multiset.mem_cons_of_mem hq
      have hne : q.requestId ≠ r.requestId := by
        rw [PoolState.bag_eq, Multiset.map_add, Multiset.nodup_add, prefilled, Multiset.map_cons,
          Multiset.nodup_cons] at hids
        exact fun heq => hids.2.1.1 (Multiset.mem_map.mpr ⟨q, hq, heq⟩)
      rw [hrelease]
      exact (h.kept q hq' hf).guarded (htidy.resident q (hbag hq'))
        (evolves_releaseRequest _ _ _) (htidy.inv.guards_releaseRequest _) hne
  | failed control => exact Or.inr control

theorem allKept_run (hpin : rt.config.pinReadyDecodePages = true) {requests : List RequestState}
    (hf : FreshRequests requests) {s : RuntimeState}
    (hs : Reaches rt.workers.step (rt.start requests) s) : AllKept s ∨ Workers.Raised s := by
  refine Workers.invariant_or_raised hs (allKept_start rt requests) fun u v hu h hstep => ?_
  have hn := Workers.not_raised_of_step hstep
  obtain ⟨ho, -⟩ :=
    (rt.workers_lawful.reaches_orderly (submit_unfinished hf.fresh) hu).resolve_right hn
  exact h.step hpin ((tidy_run hf.fresh hu).resolve_right hn) ho (ids_nodup hf hu hn) hstep

/-- The request still counts the rehydrations that it was submitted with. -/
def AsSubmitted (requests : List RequestState) (r : RequestState) : Prop :=
  ∃ r₀ ∈ requests, r.requestId = r₀.requestId ∧ r.rehydrationCount = r₀.rehydrationCount

theorem asSubmitted_run (hpin : rt.config.pinReadyDecodePages = true)
    {requests : List RequestState} (hf : FreshRequests requests) {s : RuntimeState}
    (hs : Reaches rt.workers.step (rt.start requests) s) :
    rt.workers.Holds (AsSubmitted requests) s ∨ Workers.Raised s := by
  refine rt.workers_lawful.holds (fun r hr => ?_) ?_ ?_ hs
  · refine ⟨submit_unfinished hf.fresh r hr, ?_⟩
    obtain ⟨r₀, hr₀, rfl⟩ := List.mem_map.mp hr
    exact ⟨r₀, hr₀, RequestState.requestId_eq (rt.submit_tokens r₀),
      rt.submit_rehydrationCount r₀⟩
  · rintro u i r r' c' _ _ ⟨r₀, hr₀, hid, hcount⟩ hrun
    obtain ⟨m, c₁, -, -, rfl⟩ := prefillProcess_ok hrun
    exact ⟨r₀, hr₀, hid, hcount⟩
  · rintro u i r r' trace c' hu hnext hunfinished ⟨r₀, hr₀, hid, hcount⟩ hrun
    obtain ⟨v, hstep, -⟩ := rt.workers.step_nextDecode hnext
    have hn := Workers.not_raised_of_step hstep
    have hkept := (allKept_run hpin hf hu).resolve_right hn
    obtain ⟨hi, hres⟩ := nextDecode_resident hf.fresh hu hn hnext
    have hr := hkept.kept r (Workers.nextDecode_prefilled hnext) hunfinished
    exact ⟨r₀, hr₀, (decode_requestId hrun).trans hid,
      (decode_kept hpin hi hres hr hrun).1.trans hcount⟩

/-- With the pins of ready requests on, the pages of every unfinished request that has been through
its prefill stay resident, its own and pinned in every state of a run, whatever the pressure, and no
result counts a rehydration of the run. -/
theorem pinned_requests_stay_resident (hpin : rt.config.pinReadyDecodePages = true)
    {requests : List RequestState} (hf : FreshRequests requests) {s : RuntimeState}
    (hs : Reaches rt.workers.step (rt.start requests) s) (hn : ¬ Workers.Raised s) :
    (∀ r ∈ s.prefilled, r.finished = false → r.kvSnapshot ≠ none ∧
        (∀ pid ∈ r.kvPageIds, ∃ page, s.cache.pages.get? pid = some page ∧
          page.requestId = r.requestId ∧ page.pinned = true) ∧
        ∀ pid page, s.cache.pages.get? pid = some page → page.requestId = r.requestId →
          page.pinned = true) ∧
      ∀ b ∈ s.finalResults, ∃ r₀ ∈ requests,
        b.requestId = r₀.requestId ∧ b.rehydrationCount = r₀.rehydrationCount := by
  have htidy := (tidy_run hf.fresh hs).resolve_right hn
  have hkept := (allKept_run hpin hf hs).resolve_right hn
  refine ⟨fun r hr hunfinished => ?_, fun b hb => ?_⟩
  · have hr' : r ∈ s.bag := by
      rw [PoolState.bag_eq]
      exact Multiset.mem_add.mpr (Or.inr hr)
    have h := hkept.kept r hr hunfinished
    exact ⟨(hasSnapshot_iff.mp h.live).1, h.resident (htidy.resident r hr'), h.pinned⟩
  · obtain ⟨r, traces, ⟨r₀, hr₀, hid, hcount⟩, -, rfl⟩ :=
      ((asSubmitted_run hpin hf hs).resolve_right hn).results b hb
    exact ⟨r₀, hr₀, hid, hcount⟩

/-- Two requests, in a cache with room for their pages only, after the first prefills. -/
theorem two_requests_stay_resident :
    ∃ s, Reaches (workers { config := { pageSize := 1, maxPages := 6, blockSize := 1 } }).step
        (start { config := { pageSize := 1, maxPages := 6, blockSize := 1 } }
          [.ask 1 [5] [7, 8], .ask 2 [5] [7, 8]]) s ∧ s.prefilled ≠ 0 ∧
      ∀ r ∈ s.prefilled, r.finished = false → ∀ pid ∈ r.kvPageIds, ∃ page,
        s.cache.pages.get? pid = some page ∧ page.requestId = r.requestId ∧
          page.pinned = true := by
  let rt : PersistentDecodeRuntime :=
    { config := { pageSize := 1, maxPages := 6, blockSize := 1 } }
  let s : RuntimeState := Runs.runFor rt.workers.step 4
    (rt.start [.ask 1 [5] [7, 8], .ask 2 [5] [7, 8]])
  have hs : Reaches rt.workers.step (rt.start [.ask 1 [5] [7, 8], .ask 2 [5] [7, 8]]) s :=
    Runs.reaches_runFor rt.workers.step 4 _
  have hok : ¬ Workers.Raised s := by
    have hnext : (rt.workers.step s).isSome = true := by decide +kernel
    obtain ⟨s', hstep⟩ := Option.isSome_iff_exists.mp hnext
    exact Workers.not_raised_of_step hstep
  have hcard : 0 < s.prefilled.card := by decide +kernel
  refine ⟨s, hs, Multiset.card_pos.mp hcard, fun r hr hunfinished => ?_⟩
  exact ((pinned_requests_stay_resident rfl (by decide) hs hok).1 r hr hunfinished).2.1

end PersistentDecodeRuntime
end ResidentInference

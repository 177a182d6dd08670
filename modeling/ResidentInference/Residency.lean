import ResidentInference.RuntimeRuns
import ResidentInference.KVOwnership

/-! Residency over whole runs: who owns the live pages, what the snapshots of the requests in
flight still point to, and that no decode step reads a page that is gone, foreign or unpinned. -/
namespace ResidentInference
open StateTransition KVCache

/-! ### What a step of a worker does to the cache -/

/-- The cache stays sound, and only this request gets new pages. -/
structure Moves (rid : Int) (c c' : KVCache) : Prop where
  inv : Inv c'
  evolves : Evolves (fun q => q = rid) c c'

theorem Moves.refl {c : KVCache} (h : Inv c) (rid : Int) : Moves rid c c := ⟨h, Evolves.refl _ c⟩

theorem Moves.trans {rid : Int} {c c' c'' : KVCache} (h : Moves rid c c')
    (h' : Moves rid c' c'') : Moves rid c c'' := ⟨h'.inv, h.evolves.trans h'.evolves⟩

section Primitives
variable {c : KVCache} (h : Inv c)
include h

theorem moves_allocate {r : RequestState} {total : Int} {pinned : Bool} {m : LayerPageMap}
    {c' : KVCache} (hok : c.allocateForRequest r total pinned = (.ok m, c')) :
    Moves r.requestId c c' := by
  have hi := h.allocateForRequest r total pinned
  have he := evolves_allocateForRequest c r total pinned
  rw [hok] at hi he
  exact ⟨hi, he⟩

theorem moves_commit {r : RequestState} {n : Int} {pin : Bool} {m : LayerPageMap} {c' : KVCache}
    (hok : c.commitTokens r n pin = (.ok m, c')) : Moves r.requestId c c' := by
  have hi := h.commitTokens r n pin
  have he := evolves_commitTokens c r n pin
  rw [hok] at hi he
  exact ⟨hi, he⟩

theorem moves_release (rid rid' : Int) : Moves rid c (c.releaseRequest rid') :=
  ⟨h.releaseRequest rid', evolves_releaseRequest _ c rid'⟩

theorem moves_evictLru (rid n : Int) : Moves rid c (c.evictLru n).1 :=
  ⟨h.evictLru n, evolves_evictLru _ c n⟩

theorem moves_touch (rid : Int) (ids : List Nat) : Moves rid c (c.touchPages ids) :=
  ⟨List.foldlRecOn ids _ h fun _ hc pid _ => hc.touchPage pid,
    Evolves.foldl (evolves_touchPage _) ids c⟩

theorem moves_pin (rid : Int) (ids : List Nat) : Moves rid c (c.pinPages ids) :=
  ⟨List.foldlRecOn ids _ h fun _ hc pid _ => hc.pinPage pid,
    Evolves.foldl (evolves_pinPage _) ids c⟩

theorem moves_unpin (rid : Int) (ids : List Nat) : Moves rid c (c.unpinPages ids) :=
  ⟨List.foldlRecOn ids _ h fun _ hc pid _ => hc.unpinPage pid,
    Evolves.foldl (evolves_unpinPage _) ids c⟩

theorem moves_select (rid : Int) (rt : PersistentDecodeRuntime) (r : RequestState) :
    Moves rid c (rt.selectReads c r).2 := by
  unfold PersistentDecodeRuntime.selectReads
  split
  · exact ⟨Rep.markSelection h _ _ _, evolves_markSelection _ c _ _ _⟩
  · exact Moves.refl h rid

end Primitives

/-! ### Snapshots -/

theorem mem_kvPageIds {r : RequestState} {snapshot : KVSnapshot} {pid : Nat}
    (h : r.kvSnapshot = some snapshot) (hp : pid ∈ r.kvPageIds) :
    ∃ l ids, snapshot.layerPageMap.get? l = some ids ∧ pid ∈ ids := by
  unfold RequestState.kvPageIds at hp
  rw [h] at hp
  obtain ⟨l, _, hm⟩ := List.mem_flatMap.mp hp
  cases hget : snapshot.layerPageMap.get? l with
  | none =>
    rw [hget] at hm
    cases hm
  | some ids =>
    rw [hget] at hm
    exact ⟨l, ids, hget, hm⟩

/-- The ids in the snapshot of the request were handed out, and those that are live are its own. -/
def Resident (c : KVCache) (r : RequestState) : Prop :=
  ∀ pid ∈ r.kvPageIds,
    pid < c.nextPageId ∧ ∀ page, c.pages.get? pid = some page → page.requestId = r.requestId

theorem Resident.evolves {grow : Int → Prop} {c c' : KVCache} {r : RequestState}
    (h : Resident c r) (he : Evolves grow c c') : Resident c' r := by
  intro pid hp
  obtain ⟨hn, howner⟩ := h pid hp
  refine ⟨hn.trans_le he.next, fun page' hp' => ?_⟩
  cases he.page pid page' hp' with
  | inl hold =>
    obtain ⟨page, hpage, hs⟩ := hold
    exact hs.requestId.trans (howner page hpage)
  | inr hnew => exact absurd hn (not_lt.mpr hnew.1)

/-- A step that keeps the snapshot keeps its ids. -/
theorem Resident.congr {c : KVCache} {r r' : RequestState} (h : Resident c r)
    (hs : r'.kvSnapshot = r.kvSnapshot) (hl : r'.layerIds = r.layerIds)
    (hid : r'.requestId = r.requestId) : Resident c r' := by
  have hpages : r'.kvPageIds = r.kvPageIds := by
    unfold RequestState.kvPageIds
    rw [hs, hl]
  intro pid hp
  rw [hpages] at hp
  rw [hid]
  exact h pid hp

theorem owned_of_snapshot {c : KVCache} {rid : Int} {m : LayerPageMap} (hm : MapOwned c rid m)
    {r q : RequestState} (hs : r.kvSnapshot = some (q.snapshot m)) :
    ∀ pid ∈ r.kvPageIds, Owned c rid pid := by
  intro pid hp
  obtain ⟨l, ids, hget, hpid⟩ := mem_kvPageIds hs hp
  exact hm l ids hget pid hpid

theorem resident_of_owned {c : KVCache} (h : Inv c) {r : RequestState}
    (ho : ∀ pid ∈ r.kvPageIds, Owned c r.requestId pid) : Resident c r := by
  intro pid hp
  have hown := ho pid hp
  refine ⟨h.lt_next hown, fun page hpage => ?_⟩
  obtain ⟨page', hpage', hr⟩ := hown
  rw [hpage] at hpage'
  exact Option.some.inj hpage' ▸ hr

/-! ### The stages of a worker -/

theorem prefill_moves {pin : Bool} {idx : Nat} {c c' : KVCache} {r r' : RequestState}
    (h : Inv c) (hrun : prefillProcess pin idx c r = (.ok r', c')) :
    Moves r.requestId c c' ∧ Resident c' r' := by
  obtain ⟨m, c₁, ha, rfl, rfl⟩ := prefillProcess_ok hrun
  have h₁ : Moves r.requestId c c₁ := moves_allocate h ha
  have htouch := moves_touch h₁.inv r.requestId m.pageIds
  refine ⟨h₁.trans htouch, ?_⟩
  have howned : MapOwned c₁ r.requestId m := allocateForRequest_owned h ha
  refine Resident.evolves (resident_of_owned h₁.inv ?_) htouch.evolves
  exact owned_of_snapshot howned rfl

theorem rehydrate_cache {c c' : KVCache} {r r' : RequestState} (h : Inv c)
    (hrun : rehydrateIfNeeded c r = (.ok r', c')) : Moves r.requestId c c' := by
  obtain ⟨_, rfl, rfl⟩ | ⟨m, ha, rfl⟩ := rehydrateIfNeeded_ok hrun
  · exact Moves.refl h _
  · have h₀ := moves_release h r.requestId r.requestId
    exact h₀.trans (moves_allocate h₀.inv ha)

/-- After the rehydration every page of the snapshot is live and belongs to the request. -/
theorem rehydrate_moves {c c' : KVCache} {r r' : RequestState} (h : Inv c)
    (hres : Resident c r) (hrun : rehydrateIfNeeded c r = (.ok r', c')) :
    Moves r.requestId c c' ∧ ∀ pid ∈ r'.kvPageIds, Owned c' r.requestId pid := by
  refine ⟨rehydrate_cache h hrun, ?_⟩
  cases rehydrateIfNeeded_ok hrun with
  | inl hkeep =>
    obtain ⟨hsnap, rfl, rfl⟩ := hkeep
    intro pid hp
    unfold hasSnapshot at hsnap
    split at hsnap
    · cases hsnap
    · have hlive := (Dict.contains_iff _ _).mp (List.all_eq_true.mp hsnap pid hp)
      obtain ⟨page, hpage⟩ := (Dict.mem_keys_iff _ _).mp hlive
      exact ⟨page, hpage, (hres pid hp).2 page hpage⟩
  | inr hnew =>
    obtain ⟨m, ha, rfl⟩ := hnew
    exact owned_of_snapshot (allocateForRequest_owned (h.releaseRequest _) ha) rfl

variable {rt : PersistentDecodeRuntime}

/-- The pages that a decode step reads belong to the request, whatever the selection. -/
theorem selectReads_owned (rt : PersistentDecodeRuntime) {c : KVCache} {r : RequestState}
    (h : Inv c) (ho : ∀ pid ∈ r.kvPageIds, Owned c r.requestId pid) :
    ∀ pid ∈ (rt.selectReads c r).1.pageIds, Owned (rt.selectReads c r).2 r.requestId pid := by
  unfold PersistentDecodeRuntime.selectReads
  split
  · intro pid hp
    have hown : Owned c r.requestId pid := by
      dsimp only [KVCache.select] at hp
      split at hp
      · exact ho pid hp
      · exact Rep.mem_select h hp
    refine (evolves_markSelection (fun _ => False) c _ _ _).owned (h.lt_next hown) ?_ hown
    rw [markSelection_keys]
    exact hown.live
  · exact ho

theorem prepare_cache {c c' : KVCache} {r r' : RequestState} {reads : KVReads} (h : Inv c)
    (hrun : rt.prepare c r = (.ok (r', reads), c')) : Moves r.requestId c c' := by
  obtain ⟨c₁, hre, rfl, rfl⟩ := PersistentDecodeRuntime.prepare_ok hrun
  have h₁ := rehydrate_cache h hre
  have h₂ := moves_select h₁.inv r.requestId rt r'
  have h₃ := moves_pin h₂.inv r.requestId (rt.selectReads c₁ r').1.pageIds
  have h₄ := moves_touch h₃.inv r.requestId (rt.selectReads c₁ r').1.pageIds
  exact ((h₁.trans h₂).trans h₃).trans h₄

/-- When the backend is called, the pages it is given are live, belong to the request and are
pinned. -/
structure Prepared (rid : Int) (c : KVCache) (ids : List Nat) : Prop where
  pinned : ∀ pid ∈ ids, ∃ page, c.pages.get? pid = some page ∧ page.requestId = rid ∧
    page.pinned = true

theorem prepare_moves {c c' : KVCache} {r r' : RequestState} {reads : KVReads} (h : Inv c)
    (hres : Resident c r) (hrun : rt.prepare c r = (.ok (r', reads), c')) :
    Moves r.requestId c c' ∧ Resident c' r' ∧ Prepared r.requestId c' reads.pageIds := by
  obtain ⟨c₁, hre, rfl, rfl⟩ := PersistentDecodeRuntime.prepare_ok hrun
  have hid : r'.requestId = r.requestId :=
    RequestState.requestId_eq (rehydrateIfNeeded_tokens hre).1
  obtain ⟨h₁, hown⟩ := rehydrate_moves h hres hre
  rw [← hid] at hown
  have h₂ := moves_select h₁.inv r.requestId rt r'
  have hreads := selectReads_owned rt h₁.inv hown
  generalize hsel : rt.selectReads c₁ r' = sel at h₂ hreads
  have h₃ := moves_pin h₂.inv r.requestId sel.1.pageIds
  have h₄ := moves_touch h₃.inv r.requestId sel.1.pageIds
  have hlast := (h₂.trans h₃).trans h₄
  refine ⟨h₁.trans hlast, (resident_of_owned h₁.inv hown).evolves hlast.evolves, ⟨?_⟩⟩
  intro pid hp
  obtain ⟨page, hpage, hr⟩ := hreads pid hp
  refine ⟨page.setPinned true, ?_, hr.trans hid, rfl⟩
  rw [touchPages_pages, pinPages_get?, if_pos hp, hpage]
  rfl

/-- The eviction that precedes a commit without room. -/
theorem evict_cache {c c₁ : KVCache} {r : RequestState} {n : Int} (h : Inv c)
    (hc₁ : c₁ = c ∨ c₁ = (c.evictLru n).1) : Moves r.requestId c c₁ := by
  obtain rfl | rfl := hc₁
  · exact Moves.refl h _
  · exact moves_evictLru h _ _

theorem commitAccepted_cache {c c' : KVCache} {r r' : RequestState} {accepted : List Int}
    (h : Inv c) (hrun : commitAccepted c r accepted = (.ok r', c')) :
    Moves r.requestId c c' := by
  obtain ⟨_, rfl, rfl⟩ | ⟨c₁, m, hc₁, hc, rfl⟩ := commitAccepted_ok hrun
  · exact Moves.refl h _
  · have h₁ : Moves r.requestId c c₁ := evict_cache h hc₁
    exact h₁.trans (moves_commit h₁.inv hc)

theorem commitAccepted_moves {c c' : KVCache} {r r' : RequestState} {accepted : List Int}
    (h : Inv c) (hres : Resident c r) (hrun : commitAccepted c r accepted = (.ok r', c')) :
    Moves r.requestId c c' ∧ Resident c' r' := by
  have hm := commitAccepted_cache h hrun
  refine ⟨hm, ?_⟩
  cases commitAccepted_ok hrun with
  | inl hnone =>
    obtain ⟨_, rfl, rfl⟩ := hnone
    exact hres
  | inr hsome =>
    obtain ⟨c₁, m, hc₁, hc, rfl⟩ := hsome
    have h₁ : Moves r.requestId c c₁ := evict_cache h hc₁
    exact resident_of_owned hm.inv (owned_of_snapshot (commitTokens_owned h₁.inv hc) rfl)

theorem settle_cache (rt : PersistentDecodeRuntime) {c : KVCache} (r : RequestState) (h : Inv c)
    (spec : Speculation) (reads : KVReads) (rid : Int) :
    Moves rid c (rt.settle c r spec reads).2 := by
  obtain ⟨ids, phase, finished, preempted, hsettle⟩ := rt.settle_eq c r spec reads
  rw [hsettle]
  exact moves_unpin h rid ids

theorem settle_moves (rt : PersistentDecodeRuntime) {c : KVCache} {r : RequestState} (h : Inv c)
    (hres : Resident c r) (spec : Speculation) (reads : KVReads) :
    Moves r.requestId c (rt.settle c r spec reads).2 ∧
      Resident (rt.settle c r spec reads).2 (rt.settle c r spec reads).1 := by
  have hm := settle_cache rt r h spec reads r.requestId
  have hres' := hres.evolves hm.evolves
  obtain ⟨ids, phase, finished, preempted, hsettle⟩ := rt.settle_eq c r spec reads
  rw [hsettle] at hm hres' ⊢
  exact ⟨hm, hres'.congr rfl rfl rfl⟩

theorem adapt_frame (rt : PersistentDecodeRuntime) (c : KVCache) (r : RequestState)
    (draft : List Int) (mask : AcceptanceMask) :
    (rt.adapt c { r with draftTokens := draft } mask).requestId = r.requestId ∧
      (rt.adapt c { r with draftTokens := draft } mask).layerIds = r.layerIds ∧
      (rt.adapt c { r with draftTokens := draft } mask).kvSnapshot = r.kvSnapshot := by
  unfold PersistentDecodeRuntime.adapt
  split <;> exact ⟨rfl, rfl, rfl⟩

theorem decode_cache {idx : Nat} {c c' : KVCache} {r r' : RequestState} {t : DecodeStepTrace}
    (h : Inv c) (hrun : rt.decodeProcess idx c r = (.ok (r', t), c')) : Moves r.requestId c c' := by
  obtain ⟨ready, reads, spec, committed, prepared, grown, hst⟩ :=
    PersistentDecodeRuntime.decodeProcess_ok hrun
  have h₁ : Moves (PersistentDecodeRuntime.taken idx r).requestId c prepared :=
    prepare_cache h hst.prepare
  obtain ⟨c₁, hre, _⟩ := PersistentDecodeRuntime.prepare_ok hst.prepare
  have hready : ready.requestId = r.requestId :=
    RequestState.requestId_eq (rehydrateIfNeeded_tokens hre).1
  have h₂ := commitAccepted_cache h₁.inv hst.commit
  rw [(adapt_frame rt prepared ready spec.proposal spec.adaptiveMask).1, hready] at h₂
  have h₃ := settle_cache rt committed h₂.inv spec reads r.requestId
  rw [hst.settle] at h₃
  exact (h₁.trans h₂).trans h₃

theorem decode_moves {idx : Nat} {c c' : KVCache} {r r' : RequestState} {t : DecodeStepTrace}
    (h : Inv c) (hres : Resident c r) (hrun : rt.decodeProcess idx c r = (.ok (r', t), c')) :
    Moves r.requestId c c' ∧ Resident c' r' := by
  refine ⟨decode_cache h hrun, ?_⟩
  obtain ⟨ready, reads, spec, committed, prepared, grown, hst⟩ :=
    PersistentDecodeRuntime.decodeProcess_ok hrun
  have htaken : Resident c (PersistentDecodeRuntime.taken idx r) := hres.congr rfl rfl rfl
  obtain ⟨h₁, hres₁, _⟩ := prepare_moves h htaken hst.prepare
  obtain ⟨hid, hlay, hsnap⟩ := adapt_frame rt prepared ready spec.proposal spec.adaptiveMask
  obtain ⟨h₂, hres₂⟩ := commitAccepted_moves h₁.inv (hres₁.congr hsnap hlay hid) hst.commit
  have hres₃ := (settle_moves rt h₂.inv hres₂ spec reads).2
  rwa [hst.settle] at hres₃

/-! ### Whole runs -/

/-- What the runtime maintains of its cache. -/
structure Tidy (rt : PersistentDecodeRuntime) (s : RuntimeState) : Prop where
  inv : Inv s.cache
  pageSize : s.cache.pageSize = rt.config.pageSize
  maxPages : s.cache.maxPages = rt.config.maxPages
  resident : ∀ r ∈ s.bag, Resident s.cache r
  owners : ∀ pid page, s.cache.pages.get? pid = some page →
    ∃ r ∈ s.bag, r.requestId = page.requestId

theorem tidy_start (rt : PersistentDecodeRuntime) {requests : List RequestState}
    (hfresh : ∀ r ∈ requests, r.Fresh) : Tidy rt (rt.start requests) where
  inv := inv_new _ _ _
  pageSize := rfl
  maxPages := rfl
  resident r hr := by
    obtain ⟨r₀, hr₀, rfl⟩ := PersistentDecodeRuntime.submitted_of_start hr
    have hsnap : (rt.submit r₀).kvSnapshot = none := by
      rw [← (hfresh r₀ hr₀).snapshot]
      unfold PersistentDecodeRuntime.submit
      dsimp only
      split <;> split <;> rfl
    intro pid hp
    unfold RequestState.kvPageIds at hp
    rw [hsnap] at hp
    cases hp
  owners pid page hp := by cases hp

/-- One request moves on, the others stay. -/
theorem Tidy.moved {s s' : RuntimeState} {r r' : RequestState} {rest : Multiset RequestState}
    (h : Tidy rt s) (hbag : s.bag = r ::ₘ rest) (hbag' : s'.bag = r' ::ₘ rest)
    (hid : r'.requestId = r.requestId) (hm : Moves r.requestId s.cache s'.cache)
    (hres : Resident s'.cache r') : Tidy rt s' where
  inv := hm.inv
  pageSize := hm.evolves.pageSize.trans h.pageSize
  maxPages := hm.evolves.maxPages.trans h.maxPages
  resident := by
    rw [hbag']
    refine Multiset.forall_mem_cons.mpr ⟨hres, fun q hmem => ?_⟩
    exact (h.resident q (hbag ▸ Multiset.mem_cons_of_mem hmem)).evolves hm.evolves
  owners pid page' hp' := by
    rw [hbag']
    cases hm.evolves.page pid page' hp' with
    | inl hold =>
      obtain ⟨page, hp, hs⟩ := hold
      obtain ⟨q, hq, hqid⟩ := h.owners pid page hp
      rw [hbag] at hq
      cases Multiset.mem_cons.mp hq with
      | inl heq =>
        refine ⟨r', Multiset.mem_cons_self r' rest, ?_⟩
        rw [hid, ← heq, hqid, hs.requestId]
      | inr hmem => exact ⟨q, Multiset.mem_cons_of_mem hmem, hqid.trans hs.requestId.symm⟩
    | inr hnew => exact ⟨r', Multiset.mem_cons_self r' rest, hid.trans hnew.2.symm⟩

theorem Tidy.step {s s' : RuntimeState} (h : Tidy rt s) (hs : rt.workers.step s = some s') :
    Tidy rt s' ∨ Workers.Raised s' := by
  cases rt.workers.step_effect hs with
  | silent cache bag _ _ =>
    refine Or.inl ⟨cache ▸ h.inv, cache ▸ h.pageSize, cache ▸ h.maxPages, ?_, ?_⟩
    · rw [bag, cache]
      exact h.resident
    · rw [bag, cache]
      exact h.owners
  | prefilled i r r' rest _ bag run bag' _ _ =>
    obtain ⟨hm, hres⟩ := prefill_moves h.inv run
    exact Or.inl (h.moved bag bag' (rt.workers_lawful.prefillId run) hm hres)
  | decoded i r r' trace rest _ bag run bag' _ _ =>
    have hr := h.resident r (bag ▸ Multiset.mem_cons_self r rest)
    obtain ⟨hm, hres⟩ := decode_moves h.inv hr run
    exact Or.inl (h.moved bag bag' (rt.workers_lawful.decodeId run) hm hres)
  | finished r traces bag _ cache _ _ =>
    have hrelease : s'.cache = s.cache.releaseRequest r.requestId := cache
    have he := evolves_releaseRequest (fun _ => False) s.cache r.requestId
    refine Or.inl ⟨?_, ?_, ?_, ?_, ?_⟩
    · rw [hrelease]
      exact h.inv.releaseRequest _
    · rw [hrelease]
      exact he.pageSize.trans h.pageSize
    · rw [hrelease]
      exact he.maxPages.trans h.maxPages
    · intro q hq
      rw [hrelease]
      exact (h.resident q (bag ▸ Multiset.mem_cons_of_mem hq)).evolves he
    · intro pid page hp
      rw [hrelease] at hp
      obtain ⟨hold, hne⟩ := (h.inv.releaseRequest_get? r.requestId).mp hp
      obtain ⟨q, hq, hqid⟩ := h.owners pid page hold
      rw [bag] at hq
      cases Multiset.mem_cons.mp hq with
      | inl heq => exact absurd (heq ▸ hqid).symm hne
      | inr hmem => exact ⟨q, hmem, hqid⟩
  | failed e control _ _ => exact Or.inr ⟨e, control⟩

theorem tidy_run {requests : List RequestState} (hfresh : ∀ r ∈ requests, r.Fresh)
    {s : RuntimeState} (hs : Reaches rt.workers.step (rt.start requests) s) :
    Tidy rt s ∨ Workers.Raised s :=
  Workers.invariant_or_raised hs (tidy_start rt hfresh) fun _ _ _ hu hstep => hu.step hstep

theorem speculate_pages (rt : PersistentDecodeRuntime) (r : RequestState) (blockSize : Int)
    (kvPages : List Nat) {call : BackendCall}
    (hc : call ∈ (rt.speculate r blockSize kvPages).2) : call.kvPages = kvPages := by
  have hverify : ∀ proposal, ∀ call ∈ rt.policy.verifyCalls proposal kvPages,
      call.kvPages = kvPages := by
    intro proposal call hcall
    unfold AcceptancePolicy.verifyCalls at hcall
    split at hcall
    · cases hcall
    · rw [List.mem_singleton.mp hcall]
  have hfirst : ∀ proposal, ∀ call ∈ (⟨none, kvPages⟩ : BackendCall) ::
      rt.policy.verifyCalls proposal kvPages, call.kvPages = kvPages := by
    intro proposal call hcall
    cases List.mem_cons.mp hcall with
    | inl heq => rw [heq]
    | inr hmem => exact hverify proposal call hmem
  have hboth : ∀ proposal proposal', ∀ call ∈ ((⟨none, kvPages⟩ : BackendCall) ::
      rt.policy.verifyCalls proposal kvPages) ++ rt.policy.verifyCalls proposal' kvPages,
      call.kvPages = kvPages := by
    intro proposal proposal' call hcall
    cases List.mem_append.mp hcall with
    | inl hl => exact hfirst proposal call hl
    | inr hr => exact hverify proposal' call hr
  unfold PersistentDecodeRuntime.speculate at hc
  dsimp only [CPUStubBackend.decodeStep] at hc
  split at hc
  · exact hfirst _ call hc
  · split at hc
    · split at hc
      · exact hboth _ _ call hc
      · exact hboth _ _ call hc
    · exact hfirst _ call hc

/-- No decode over evicted KV: in every state that a run reaches, the calls of the backend that
the next decode step makes are given live pages of its request only, all of them pinned. -/
theorem backend_reads_resident_pages {requests : List RequestState}
    (hfresh : ∀ r ∈ requests, r.Fresh) {s : RuntimeState} {r : RequestState}
    (hs : Reaches rt.workers.step (rt.start requests) s) (hnext : s.nextDecode = some r)
    (idx : Nat) {call : BackendCall} {c : KVCache}
    (hcall : (call, c) ∈ rt.backendCalls idx s.cache r) :
    ∀ pid ∈ call.kvPages, ∃ page, c.pages.get? pid = some page ∧
      page.requestId = r.requestId ∧ page.pinned = true := by
  obtain ⟨s', hstep, _⟩ := rt.workers.step_nextDecode hnext
  have htidy := (tidy_run hfresh hs).resolve_right (Workers.not_raised_of_step hstep)
  have hbag := PoolState.mem_bag_of_waiting (Workers.nextDecode_waiting hnext)
  have hres : Resident s.cache (PersistentDecodeRuntime.taken idx r) :=
    (htidy.resident r hbag).congr rfl rfl rfl
  unfold PersistentDecodeRuntime.backendCalls PersistentDecodeRuntime.askBackend at hcall
  split at hcall
  · cases hcall
  · next ready reads c₁ hprepare =>
    obtain ⟨call', hmem, heq⟩ := List.mem_map.mp hcall
    obtain ⟨rfl, rfl⟩ := Prod.mk.inj heq
    obtain ⟨_, _, hprepared⟩ := prepare_moves htidy.inv hres hprepare
    rw [speculate_pages rt _ _ _ hmem]
    exact hprepared.pinned

/-- The first decode step of a request reads its first page. -/
theorem first_decode_reads_resident_page :
    ∃ (s : RuntimeState) (r : RequestState) (p : BackendCall × KVCache),
      s.nextDecode = some r ∧
      p ∈ PersistentDecodeRuntime.backendCalls { config := { pageSize := 1 } } 0 s.cache r ∧
      0 ∈ p.1.kvPages ∧
      ∃ page, p.2.pages.get? 0 = some page ∧ page.requestId = r.requestId ∧
        page.pinned = true := by
  have hany : ((Runs.runFor (PersistentDecodeRuntime.workers { config := { pageSize := 1 } }).step 5
      (PersistentDecodeRuntime.start { config := { pageSize := 1 } }
        [.ask 1 [5] [7, 8]])).nextDecode.any
      fun r => (PersistentDecodeRuntime.backendCalls { config := { pageSize := 1 } } 0
        (Runs.runFor (PersistentDecodeRuntime.workers { config := { pageSize := 1 } }).step 5
          (PersistentDecodeRuntime.start { config := { pageSize := 1 } }
            [.ask 1 [5] [7, 8]])).cache r).any fun p => p.1.kvPages.contains 0) = true := by
    decide +kernel
  obtain ⟨r, hr, hcalls⟩ := (Option.any_eq_true _ _).mp hany
  obtain ⟨p, hp, hmem⟩ := List.any_eq_true.mp hcalls
  have hzero : 0 ∈ p.1.kvPages := by simpa using hmem
  exact ⟨_, r, p, hr, hp, hzero,
    backend_reads_resident_pages (by decide) (Runs.reaches_runFor _ 5 _) hr 0 hp 0 hzero⟩

end ResidentInference

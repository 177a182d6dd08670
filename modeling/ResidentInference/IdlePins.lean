import ResidentInference.TraceFigures
import ResidentInference.Admission

/-! Whether requests that wait for a decode step hold pins, with `pin_ready_decode_pages` off: the
step unpins the pages that it read, and the commit pins the pages that it adds. -/
namespace ResidentInference
open StateTransition KVCache

/-- The snapshot that a rehydration takes lists all the pages of its request. -/
theorem rehydrated_lists_own {c c' : KVCache} {r : RequestState} {m : LayerPageMap} (h : Inv c)
    (hc : Pageless c r.requestId)
    (hok : c.allocateForRequest r r.currentTokens true = (.ok m, c')) {pid : Nat} {page : KVPage}
    (hp : c'.pages.get? pid = some page) (hr : page.requestId = r.requestId) :
    pid ∈ ({ r with kvSnapshot := some (r.snapshot m) } : RequestState).kvPageIds := by
  obtain ⟨c₁, h₁, he, hlayers, ha⟩ := adds_allocateForRequest h hok
  have h' : Inv c' := by
    have hi := h.allocateForRequest r r.currentTokens true
    rwa [hok] at hi
  have hlayer : page.layerId ∈ r.layerIds := by
    obtain hlt | hle := lt_or_ge pid c₁.nextPageId
    · rw [ha.old pid hlt] at hp
      exact absurd hr (hc.evolves he pid page hp)
    · exact (ha.new pid page hle hp).2.2
  have hkey : page.key = (r.requestId, page.layerId) := by rw [← hr, KVPage.key]
  have hlisted : pid ∈ c'.pageIdsFor (r.requestId, page.layerId) :=
    hkey ▸ h'.mem_pageIdsFor.mpr ⟨page, hp, rfl⟩
  have hmap := allocateLayers_listed (c := c₁) r.requestId r.currentTokens true r.layerIds
    Dict.empty page.layerId (Or.inl hlayer)
  rw [hlayers] at hmap
  rw [PersistentDecodeRuntime.kvPageIds_snapshot]
  refine List.mem_flatMap.mpr ⟨page.layerId, hlayer, ?_⟩
  rw [hmap]
  exact hlisted

namespace PersistentDecodeRuntime
variable {rt : PersistentDecodeRuntime}

/-- Without a page to select, a step reads the pages of the snapshot. -/
theorem selectReads_of_inactive (rt : PersistentDecodeRuntime) {c : KVCache} {r : RequestState}
    (h : ∀ page ∈ c.pagesForRequest r.requestId, page.isActive = false) :
    (rt.selectReads c r).1.pageIds = r.kvPageIds := by
  have hnil : c.selectedPages rt.config r = [] := by
    rw [selectedPages_eq_nil_iff]
    rintro ⟨_, page, hm, hactive⟩
    rw [h page hm] at hactive
    cases hactive
  unfold selectReads
  split
  · simp [KVCache.select, hnil]
  · rfl

/-- The pins of a request without any before are on the pages that the step is to read. -/
theorem rehydrate_pins (rt : PersistentDecodeRuntime) {c c' : KVCache} {r r' : RequestState}
    (h : Inv c) (hno : HoldsNoPin c r.requestId) (hrun : rehydrateIfNeeded c r = (.ok r', c')) :
    PinsWithin c' r.requestId (rt.selectReads c' r').1.pageIds := by
  obtain ⟨_, rfl, rfl⟩ | ⟨m, ha, hr'⟩ := rehydrateIfNeeded_ok hrun
  · exact hno.within _
  · have hid : r'.requestId = r.requestId := by rw [hr']
    have hkept : r'.kvPageIds =
        ({ r with kvSnapshot := some (r.snapshot m) } : RequestState).kvPageIds := by
      rw [hr']
      rfl
    have h₀ : Inv (c.releaseRequest r.requestId) := h.releaseRequest _
    have hless : Pageless (c.releaseRequest r.requestId) r.requestId := fun pid page hp =>
      ((h.releaseRequest_get? r.requestId).mp hp).2
    obtain ⟨hinactive, _⟩ := rehydrated_kvPageIds h₀ hless ha
    rw [rt.selectReads_of_inactive (hid ▸ hinactive), hkept]
    exact fun pid page hp hr _ => rehydrated_lists_own h₀ hless ha hp hr

theorem prepare_pins {c c' : KVCache} {r r' : RequestState} {reads : KVReads} (h : Inv c)
    (hno : HoldsNoPin c r.requestId) (hrun : rt.prepare c r = (.ok (r', reads), c')) :
    PinsWithin c' r.requestId reads.pageIds := by
  obtain ⟨c₁, hre, rfl, rfl⟩ := prepare_ok hrun
  have hselect := (rt.selectReads_pinsFrom (fun _ => False) c₁ r').within not_false
    (rt.rehydrate_pins h hno hre)
  exact (pinsFrom_touchPages (fun _ => False) _ _).within not_false hselect.pin

end PersistentDecodeRuntime

/-! ### The commit -/

/-- The eviction that a commit without room tries first is never enough. -/
theorem commitAccepted_unevicted {c c' : KVCache} {r r' : RequestState} {accepted : List Int}
    (h : Inv c) (hne : accepted ≠ []) (hrun : commitAccepted c r accepted = (.ok r', c')) :
    ∃ m, c.commitTokens r accepted.length = (.ok m, c') ∧
      r' = { r.commit accepted with kvSnapshot := some (r.snapshot m) } := by
  unfold commitAccepted at hrun
  rw [if_neg hne] at hrun
  split at hrun
  · cases hrun
  · next able hable =>
    cases able with
    | true =>
      dsimp only [if_true] at hrun
      split at hrun
      · cases hrun
      · next m c₁ hc =>
        cases hrun
        exact ⟨m, hc, rfl⟩
    | false =>
      exfalso
      have hless := lt_neededPages_of_canAllocate hable
      simp only [Bool.false_eq_true, if_false, evictLru_eq] at hrun
      split at hrun
      · cases hrun
      · next m c₁ hc =>
        -- a commit that succeeds had room, but the eviction makes none and the need only grows
        have hroom := ((h.evictAll _).allocate_ok_iff r _ true).mp
          ((commit_ok_iff _ r _ true).mp ⟨m, c₁, hc⟩)
        have hcount := c.free_add_evictable (c.neededPages r (r.currentTokens + accepted.length))
        have hmore := c.neededPages_le_without
          (c.victims (c.neededPages r (r.currentTokens + accepted.length))) r
          (r.currentTokens + accepted.length)
        have hle := hroom.2
        rw [h.neededPages_evictAll, hcount] at hle
        omega

theorem hasPagesFor_congr {c : KVCache} {r r' : RequestState} {total : Int}
    (hid : r'.requestId = r.requestId) (hl : r'.layerIds = r.layerIds) :
    c.HasPagesFor r' total ↔ c.HasPagesFor r total := by
  have hneeded : c.pagesNeededForLayer r' total = c.pagesNeededForLayer r total := by
    funext l
    rw [pagesNeededForLayer, hid, pagesNeededForLayer]
  rw [HasPagesFor, HasPagesFor, neededPages, neededPages, hneeded, neededWithout, neededWithout,
    hid, hl]

theorem commitAccepted_pinsFrom {c c' : KVCache} {r r' : RequestState} {accepted : List Int}
    (h : Inv c) (hrun : commitAccepted c r accepted = (.ok r', c')) :
    PinsFrom (fun q => q = r.requestId) c c' := by
  by_cases hne : accepted = []
  · rw [hne, commitAccepted_nil] at hrun
    cases hrun
    exact PinsFrom.refl _ c
  · obtain ⟨m, hc, _⟩ := commitAccepted_unevicted h hne hrun
    exact pinsFrom_commit (fun _ => rfl) hc

namespace PersistentDecodeRuntime
variable {rt : PersistentDecodeRuntime}

/-! ### A decode step -/

/-- The step has no page to add for the tokens that it commits, or it finishes its request. What it
commits and whether that finishes the request depends on the request alone. -/
def CommitsInPlace (rt : PersistentDecodeRuntime) (c : KVCache) (r : RequestState) : Prop :=
  ∀ spec ∈ (rt.speculate r (rt.effectiveBlockSize r) []).1.toOption,
    spec.accepted = [] ∨ (r.commit spec.accepted).finishes spec = true ∨
      (rt.prepare c r).2.HasPagesFor r (r.currentTokens + spec.accepted.length)

instance (rt : PersistentDecodeRuntime) (c : KVCache) (r : RequestState) :
    Decidable (rt.CommitsInPlace c r) :=
  inferInstanceAs (Decidable (∀ spec ∈ (rt.speculate r (rt.effectiveBlockSize r) []).1.toOption, _))

theorem commitsInPlace_iff {c : KVCache} {r : RequestState} {spec : Speculation}
    (hspec : (rt.speculate r (rt.effectiveBlockSize r) []).1 = .ok spec) :
    rt.CommitsInPlace c r ↔ spec.accepted = [] ∨ (r.commit spec.accepted).finishes spec = true ∨
      (rt.prepare c r).2.HasPagesFor r (r.currentTokens + spec.accepted.length) := by
  simp [CommitsInPlace, hspec, Except.toOption]

/-- Taking up a request does not change what is prepared for it. -/
theorem prepare_taken (rt : PersistentDecodeRuntime) (idx : Nat) (c : KVCache) (r : RequestState) :
    (rt.prepare c (taken idx r)).2 = (rt.prepare c r).2 := by
  have hsnap : c.hasSnapshot (taken idx r) = c.hasSnapshot r := rfl
  have hall : (c.releaseRequest (taken idx r).requestId).allocateForRequest (taken idx r)
      (taken idx r).currentTokens true =
        (c.releaseRequest r.requestId).allocateForRequest r r.currentTokens true := rfl
  unfold prepare rehydrateIfNeeded
  rw [hsnap, hall]
  by_cases hs : c.hasSnapshot r = true
  · rw [if_pos hs, if_pos hs]
    rfl
  · rw [if_neg hs, if_neg hs]
    generalize (c.releaseRequest r.requestId).allocateForRequest r r.currentTokens true = res
    obtain ⟨e | m, c₁⟩ := res
    · rfl
    · rfl

/-- A decode step as the commit sees it. -/
structure CommitStage (rt : PersistentDecodeRuntime) (c : KVCache) (r r' : RequestState)
    (c' : KVCache) (reads : KVReads) (spec : Speculation) (adapted committed : RequestState)
    (grown : KVCache) : Prop where
  speculate : (rt.speculate r (rt.effectiveBlockSize r) []).1 = .ok spec
  tokens : adapted.tokens = r.tokens
  layerIds : adapted.layerIds = r.layerIds
  commit : commitAccepted (rt.prepare c r).2 adapted spec.accepted = (.ok committed, grown)
  commits : committed.tokens = (r.commit spec.accepted).tokens
  settle : rt.settle grown committed spec reads = (r', c')

theorem decode_commitStage {idx : Nat} {c c' : KVCache} {r r' : RequestState}
    {t : DecodeStepTrace} (hrun : rt.decodeProcess idx c r = (.ok (r', t), c')) :
    ∃ ready reads spec adapted committed grown,
      rt.prepare c (taken idx r) = (.ok (ready, reads), (rt.prepare c r).2) ∧
      rt.CommitStage c r r' c' reads spec adapted committed grown := by
  obtain ⟨ready, reads, spec, committed, prepared, grown, hst⟩ := decodeProcess_ok hrun
  have hprepared : (rt.prepare c r).2 = prepared := by
    rw [← rt.prepare_taken idx c r, hst.prepare]
  obtain ⟨c₁, hre, _, _⟩ := prepare_ok hst.prepare
  obtain ⟨htok, hlay, hblock⟩ := rehydrateIfNeeded_tokens hre
  have htaken : ready.tokens = r.tokens := htok
  have hsize : rt.effectiveBlockSize ready = rt.effectiveBlockSize r :=
    rt.effectiveBlockSize_congr hblock
  obtain ⟨hatok, halay⟩ := rt.adapt_tokens prepared { ready with draftTokens := spec.proposal }
    spec.adaptiveMask
  refine ⟨ready, reads, spec, _, committed, grown, hprepared ▸ hst.prepare, ⟨?_, hatok.trans htaken,
    halay.trans hlay, hprepared ▸ hst.commit, ?_, hst.settle⟩⟩
  · rw [← hst.speculate, hsize]
    exact rt.speculate_tokens htaken.symm _ _ _
  · exact (commitAccepted_tokens hst.commit).1.trans
      (RequestState.commit_tokens (hatok.trans htaken) spec.accepted)

/-- What an idle request holds pinned after a step of it is what the commit pinned. -/
theorem decode_unpinned_iff (hpin : rt.config.pinReadyDecodePages = false) {idx : Nat}
    {c c' : KVCache} {r r' : RequestState} {t : DecodeStepTrace} (h : Inv c) (hres : Resident c r)
    (hno : HoldsNoPin c r.requestId) (hrun : rt.decodeProcess idx c r = (.ok (r', t), c')) :
    (r'.phase = .readyDecode → HoldsNoPin c' r.requestId) ↔ rt.CommitsInPlace c r := by
  obtain ⟨ready, reads, spec, adapted, committed, grown, hprepare, hst⟩ := decode_commitStage hrun
  have htaken : Resident c (taken idx r) := hres.congr rfl rfl rfl
  obtain ⟨hm, _, hprepared⟩ := prepare_moves h htaken hprepare
  have hwithin : PinsWithin (rt.prepare c r).2 r.requestId reads.pageIds :=
    prepare_pins h (r := taken idx r) hno hprepare
  have hid : adapted.requestId = r.requestId := RequestState.requestId_eq hst.tokens
  have hcur : adapted.currentTokens = r.currentTokens := RequestState.currentTokens_eq hst.tokens
  have hfin := RequestState.finishes_eq hst.commits spec
  have hsettle := hst.settle
  rw [commitsInPlace_iff hst.speculate]
  unfold settle at hsettle
  cases hf : (r.commit spec.accepted).finishes spec with
  | true =>
    rw [hfin, hf, if_pos rfl] at hsettle
    cases hsettle
    simp
  | false =>
    rw [hfin, hf, if_neg Bool.false_ne_true, hpin, if_neg Bool.false_ne_true] at hsettle
    cases hsettle
    by_cases hnil : spec.accepted = []
    · have hsame : grown = (rt.prepare c r).2 := by
        have hcommit := hst.commit
        rw [hnil, commitAccepted_nil] at hcommit
        exact (Prod.mk.inj hcommit).2.symm
      exact iff_of_true (fun _ => hsame ▸ hwithin.unpin) (Or.inl hnil)
    · obtain ⟨m, hc, _⟩ := commitAccepted_unevicted hm.inv hnil hst.commit
      have hpages : (rt.prepare c r).2.HasPagesFor adapted
          (r.currentTokens + spec.accepted.length) ↔
            (rt.prepare c r).2.HasPagesFor r (r.currentTokens + spec.accepted.length) :=
        hasPagesFor_congr hid hst.layerIds
      simp only [hnil, Bool.false_eq_true, false_or, forall_const, ← hpages]
      rw [← hcur, ← hid]
      refine hm.inv.commit_unpin_iff hc (fun pid hmem => ?_) (hid ▸ hwithin)
      obtain ⟨page, hp, _⟩ := hprepared.pinned pid hmem
      exact hm.inv.linked.below pid (Dict.mem_keys_of_get? hp)

theorem settle_pinsFrom (rt : PersistentDecodeRuntime) (grow : Int → Prop) (c : KVCache)
    (r : RequestState) (spec : Speculation) (reads : KVReads) :
    PinsFrom grow c (rt.settle c r spec reads).2 := by
  obtain ⟨ids, phase, finished, preempted, hsettle⟩ := rt.settle_eq c r spec reads
  rw [hsettle]
  exact pinsFrom_unpinPages grow c ids

theorem settle_phase (rt : PersistentDecodeRuntime) (c : KVCache) (r : RequestState)
    (spec : Speculation) (reads : KVReads) :
    (rt.settle c r spec reads).1.phase = .readyDecode ∨
      (rt.settle c r spec reads).1.phase = .finished ∧
        (rt.settle c r spec reads).1.finished = true := by
  unfold settle
  split
  · exact Or.inr ⟨rfl, rfl⟩
  · exact Or.inl rfl

/-- A decode step pins no page of another request. -/
theorem decode_pinsFrom {idx : Nat} {c c' : KVCache} {r r' : RequestState} {t : DecodeStepTrace}
    (h : Inv c) (hres : Resident c r) (hrun : rt.decodeProcess idx c r = (.ok (r', t), c')) :
    PinsFrom (fun q => q = r.requestId) c c' := by
  obtain ⟨ready, reads, spec, adapted, committed, grown, hprepare, hst⟩ := decode_commitStage hrun
  have htaken : Resident c (taken idx r) := hres.congr rfl rfl rfl
  obtain ⟨hm, _, _⟩ := prepare_moves h htaken hprepare
  have hid : adapted.requestId = r.requestId := RequestState.requestId_eq hst.tokens
  have h₁ : PinsFrom (fun q => q = r.requestId) c (rt.prepare c r).2 :=
    prepare_pinsFrom (r := taken idx r) h htaken hprepare
  have h₂ := commitAccepted_pinsFrom hm.inv hst.commit
  have h₃ := rt.settle_pinsFrom (fun q => q = r.requestId) grown committed spec reads
  rw [hid] at h₂
  rw [hst.settle] at h₃
  exact (h₁.trans h₂).trans h₃

theorem decode_phase {idx : Nat} {c c' : KVCache} {r r' : RequestState} {t : DecodeStepTrace}
    (hrun : rt.decodeProcess idx c r = (.ok (r', t), c')) :
    r'.phase = .readyDecode ∨ r'.phase = .finished ∧ r'.finished = true := by
  obtain ⟨ready, reads, spec, adapted, committed, grown, _, hst⟩ := decode_commitStage hrun
  have hphase := rt.settle_phase grown committed spec reads
  rwa [hst.settle] at hphase

theorem prefill_pinsFrom {idx : Nat} {c c' : KVCache} {r r' : RequestState}
    (hrun : prefillProcess false idx c r = (.ok r', c')) : PinsFrom (fun _ => False) c c' := by
  obtain ⟨m, c₁, ha, rfl, rfl⟩ := prefillProcess_ok hrun
  exact (pinsFrom_allocate Bool.false_ne_true ha).trans (pinsFrom_touchPages _ c₁ _)

/-! ### Whole runs -/

/-- The requests in flight hold no pins, except for those that are finished and about to be
released. -/
def PinsAccounted (s : RuntimeState) : Prop :=
  ∀ r ∈ s.bag, (r.phase = .finished ∧ r.finished = true) ∨ HoldsNoPin s.cache r.requestId

theorem PinsAccounted.unfinished {s : RuntimeState} (h : PinsAccounted s)
    (ho : rt.workers.Orderly s) {r : RequestState} (hr : r ∈ s.waiting) :
    HoldsNoPin s.cache r.requestId := by
  obtain ⟨_, hfin⟩ | hno := h r (PoolState.mem_bag_of_waiting hr)
  · have hunfinished : r.finished = false := ho.waiting r hr
    rw [hfin] at hunfinished
    cases hunfinished
  · exact hno

/-- One step keeps the pins accounted for, provided that a decode step leaves its request none. -/
theorem PinsAccounted.step (hpin : rt.config.pinReadyDecodePages = false) {s s' : RuntimeState}
    (h : PinsAccounted s) (htidy : Tidy rt s) (ho : rt.workers.Orderly s)
    (hids : (s.bag.map RequestState.requestId).Nodup) (hs : rt.workers.step s = some s')
    (hdec : ∀ i r r' t, s.nextDecode = some r →
      rt.decodeProcess i s.cache r = (.ok (r', t), s'.cache) → r' ∈ s'.bag →
        HoldsNoPin s.cache r.requestId → r'.phase = .readyDecode →
        HoldsNoPin s'.cache r.requestId) : PinsAccounted s' ∨ Workers.Raised s' := by
  cases rt.workers.step_effect hs with
  | silent cache bag _ _ =>
    refine Or.inl ?_
    unfold PinsAccounted
    rw [bag, cache]
    exact h
  | prefilled i r r' rest next bag run bag' _ _ =>
    have run' : prefillProcess false i s.cache r = (.ok r', s'.cache) := hpin ▸ run
    have hfrom := prefill_pinsFrom run'
    have hid : r'.requestId = r.requestId := rt.workers_lawful.prefillId run
    have hr := h.unfinished ho (Workers.nextPrefill_waiting next)
    refine Or.inl ?_
    rw [PinsAccounted, bag']
    refine Multiset.forall_mem_cons.mpr ⟨Or.inr ?_, fun q hq => ?_⟩
    · exact hid ▸ hfrom.holdsNoPin not_false hr
    · exact (h q (bag ▸ Multiset.mem_cons_of_mem hq)).imp id (hfrom.holdsNoPin not_false)
  | decoded i r r' trace rest next bag run bag' _ _ =>
    have hres := htidy.resident r (bag ▸ Multiset.mem_cons_self r rest)
    have hfrom := decode_pinsFrom htidy.inv hres run
    have hid : r'.requestId = r.requestId := rt.workers_lawful.decodeId run
    have hr := h.unfinished ho (Workers.nextDecode_waiting next)
    refine Or.inl ?_
    rw [PinsAccounted, bag']
    refine Multiset.forall_mem_cons.mpr ⟨?_, fun q hq => ?_⟩
    · obtain hready | hdone := decode_phase run
      · have hmem : r' ∈ s'.bag := bag' ▸ Multiset.mem_cons_self r' rest
        exact Or.inr (hid ▸ hdec i r r' trace next run hmem hr hready)
      · exact Or.inl hdone
    · have hne : q.requestId ≠ r.requestId := by
        intro heq
        rw [bag, Multiset.map_cons, Multiset.nodup_cons] at hids
        exact hids.1 (Multiset.mem_map.mpr ⟨q, hq, heq⟩)
      exact (h q (bag ▸ Multiset.mem_cons_of_mem hq)).imp id (hfrom.holdsNoPin hne)
  | finished r traces bag _ cache _ _ =>
    have hrelease : s'.cache = s.cache.releaseRequest r.requestId := cache
    refine Or.inl fun q hq => ?_
    rw [hrelease]
    exact (h q (bag ▸ Multiset.mem_cons_of_mem hq)).imp id
      ((pinsFrom_releaseRequest (fun _ => False) s.cache _).holdsNoPin not_false)
  | failed e control _ _ => exact Or.inr ⟨e, control⟩

theorem pinsAccounted_run (hpin : rt.config.pinReadyDecodePages = false)
    {requests : List RequestState} (hf : FreshRequests requests)
    (hdec : ∀ s s' i r r' t, Reaches rt.workers.step (rt.start requests) s →
      rt.workers.step s = some s' → ¬ Workers.Raised s' → s.nextDecode = some r →
        rt.decodeProcess i s.cache r = (.ok (r', t), s'.cache) → r' ∈ s'.bag →
        HoldsNoPin s.cache r.requestId → r'.phase = .readyDecode →
        HoldsNoPin s'.cache r.requestId)
    {s : RuntimeState} (hs : Reaches rt.workers.step (rt.start requests) s) :
    PinsAccounted s ∨ Workers.Raised s := by
  refine Workers.invariant_or_raised hs ?_ ?_
  · intro r _
    refine Or.inr fun pid page hp => ?_
    cases hp
  · intro u v hu h hstep
    have hn := Workers.not_raised_of_step hstep
    have htidy := (tidy_run hf.fresh hu).resolve_right hn
    obtain ⟨ho, _⟩ :=
      (rt.workers_lawful.reaches_orderly (submit_unfinished hf.fresh) hu).resolve_right hn
    by_cases hraised : Workers.Raised v
    · exact Or.inr hraised
    · exact h.step hpin htidy ho (ids_nodup hf hu hn) hstep fun i r r' t =>
        hdec u v i r r' t hu hstep hraised

/-- The next decode step of a run works on a sound cache, to which its request's snapshot belongs. -/
theorem nextDecode_resident {requests : List RequestState} (hfresh : ∀ r ∈ requests, r.Fresh)
    {s : RuntimeState} (hs : Reaches rt.workers.step (rt.start requests) s)
    (hn : ¬ Workers.Raised s) {r : RequestState} (hr : s.nextDecode = some r) :
    Inv s.cache ∧ Resident s.cache r := by
  have htidy := (tidy_run hfresh hs).resolve_right hn
  exact ⟨htidy.inv,
    htidy.resident r (PoolState.mem_bag_of_waiting (Workers.nextDecode_waiting hr))⟩

/-- With the pins of ready requests off, no request that waits for a decode step holds one in any
state of a run, exactly if no decode step of the run that leaves its request unfinished has a page
to add. -/
theorem idle_unpinned_iff (hpin : rt.config.pinReadyDecodePages = false)
    {requests : List RequestState} (hf : FreshRequests requests) :
    (∀ s, Reaches rt.workers.step (rt.start requests) s → ¬ Workers.Raised s →
        ∀ r ∈ s.bag, r.phase = .readyDecode → ∀ pid page, s.cache.pages.get? pid = some page →
          page.requestId = r.requestId → page.pinned = false) ↔
      ∀ s s', Reaches rt.workers.step (rt.start requests) s → rt.workers.step s = some s' →
        ¬ Workers.Raised s' → ∀ r, s.nextDecode = some r → rt.CommitsInPlace s.cache r := by
  constructor
  · intro hidle s s' hs hstep hok r hr
    have hn := Workers.not_raised_of_step hstep
    have hs' : Reaches rt.workers.step (rt.start requests) s' :=
      Relation.ReflTransGen.tail hs (Option.mem_def.mpr hstep)
    have hacc := (pinsAccounted_run hpin hf (s := s) (fun u v i q q' t hu huv hv _ hrun hmem _
      hphase => decode_requestId hrun ▸
        hidle v (Relation.ReflTransGen.tail hu (Option.mem_def.mpr huv)) hv q' hmem hphase)
      hs).resolve_right hn
    obtain ⟨ho, _⟩ :=
      (rt.workers_lawful.reaches_orderly (submit_unfinished hf.fresh) hs).resolve_right hn
    have hno := hacc.unfinished ho (Workers.nextDecode_waiting hr)
    obtain ⟨hi, hres⟩ := nextDecode_resident hf.fresh hs hn hr
    obtain ⟨s'', hstep', hcases⟩ := rt.workers.step_nextDecode hr
    obtain rfl := Option.some.inj (hstep.symm.trans hstep')
    obtain ⟨i, r', trace, rest, _, hrun, hbag'⟩ := hcases.resolve_left hok
    refine (decode_unpinned_iff hpin hi hres hno hrun).mp fun hphase => ?_
    have hmem : r' ∈ s'.bag := hbag' ▸ Multiset.mem_cons_self r' rest
    exact decode_requestId hrun ▸ hidle s' hs' hok r' hmem hphase
  · intro hplace s hs hn r hr hphase
    have hacc := (pinsAccounted_run hpin hf (s := s) (fun u v i q q' t hu huv hv hq hrun _ hno
      hphase' => by
        obtain ⟨hi, hres⟩ := nextDecode_resident hf.fresh hu (Workers.not_raised_of_step huv) hq
        exact (decode_unpinned_iff hpin hi hres hno hrun).mpr (hplace u v hu huv hv q hq) hphase')
      hs).resolve_right hn
    obtain ⟨hdone, _⟩ | hno := hacc r hr
    · rw [hphase] at hdone
      cases hdone
    · exact hno

/-- In pages of one token, the page of the first token that is decoded stays pinned. -/
theorem committed_page_stays_pinned :
    ¬ ∀ (rt : PersistentDecodeRuntime) (requests : List RequestState),
      rt.config.pinReadyDecodePages = false → FreshRequests requests →
        ∀ s, Reaches rt.workers.step (rt.start requests) s → ¬ Workers.Raised s →
          ∀ r ∈ s.bag, r.phase = .readyDecode →
            ∀ pid page, s.cache.pages.get? pid = some page → page.requestId = r.requestId →
              page.pinned = false := by
  intro h
  let rt : PersistentDecodeRuntime :=
    { config := { blockSize := 1, pageSize := 1, pinReadyDecodePages := false } }
  let s : RuntimeState := Runs.runFor rt.workers.step 8 (rt.start [.ask 1 [5] [7, 8]])
  have hs : Reaches rt.workers.step (rt.start [.ask 1 [5] [7, 8]]) s :=
    Runs.reaches_runFor rt.workers.step 8 _
  have hidle := h rt [.ask 1 [5] [7, 8]] rfl (by decide) s hs
  have hready : (s.decodeQueue.requests.any fun r => decide (r.phase = .readyDecode) &&
      s.cache.pages.items.any fun p => decide (p.2.requestId = r.requestId) && p.2.pinned) =
        true := by decide +kernel
  obtain ⟨r, hr, hpins⟩ := List.any_eq_true.mp hready
  obtain ⟨hphase, hpins⟩ := Bool.and_eq_true_iff.mp hpins
  obtain ⟨p, hp, hown⟩ := List.any_eq_true.mp hpins
  obtain ⟨howner, hpinned⟩ := Bool.and_eq_true_iff.mp hown
  have hbag : r ∈ s.bag :=
    PoolState.mem_bag_of_waiting (Multiset.mem_add.mpr (Or.inr (Multiset.mem_coe.mpr hr)))
  have hok : ¬ Workers.Raised s := by
    have hnext : (rt.workers.step s).isSome = true := by decide +kernel
    obtain ⟨s', hstep⟩ := Option.isSome_iff_exists.mp hnext
    exact Workers.not_raised_of_step hstep
  have hfree := hidle hok r hbag (of_decide_eq_true hphase) p.1 p.2
    ((Dict.get?_eq_some_iff _ _ _).mpr hp) (of_decide_eq_true howner)
  exact Bool.false_ne_true (hfree.symm.trans hpinned)

/-- In one page of four tokens nothing is added after the prefill. -/
theorem request_in_one_page_idles_unpinned :
    let rt : PersistentDecodeRuntime := { config :=
      { blockSize := 1, pageSize := 4, numLayers := 1, pinReadyDecodePages := false } }
    ∀ s, Reaches rt.workers.step (rt.start [.ask 1 [5] [7, 8]]) s → ¬ Workers.Raised s →
      ∀ r ∈ s.bag, r.phase = .readyDecode → ∀ pid page, s.cache.pages.get? pid = some page →
        page.requestId = r.requestId → page.pinned = false := by
  intro rt
  refine (idle_unpinned_iff rfl (by decide)).mpr fun s _ hs _ _ r hr => ?_
  have hstop : (rt.workers.step (Runs.runFor rt.workers.step 17
      (rt.start [.ask 1 [5] [7, 8]]))).isNone = true := by decide +kernel
  have hall : ∀ k < 18, ∀ r ∈ (Runs.runFor rt.workers.step k
      (rt.start [.ask 1 [5] [7, 8]])).nextDecode, rt.CommitsInPlace (Runs.runFor rt.workers.step k
        (rt.start [.ask 1 [5] [7, 8]])).cache r := by decide +kernel
  obtain ⟨k, hk, rfl⟩ := Runs.exists_runFor (Option.isNone_iff_eq_none.mp hstop) hs
  exact hall k (Nat.lt_succ_of_le hk) r hr

end PersistentDecodeRuntime
end ResidentInference

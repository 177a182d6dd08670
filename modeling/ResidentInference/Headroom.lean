import ResidentInference.Admission
import ResidentInference.KVHeadroom
import Mathlib.Algebra.BigOperators.Ring.Finset

/-! Runs whose requests fit in the cache together: no step evicts a page, every snapshot stays
live, and the run returns without a rehydration. -/
namespace ResidentInference
open StateTransition KVCache

namespace PersistentDecodeRuntime
variable {rt : PersistentDecodeRuntime}

/-- All the pages that the submitted requests may ever need fit in an empty cache together. -/
def FitTogether (rt : PersistentDecodeRuntime) (requests : List RequestState) : Prop :=
  (requests.map fun r => rt.demand (rt.submit r)).sum ≤ rt.config.maxPages

instance (rt : PersistentDecodeRuntime) (requests : List RequestState) :
    Decidable (rt.FitTogether requests) :=
  inferInstanceAs (Decidable (_ ≤ _))

theorem demand_congr {r r' : RequestState} (hprompt : r'.promptTokens = r.promptTokens)
    (htarget : r'.targetTokens = r.targetTokens) (hl : r'.layerIds = r.layerIds) :
    rt.demand r' = rt.demand r := by
  simp only [demand, hprompt, htarget, hl]

theorem demand_nonneg (hps : 1 ≤ rt.config.pageSize) (r : RequestState) : 0 ≤ rt.demand r := by
  have hceil : 0 ≤ ceilDiv (r.promptTokens.length + r.targetTokens.length) rt.config.pageSize := by
    have hmono := ceilDiv_mono (b := rt.config.pageSize) (by omega)
      (show (0 : Int) ≤ r.promptTokens.length + r.targetTokens.length by omega)
    simpa [ceilDiv] using hmono
  exact mul_nonneg (Int.natCast_nonneg _) hceil

theorem prefill_demand {pin : Bool} {idx : Nat} {c c' : KVCache} {r r' : RequestState}
    (h : prefillProcess pin idx c r = (.ok r', c')) : rt.demand r' = rt.demand r := by
  obtain ⟨htok, hlay, -⟩ := prefill_tokens h
  exact demand_congr (RequestState.promptTokens_eq htok) (RequestState.targetTokens_eq htok) hlay

theorem decode_demand {idx : Nat} {c c' : KVCache} {r r' : RequestState} {t : DecodeStepTrace}
    (h : rt.decodeProcess idx c r = (.ok (r', t), c')) : rt.demand r' = rt.demand r := by
  obtain ⟨spec, -, htok, -, hlay, -⟩ := decode_tokens h
  exact demand_congr (RequestState.promptTokens_eq htok :) (RequestState.targetTokens_eq htok :)
    hlay

theorem FitTogether.fitsAlone {requests : List RequestState} (h : rt.FitTogether requests)
    (hps : 1 ≤ rt.config.pageSize) {r : RequestState} (hr : r ∈ requests) : rt.FitsAlone r := by
  have hmem : rt.demand (rt.submit r) ∈ requests.map fun r => rt.demand (rt.submit r) :=
    List.mem_map.mpr ⟨r, hr, rfl⟩
  have hle := List.single_le_sum (fun n hn => by
    obtain ⟨q, -, rfl⟩ := List.mem_map.mp hn
    exact demand_nonneg hps _) _ hmem
  have htok := rt.submit_tokens r
  have hsame : rt.demand (rt.submit r) = (rt.submit r).layerIds.length *
      ceilDiv (r.promptTokens.length + r.targetTokens.length) rt.config.pageSize := by
    rw [demand, RequestState.promptTokens_eq htok, RequestState.targetTokens_eq htok]
  rw [hsame] at hle
  exact hle.trans h

/-! ### Room for every request -/

/-- A cache that has room for all that these requests may need, and for no others. -/
structure Roomy (rt : PersistentDecodeRuntime) (c : KVCache) (bag : Multiset RequestState) :
    Prop where
  inv : Inv c
  pageSize : c.pageSize = rt.config.pageSize
  maxPages : c.maxPages = rt.config.maxPages
  owners : ∀ pid page, c.pages.get? pid = some page → ∃ r ∈ bag, r.requestId = page.requestId
  lodged : ∀ r ∈ bag, Lodged c r
  committed : ∀ r ∈ bag, r.committedTokens.length ≤ r.targetTokens.length
  demand : (bag.map rt.demand).sum ≤ rt.config.maxPages

namespace Roomy
variable {c c' : KVCache} {r : RequestState} {rest : Multiset RequestState}

theorem pageSize_pos {bag : Multiset RequestState} (h : Roomy rt c bag)
    (hps : 1 ≤ rt.config.pageSize) : 0 < c.pageSize := by
  rw [h.pageSize]
  omega

/-- A request has, and still needs, no more pages than its demand. -/
theorem needed_le {bag : Multiset RequestState} (h : Roomy rt c bag)
    (hps : 1 ≤ rt.config.pageSize) (hr : r ∈ bag) {total : Int}
    (hle : total ≤ r.promptTokens.length + r.targetTokens.length) :
    c.neededPages r total + c.ownPages r.requestId ≤ rt.demand r := by
  have hpos := h.pageSize_pos hps
  have hfull : r.currentTokens ≤ r.promptTokens.length + r.targetTokens.length := by
    have hcommitted := h.committed r hr
    unfold RequestState.currentTokens
    omega
  have hhoused := Housed.mono (h.lodged r hr) (requiredPages_mono hpos hfull)
  have hboth := hhoused.needed_add_own h.inv
  have hmono := neededPages_mono hpos r hle
  have hfit := pages_le_demand (c := c) hps h.pageSize r le_rfl
  omega

/-- The pages of the others are within their demands. -/
theorem foreign_le (h : Roomy rt c (r ::ₘ rest)) (hps : 1 ≤ rt.config.pageSize) :
    (c.foreignPages r.requestId : Int) ≤ (rest.map rt.demand).sum := by
  have hforeign : c.foreignPages r.requestId ≤
      (rest.map fun q => c.ownPages q.requestId).sum := by
    refine foreignPages_le fun pid page hp hne => ?_
    obtain ⟨q, hq, hid⟩ := h.owners pid page hp
    cases Multiset.mem_cons.mp hq with
    | inl heq => exact absurd (heq ▸ hid).symm hne
    | inr hmem => exact ⟨q, hmem, hid⟩
  have hsum : (rest.map fun q => (c.ownPages q.requestId : Int)).sum ≤
      (rest.map rt.demand).sum := by
    refine Multiset.sum_map_le_sum_map _ _ fun q hq => ?_
    have hzero : (0 : Int) ≤ q.promptTokens.length + q.targetTokens.length := by omega
    have hle := h.needed_le hps (Multiset.mem_cons_of_mem hq) hzero
    have hneed : 0 ≤ c.neededPages q 0 := List.sum_nonneg fun n hn => by
      obtain ⟨l, -, rfl⟩ := List.mem_map.mp hn
      exact pagesNeededForLayer_nonneg c q 0 l
    omega
  have hcast : (((rest.map fun q => c.ownPages q.requestId).sum : Nat) : Int) =
      (rest.map fun q => (c.ownPages q.requestId : Int)).sum := by
    rw [Nat.cast_multiset_sum, Multiset.map_map]
    rfl
  omega

/-- The free pages are enough for whatever the request needs next. -/
theorem room (h : Roomy rt c (r ::ₘ rest)) (hps : 1 ≤ rt.config.pageSize) {total : Int}
    (hle : total ≤ r.promptTokens.length + r.targetTokens.length) :
    c.neededPages r total ≤ c.freePages := by
  have hown := h.needed_le hps (Multiset.mem_cons_self r rest) hle
  have hforeign := h.foreign_le hps
  have hsize := c.size_eq_own_add_foreign r.requestId
  have hdemand := h.demand
  have hmax := h.maxPages
  rw [Multiset.map_cons, Multiset.sum_cons] at hdemand
  unfold freePages
  omega

theorem fits (h : Roomy rt c (r ::ₘ rest)) (hps : 1 ≤ rt.config.pageSize) {total : Int}
    (hle : total ≤ r.promptTokens.length + r.targetTokens.length) : c.Fits r total := by
  have hforeign := h.foreign_le hps
  have hpins := c.foreignPins_le_foreignPages r.requestId
  have hfit := pages_le_demand (c := c) hps h.pageSize r hle
  have hdemand := h.demand
  rw [Multiset.map_cons, Multiset.sum_cons] at hdemand
  unfold Fits
  rw [h.maxPages]
  omega

/-- One request grows within its tokens, and the cache stays roomy. -/
theorem moves (h : Roomy rt c (r ::ₘ rest)) (hids : ∀ q ∈ rest, q.requestId ≠ r.requestId)
    (hm : Moves r.requestId c c') (hr : Lodged c' r) : Roomy rt c' (r ::ₘ rest) where
  inv := hm.inv
  pageSize := hm.evolves.pageSize.trans h.pageSize
  maxPages := hm.evolves.maxPages.trans h.maxPages
  owners pid page' hp' := by
    cases hm.evolves.page pid page' hp' with
    | inl hold =>
      obtain ⟨page, hp, hs⟩ := hold
      obtain ⟨q, hq, hid⟩ := h.owners pid page hp
      exact ⟨q, hq, hid.trans hs.requestId.symm⟩
    | inr hnew => exact ⟨r, Multiset.mem_cons_self r rest, hnew.2.symm⟩
  lodged := Multiset.forall_mem_cons.mpr ⟨hr, fun q hq =>
    (h.lodged q (Multiset.mem_cons_of_mem hq)).evolves h.inv hm.inv hm.evolves (hids q hq)⟩
  committed := h.committed
  demand := h.demand

end Roomy

/-! ### Steps that evict nothing -/

/-- The snapshot of an allocation is live right after it. -/
theorem hasSnapshot_of_owned {c : KVCache} {r q : RequestState} {rid : Int} {m : LayerPageMap}
    (hm : MapOwned c rid m) (hs : r.kvSnapshot = some (q.snapshot m)) :
    c.hasSnapshot r = true := by
  refine hasSnapshot_iff.mpr ⟨by simp [hs], fun pid hp => ?_⟩
  obtain ⟨l, ids, hget, hpid⟩ := mem_kvPageIds hs hp
  exact (hm l ids hget pid hpid).live

theorem prefill_retains {pin : Bool} {idx : Nat} {c c' : KVCache} {r r' : RequestState}
    (hi : Inv c) (hroom : c.neededPages r r.promptTokens.length ≤ c.freePages)
    (hrun : prefillProcess pin idx c r = (.ok r', c')) :
    Retains c c' ∧ c'.hasSnapshot r' = true := by
  obtain ⟨m, c₁, ha, rfl, rfl⟩ := prefillProcess_ok hrun
  have hgrow : Retains c c₁ := retains_allocate (r := { r with phase := .prefill }) hroom ha
  have htouch : Retains c₁ (c₁.touchPages m.pageIds) := Retains.foldl retains_touchPage _ c₁
  have howned : MapOwned c₁ r.requestId m := allocateForRequest_owned hi ha
  exact ⟨hgrow.trans htouch, htouch.hasSnapshot (hasSnapshot_of_owned howned rfl)⟩

/-- A request whose snapshot is live is not rehydrated. -/
theorem rehydrate_of_snapshot {c : KVCache} {r : RequestState} (h : c.hasSnapshot r = true) :
    rehydrateIfNeeded c r = (.ok r, c) := if_pos h

theorem retains_reads (rt : PersistentDecodeRuntime) (c : KVCache) (r : RequestState)
    (ids : List Nat) : Retains c (((rt.selectReads c r).2.pinPages ids).touchPages ids) := by
  have hselect : Retains c (rt.selectReads c r).2 := by
    simp only [selectReads]
    split
    · exact retains_markSelection c _ _ _
    · exact Retains.refl c
  have hpin : Retains (rt.selectReads c r).2 ((rt.selectReads c r).2.pinPages ids) :=
    Retains.foldl retains_pinPage ids _
  exact (hselect.trans hpin).trans (Retains.foldl retains_touchPage ids _)

theorem adapt_rehydrationCount (rt : PersistentDecodeRuntime) (c : KVCache) (r : RequestState)
    (mask : AcceptanceMask) : (rt.adapt c r mask).rehydrationCount = r.rehydrationCount := by
  simp only [adapt]
  split
  · rfl
  · rfl

/-- With room for the accepted tokens nothing is evicted before the commit. -/
theorem commitAccepted_of_room {c c' : KVCache} {r r' : RequestState} {accepted : List Int}
    (hps : 0 < c.pageSize)
    (hroom : c.neededPages r (r.currentTokens + accepted.length) ≤ c.freePages)
    (h : commitAccepted c r accepted = (.ok r', c')) :
    (r' = r ∧ c' = c) ∨ ∃ m, c.commitTokens r accepted.length = (.ok m, c') ∧
      r' = { r.commit accepted with kvSnapshot := some (r.snapshot m) } := by
  have hpins := c.size_eq_pins r.requestId
  have hfree : c.freePages = c.maxPages - c.pages.size := rfl
  have hcan : c.canAllocate r accepted.length = .ok true :=
    canAllocate_succeeds hps (by omega)
  by_cases hnil : accepted = []
  · rw [hnil, commitAccepted_nil] at h
    cases h
    exact Or.inl ⟨rfl, rfl⟩
  · rw [commitAccepted, if_neg hnil, hcan] at h
    simp only [if_true] at h
    split at h
    · cases h
    · next m c₁ hc =>
      cases h
      exact Or.inr ⟨m, hc, rfl⟩

theorem commit_retains {c c' : KVCache} {r r' : RequestState} {accepted : List Int}
    (hi : Inv c) (hps : 0 < c.pageSize)
    (hroom : c.neededPages r (r.currentTokens + accepted.length) ≤ c.freePages)
    (hs : c.hasSnapshot r = true) (h : commitAccepted c r accepted = (.ok r', c')) :
    Retains c c' ∧ c'.hasSnapshot r' = true ∧ r'.rehydrationCount = r.rehydrationCount := by
  cases commitAccepted_of_room hps hroom h with
  | inl hsame =>
    obtain ⟨rfl, rfl⟩ := hsame
    exact ⟨Retains.refl _, hs, rfl⟩
  | inr hgrown =>
    obtain ⟨m, hc, rfl⟩ := hgrown
    exact ⟨retains_commit hroom hc, hasSnapshot_of_owned (commitTokens_owned hi hc) rfl, rfl⟩

theorem settle_retains (rt : PersistentDecodeRuntime) (c : KVCache) (r : RequestState)
    (spec : Speculation) (reads : KVReads) :
    Retains c (rt.settle c r spec reads).2 ∧
      (rt.settle c r spec reads).1.kvSnapshot = r.kvSnapshot ∧
      (rt.settle c r spec reads).1.rehydrationCount = r.rehydrationCount := by
  obtain ⟨ids, phase, finished, preempted, hsettle⟩ := rt.settle_eq c r spec reads
  rw [hsettle]
  exact ⟨Retains.foldl retains_unpinPage ids c, rfl, rfl⟩

/-- A request of the same id and layers needs the same pages. -/
theorem neededPages_congr {c : KVCache} {r r' : RequestState} (hid : r'.requestId = r.requestId)
    (hl : r'.layerIds = r.layerIds) (total : Int) :
    c.neededPages r' total = c.neededPages r total := by
  have hlayer : c.pagesNeededForLayer r' total = c.pagesNeededForLayer r total := by
    funext l
    simp only [pagesNeededForLayer, hid]
  rw [neededPages, neededPages, hl, hlayer]

/-- A step of a request whose snapshot is live reads its pages and leaves the cache roomy. -/
theorem prepare_roomy {idx : Nat} {c prepared : KVCache} {r ready : RequestState}
    {reads : KVReads} {rest : Multiset RequestState} (h : Roomy rt c (r ::ₘ rest))
    (hids : ∀ q ∈ rest, q.requestId ≠ r.requestId) (hres : Resident c r)
    (hps : 1 ≤ rt.config.pageSize) (hs : c.hasSnapshot r = true)
    (hrun : rt.prepare c (taken idx r) = (.ok (ready, reads), prepared)) :
    ready = taken idx r ∧ Retains c prepared ∧ Roomy rt prepared (r ::ₘ rest) := by
  have hpos := h.pageSize_pos hps
  have htaken : Resident c (taken idx r) := hres.congr rfl rfl rfl
  have hlodged : Lodged c (taken idx r) :=
    (h.lodged r (Multiset.mem_cons_self r rest)).congr rfl rfl
  obtain ⟨hm, -, -⟩ := prepare_moves h.inv htaken hrun
  obtain ⟨hgrown, -⟩ := prepare_lodged hlodged h.inv htaken hpos hrun
  obtain ⟨c₁, hre, -, hprepared⟩ := prepare_ok hrun
  have hlive : c.hasSnapshot (taken idx r) = true := hs
  rw [rehydrate_of_snapshot hlive] at hre
  obtain ⟨hready, rfl⟩ := Prod.mk.inj hre
  obtain rfl := Except.ok.inj hready
  have hkept : Retains c prepared := hprepared ▸ retains_reads rt c (taken idx r) reads.pageIds
  exact ⟨rfl, hkept, h.moves hids hm (hgrown.congr rfl rfl)⟩

theorem decode_retains {idx : Nat} {c c' : KVCache} {r r' : RequestState} {t : DecodeStepTrace}
    {rest : Multiset RequestState} (h : Roomy rt c (r ::ₘ rest))
    (hids : ∀ q ∈ rest, q.requestId ≠ r.requestId) (hres : Resident c r)
    (hps : 1 ≤ rt.config.pageSize) (hb : 1 ≤ rt.effectiveBlockSize r)
    (hs : c.hasSnapshot r = true) (hrun : rt.decodeProcess idx c r = (.ok (r', t), c')) :
    Retains c c' ∧ c'.hasSnapshot r' = true ∧ r'.rehydrationCount = r.rehydrationCount := by
  obtain ⟨ready, reads, spec, committed, prepared, grown, hst⟩ := decodeProcess_ok hrun
  obtain ⟨rfl, hkept, hroomy⟩ := prepare_roomy h hids hres hps hs hst.prepare
  have hcommit := hst.commit
  obtain ⟨hid, hlay, hsnap⟩ := adapt_frame rt prepared (taken idx r) spec.proposal
    spec.adaptiveMask
  have htok := (rt.adapt_tokens prepared { taken idx r with draftTokens := spec.proposal }
    spec.adaptiveMask).1
  have hcur : _ = r.currentTokens := RequestState.currentTokens_eq htok
  have hcount := rt.adapt_rehydrationCount prepared
    { taken idx r with draftTokens := spec.proposal } spec.adaptiveMask
  generalize rt.adapt prepared { taken idx r with draftTokens := spec.proposal }
    spec.adaptiveMask = drafted at hcommit hid hlay hsnap hcur hcount
  -- the commit stays within the target
  have hroom : prepared.neededPages drafted (drafted.currentTokens + spec.accepted.length) ≤
      prepared.freePages := by
    have hacc : spec.accepted = rt.block r := accepted_eq_block hb rfl rfl hst.speculate
    have hblock := rt.block_length_le r
    have hcommitted := h.committed r (Multiset.mem_cons_self r rest)
    rw [neededPages_congr (r := r) hid hlay, hcur, hacc]
    refine hroomy.room hps ?_
    unfold RequestState.currentTokens
    omega
  have hdrafted : prepared.hasSnapshot drafted = true := by
    rw [hasSnapshot_congr (r := r) hsnap hlay]
    exact hkept.hasSnapshot hs
  obtain ⟨hgrow, hsnap', hcount'⟩ := commit_retains hroomy.inv (hroomy.pageSize ▸ hps) hroom
    hdrafted hcommit
  obtain ⟨hsettle, hsame, hrehydrated⟩ := rt.settle_retains grown committed spec reads
  have hlayers := (rt.settle_tokens grown committed spec reads).2.1
  rw [hst.settle] at hsettle hsame hrehydrated hlayers
  refine ⟨(hkept.trans hgrow).trans hsettle, ?_, hrehydrated.trans (hcount'.trans hcount)⟩
  rw [hasSnapshot_congr hsame hlayers]
  exact hsettle.hasSnapshot hsnap'

/-! ### Whole runs -/

theorem demand_bounded_run (hps : 1 ≤ rt.config.pageSize) {requests : List RequestState}
    {bound : Int} (hbound : (requests.map fun r => rt.demand (rt.submit r)).sum ≤ bound)
    {s : RuntimeState} (hs : Reaches rt.workers.step (rt.start requests) s) :
    (s.bag.map rt.demand).sum ≤ bound ∨ Workers.Raised s := by
  refine Workers.invariant_or_raised (Q := fun u => (u.bag.map rt.demand).sum ≤ bound)
    hs ?_ fun u v _ hu hstep => ?_
  · have hbag : (rt.start requests).bag = (requests.map rt.submit : Multiset RequestState) :=
      rt.workers.bag_start _ _
    rw [hbag, Multiset.map_coe, Multiset.sum_coe, List.map_map]
    exact hbound
  · cases rt.workers.step_effect hstep with
    | silent _ bag _ _ => exact Or.inl (bag ▸ hu)
    | prefilled i r r' rest _ bag run bag' _ _ =>
      rw [bag, Multiset.map_cons, Multiset.sum_cons] at hu
      rw [bag', Multiset.map_cons, Multiset.sum_cons, prefill_demand run]
      exact Or.inl hu
    | decoded i r r' trace rest _ bag run bag' _ _ =>
      rw [bag, Multiset.map_cons, Multiset.sum_cons] at hu
      rw [bag', Multiset.map_cons, Multiset.sum_cons, decode_demand run]
      exact Or.inl hu
    | finished r traces bag _ _ _ _ =>
      have hnonneg := demand_nonneg hps r
      rw [bag, Multiset.map_cons, Multiset.sum_cons] at hu
      exact Or.inl (by omega)
    | failed e control _ _ => exact Or.inr ⟨e, control⟩

theorem demand_run (hps : 1 ≤ rt.config.pageSize) {requests : List RequestState}
    (hfit : rt.FitTogether requests) {s : RuntimeState}
    (hs : Reaches rt.workers.step (rt.start requests) s) :
    (s.bag.map rt.demand).sum ≤ rt.config.maxPages ∨ Workers.Raised s :=
  demand_bounded_run hps hfit hs

/-- In every state of a run whose requests fit together there is room for all of them. -/
theorem roomy_run (hv : rt.ValidBlocks) (hps : 1 ≤ rt.config.pageSize)
    {requests : List RequestState} (hf : FreshRequests requests)
    (hfit : rt.FitTogether requests) {s : RuntimeState}
    (hs : Reaches rt.workers.step (rt.start requests) s) (hn : ¬ Workers.Raised s) :
    Roomy rt s.cache s.bag := by
  have htidy := (tidy_run hf.fresh hs).resolve_right hn
  have hbounded := (bounded_run hv hf (fun _ hr => hfit.fitsAlone hps hr) hs).resolve_right hn
  exact
    { inv := htidy.inv
      pageSize := htidy.pageSize
      maxPages := htidy.maxPages
      owners := htidy.owners
      lodged := (allLodged_run hv hps hf hs).resolve_right hn
      committed := fun r hr => (hbounded.bag r hr).committed
      demand := (demand_run hps hfit hs).resolve_right hn }

/-- The requests beside this one. -/
theorem roomy_of_mem {c : KVCache} {bag : Multiset RequestState} {r : RequestState}
    (h : Roomy rt c bag) (hr : r ∈ bag) (hids : (bag.map RequestState.requestId).Nodup) :
    ∃ rest, Roomy rt c (r ::ₘ rest) ∧ ∀ q ∈ rest, q.requestId ≠ r.requestId := by
  obtain ⟨rest, rfl⟩ := Multiset.exists_cons_of_mem hr
  refine ⟨rest, h, fun q hq heq => ?_⟩
  rw [Multiset.map_cons, Multiset.nodup_cons] at hids
  exact hids.1 (Multiset.mem_map.mpr ⟨q, hq, heq⟩)

theorem prompt_le_full (r : RequestState) :
    (r.promptTokens.length : Int) ≤ r.promptTokens.length + r.targetTokens.length := by
  omega

/-- A run whose requests fit together has room for every step. -/
theorem FitTogether.runFits {requests : List RequestState} (hfit : rt.FitTogether requests)
    (hv : rt.ValidBlocks) (hps : 1 ≤ rt.config.pageSize) (hf : FreshRequests requests) :
    rt.RunFits requests := by
  intro s hs
  by_cases hn : Workers.Raised s
  · obtain ⟨e, he⟩ := hn
    refine ⟨fun r hr => ?_, fun r hr => ?_⟩
    · simp [PoolState.nextPrefill, he] at hr
    · simp [PoolState.nextDecode, he] at hr
  · have hroomy := roomy_run hv hps hf hfit hs hn
    have hids := ids_nodup hf hs hn
    refine fitsNext_of_fits (fun r hr => ?_) fun r hr total hle => ?_
    · exact hroomy.committed r (PoolState.mem_bag_of_waiting hr)
    · obtain ⟨rest, hrest, -⟩ := roomy_of_mem hroomy (PoolState.mem_bag_of_waiting hr) hids
      exact hrest.fits hps hle

theorem submit_rehydrationCount (rt : PersistentDecodeRuntime) (r : RequestState) :
    (rt.submit r).rehydrationCount = r.rehydrationCount :=
  submit_keeps (fun _ _ => rfl) (fun _ _ _ _ => rfl) rt r

/-- Nothing has been evicted, and every request that waits for a decode step has its pages. -/
structure Unpressed (s : RuntimeState) : Prop where
  evictions : s.cache.evictionCount = 0
  snapshots : ∀ r ∈ s.prefilled, s.cache.hasSnapshot r = true

theorem unpressed_start (rt : PersistentDecodeRuntime) (requests : List RequestState) :
    Unpressed (rt.start requests) := by
  refine ⟨rfl, fun r hr => ?_⟩
  have hnone : (rt.start requests).prefilled = 0 := rfl
  rw [hnone] at hr
  exact absurd hr (Multiset.notMem_zero r)

/-- One request changes, and no page goes. -/
theorem Unpressed.retains {s s' : RuntimeState} {r' : RequestState}
    {others : Multiset RequestState} (h : Unpressed s) (hkept : Retains s.cache s'.cache)
    (hothers : others ≤ s.prefilled) (hs' : s'.prefilled = r' ::ₘ others)
    (hr' : s'.cache.hasSnapshot r' = true) : Unpressed s' := by
  refine ⟨hkept.evictions.trans h.evictions, ?_⟩
  rw [hs']
  exact Multiset.forall_mem_cons.mpr ⟨hr', fun q hq =>
    hkept.hasSnapshot (h.snapshots q (Multiset.mem_of_le hothers hq))⟩

/-- A release leaves the snapshots of the other requests live. -/
theorem hasSnapshot_release {c : KVCache} {q : RequestState} {rid : Int} (hi : Inv c)
    (hres : Resident c q) (hne : q.requestId ≠ rid) (hs : c.hasSnapshot q = true) :
    (c.releaseRequest rid).hasSnapshot q = true := by
  obtain ⟨hsome, hlive⟩ := hasSnapshot_iff.mp hs
  refine hasSnapshot_iff.mpr ⟨hsome, fun pid hp => ?_⟩
  obtain ⟨page, hpage⟩ := (Dict.mem_keys_iff _ _).mp (hlive pid hp)
  have howner := (hres pid hp).2 page hpage
  exact Dict.mem_keys_of_get? ((hi.releaseRequest_get? rid).mpr ⟨hpage, howner ▸ hne⟩)

theorem Unpressed.step (hps : 1 ≤ rt.config.pageSize) {s s' : RuntimeState} (h : Unpressed s)
    (hroomy : Roomy rt s.cache s.bag) (hrun : Running rt s)
    (hids : (s.bag.map RequestState.requestId).Nodup) (hs : rt.workers.step s = some s') :
    Unpressed s' ∨ Workers.Raised s' := by
  cases Workers.step_handled hs with
  | same cache prefilled =>
    refine Or.inl ⟨cache ▸ h.evictions, ?_⟩
    rw [cache, prefilled]
    exact h.snapshots
  | joined i r r' next run prefilled =>
    have hbag := PoolState.mem_bag_of_waiting (Workers.nextPrefill_waiting next)
    obtain ⟨rest, hrest, -⟩ := roomy_of_mem hroomy hbag hids
    obtain ⟨hkept, hsnap⟩ := prefill_retains hroomy.inv (hrest.room hps (prompt_le_full r)) run
    exact Or.inl (h.retains hkept le_rfl prefilled hsnap)
  | decoded i r r' trace others next prefilled run prefilled' =>
    have hbag := PoolState.mem_bag_of_waiting (Workers.nextDecode_waiting next)
    obtain ⟨rest, hrest, hne⟩ := roomy_of_mem hroomy hbag hids
    obtain ⟨hkept, hsnap, -⟩ := decode_retains hrest hne (hrun.tidy.resident r hbag) hps
      (hrun.blocks r hbag) (h.snapshots r (Workers.nextDecode_prefilled next)) run
    refine Or.inl (h.retains hkept ?_ prefilled' hsnap)
    rw [prefilled]
    exact Multiset.le_cons_self _ _
  | left r bag prefilled cache =>
    have hrelease : s'.cache = s.cache.releaseRequest r.requestId := cache
    refine Or.inl ⟨?_, fun q hq => ?_⟩
    · rw [hrelease, releaseRequest_evictionCount]
      exact h.evictions
    · have hbag' : q ∈ s'.bag := by
        rw [PoolState.bag_eq]
        exact Multiset.mem_add.mpr (Or.inr hq)
      have hne : q.requestId ≠ r.requestId := by
        rw [bag, Multiset.map_cons, Multiset.nodup_cons] at hids
        exact fun heq => hids.1 (Multiset.mem_map.mpr ⟨q, hbag', heq⟩)
      have hbag : q ∈ s.bag := bag ▸ Multiset.mem_cons_of_mem hbag'
      have hold : q ∈ s.prefilled := prefilled ▸ Multiset.mem_cons_of_mem hq
      rw [hrelease]
      exact hasSnapshot_release hroomy.inv (hrun.tidy.resident q hbag) hne (h.snapshots q hold)
  | failed control => exact Or.inr control

theorem unpressed_run (hv : rt.ValidBlocks) (hps : 1 ≤ rt.config.pageSize)
    {requests : List RequestState} (hf : FreshRequests requests)
    (hfit : rt.FitTogether requests) {s : RuntimeState}
    (hs : Reaches rt.workers.step (rt.start requests) s) : Unpressed s ∨ Workers.Raised s := by
  refine Workers.invariant_or_raised hs (unpressed_start rt requests) fun u v hu h hstep => ?_
  have hn := Workers.not_raised_of_step hstep
  exact h.step hps (roomy_run hv hps hf hfit hu hn) ((running_run hv hf.fresh hu).resolve_right hn)
    (ids_nodup hf hu hn) hstep

/-- No request of such a run is rehydrated. -/
theorem rehydrations_run (hv : rt.ValidBlocks) (hps : 1 ≤ rt.config.pageSize)
    {requests : List RequestState} (hf : FreshRequests requests)
    (hnew : ∀ r ∈ requests, r.rehydrationCount = 0) (hfit : rt.FitTogether requests)
    {s : RuntimeState} (hs : Reaches rt.workers.step (rt.start requests) s) :
    rt.workers.Holds (fun r => r.rehydrationCount = 0) s ∨ Workers.Raised s := by
  have hstart : ∀ r ∈ requests.map rt.submit,
      rt.workers.finished r = false ∧ r.rehydrationCount = 0 := by
    intro r hr
    refine ⟨submit_unfinished hf.fresh r hr, ?_⟩
    obtain ⟨r₀, hr₀, rfl⟩ := List.mem_map.mp hr
    rw [submit_rehydrationCount]
    exact hnew r₀ hr₀
  refine rt.workers_lawful.holds hstart ?_ ?_ hs
  · intro u i r r' c' _ _ hzero hrun
    obtain ⟨m, c₁, -, -, rfl⟩ := prefillProcess_ok hrun
    exact hzero
  · intro u i r r' trace c' hu hnext _ hzero hrun
    obtain ⟨v, hstep, -⟩ := rt.workers.step_nextDecode hnext
    have hn := Workers.not_raised_of_step hstep
    have hrunning := (running_run hv hf.fresh hu).resolve_right hn
    have hunpressed := (unpressed_run hv hps hf hfit hu).resolve_right hn
    have hbag := PoolState.mem_bag_of_waiting (Workers.nextDecode_waiting hnext)
    obtain ⟨rest, hrest, hne⟩ :=
      roomy_of_mem (roomy_run hv hps hf hfit hu hn) hbag (ids_nodup hf hu hn)
    obtain ⟨-, -, hsame⟩ := decode_retains hrest hne (hrunning.tidy.resident r hbag) hps
      (hrunning.blocks r hbag) (hunpressed.snapshots r (Workers.nextDecode_prefilled hnext)) hrun
    exact hsame.trans hzero

/-- A run that returns has not failed anywhere. -/
theorem Returns.not_raised {requests : List RequestState} {results : List DecodeResult}
    (h : rt.Returns requests results) {s : RuntimeState}
    (hs : Reaches rt.workers.step (rt.start requests) s) : ¬ Workers.Raised s := by
  rintro ⟨e, he⟩
  obtain ⟨t, ht, hc⟩ := h
  have hlast : s ∈ eval rt.workers.step (rt.start requests) :=
    mem_eval.mpr ⟨hs, Workers.step_raised he⟩
  rw [Part.mem_unique hlast ht, hc] at he
  cases he

/-- Enough pages means no pressure: a run whose requests fit in the cache together returns, never
evicts a page, and rehydrates no request. -/
theorem returns_without_pressure (hv : rt.ValidBlocks) (hps : 1 ≤ rt.config.pageSize)
    {requests : List RequestState} (hf : FreshRequests requests)
    (hnew : ∀ r ∈ requests, r.rehydrationCount = 0)
    (hw : requests ≠ [] → 1 ≤ rt.config.numPrefillWorkers ∧ 1 ≤ rt.config.numDecodeWorkers)
    (hfit : rt.FitTogether requests) :
    (∀ s, Reaches rt.workers.step (rt.start requests) s → s.cache.evictionCount = 0) ∧
      ∃ results, rt.Returns requests results ∧
        ∀ result ∈ results, result.rehydrationCount = 0 := by
  obtain ⟨results, hreturns⟩ := (hfit.runFits hv hps hf).returns hv hps hf hw
  refine ⟨fun s hs => ?_, results, hreturns, fun result hresult => ?_⟩
  · exact ((unpressed_run hv hps hf hfit hs).resolve_right (hreturns.not_raised hs)).evictions
  · obtain ⟨t, ht, -, -, rfl, -⟩ := hreturns.ended hf.fresh
    have hreach := (mem_eval.mp ht).1
    have hholds := (rehydrations_run hv hps hf hnew hfit hreach).resolve_right
      (hreturns.not_raised hreach)
    have hmem := (List.perm_insertionSort _ t.finalResults).mem_iff.mp hresult
    obtain ⟨r, traces, hzero, -, rfl⟩ := hholds.results result hmem
    exact hzero

/-- Pages for every token of the requests as they come are not enough by themselves: without a
prefill worker, with a page size below one, or with a request that leaves its layers to the
configuration the run may fail. -/
theorem enough_pages_may_fail :
    (¬ ∀ (rt : PersistentDecodeRuntime) (requests : List RequestState), rt.ValidBlocks →
      FreshRequests requests → (requests.map rt.demand).sum ≤ rt.config.maxPages →
      1 ≤ rt.config.pageSize → (∀ r ∈ requests, r.layerIds ≠ []) →
      ∃ results, rt.Returns requests results) ∧
    (¬ ∀ (rt : PersistentDecodeRuntime) (requests : List RequestState), rt.ValidBlocks →
      FreshRequests requests → (requests.map rt.demand).sum ≤ rt.config.maxPages →
      1 ≤ rt.config.numPrefillWorkers → 1 ≤ rt.config.numDecodeWorkers →
      (∀ r ∈ requests, r.layerIds ≠ []) → ∃ results, rt.Returns requests results) ∧
    ¬ ∀ (rt : PersistentDecodeRuntime) (requests : List RequestState), rt.ValidBlocks →
      FreshRequests requests → (requests.map rt.demand).sum ≤ rt.config.maxPages →
      1 ≤ rt.config.pageSize → 1 ≤ rt.config.numPrefillWorkers →
      1 ≤ rt.config.numDecodeWorkers → ∃ results, rt.Returns requests results := by
  refine ⟨fun h => ?_, fun h => ?_, fun h => ?_⟩
  · obtain ⟨results, hreturned⟩ := h { config := { numPrefillWorkers := 0 } } [.ask 1 [1] [10]]
      (by decide) (by decide) (by decide) (by decide) (by decide)
    exact not_returns_of_runFor (n := 3) _ (by decide +kernel) (by decide +kernel) results
      hreturned
  · obtain ⟨results, hreturned⟩ := h { config := { pageSize := -1, maxPages := -1 } }
      [.ask 1 [1] [10]] (by decide) (by decide) (by decide) (by decide) (by decide) (by decide)
    exact not_returns_of_runFor (n := 3) _ (by decide +kernel) (by decide +kernel) results
      hreturned
  · obtain ⟨results, hreturned⟩ := h { config := { pageSize := 1, maxPages := 1 } }
      [{ RequestState.ask 1 [1] [10] with layerIds := [] }]
      (by decide) (by decide) (by decide) (by decide) (by decide) (by decide)
    exact not_returns_of_runFor (n := 3) _ (by decide +kernel) (by decide +kernel) results
      hreturned

/-- Two requests of three pages each in a cache of six pages. -/
theorem two_requests_without_pressure :
    (∀ s, Reaches (workers { config := { blockSize := 1, pageSize := 1, maxPages := 6 } }).step
        (start { config := { blockSize := 1, pageSize := 1, maxPages := 6 } }
          [.ask 1 [1] [10, 11], .ask 2 [1] [10, 11]]) s → s.cache.evictionCount = 0) ∧
      ∃ results, Returns { config := { blockSize := 1, pageSize := 1, maxPages := 6 } }
          [.ask 1 [1] [10, 11], .ask 2 [1] [10, 11]] results ∧
        ∀ result ∈ results, result.rehydrationCount = 0 :=
  returns_without_pressure (by decide) (by decide) (by decide) (by decide) (by decide)
    (by decide)

end PersistentDecodeRuntime
end ResidentInference

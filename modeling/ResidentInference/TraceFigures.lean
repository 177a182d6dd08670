import ResidentInference.Residency
import ResidentInference.DraftDiscard
import ResidentInference.TraceLog

/-! The figures in the traces: when the blocks and bytes that a decode step reports are those of the
pages it hands to the backend. -/
namespace ResidentInference
open StateTransition

/-- The figures are those of the pages that were read, out of the pages there were to read. -/
structure Balanced (bytesPerPage : Int) (t : DecodeStepTrace) : Prop where
  selected : t.kvBlocksSelected = t.selectedKvPageIds.length
  within : t.kvBlocksSelected ≤ t.kvBlocksTotal
  read : t.estimatedKvBytesRead = t.kvBlocksSelected * bytesPerPage
  saved : t.estimatedKvBytesSaved = (t.kvBlocksTotal - t.kvBlocksSelected) * bytesPerPage

namespace Workers
variable {ρ κ τ β η : Type} {w : Workers ρ κ τ β η}

/-- A trace that is not collected yet was in hand before or comes from the decode step. -/
theorem stepped_of_step {s s' : PoolState ρ κ τ β η} (hs : w.step s = some s') {p : ρ × τ}
    (hp : p ∈ s'.control.stepped) : p ∈ s.control.stepped ∨
      ∃ i r, s.nextDecode = some r ∧ w.decode i s.cache r = (.ok p, s'.cache) := by
  cases w.step_turn hs with
  | decodes n stepped r r' trace queue cache hc hpop _ hrun =>
    obtain hp | hp := List.mem_append.mp hp
    · rw [hc]
      exact Or.inl hp
    · rw [List.mem_singleton.mp hp]
      exact Or.inr ⟨_, r, nextDecode_of_pop hc hpop, hrun⟩
  | decodesDone stepped hc =>
    rw [hc]
    exact Or.inl hp
  | collects r trace rest hc =>
    rw [(w.collect_control s r trace rest).2] at hp
    rw [hc]
    exact Or.inl (List.mem_cons_of_mem _ hp)
  | fails _ e hc _ _ _ =>
    rw [hc] at hp
    cases hp
  | _ => cases hp

/-- A decode step that succeeds leaves its trace in hand. -/
theorem stepped_nextDecode {s s' : PoolState ρ κ τ β η} (hs : w.step s = some s') {r : ρ}
    (hn : s.nextDecode = some r) (hok : ¬ Raised s') :
    ∃ i, ∃ p ∈ s'.control.stepped, w.decode i s.cache r = (.ok p, s'.cache) := by
  obtain ⟨n, stepped, hc⟩ := control_of_nextDecode hn
  cases w.step_turn hs with
  | decodes n stepped r₀ r' trace queue cache hc hpop _ hrun =>
    obtain rfl : r₀ = r := Option.some.inj ((nextDecode_of_pop hc hpop).symm.trans hn)
    exact ⟨_, (r', trace), List.mem_append_right _ List.mem_cons_self, hrun⟩
  | fails _ e hc' _ _ _ => exact absurd ⟨e, hc'⟩ hok
  | _ => simp_all

end Workers

namespace KVCache
variable {c : KVCache}

/-! ### What a selection finds -/

theorem selectedPages_length_le (c : KVCache) (config : RuntimeConfig) (r : RequestState) :
    (c.selectedPages config r).length ≤
      ((c.pagesForRequest r.requestId).filter KVPage.isActive).length := by
  have hranked : (c.rankedPages r).length =
      ((c.pagesForRequest r.requestId).filter KVPage.isActive).length := by
    rw [rankedPages, List.length_insertionSort, List.length_map]
  rw [← hranked, selectedPages, List.length_take]
  exact min_le_right _ _

/-- A selection is empty if it may take no page or finds no active one. -/
theorem selectedPages_eq_nil_iff (c : KVCache) (config : RuntimeConfig) (r : RequestState) :
    c.selectedPages config r = [] ↔ ¬ (0 < config.sparseTopK ∧
      ∃ page ∈ c.pagesForRequest r.requestId, page.isActive = true) := by
  have hranked : (c.rankedPages r).length =
      ((c.pagesForRequest r.requestId).filter KVPage.isActive).length := by
    rw [rankedPages, List.length_insertionSort, List.length_map]
  have hpos : 0 < (c.rankedPages r).length ↔
      ∃ page ∈ c.pagesForRequest r.requestId, page.isActive = true := by
    rw [hranked, List.length_pos_iff_exists_mem]
    simp only [List.mem_filter]
  rw [← hpos, ← List.length_eq_zero_iff, selectedPages, List.length_take]
  omega

/-! ### What a rehydration leaves -/

theorem adds_allocateForRequest (h : Inv c) {r : RequestState} {total : Int} {pinned : Bool}
    {m : LayerPageMap} {c' : KVCache} (hok : c.allocateForRequest r total pinned = (.ok m, c')) :
    ∃ c₁, Inv c₁ ∧ Evolves (fun _ => False) c c₁ ∧
      allocateLayers r.requestId total pinned r.layerIds c₁ Dict.empty = (c', m) ∧
      Adds r.requestId r.layerIds c₁ c' := by
  have hlayers := allocateForRequest_ok hok
  have h₁ := h.evictAll (c.victims (c.neededPages r total - c.freePages))
  have ha : Adds r.requestId r.layerIds _ _ :=
    adds_allocateLayers h₁ (fun _ hl => hl) total pinned Dict.empty
  rw [hlayers] at ha
  exact ⟨_, h₁, c.evolves_evictAll _, hlayers, ha⟩

/-- The request has no page. -/
def Pageless (c : KVCache) (rid : Int) : Prop :=
  ∀ pid page, c.pages.get? pid = some page → page.requestId ≠ rid

theorem Pageless.evolves {rid : Int} {c' : KVCache} (h : Pageless c rid)
    (he : Evolves (fun _ => False) c c') : Pageless c' rid := by
  intro pid page hp
  obtain ⟨page₀, hp₀, hs⟩ | ⟨_, hno⟩ := he.page pid page hp
  · rw [hs.requestId]
    exact h pid page₀ hp₀
  · exact hno.elim

/-- The pages that a request without pages is given are not committed. -/
theorem Pageless.uncommitted {rid : Int} {layers : List Int} {c' : KVCache} (h : Pageless c rid)
    (h' : Inv c') (ha : Adds rid layers c c') :
    ∀ page ∈ c'.pagesForRequest rid, page.isActive = false := by
  intro page hm
  obtain ⟨hp, hr⟩ := h'.mem_pagesForRequest hm
  obtain hlt | hle := lt_or_ge page.pageId c.nextPageId
  · rw [ha.old _ hlt] at hp
    exact absurd hr (h _ page hp)
  · rw [KVPage.isActive, (ha.new _ page hle hp).1, Bool.false_and]

theorem Pageless.pageIdsFor {rid : Int} (h : Pageless c rid) (hi : Inv c) (l : Int) :
    c.pageIdsFor (rid, l) = [] := by
  apply List.eq_nil_iff_forall_not_mem.mpr
  intro pid hm
  obtain ⟨page, hp, hr⟩ := hi.owned_of_listed hm
  exact h pid page hp hr

/-- A layer with tokens to place has a page afterwards. -/
theorem allocateLayer_filled {total : Int} (hreq : 0 < c.requiredPages total) (rid : Int)
    (pinned : Bool) (l : Int) : (c.allocateLayer rid total pinned l).2 ≠ [] := by
  have hpos : 0 < total := by
    by_contra hle
    rw [requiredPages, if_pos (not_lt.mp hle)] at hreq
    exact lt_irrefl _ hreq
  have hps : 0 < c.pageSize := by
    by_contra hle
    rw [requiredPages, if_neg (not_le.mpr hpos)] at hreq
    exact absurd (ceilDiv_nonpos hpos (not_lt.mp hle)) (not_le.mpr hreq)
  simp only [allocateLayer]
  split
  · next hless =>
    have hmore : 0 < ceilDiv (total - (c.pageIdsFor (rid, l)).length * c.pageSize) c.pageSize :=
      (ceilDiv_pos hps).mpr (by omega)
    intro hnil
    have hlen := congrArg List.length hnil
    rw [allocatePages_ids, List.length_append, List.length_range', List.length_nil] at hlen
    omega
  · next hless =>
    intro hnil
    have hempty : c.pageIdsFor (rid, l) = [] := hnil
    rw [hempty, List.length_nil, Nat.cast_zero, zero_mul] at hless
    exact hless hpos

theorem allocateLayers_filled {total : Int} (hreq : 0 < c.requiredPages total) (rid : Int)
    (pinned : Bool) (layers : List Int) (m : LayerPageMap) (l : Int)
    (hl : l ∈ layers ∨ ∃ ids, m.get? l = some ids ∧ ids ≠ []) :
    ∃ ids, (allocateLayers rid total pinned layers c m).2.get? l = some ids ∧ ids ≠ [] := by
  induction layers generalizing c m with
  | nil => exact hl.resolve_left List.not_mem_nil
  | cons l' layers ih =>
    have hreq' : 0 < (c.allocateLayer rid total pinned l').1.requiredPages total := by
      rwa [requiredPages, allocateLayer_pageSize]
    rw [allocateLayers_cons]
    apply ih hreq'
    rw [Dict.get?_set]
    by_cases he : l = l'
    · exact Or.inr ⟨_, if_pos he, allocateLayer_filled hreq rid pinned l'⟩
    · rw [if_neg he]
      exact hl.imp (fun hm => (List.mem_cons.mp hm).resolve_left he) id

/-- Where no page is required, none is added to a request that has none. -/
theorem allocateLayers_none {r : RequestState} {total : Int} (hreq : c.requiredPages total ≤ 0)
    (pinned : Bool) (layers : List Int) (m : LayerPageMap)
    (hnone : ∀ l, c.pageIdsFor (r.requestId, l) = []) :
    (allocateLayers r.requestId total pinned layers c m).1 = c := by
  refine allocateLayers_same pinned m fun l _ => ?_
  rw [pagesNeededForLayer, hnone l, List.length_nil, Nat.cast_zero, sub_zero, max_eq_right hreq]

end KVCache

/-! ### The figures of one step -/

namespace PersistentDecodeRuntime
variable {rt : PersistentDecodeRuntime}
open KVCache

def bytesPerPage (rt : PersistentDecodeRuntime) : Int :=
  rt.config.pageSize * rt.config.bytesPerTokenPerLayer

/-- The cache is one that the runtime works on. -/
structure Serving (rt : PersistentDecodeRuntime) (c : KVCache) : Prop where
  inv : Inv c
  pageSize : c.pageSize = rt.config.pageSize
  config : c.config = some rt.config

theorem selectReads_balanced_iff (hblock : rt.config.kvBlockSize = rt.config.pageSize)
    {c : KVCache} (h : rt.Serving c) (r : RequestState) (idx : Nat) (blockSize : Int)
    (spec : Speculation) :
    Balanced rt.bytesPerPage (traceOf idx blockSize spec (rt.selectReads c r).1) ↔
      rt.config.enableSparseKv = false ∨ c.selectedPages rt.config r ≠ [] ∨ r.kvPageIds = [] := by
  cases hs : rt.config.enableSparseKv with
  | false =>
    have hbytes : c.bytesPerPage = rt.bytesPerPage := by
      rw [KVCache.bytesPerPage, bytesPerTokenPerLayer, h.config, h.pageSize]
      rfl
    refine iff_of_true ?_ (Or.inl rfl)
    constructor <;> simp [traceOf, selectReads, hs, hbytes]
  | true =>
    have hle := c.selectedPages_length_le rt.config r
    have hmax : max (((c.pagesForRequest r.requestId).filter KVPage.isActive).length -
        ((c.selectedPages rt.config r).length : Int)) 0 =
        ((c.pagesForRequest r.requestId).filter KVPage.isActive).length -
          (c.selectedPages rt.config r).length := max_eq_left (by omega)
    have hrest (ids : List Nat) : ids.length = (c.selectedPages rt.config r).length ↔
        Balanced rt.bytesPerPage (traceOf idx blockSize spec
          { pageIds := ids
            blocksTotal := ((c.pagesForRequest r.requestId).filter KVPage.isActive).length
            blocksSelected := (c.selectedPages rt.config r).length
            bytesRead := (c.selectedPages rt.config r).length *
              (rt.config.kvBlockSize * rt.config.bytesPerTokenPerLayer)
            bytesSaved := max (((c.pagesForRequest r.requestId).filter KVPage.isActive).length -
                ((c.selectedPages rt.config r).length : Int)) 0 *
              (rt.config.kvBlockSize * rt.config.bytesPerTokenPerLayer) }) := by
      constructor
      · intro hlen
        refine ⟨by simp [traceOf, hlen], by simpa [traceOf] using hle, ?_, ?_⟩
        · simp [traceOf, hblock, bytesPerPage]
        · simp only [traceOf, hmax, hblock, bytesPerPage]
      · intro hb
        have hsel := hb.selected
        simp only [traceOf] at hsel
        omega
    simp only [selectReads, hs, if_true, select, Bool.true_eq_false, false_or]
    rw [← hrest]
    by_cases hnil : c.selectedPages rt.config r = []
    · simp [hnil]
    · simp [hnil]

/-- The step reads every page, or has a page to select, or has no page to read: a request without
its pages gets new ones, of which none is committed. -/
def Metered (rt : PersistentDecodeRuntime) (c : KVCache) (r : RequestState) : Prop :=
  rt.config.enableSparseKv = false ∨
    if c.hasSnapshot r = true then
      (0 < rt.config.sparseTopK ∧
        ∃ page ∈ c.pagesForRequest r.requestId, page.isActive = true) ∨ r.kvPageIds = []
    else r.layerIds = [] ∨ c.requiredPages r.currentTokens ≤ 0

instance (rt : PersistentDecodeRuntime) (c : KVCache) (r : RequestState) :
    Decidable (rt.Metered c r) := inferInstanceAs (Decidable (_ ∨ _))

theorem kvPageIds_snapshot (r : RequestState) (m : LayerPageMap) :
    ({ r with kvSnapshot := some (r.snapshot m) } : RequestState).kvPageIds =
      r.layerIds.flatMap fun l => (m.get? l).getD [] := rfl

theorem rehydrated_kvPageIds {c c' : KVCache} {r : RequestState} {m : LayerPageMap} (h : Inv c)
    (hc : Pageless c r.requestId)
    (hok : c.allocateForRequest r r.currentTokens true = (.ok m, c')) :
    (∀ page ∈ c'.pagesForRequest r.requestId, page.isActive = false) ∧
      (({ r with kvSnapshot := some (r.snapshot m) } : RequestState).kvPageIds = [] ↔
        r.layerIds = [] ∨ c.requiredPages r.currentTokens ≤ 0) := by
  obtain ⟨c₁, h₁, he, hlayers, ha⟩ := adds_allocateForRequest h hok
  have hless := hc.evolves he
  have hreq := he.requiredPages r.currentTokens
  have h' : Inv c' := by
    have hi := h.allocateForRequest r r.currentTokens true
    rwa [hok] at hi
  refine ⟨hless.uncommitted h' ha, ?_⟩
  rw [kvPageIds_snapshot, List.flatMap_eq_nil_iff]
  constructor
  · intro hall
    by_contra hne
    obtain ⟨hl, hpos⟩ := not_or.mp hne
    obtain ⟨l, hm⟩ := List.exists_mem_of_ne_nil _ hl
    obtain ⟨ids, hget, hfull⟩ := allocateLayers_filled (hreq.symm ▸ not_le.mp hpos) r.requestId
      true r.layerIds Dict.empty l (Or.inl hm)
    rw [hlayers] at hget
    have hnil := hall l hm
    rw [hget] at hnil
    exact hfull hnil
  · rintro (hl | hle) l hm
    · rw [hl] at hm
      cases hm
    · -- nothing was allocated, so the request owns no page that the map could list
      have hsame := allocateLayers_none (hreq.symm ▸ hle) true r.layerIds Dict.empty
        fun l => hless.pageIdsFor h₁ l
      rw [hlayers] at hsame
      have howned := allocateForRequest_owned h hok
      cases hget : m.get? l with
      | none => rfl
      | some ids =>
        apply List.eq_nil_iff_forall_not_mem.mpr
        intro pid hpid
        obtain ⟨page, hp, hr⟩ := howned l ids hget pid hpid
        have hsame' : c' = c₁ := hsame
        rw [hsame'] at hp
        exact hless pid page hp hr

theorem rehydrated_metered_iff {c c' : KVCache} {r r' : RequestState} (h : Inv c)
    (hrun : rehydrateIfNeeded c r = (.ok r', c')) :
    rt.Metered c r ↔ rt.config.enableSparseKv = false ∨
      c'.selectedPages rt.config r' ≠ [] ∨ r'.kvPageIds = [] := by
  unfold Metered
  by_cases hs : c.hasSnapshot r = true
  · simp only [rehydrateIfNeeded, if_pos hs] at hrun
    cases hrun
    rw [if_pos hs, ne_eq, selectedPages_eq_nil_iff, not_not]
  · rw [if_neg hs]
    have hrelease : Pageless (c.releaseRequest r.requestId) r.requestId := fun pid page hp =>
      ((h.releaseRequest_get? r.requestId).mp hp).2
    have hsize := (evolves_releaseRequest (fun _ => False) c r.requestId).requiredPages
      r.currentTokens
    simp only [rehydrateIfNeeded, if_neg hs] at hrun
    split at hrun
    · cases hrun
    · next m c₁ ha =>
      cases hrun
      obtain ⟨hinactive, hids⟩ := rehydrated_kvPageIds (h.releaseRequest _) hrelease ha
      have hnil : c'.selectedPages rt.config { r with
          kvSnapshot := some (r.snapshot m)
          rehydrationCount := r.rehydrationCount + 1 } = [] := by
        rw [selectedPages_eq_nil_iff]
        rintro ⟨_, page, hm, hactive⟩
        rw [hinactive page hm] at hactive
        cases hactive
      rw [hsize] at hids
      rw [← hids]
      simp only [hnil, ne_eq, not_true_eq_false, false_or]
      rfl

/-- The figures of a decode step are those of its pages exactly if the step is metered. -/
theorem decode_balanced_iff (hblock : rt.config.kvBlockSize = rt.config.pageSize) {idx : Nat}
    {c c' : KVCache} {r r' : RequestState} {t : DecodeStepTrace} (h : rt.Serving c)
    (hrun : rt.decodeProcess idx c r = (.ok (r', t), c')) :
    Balanced rt.bytesPerPage t ↔ rt.Metered c r := by
  obtain ⟨ready, reads, spec, committed, prepared, grown, hst⟩ := decodeProcess_ok hrun
  obtain ⟨c₁, hre, rfl, _⟩ := prepare_ok hst.prepare
  have hm := rehydrate_cache h.inv hre
  have hserving : rt.Serving c₁ :=
    ⟨hm.inv, hm.evolves.pageSize.trans h.pageSize, hm.evolves.config.trans h.config⟩
  have htaken : rt.Metered c r ↔ rt.Metered c (taken idx r) := Iff.rfl
  rw [hst.trace, selectReads_balanced_iff hblock hserving, htaken, rehydrated_metered_iff h.inv hre]

/-! ### Whole runs -/

theorem Serving.moves {rid : Int} {c c' : KVCache} (h : rt.Serving c) (hm : Moves rid c c') :
    rt.Serving c' :=
  ⟨hm.inv, hm.evolves.pageSize.trans h.pageSize, hm.evolves.config.trans h.config⟩

theorem Serving.step {s s' : RuntimeState} (h : rt.Serving s.cache)
    (hs : rt.workers.step s = some s') : rt.Serving s'.cache ∨ Workers.Raised s' := by
  cases rt.workers.step_effect hs with
  | silent cache _ _ _ => exact Or.inl (cache ▸ h)
  | prefilled i r r' rest _ _ run _ _ _ => exact Or.inl (h.moves (prefill_moves h.inv run).1)
  | decoded i r r' trace rest _ _ run _ _ _ => exact Or.inl (h.moves (decode_cache h.inv run))
  | finished r traces _ _ cache _ _ =>
    have hm : Moves r.requestId s.cache s'.cache := by
      rw [cache]
      exact moves_release h.inv _ _
    exact Or.inl (h.moves hm)
  | failed e control _ _ => exact Or.inr ⟨e, control⟩

theorem serving_run {requests : List RequestState} {s : RuntimeState}
    (hs : Reaches rt.workers.step (rt.start requests) s) :
    rt.Serving s.cache ∨ Workers.Raised s :=
  Workers.invariant_or_raised (Q := fun s => rt.Serving s.cache) hs ⟨inv_new _ _ _, rfl, rfl⟩
    fun _ _ _ hu hstep => hu.step hstep

/-- The trace of every decode step of a run is balanced exactly if every decode step of it that
succeeds is metered. -/
theorem traces_balanced_iff (hblock : rt.config.kvBlockSize = rt.config.pageSize)
    (requests : List RequestState) :
    (∀ s, Reaches rt.workers.step (rt.start requests) s →
        ∀ p ∈ s.control.stepped, Balanced rt.bytesPerPage p.2) ↔
      ∀ s s', Reaches rt.workers.step (rt.start requests) s → rt.workers.step s = some s' →
        ¬ Workers.Raised s' → ∀ r, s.nextDecode = some r → rt.Metered s.cache r := by
  have hserving {s s' : RuntimeState} (hs : Reaches rt.workers.step (rt.start requests) s)
      (hstep : rt.workers.step s = some s') : rt.Serving s.cache :=
    (serving_run hs).resolve_right (Workers.not_raised_of_step hstep)
  constructor
  · intro hall s s' hs hstep hok r hn
    obtain ⟨i, p, hp, hrun⟩ := Workers.stepped_nextDecode hstep hn hok
    have hnext : Reaches rt.workers.step (rt.start requests) s' :=
      Relation.ReflTransGen.tail hs (Option.mem_def.mpr hstep)
    exact (decode_balanced_iff hblock (hserving hs hstep) hrun).mp (hall s' hnext p hp)
  · intro hmet s hs
    refine Runs.invariant (P := fun s => ∀ p ∈ s.control.stepped, Balanced rt.bytesPerPage p.2) hs
      (fun p hp => absurd hp List.not_mem_nil) ?_
    intro u v hu hall hstep p hp
    cases Workers.stepped_of_step hstep hp with
    | inl hold => exact hall p hold
    | inr hnew =>
      obtain ⟨i, r, hn, hrun⟩ := hnew
      have hok : ¬ Workers.Raised v := by
        rintro ⟨e, he⟩
        rw [he] at hp
        cases hp
      exact (decode_balanced_iff hblock (hserving hu hstep) hrun).mpr (hmet u v hu hstep hok r hn)

/-- The page of the prompt is not committed, so the first selection is empty: the backend is given
that page, and the trace says that none was read. -/
theorem first_sparse_step_unbalanced :
    ¬ ∀ (rt : PersistentDecodeRuntime) (requests : List RequestState),
      rt.config.kvBlockSize = rt.config.pageSize →
        ∀ s, Reaches rt.workers.step (rt.start requests) s → ∀ p ∈ s.control.stepped,
          p.2.kvBlocksSelected = p.2.selectedKvPageIds.length := by
  intro h
  let rt : PersistentDecodeRuntime := { config := { enableSparseKv := true } }
  have hall := h rt [.ask 1 [5] [7, 8]] rfl _ (Runs.reaches_runFor rt.workers.step 6 _)
  have hone : ((Runs.runFor rt.workers.step 6
      (rt.start [.ask 1 [5] [7, 8]])).control.stepped.all fun p =>
        decide (p.2.kvBlocksSelected = p.2.selectedKvPageIds.length)) = false := by decide +kernel
  refine Bool.eq_false_iff.mp hone (List.all_eq_true.mpr fun p hp => ?_)
  exact decide_eq_true (hall p hp)

theorem dense_steps_balanced :
    let rt : PersistentDecodeRuntime := { config := {} }
    ∀ s, Reaches rt.workers.step (rt.start [.ask 1 [5] [7, 8]]) s →
      ∀ p ∈ s.control.stepped, Balanced rt.bytesPerPage p.2 := by
  intro rt
  exact (traces_balanced_iff rfl [.ask 1 [5] [7, 8]]).mpr fun _ _ _ _ _ _ _ => Or.inl rfl

end PersistentDecodeRuntime
end ResidentInference

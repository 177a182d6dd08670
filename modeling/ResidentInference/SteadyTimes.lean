import ResidentInference.ResidencyReport
import ResidentInference.RuntimeClock
import ResidentInference.SteadyBlocks

/-! Runs with a clock, without rejections and without memory pressure: the time and the figures of
every result in closed form, and what the cache reports at the end. -/
namespace ResidentInference
open StateTransition KVCache

namespace PersistentDecodeRuntime
variable {rt : PersistentDecodeRuntime} {g : BackendLatencyConfig} {requests : List RequestState}

/-! ### Runs with a clock -/

/-- The runtime behind the clock is in a state of its own run. -/
theorem reaches_untimed {s : TimedRuntimeState}
    (hs : Reaches (rt.timedWorkers g).step (rt.timedStart g requests) s) :
    Reaches rt.workers.step (rt.start requests) (rt.untimed g s) := by
  rw [← rt.untimed_start g]
  exact (rt.workers.unclocked g.latencies).reaches hs

/-- A run that returns returns the same results with their times. -/
theorem Returns.timed {results : List DecodeResult} (h : rt.Returns requests results)
    (g : BackendLatencyConfig) : ∃ t ∈ rt.timedRun g requests, ∃ timed,
      t.control = .returned timed ∧ timed.map TimedResult.result = results := by
  obtain ⟨u, hu, hc⟩ := h
  rw [rt.run_eq_timedRun g requests, Part.mem_map_iff] at hu
  obtain ⟨t, ht, rfl⟩ := hu
  refine ⟨t, ht, ?_⟩
  have hcontrol : (rt.untimed g t).control =
      t.control.map TimedRequest.request TimedTrace.trace TimedResult.result := rfl
  rw [hcontrol] at hc
  cases hlast : t.control with
  | returned timed =>
    rw [hlast] at hc
    exact ⟨timed, rfl, Control.returned.inj hc⟩
  | _ =>
    rw [hlast] at hc
    cases hc

/-- A run with a clock returns its results sorted. -/
theorem perm_of_timed_returned (hf : FreshRequests requests) {s : TimedRuntimeState}
    (hs : Reaches (rt.timedWorkers g).step (rt.timedStart g requests) s)
    {timed : List (TimedResult DecodeStepTrace DecodeResult)} (hc : s.control = .returned timed) :
    timed.Perm s.finalResults := by
  have hopen : ∀ r ∈ requests.map fun r => ({ request := rt.submit r } : TimedRequest _),
      (rt.timedWorkers g).finished r = false := by
    intro r hr
    obtain ⟨r₀, hr₀, rfl⟩ := List.mem_map.mp hr
    exact submit_unfinished hf.fresh _ (List.mem_map_of_mem hr₀)
  obtain ⟨hsorted, -, -⟩ := (Workers.clocked_lawful rt.workers_lawful).returned hopen hs hc
  rw [hsorted]
  exact List.perm_insertionSort _ _

/-- The time of a step without a rehydration. -/
def stepLatency (g : BackendLatencyConfig) (pages : Nat) : ℚ :=
  g.decodeLatency pages + g.verifyLatency pages

/-- Where the requests fit together no step waits for a rehydration. -/
theorem latencies_run (hv : rt.ValidBlocks) (hps : 1 ≤ rt.config.pageSize)
    (hf : FreshRequests requests) (hfit : rt.FitTogether requests) {s : TimedRuntimeState}
    (hs : Reaches (rt.timedWorkers g).step (rt.timedStart g requests) s) :
    (rt.timedWorkers g).Histories (fun _ traces => ∀ t ∈ traces,
      t.backendLatencyMs = stepLatency g t.trace.selectedKvPageIds.length) s := by
  refine (Workers.clocked_lawful rt.workers_lawful).histories ?_ ?_ ?_ ?_ hs
  · have hids := rt.submit_ids requests
    rw [List.map_map] at hids ⊢
    exact hids ▸ hf.distinct
  · intro r hr
    obtain ⟨r₀, hr₀, rfl⟩ := List.mem_map.mp hr
    exact ⟨submit_unfinished hf.fresh _ (List.mem_map_of_mem hr₀),
      fun t ht => absurd ht List.not_mem_nil⟩
  · exact fun _ _ _ _ _ _ _ _ h _ => h
  · intro u i r r' t c' traces hu hnext _ h hrun v hv'
    rw [List.mem_append, List.mem_singleton] at hv'
    cases hv' with
    | inl hold => exact h v hold
    | inr hlast =>
      subst hlast
      have hreach := reaches_untimed hu
      have hnext' : (rt.untimed g u).nextDecode = some r.request := by
        rw [untimed, Workers.Projection.nextDecode, hnext]
        rfl
      have hn := Workers.not_raised_of_next (Or.inr hnext')
      have hlive := ((unpressed_run hv hps hf hfit hreach).resolve_right hn).snapshots r.request
        (Workers.nextDecode_prefilled hnext')
      obtain ⟨-, hms, -, -⟩ := Workers.clocked_decode_ok hrun
      have hcache : u.cache.cache.hasSnapshot r.request = true := hlive
      rw [hms, stepLatency]
      simp only [BackendLatencyConfig.latencies, hcache, if_true, zero_add]

/-- A list whose entries are those of a function is the list of its values. -/
theorem map_eq_map_range {α γ : Type} {l : List α} {f : α → γ} {v : Nat → γ}
    (h : ∀ k a, l[k]? = some a → f a = v k) : l.map f = (List.range l.length).map v := by
  apply List.ext_getElem?
  intro k
  rw [List.getElem?_map, List.getElem?_map]
  by_cases hk : k < l.length
  · rw [List.getElem?_range hk, List.getElem?_eq_getElem hk, Option.map_some, Option.map_some,
      h k _ (List.getElem?_eq_getElem hk)]
  · rw [List.getElem?_eq_none (not_lt.mp hk),
      List.getElem?_eq_none (by rw [List.length_range]; exact not_lt.mp hk)]
    rfl

/-- The pages that step `k` of a request reads in blocks of the configured size. -/
def stepPages (rt : PersistentDecodeRuntime) (r₀ : RequestState) (k : Nat) : Int :=
  (rt.submit r₀).pagesFor rt.config.pageSize
    (r₀.promptTokens.length + k * rt.config.blockSize.toNat)

/-- What a run in steady blocks leaves of a request: its whole target, in the steps that
`steady_results` describes, none of which waits for a rehydration. -/
structure SteadyTimes (rt : PersistentDecodeRuntime) (g : BackendLatencyConfig)
    (r₀ : RequestState) (b : TimedResult DecodeStepTrace DecodeResult) : Prop where
  built : ∃ r, b.result = rt.buildResult r (b.traces.map TimedTrace.trace)
  committed : b.result.committedTokens = r₀.targetTokens
  length : b.traces.length = r₀.targetTokens.length ⌈/⌉ rt.config.blockSize.toNat
  steps : ∀ k t, b.traces[k]? = some t → rt.StepOf r₀.targetTokens k t.trace ∧
    ReadsAll rt.bytesPerPage (rt.stepPages r₀ k) t.trace ∧
    t.backendLatencyMs = stepLatency g t.trace.selectedKvPageIds.length
  distances : b.interTokenLatencyMs = b.traces.map TimedTrace.backendLatencyMs

/-- Every step has tokens to draft. -/
theorem blockAt_ne_nil (hv : rt.ValidBlocks) {target : List Int} {k : Nat}
    (hk : k < target.length ⌈/⌉ rt.config.blockSize.toNat) : rt.blockAt target k ≠ [] := by
  have hb := hv.blockSize
  have hless : ¬ target.length ⌈/⌉ rt.config.blockSize.toNat ≤ k := not_le.mpr hk
  rw [ceilDiv_le_iff_le_mul (by omega), Nat.mul_comm] at hless
  apply List.ne_nil_of_length_pos
  rw [blockAt, List.length_take, List.length_drop]
  omega

theorem steady_times (hexact : rt.rnd = id) (hall : rt.AcceptsAll)
    (hsteady : ∀ policy, rt.adaptivePolicy = some policy → rt.SteadyPolicy policy)
    (hv : rt.ValidBlocks) (hps : 1 ≤ rt.config.pageSize)
    (hdense : rt.config.enableSparseKv = false) (hf : FreshRequests requests)
    (hplain : ∀ r ∈ requests, Plain r) (hspare : rt.SpareRoom requests) {s : TimedRuntimeState}
    (hs : Reaches (rt.timedWorkers g).step (rt.timedStart g requests) s)
    {b : TimedResult DecodeStepTrace DecodeResult} (hb : b ∈ s.finalResults) :
    ∃ r₀ ∈ requests, rt.SteadyTimes g r₀ b := by
  have hlatencies := latencies_run hv hps hf (hspare.fitTogether hps) hs
  obtain ⟨r, traces, -, hms, rfl⟩ := hlatencies.results b hb
  have hmem : rt.buildResult r.request (traces.map TimedTrace.trace) ∈
      (rt.untimed g s).finalResults := List.mem_map_of_mem (f := TimedResult.result) hb
  obtain ⟨r₀, hr₀, -, -, hcommitted, hlen, hsteps⟩ := steady_results hexact hall hsteady hv hps
    hdense hf hplain (fun _ => hspare) (reaches_untimed hs) hmem
  have hlen' : traces.length = r₀.targetTokens.length ⌈/⌉ rt.config.blockSize.toNat := by
    rw [← hlen]
    exact (List.length_map _).symm
  have hat : ∀ k t, traces[k]? = some t → rt.StepOf r₀.targetTokens k t.trace ∧
      ReadsAll rt.bytesPerPage (rt.stepPages r₀ k) t.trace := by
    intro k t hk
    apply hsteps k t.trace
    change (traces.map TimedTrace.trace)[k]? = some t.trace
    rw [List.getElem?_map, hk, Option.map_some]
  refine ⟨r₀, hr₀, ⟨r.request, rfl⟩, hcommitted, hlen', fun k t hk => ?_, ?_⟩
  · obtain ⟨hstep, hread⟩ := hat k t hk
    exact ⟨hstep, hread, hms t (List.mem_of_getElem? hk)⟩
  · have haccepts : ∀ t ∈ traces, g.latencies.accepts t.trace = true := by
      intro t ht
      obtain ⟨k, hk, hget⟩ := List.mem_iff_getElem.mp ht
      have hstep := (hat k t (by rw [List.getElem?_eq_getElem hk, hget])).1
      exact decide_eq_true (hstep.accepted.trans_ne (blockAt_ne_nil hv (hlen' ▸ hk)))
    exact congrArg (List.map _) (List.filter_eq_self.mpr haccepts)

/-! ### The figures of a result -/

/-- The figures of a result in steady blocks. -/
structure SteadyFigures (rt : PersistentDecodeRuntime) (g : BackendLatencyConfig)
    (r₀ : RequestState) (b : TimedResult DecodeStepTrace DecodeResult) : Prop where
  acceptanceRate : b.result.acceptanceRate = 1
  meanBlockSize : b.result.meanBlockSize = rt.config.blockSize
  minBlockSize : b.result.minBlockSize = rt.config.blockSize
  maxBlockSize : b.result.maxBlockSize = rt.config.blockSize
  blocksTotal : b.result.kvBlocksTotal =
    ((List.range b.traces.length).map (rt.stepPages r₀)).sum
  blocksSelected : b.result.kvBlocksSelected =
    ((List.range b.traces.length).map (rt.stepPages r₀)).sum
  bytesRead : b.result.estimatedKvBytesRead =
    ((List.range b.traces.length).map (rt.stepPages r₀)).sum * rt.bytesPerPage
  bytesSaved : b.result.estimatedKvBytesSaved = 0
  distances : b.interTokenLatencyMs =
    (List.range b.traces.length).map fun k => stepLatency g (rt.stepPages r₀ k).toNat

/-- The figures that a result sums up over its steps. -/
theorem sum_traces {traces : List (TimedTrace DecodeStepTrace)} {f : DecodeStepTrace → Int}
    {v : Nat → Int} (hf : ∀ k t, traces[k]? = some t → f t.trace = v k) :
    ((traces.map TimedTrace.trace).map f).sum = ((List.range traces.length).map v).sum := by
  rw [List.map_map]
  exact congrArg List.sum (map_eq_map_range hf)

namespace SteadyTimes
variable {r₀ : RequestState} {b : TimedResult DecodeStepTrace DecodeResult}

theorem traces_pos (h : rt.SteadyTimes g r₀ b) (hv : rt.ValidBlocks)
    (htarget : r₀.targetTokens ≠ []) : 0 < b.traces.length := by
  have hb := hv.blockSize
  have hpos := List.length_pos_of_ne_nil htarget
  rw [h.length]
  by_contra hzero
  have hcover := (ceilDiv_le_iff_le_mul (by omega)).mp (not_lt.mp hzero)
  omega

/-- What is proposed is accepted. -/
theorem accepted_eq (h : rt.SteadyTimes g r₀ b) :
    (b.traces.map TimedTrace.trace).map (fun t => (t.acceptedTokens.length : ℚ)) =
      (b.traces.map TimedTrace.trace).map fun t => (t.proposedTokens.length : ℚ) := by
  rw [List.map_map, List.map_map]
  refine List.map_congr_left fun t ht => ?_
  obtain ⟨k, hk, hget⟩ := List.mem_iff_getElem.mp ht
  have hstep := (h.steps k t (by rw [List.getElem?_eq_getElem hk, hget])).1
  simp only [Function.comp_apply, hstep.accepted, hstep.proposed]

/-- The first step proposes a token. -/
theorem proposed_pos (h : rt.SteadyTimes g r₀ b) (hv : rt.ValidBlocks)
    (htarget : r₀.targetTokens ≠ []) :
    0 < ((b.traces.map TimedTrace.trace).map fun t => (t.proposedTokens.length : ℚ)).sum := by
  have hpos := h.traces_pos hv htarget
  have hget : b.traces[0]? = some b.traces[0] := List.getElem?_eq_getElem hpos
  have hfirst := (h.steps 0 _ hget).1.proposed.trans_ne (blockAt_ne_nil hv (h.length ▸ hpos))
  have hlen : (0 : ℚ) < b.traces[0].trace.proposedTokens.length := by
    exact_mod_cast List.length_pos_of_ne_nil hfirst
  refine hlen.trans_le (List.single_le_sum (fun n hn => ?_) _ ?_)
  · obtain ⟨t, -, rfl⟩ := List.mem_map.mp hn
    exact Nat.cast_nonneg _
  · exact List.mem_map_of_mem (List.mem_map_of_mem (List.getElem_mem hpos))

/-- The sizes that the result reports. -/
theorem sizes_eq (h : rt.SteadyTimes g r₀ b) (hv : rt.ValidBlocks) :
    ((b.traces.map TimedTrace.trace).map DecodeStepTrace.blockSizeUsed).filter
      (fun size => decide (0 < size)) = List.replicate b.traces.length rt.config.blockSize := by
  have hblock := hv.blockSize
  have hall : (b.traces.map TimedTrace.trace).map DecodeStepTrace.blockSizeUsed =
      List.replicate b.traces.length rt.config.blockSize := by
    rw [List.map_map]
    refine (map_eq_map_range fun k t hk => (h.steps k t hk).1.size).trans ?_
    rw [List.map_const', List.length_range]
  rw [hall, List.filter_replicate, if_pos (decide_eq_true (by omega))]

theorem figures (h : rt.SteadyTimes g r₀ b) (hexact : rt.rnd = id) (hv : rt.ValidBlocks)
    (htarget : r₀.targetTokens ≠ []) : rt.SteadyFigures g r₀ b := by
  have hpos := h.traces_pos hv htarget
  have hproposed := (h.proposed_pos hv htarget).ne'
  have hsizes := h.sizes_eq hv
  obtain ⟨r, hbuilt⟩ := h.built
  refine ⟨?_, ?_, ?_, ?_, ?_, ?_, ?_, ?_, ?_⟩
  · rw [hbuilt]
    simp only [buildResult, h.accepted_eq, if_neg hproposed, hexact, id_eq]
    exact div_self hproposed
  · have hsome : List.replicate b.traces.length rt.config.blockSize ≠ [] := by
      simp [hpos.ne']
    rw [hbuilt]
    simp only [buildResult, hsizes, if_neg hsome, hexact, id_eq, List.sum_replicate,
      List.length_replicate, nsmul_eq_mul, Int.cast_mul, Int.cast_natCast]
    exact mul_div_cancel_left₀ _ (by exact_mod_cast hpos.ne')
  · rw [hbuilt]
    simp only [buildResult, hsizes]
    rw [List.min?_replicate_of_pos hpos, Option.getD_some]
  · rw [hbuilt]
    simp only [buildResult, hsizes]
    rw [List.max?_replicate_of_pos hpos, Option.getD_some]
  · rw [hbuilt]
    exact sum_traces fun k t hk => (h.steps k t hk).2.1.total
  · rw [hbuilt]
    exact sum_traces fun k t hk => (h.steps k t hk).2.1.selected
  · rw [hbuilt, ← List.sum_map_mul_right]
    exact sum_traces fun k t hk => (h.steps k t hk).2.1.bytesRead
  · rw [hbuilt]
    have hzero := sum_traces (v := fun _ => 0) fun k t hk => (h.steps k t hk).2.1.bytesSaved
    simpa [buildResult] using hzero
  · rw [h.distances]
    refine map_eq_map_range fun k t hk => ?_
    obtain ⟨-, hread, hms⟩ := h.steps k t hk
    have hpages : (t.trace.selectedKvPageIds.length : Int) = rt.stepPages r₀ k := hread.pageIds
    rw [hms, ← hpages, Int.toNat_natCast]

end SteadyTimes

/-! ### Accesses -/

theorem mem_pageIds_iff {m : LayerPageMap} {pid : Nat} :
    pid ∈ m.pageIds ↔ ∃ l ids, m.get? l = some ids ∧ pid ∈ ids := by
  refine ⟨mem_pageIds, ?_⟩
  rintro ⟨l, ids, hget, hmem⟩
  exact List.mem_flatten.mpr ⟨ids, List.mem_map.mpr
    ⟨(l, ids), (Dict.get?_eq_some_iff _ _ _).mp hget, rfl⟩, hmem⟩

theorem pagesFor_pos {r : RequestState} {pageSize tokens : Int} (hlayers : r.layerIds ≠ [])
    (hps : 0 < pageSize) (ht : 0 < tokens) : 0 < r.pagesFor pageSize tokens :=
  mul_pos (by exact_mod_cast List.length_pos_of_ne_nil hlayers) ((ceilDiv_pos hps).mpr ht)

/-- The prefill of a request with a prompt and layers touches pages. -/
theorem prefill_touches {pin : Bool} {idx : Nat} {c c' : KVCache} {r r' : RequestState}
    (h : Lodged c r) (hi : Inv c) (hps : 0 < c.pageSize) (hnew : r.committedTokens = [])
    (hprompt : r.promptTokens ≠ []) (hlayers : r.layerIds ≠ [])
    (hrun : prefillProcess pin idx c r = (.ok r', c')) : c.accessCount < c'.accessCount := by
  obtain ⟨snapshot, hsnap, haccess⟩ := prefill_accesses hrun
  obtain ⟨htok, hlay, -⟩ := prefill_tokens hrun
  have hpaged := prefill_paged h hi hps hnew hrun (by simp [hsnap])
  have hcur : (0 : Int) < r'.currentTokens := by
    have hpos := List.length_pos_of_ne_nil hprompt
    rw [RequestState.currentTokens_eq (r := r) htok, RequestState.currentTokens]
    omega
  have hpos := pagesFor_pos (hlay ▸ hlayers) hps hcur
  obtain ⟨pid, hpid⟩ := List.exists_mem_of_length_pos (l := r'.kvPageIds) (by omega)
  obtain ⟨l, ids, hget, hmem⟩ := mem_kvPageIds hsnap hpid
  have hlisted := List.length_pos_of_mem (mem_pageIds_iff.mpr ⟨l, ids, hget, hmem⟩)
  omega

/-- A page has been touched, or no request has been through its prefill yet. -/
def Touched (s : RuntimeState) : Prop :=
  0 < s.cache.accessCount ∨ s.cache.accessCount = 0 ∧ s.finalResults = [] ∧
    ∀ r ∈ s.bag, r.kvSnapshot = none ∧ r.finished = false

theorem touched_start (hf : FreshRequests requests) : Touched (rt.start requests) := by
  refine Or.inr ⟨rfl, rfl, fun r hr => ?_⟩
  obtain ⟨r₀, hr₀, rfl⟩ := submitted_of_start hr
  have hsnap : (rt.submit r₀).kvSnapshot = r₀.kvSnapshot :=
    submit_keeps (f := RequestState.kvSnapshot) (fun _ _ => rfl) (fun _ _ _ _ => rfl) rt r₀
  exact ⟨hsnap.trans (hf.fresh r₀ hr₀).snapshot,
    (RequestState.finished_eq (rt.submit_tokens r₀)).trans (hf.fresh r₀ hr₀).unfinished⟩

/-- Every prefill touches a page, and nothing is decoded or finished before its prefill. -/
theorem Touched.step {s s' : RuntimeState} (h : Touched s) (hs : rt.workers.step s = some s')
    (hprefill : ∀ r, s.nextPrefill = some r → ∀ i r' c',
      prefillProcess rt.config.pinReadyDecodePages i s.cache r = (.ok r', c') →
        s.cache.accessCount < c'.accessCount)
    (hlive : ∀ r ∈ s.prefilled, s.cache.hasSnapshot r = true) : Touched s' ∨ Workers.Raised s' := by
  cases rt.workers.step_effect hs with
  | silent cache bag final _ =>
    unfold Touched
    rw [cache, bag, final]
    exact Or.inl h
  | prefilled i r r' rest next bag run _ _ _ =>
    have htouch := hprefill r next i r' s'.cache run
    refine Or.inl (Or.inl ?_)
    rcases h with hpos | ⟨hzero, -⟩ <;> omega
  | decoded i r r' trace rest next bag run _ _ _ =>
    have haccess := decode_accesses run
    rcases h with hpos | ⟨-, -, hnone⟩
    · exact Or.inl (Or.inl (by omega))
    · -- what is decoded has been prefilled
      have hsnap := (hnone r (bag ▸ Multiset.mem_cons_self r rest)).1
      have hhas := hlive r (Workers.nextDecode_prefilled next)
      rw [hasSnapshot, hsnap] at hhas
      cases hhas
  | finished r traces bag done cache _ _ =>
    have haccess : s'.cache.accessCount = s.cache.accessCount := by
      rw [cache]
      exact accessCount_of_closed fun hP hc => hP.releaseRequest _ hc
    rcases h with hpos | ⟨-, -, hnone⟩
    · exact Or.inl (Or.inl (by omega))
    · have hopen := (hnone r (bag ▸ Multiset.mem_cons_self r s'.bag)).2
      exact absurd (hopen.symm.trans done) Bool.false_ne_true
  | failed e control _ _ => exact Or.inr ⟨e, control⟩

/-- Where the requests have prompts and layers and fit together a page has been touched before there
is a result. -/
theorem accesses_run (hv : rt.ValidBlocks) (hps : 1 ≤ rt.config.pageSize)
    (hf : FreshRequests requests) (hfit : rt.FitTogether requests)
    (hprompt : ∀ r ∈ requests, r.promptTokens ≠ [])
    (hlayers : ∀ r ∈ requests, (rt.submit r).layerIds ≠ []) {s : RuntimeState}
    (hs : Reaches rt.workers.step (rt.start requests) s) (hn : ¬ Workers.Raised s)
    (hsome : s.finalResults ≠ []) : 0 < s.cache.accessCount := by
  have h : Touched s ∨ Workers.Raised s := by
    refine Workers.invariant_or_raised hs (touched_start hf) fun u v hu h hstep => ?_
    have hnu := Workers.not_raised_of_step hstep
    have hserving := (serving_run hu).resolve_right hnu
    refine h.step hstep (fun r hnext i r' c' hrun => ?_)
      ((unpressed_run hv hps hf hfit hu).resolve_right hnu).snapshots
    have hbag := PoolState.mem_bag_of_waiting (Workers.nextPrefill_waiting hnext)
    have hlodged := (allLodged_run hv hps hf hu).resolve_right hnu r hbag
    obtain ⟨r₀, hr₀, rfl⟩ := List.mem_map.mp (Workers.nextPrefill_submitted hu hnext)
    have hsubmitted : (rt.submit r₀).promptTokens = r₀.promptTokens :=
      RequestState.promptTokens_eq (rt.submit_tokens r₀)
    exact prefill_touches hlodged hserving.inv (by rw [hserving.pageSize]; omega)
      (submit_committed rt (hf.fresh r₀ hr₀)) (hsubmitted.trans_ne (hprompt r₀ hr₀))
      (hlayers r₀ hr₀) hrun
  exact (h.resolve_right hn).resolve_right fun hnone => hsome hnone.2.1

/-- What the cache reports when a run in which everything fits has served its requests. -/
structure IdleReport (report : ResidencyReport) : Prop where
  hitRate : report.hitRate = 1
  evictionCount : report.evictionCount = 0
  liveKvBytes : report.liveKvBytes = 0
  pinnedKvBytes : report.pinnedKvBytes = 0
  fragmentationRatio : report.fragmentationRatio = 0

theorem Returns.idle (hv : rt.ValidBlocks) (hps : 1 ≤ rt.config.pageSize)
    (hf : FreshRequests requests) (hfit : rt.FitTogether requests)
    (hprompt : ∀ r ∈ requests, r.promptTokens ≠ [])
    (hlayers : ∀ r ∈ requests, (rt.submit r).layerIds ≠ []) {results : List DecodeResult}
    (h : rt.Returns requests results) (hsome : results ≠ []) {t : RuntimeState}
    (ht : t ∈ rt.run requests) : IdleReport (t.cache.residencyReport id) := by
  obtain ⟨t', ht', hc, hbag, hresults, -⟩ := h.ended hf.fresh
  obtain rfl := Part.mem_unique ht' ht
  have hreach := (mem_eval.mp ht).1
  have hn := Workers.not_raised_of_returned hc
  have htidy := (tidy_run hf.fresh hreach).resolve_right hn
  obtain ⟨hpages, hlive, hpinned⟩ := tidy_drained htidy hbag
  have hfinal : t'.finalResults ≠ [] := by
    rintro hnil
    rw [hresults, hnil] at hsome
    exact hsome rfl
  have haccess := accesses_run hv hps hf hfit hprompt hlayers hreach hn hfinal
  have hone : (id : ℚ → ℚ) 1 = 1 := rfl
  obtain ⟨-, hrate⟩ := runtime_hit_rate hf.fresh hone hreach hn
  have hcapacity : t'.cache.totalCapacityTokens = 0 := by
    rw [htidy.inv.accounted.capacity, Dict.size, hpages]
    exact mul_zero _
  refine ⟨by rw [hrate, if_neg haccess.ne'], ?_, hlive, hpinned, ?_⟩
  · exact ((unpressed_run hv hps hf hfit hreach).resolve_right hn).evictions
  · simp only [residencyReport, hcapacity, lt_irrefl, if_false]

end PersistentDecodeRuntime

end ResidentInference

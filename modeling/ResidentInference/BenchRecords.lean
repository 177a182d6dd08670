import ResidentInference.BenchSweep
import ResidentInference.SteadyTimes

/-! What the benchmark records of the persistent runtime in the modes without rejections, pressure
and selections: in exact arithmetic every figure but the mean time to the first token has a closed
form. -/
namespace ResidentInference
open StateTransition KVCache

namespace BenchmarkRunner
open PersistentDecodeRuntime

/-- The modes that accept every draft, read every page and leave the cache its room. -/
def IsPlain (mode : BenchmarkMode) : Prop :=
  mode = .serialDecode ∨ mode = .speculativeDecode ∨ mode = .megaKernelSim

instance (mode : BenchmarkMode) : Decidable (IsPlain mode) := inferInstanceAs (Decidable (_ ∨ _))

/-- A call in such a mode for at least one request, with blocks of at least one token. -/
structure Call.Plain (call : Call) : Prop where
  mode : IsPlain call.mode
  batchSize : 1 ≤ call.batchSize
  blockSize : 1 ≤ call.blockSize

instance (call : Call) : Decidable call.Plain :=
  decidable_of_iff (IsPlain call.mode ∧ 1 ≤ call.batchSize ∧ 1 ≤ call.blockSize)
    ⟨fun h => ⟨h.1, h.2.1, h.2.2⟩, fun h => ⟨h.mode, h.batchSize, h.blockSize⟩⟩

/-! ### The runtime of a call -/

variable {batchSize blockSize : Int} {mode : BenchmarkMode}

theorem modeBlockSize_pos (hb : 1 ≤ blockSize) (mode : BenchmarkMode) :
    1 ≤ modeBlockSize mode blockSize := by
  rw [modeBlockSize]
  split
  · exact le_rfl
  · exact hb

theorem runtime_validBlocks (hb : 1 ≤ blockSize) :
    (runtime batchSize blockSize mode).ValidBlocks where
  blockSize := modeBlockSize_pos hb mode
  minBlock := by
    rintro _ ⟨⟩
    exact le_rfl

theorem runtime_pageSize : 1 ≤ (runtime batchSize blockSize mode).config.pageSize :=
  (by decide : (1 : Int) ≤ 4)

theorem runtime_acceptsAll (hmode : IsPlain mode) :
    (runtime batchSize blockSize mode).AcceptsAll where
  stride := by
    have hne : mode ≠ .forcedRejection := by
      rintro rfl
      exact absurd hmode (by decide)
    rw [runtime, if_neg hne]
    rfl
  keep := rfl

theorem runtime_dense (hmode : IsPlain mode) :
    (runtime batchSize blockSize mode).config.enableSparseKv = false := by
  rcases hmode with rfl | rfl | rfl <;> rfl

theorem runtime_steady (hb : 1 ≤ blockSize) : ∀ policy,
    (runtime batchSize blockSize mode).adaptivePolicy = some policy →
      (runtime batchSize blockSize mode).SteadyPolicy policy := by
  rintro _ ⟨⟩
  have halpha : (1 / 5 : ℚ) ∈ Set.Icc 0 1 := ⟨by norm_num, by norm_num⟩
  exact ⟨rfl, modeBlockSize_pos hb mode, halpha, le_rfl⟩

theorem requests_fresh (batchSize : Int) : FreshRequests (requests batchSize) where
  fresh r hr := by
    obtain ⟨i, -, rfl⟩ := List.mem_map.mp hr
    exact ⟨rfl, rfl, rfl⟩
  distinct := by
    rw [requests, List.map_map]
    exact List.nodup_range.map fun i j h => Int.ofNat_inj.mp h

theorem requests_plain (batchSize : Int) : ∀ r ∈ requests batchSize, Plain r := by
  intro r hr
  obtain ⟨i, -, rfl⟩ := List.mem_map.mp hr
  refine ⟨List.append_ne_nil_of_right_ne_nil _ (List.cons_ne_nil _ _), by simp [buildRequest], ?_⟩
  simp only [buildRequest, List.dropLast_concat, List.mem_map, not_exists, not_and]
  intro k hk
  omega

theorem length_target (requestId : Nat) :
    (buildRequest requestId 8 0).targetTokens.length = 5 := rfl

theorem submit_layerIds (requestId : Nat) : ((runtime batchSize blockSize mode).submit
    (buildRequest requestId 8 0)).layerIds = [0, 1] := rfl

/-- The cache holds 64 pages, or eight for each request, of which it needs four. -/
theorem runtime_spareRoom (hmode : IsPlain mode) :
    (runtime batchSize blockSize mode).SpareRoom (requests batchSize) := by
  have hpages : (runtime batchSize blockSize mode).config.maxPages = max 64 (batchSize * 8) := by
    rcases hmode with rfl | rfl | rfl <;> rfl
  have hdemand : ∀ r ∈ requests batchSize, (runtime batchSize blockSize mode).demand
      ((runtime batchSize blockSize mode).submit r) = 4 := by
    intro r hr
    obtain ⟨i, -, rfl⟩ := List.mem_map.mp hr
    have htok := (runtime batchSize blockSize mode).submit_tokens (buildRequest i 8 0)
    rw [demand, RequestState.promptTokens_eq htok, RequestState.targetTokens_eq htok,
      submit_layerIds, length_target]
    exact (by decide : (([0, 1] : List Int).length : Int) * ceilDiv (3 + 5) 4 = 4)
  have hsum : ((requests batchSize).map fun r => (runtime batchSize blockSize mode).demand
      ((runtime batchSize blockSize mode).submit r)).sum = batchSize.toNat * 4 := by
    rw [List.map_eq_replicate_iff.mpr hdemand, List.sum_replicate, requests, List.length_map,
      List.length_range, nsmul_eq_mul]
  rw [SpareRoom, hsum, hpages]
  omega

/-! ### The record of a call -/

/-- The pages that step `k` of a request reads: those of both layers for the prompt and the blocks
before it. -/
def pagesAt (block : Int) (k : Nat) : Int := 2 * ceilDiv (3 + k * block) 4

/-- The number of blocks in which the five tokens of a request are committed. -/
def stepCount (block : Int) : Nat := 5 ⌈/⌉ block.toNat

/-- The pages that the steps of a request read. -/
def pagesRead (block : Int) : Int := ((List.range (stepCount block)).map (pagesAt block)).sum

/-- The distances between the tokens of a request. -/
def stepTimes (block : Int) : List ℚ :=
  (List.range (stepCount block)).map fun k => 3 / 10 + 3 / 200 * pagesAt block k

/-- A result of a plain call. -/
structure PlainResult (block : Int) (b : TimedResult DecodeStepTrace DecodeResult) : Prop where
  committed : b.result.committedTokens.length = 5
  steps : b.traces.length = stepCount block
  acceptanceRate : b.result.acceptanceRate = 1
  meanBlockSize : b.result.meanBlockSize = block
  minBlockSize : b.result.minBlockSize = block
  maxBlockSize : b.result.maxBlockSize = block
  blocksTotal : b.result.kvBlocksTotal = pagesRead block
  blocksSelected : b.result.kvBlocksSelected = pagesRead block
  bytesRead : b.result.estimatedKvBytesRead = pagesRead block * 12288
  bytesSaved : b.result.estimatedKvBytesSaved = 0
  distances : b.interTokenLatencyMs = stepTimes block
  ttft : 33 / 100 ≤ b.ttftMs

theorem stepPages_runtime (hb : 1 ≤ blockSize) (requestId k : Nat) :
    (runtime batchSize blockSize mode).stepPages (buildRequest requestId 8 0) k =
      pagesAt (modeBlockSize mode blockSize) k := by
  have hblock := modeBlockSize_pos hb mode
  have htwo : (([0, 1] : List Int).length : Int) = 2 := rfl
  have hcast : ((modeBlockSize mode blockSize).toNat : Int) = modeBlockSize mode blockSize :=
    Int.toNat_of_nonneg (by omega)
  rw [stepPages, RequestState.pagesFor, submit_layerIds, htwo, pagesAt, ← hcast]
  rfl

theorem bytesPerPage_runtime : (runtime batchSize blockSize mode).bytesPerPage = 12288 :=
  (by decide : (4 : Int) * (12 * 64 * 2 * 2) = 12288)

theorem pagesAt_pos {block : Int} (hblock : 1 ≤ block) (k : Nat) : 0 < pagesAt block k := by
  have hcovered := (ceilDiv_pos (a := 3 + k * block) (b := 4) (by omega)).mpr (by positivity)
  rw [pagesAt]
  omega

theorem stepLatency_pagesAt {block : Int} (hblock : 1 ≤ block) (k : Nat) :
    stepLatency latency (pagesAt block k).toNat = 3 / 10 + 3 / 200 * pagesAt block k := by
  have hcast : ((pagesAt block k).toNat : ℚ) = pagesAt block k := by
    exact_mod_cast Int.toNat_of_nonneg (pagesAt_pos hblock k).le
  rw [stepLatency, BackendLatencyConfig.decodeLatency, BackendLatencyConfig.verifyLatency, hcast]
  simp only [latency]
  ring

/-- A result of the run behind a plain call, before or after the run has returned. -/
theorem plainResult (hmode : IsPlain mode) (hb : 1 ≤ blockSize) {s : TimedRuntimeState}
    (hs : Reaches ((runtime batchSize blockSize mode).timedWorkers latency).step
      ((runtime batchSize blockSize mode).timedStart latency (requests batchSize)) s)
    (hn : ¬ Workers.Raised s) {b : TimedResult DecodeStepTrace DecodeResult}
    (hmem : b ∈ s.finalResults) : PlainResult (modeBlockSize mode blockSize) b := by
  have hblock := modeBlockSize_pos hb mode
  have hv : (runtime batchSize blockSize mode).ValidBlocks := runtime_validBlocks hb
  have hexact : (runtime batchSize blockSize mode).rnd = id := rfl
  obtain ⟨r₀, hr₀, htimes⟩ := steady_times hexact (runtime_acceptsAll hmode)
    (runtime_steady hb) hv runtime_pageSize (runtime_dense hmode)
    (requests_fresh batchSize) (requests_plain batchSize) (runtime_spareRoom hmode) hs hmem
  obtain ⟨i, -, rfl⟩ := List.mem_map.mp hr₀
  have hfigures := htimes.figures hexact hv
    (List.ne_nil_of_length_pos (length_target i ▸ Nat.succ_pos 4))
  have hsteps : b.traces.length = stepCount (modeBlockSize mode blockSize) := htimes.length
  have hpages : (List.range b.traces.length).map
      ((runtime batchSize blockSize mode).stepPages (buildRequest i 8 0)) =
        (List.range (stepCount (modeBlockSize mode blockSize))).map
          (pagesAt (modeBlockSize mode blockSize)) := by
    rw [hsteps]
    exact List.map_congr_left fun k _ => stepPages_runtime hb i k
  have htotal := congrArg List.sum hpages
  refine ⟨by rw [htimes.committed, length_target], hsteps, hfigures.acceptanceRate,
    hfigures.meanBlockSize, hfigures.minBlockSize, hfigures.maxBlockSize,
    hfigures.blocksTotal.trans htotal, hfigures.blocksSelected.trans htotal, ?_,
    hfigures.bytesSaved, ?_, ?_⟩
  · rw [hfigures.bytesRead, htotal, bytesPerPage_runtime]
    rfl
  · rw [hfigures.distances, hsteps]
    refine List.map_congr_left fun k _ => ?_
    rw [stepPages_runtime hb, stepLatency_pagesAt hblock]
  · obtain ⟨-, -, -, hresults⟩ := (clock_accounts (requests_fresh batchSize) hs).resolve_right hn
    obtain ⟨t, ht, -, hle⟩ := (hresults b hmem).first
    have hfirst : b.traces[0]? = some t := by
      rw [← List.head?_eq_getElem?]
      exact ht
    obtain ⟨-, hread, hms⟩ := htimes.steps 0 t hfirst
    have htwo : (t.trace.selectedKvPageIds.length : Int) = 2 := by
      have hzero : t.trace.selectedKvPageIds.length =
          (runtime batchSize blockSize mode).stepPages (buildRequest i 8 0) 0 := hread.pageIds
      rw [hzero, stepPages_runtime hb, pagesAt, Nat.cast_zero, zero_mul]
      decide
    rw [hms, Int.ofNat_inj.mp htwo] at hle
    refine le_trans ?_ hle
    norm_num [stepLatency, BackendLatencyConfig.decodeLatency, BackendLatencyConfig.verifyLatency,
      latency]

/-- The record of a plain call, but for the mean time to the first token. -/
def plainRecord (batchSize blockSize : Int) (mode : BenchmarkMode) (meanTtftMs : ℚ) :
    BenchmarkRecord :=
  let block := modeBlockSize mode blockSize
  let itls := (List.replicate batchSize.toNat (stepTimes block)).flatten
  { batchSize, blockSize := block, meanTtftMs
    p50ItlMs := (percentile id itls 50).getD 0
    p95ItlMs := (percentile id itls 95).getD 0
    p99ItlMs := (percentile id itls 99).getD 0
    acceptanceRate := 1, kvHitRate := 1
    liveKvBytes := 0, pinnedKvBytes := 0, evictionCount := 0, fragmentationRatio := 0
    mode := mode.value
    meanBlockSize := block, minBlockSize := block, maxBlockSize := block, blockSizeVariance := 0
    kvBlocksTotal := batchSize * pagesRead block
    kvBlocksSelected := batchSize * pagesRead block
    kvSparsityRatio := 0
    estimatedKvBytesRead := batchSize * (pagesRead block * 12288)
    estimatedKvBytesSaved := 0
    tokensPerResidentLoop := 5 / stepCount block }

theorem sum_of_forall {α R : Type} [Semiring R] {l : List α} {f : α → R} {x : R}
    (h : ∀ a ∈ l, f a = x) : (l.map f).sum = l.length * x := by
  rw [List.map_eq_replicate_iff.mpr h, List.sum_replicate, nsmul_eq_mul]

theorem mean_of_forall {α : Type} {l : List α} {f : α → ℚ} {x : ℚ} (hne : l ≠ [])
    (h : ∀ a ∈ l, f a = x) : mean (l.map f) = .ok x := by
  have hlen : (l.length : ℚ) ≠ 0 := by
    exact_mod_cast (List.length_pos_of_ne_nil hne).ne'
  rw [mean, if_neg (by simpa using hne), sum_of_forall h, List.length_map,
    mul_div_cancel_left₀ _ hlen]

theorem le_mean {α : Type} {l : List α} {f : α → ℚ} {x : ℚ} (hne : l ≠ [])
    (h : ∀ a ∈ l, x ≤ f a) : ∃ m, mean (l.map f) = .ok m ∧ x ≤ m := by
  have hlen : (0 : ℚ) < l.length := by
    exact_mod_cast List.length_pos_of_ne_nil hne
  refine ⟨_, if_neg (by simpa using hne), ?_⟩
  rw [List.length_map, le_div_iff₀ hlen]
  have hsum := List.card_nsmul_le_sum (l.map f) x fun y hy => by
    obtain ⟨a, ha, rfl⟩ := List.mem_map.mp hy
    exact h a ha
  rwa [List.length_map, nsmul_eq_mul, mul_comm] at hsum

/-- Nothing is saved where every page is read. -/
theorem sparsity_self {blocks : Int} (h : 0 < blocks) :
    (if 0 < blocks then max 0 (1 - (blocks : ℚ) / blocks) else 0) = 0 := by
  rw [if_pos h, div_self (by exact_mod_cast h.ne'), sub_self, max_self]

theorem stepCount_pos {block : Int} (hblock : 1 ≤ block) : 0 < stepCount block := by
  by_contra hzero
  have hcover := (ceilDiv_le_iff_le_mul (by omega)).mp (not_lt.mp hzero)
  omega

theorem pagesRead_pos {block : Int} (hblock : 1 ≤ block) : 0 < pagesRead block := by
  refine List.sum_pos _ (fun n hn => ?_) (by simp [(stepCount_pos hblock).ne'])
  obtain ⟨k, -, rfl⟩ := List.mem_map.mp hn
  exact pagesAt_pos hblock k

/-- The results of a plain call. -/
structure PlainResults (batchSize block : Int)
    (results : List (TimedResult DecodeStepTrace DecodeResult)) : Prop where
  batchSize_pos : 1 ≤ batchSize
  length : (results.length : Int) = batchSize
  plain : ∀ b ∈ results, PlainResult block b

section
variable {block : Int} {results : List (TimedResult DecodeStepTrace DecodeResult)}

theorem PlainResults.ne_nil (h : PlainResults batchSize block results) : results ≠ [] := by
  have hlen := h.length
  have hpos := h.batchSize_pos
  apply List.ne_nil_of_length_pos
  omega

theorem PlainResults.itls (h : PlainResults batchSize block results) :
    results.flatMap TimedResult.interTokenLatencyMs =
      (List.replicate batchSize.toNat (stepTimes block)).flatten := by
  have hlen : results.length = batchSize.toNat := by
    have hcast := h.length
    omega
  rw [List.flatMap_def, List.map_eq_replicate_iff.mpr fun b hb => (h.plain b hb).distances, hlen]

theorem PlainResults.variance (h : PlainResults batchSize block results) :
    mean (results.map fun b => (b.result.meanBlockSize - (block : ℚ)) ^ 2) = .ok 0 :=
  mean_of_forall h.ne_nil fun b hb => by
    rw [(h.plain b hb).meanBlockSize, sub_self, zero_pow two_ne_zero]

theorem PlainResults.minBlockSize (h : PlainResults batchSize block results) :
    (results.map fun b => b.result.minBlockSize).min? = some block := by
  rw [List.map_eq_replicate_iff.mpr fun b hb => (h.plain b hb).minBlockSize]
  exact List.min?_replicate_of_pos (List.length_pos_of_ne_nil h.ne_nil)

theorem PlainResults.maxBlockSize (h : PlainResults batchSize block results) :
    (results.map fun b => b.result.maxBlockSize).max? = some block := by
  rw [List.map_eq_replicate_iff.mpr fun b hb => (h.plain b hb).maxBlockSize]
  exact List.max?_replicate_of_pos (List.length_pos_of_ne_nil h.ne_nil)

theorem PlainResults.tokensPerLoop (h : PlainResults batchSize block results)
    (hblock : 1 ≤ block) :
    (results.map fun b => (b.result.committedTokens.length : ℚ)).sum /
      max (results.map fun b => (b.traces.length : ℚ)).sum 1 = 5 / stepCount block := by
  have hpos := List.length_pos_of_ne_nil h.ne_nil
  have hcommitted : (results.map fun b => (b.result.committedTokens.length : ℚ)).sum =
      results.length * 5 := sum_of_forall fun b hb => by
    rw [(h.plain b hb).committed]
    norm_num
  have htraces : (results.map fun b => (b.traces.length : ℚ)).sum =
      results.length * stepCount block := sum_of_forall fun b hb => by
    rw [(h.plain b hb).steps]
  have hone : 1 ≤ results.length * stepCount block := Nat.mul_pos hpos (stepCount_pos hblock)
  rw [hcommitted, htraces, max_eq_left (by exact_mod_cast hone)]
  exact mul_div_mul_left _ _ (by exact_mod_cast hpos.ne')

end

/-- The record that is made of plain results and of the report of an idle cache. -/
theorem singleRecord_plain (hb : 1 ≤ blockSize)
    {results : List (TimedResult DecodeStepTrace DecodeResult)}
    (h : PlainResults batchSize (modeBlockSize mode blockSize) results)
    {report : ResidencyReport} (hidle : IdleReport report) :
    ∃ ttft, 33 / 100 ≤ ttft ∧ singleRecord batchSize blockSize mode results report =
      .ok (plainRecord batchSize blockSize mode ttft) := by
  have hblock := modeBlockSize_pos hb mode
  obtain ⟨ttft, hmean, hle⟩ := le_mean h.ne_nil fun b hb => (h.plain b hb).ttft
  obtain ⟨p50, p95, p99, h50, h95, h99, -, -⟩ := percentile_columns
    (List.replicate batchSize.toNat (stepTimes (modeBlockSize mode blockSize))).flatten
  have hacceptance := mean_of_forall h.ne_nil fun b hb => (h.plain b hb).acceptanceRate
  have hsize := mean_of_forall h.ne_nil fun b hb => (h.plain b hb).meanBlockSize
  have htotal := sum_of_forall fun b hb => (h.plain b hb).blocksTotal
  have hselected := sum_of_forall fun b hb => (h.plain b hb).blocksSelected
  have hread := sum_of_forall fun b hb => (h.plain b hb).bytesRead
  have hsaved := sum_of_forall fun b hb => (h.plain b hb).bytesSaved
  have hsparsity := sparsity_self
    (mul_pos (show 0 < batchSize from h.batchSize_pos) (pagesRead_pos hblock))
  refine ⟨ttft, hle, ?_⟩
  simp only [singleRecord, hmean, h.itls, h50, h95, h99, hacceptance, hsize, indexed, bind,
    Except.bind, h.variance, pure, Except.pure, h.minBlockSize, h.maxBlockSize, htotal, hselected,
    hread, hsaved, h.length, hidle.hitRate, hidle.evictionCount, hidle.liveKvBytes,
    hidle.pinnedKvBytes, hidle.fragmentationRatio, Option.getD_some, mul_zero, hsparsity,
    h.tokensPerLoop hblock, plainRecord]

/-- The results that the run behind a plain call returns. -/
theorem plainResults (hmode : IsPlain mode) (hn : 1 ≤ batchSize) (hb : 1 ≤ blockSize)
    {results : List DecodeResult} (h : (runtime batchSize blockSize mode).Returns
      (requests batchSize) results) {t : TimedRuntimeState}
    (ht : t ∈ (runtime batchSize blockSize mode).timedRun latency (requests batchSize))
    {timed : List (TimedResult DecodeStepTrace DecodeResult)} (hc : t.control = .returned timed)
    (htimed : timed.map TimedResult.result = results) :
    PlainResults batchSize (modeBlockSize mode blockSize) timed := by
  have hf := requests_fresh batchSize
  have hreach := (mem_eval.mp ht).1
  obtain ⟨-, -, -, -, -, hids⟩ := h.ended hf.fresh
  have hlen := congrArg List.length hids
  rw [← htimed, List.length_map, List.length_map, List.length_insertionSort, List.length_map,
    requests, List.length_map, List.length_range] at hlen
  refine ⟨hn, by omega, fun b hmem => ?_⟩
  refine plainResult hmode hb hreach (Workers.not_raised_of_returned hc) ?_
  exact (perm_of_timed_returned hf hreach hc).mem_iff.mp hmem

/-- A plain call returns, with its record in closed form. -/
theorem runSingle_plain (hmode : IsPlain mode) (hn : 1 ≤ batchSize) (hb : 1 ≤ blockSize) :
    ∃ ttft, 33 / 100 ≤ ttft ∧ runSingle batchSize blockSize mode =
      Part.some (.ok (plainRecord batchSize blockSize mode ttft)) := by
  have hv : (runtime batchSize blockSize mode).ValidBlocks := runtime_validBlocks hb
  have hf := requests_fresh batchSize
  have hspare : (runtime batchSize blockSize mode).SpareRoom (requests batchSize) :=
    runtime_spareRoom hmode
  have hfit := hspare.fitTogether runtime_pageSize
  obtain ⟨results, hreturns⟩ := (hfit.runFits hv runtime_pageSize hf).returns hv runtime_pageSize
    hf fun _ => ⟨(by decide : 1 ≤ 2), (by decide : 1 ≤ 2)⟩
  obtain ⟨t, ht, timed, hc, htimed⟩ := hreturns.timed latency
  have hplain := plainResults hmode hn hb hreturns ht hc htimed
  have hsome : results ≠ [] := by
    rw [← htimed]
    simpa using hplain.ne_nil
  have hrun : (runtime batchSize blockSize mode).untimed latency t ∈
      (runtime batchSize blockSize mode).run (requests batchSize) := by
    rw [run_eq_timedRun (g := latency), Part.mem_map_iff]
    exact ⟨t, ht, rfl⟩
  have hidle := hreturns.idle hv runtime_pageSize hf hfit (fun r hr => ?_) (fun r hr => ?_) hsome
    hrun
  · obtain ⟨ttft, hle, hrecord⟩ := singleRecord_plain hb hplain hidle
    refine ⟨ttft, hle, ?_⟩
    rw [runSingle, Part.eq_some_iff.mpr ht, Part.bind_some, hc]
    exact congrArg Part.some hrecord
  · obtain ⟨i, -, rfl⟩ := List.mem_map.mp hr
    exact List.cons_ne_nil _ _
  · obtain ⟨i, -, rfl⟩ := List.mem_map.mp hr
    exact submit_layerIds i ▸ List.cons_ne_nil _ _

theorem Call.Plain.run {call : Call} (h : call.Plain) : ∃ ttft, 33 / 100 ≤ ttft ∧
    call.run = Part.some (.ok (plainRecord call.batchSize call.blockSize call.mode ttft)) := by
  have hblock : isBlockMode call.mode = false := by
    obtain ⟨mode, batchSize, blockSize⟩ := call
    rcases h.mode with rfl | rfl | rfl <;> rfl
  rw [Call.run, hblock]
  exact runSingle_plain h.mode h.batchSize h.blockSize

/-! ### The sweep -/

/-- The record of the call, whatever the mean time to the first token. -/
def Records (call : Call) (record : BenchmarkRecord) : Prop :=
  ∃ ttft, 33 / 100 ≤ ttft ∧
    record = plainRecord call.batchSize call.blockSize call.mode ttft

theorem sweep_plain {calls : List Call} (h : ∀ call ∈ calls, call.Plain) :
    ∃ records, sweep calls = Part.some (.ok records) ∧ List.Forall₂ Records calls records := by
  induction calls with
  | nil => exact ⟨[], rfl, List.Forall₂.nil⟩
  | cons call calls ih =>
    obtain ⟨ttft, hle, hrun⟩ := (h call List.mem_cons_self).run
    obtain ⟨records, hsweep, hrecords⟩ := ih fun c hc => h c (List.mem_cons_of_mem call hc)
    refine ⟨plainRecord call.batchSize call.blockSize call.mode ttft :: records, ?_,
      List.Forall₂.cons ⟨ttft, hle, rfl⟩ hrecords⟩
    rw [sweep, hrun, Part.bind_some]
    dsimp only
    rw [hsweep, Part.map_some]
    rfl

/-- What a runner sweeps over in plain modes. -/
structure PlainSweep (runner : BenchmarkRunner) (modes : List BenchmarkMode) : Prop where
  modes : ∀ mode ∈ if modes = [] then runner.modes else modes, IsPlain mode
  batchSizes : ∀ n ∈ runner.batchSizes, 1 ≤ n
  blockSizes : ∀ b ∈ runner.blockSizes, 1 ≤ b

theorem PlainSweep.calls {runner : BenchmarkRunner} {modes : List BenchmarkMode}
    (h : PlainSweep runner modes) : ∀ call ∈ runner.calls modes, call.Plain := by
  intro call hcall
  simp only [BenchmarkRunner.calls, List.mem_flatMap, List.mem_map] at hcall
  obtain ⟨mode, hmode, batchSize, hbatch, blockSize, hblock, rfl⟩ := hcall
  refine ⟨h.modes mode hmode, h.batchSizes batchSize hbatch, ?_⟩
  split at hblock
  · exact (List.mem_singleton.mp hblock).ge
  · exact h.blockSizes blockSize hblock

/-- A sweep over modes without rejections, pressure and selections records every call in closed
form, in the order of the calls: all drafts are accepted in blocks of the size asked for, every
access is a hit, nothing is evicted or left over, every step reads all the pages of the tokens
before it, and the first token takes at least the time of its step. -/
theorem plain_sweep_records (runner : BenchmarkRunner) (modes : List BenchmarkMode)
    (h : PlainSweep runner modes) : ∃ records, runner.run modes = Part.some (.ok records) ∧
      List.Forall₂ Records (runner.calls modes) records :=
  sweep_plain h.calls

/-- The sweep that the benchmark makes when it is asked for nothing in particular. -/
theorem default_sweep_records : ∃ records, (new [] [] []).run [] = Part.some (.ok records) ∧
    records.length = 20 ∧ ∀ record ∈ records, record.kvHitRate = 1 ∧ record.evictionCount = 0 ∧
      record.acceptanceRate = 1 ∧ 33 / 100 ≤ record.meanTtftMs := by
  obtain ⟨records, hrun, hrecords⟩ := plain_sweep_records (new [] [] []) []
    ⟨by decide, by decide, by decide⟩
  obtain ⟨hlen, hall⟩ := List.forall₂_iff_get.mp hrecords
  refine ⟨records, hrun, hlen.symm.trans (by decide), fun record hrecord => ?_⟩
  obtain ⟨k, hk, rfl⟩ := List.mem_iff_getElem.mp hrecord
  obtain ⟨ttft, hle, hget⟩ := hall k (hlen ▸ hk) hk
  have hsame : records[k] = _ := hget
  rw [hsame]
  exact ⟨rfl, rfl, rfl, hle⟩

end BenchmarkRunner
end ResidentInference

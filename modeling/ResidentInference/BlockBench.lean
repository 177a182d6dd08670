import ResidentInference.BlockAccounts

/-! The block modes of the benchmark: one runtime is run once for every request of the batch, and
the counters of its metrics are summed. The runtime is set back by hand between the runs. -/
namespace ResidentInference
open StateTransition

inductive BenchmarkMode where
  | serialDecode
  | speculativeDecode
  | forcedRejection
  | kvPressure
  | megaKernelSim
  | sparseKvMegakernel
  | autoregressiveSerial
  | blockSpeculative
  | blockSpeculativePersistentSim
  | blockSpeculativeHostOrchestrated
  deriving DecidableEq

def BenchmarkMode.value : BenchmarkMode → String
  | .serialDecode => "serial_decode"
  | .speculativeDecode => "speculative_decode"
  | .forcedRejection => "forced_rejection"
  | .kvPressure => "kv_pressure"
  | .megaKernelSim => "mega_kernel_sim"
  | .sparseKvMegakernel => "sparse_kv_megakernel"
  | .autoregressiveSerial => "autoregressive_serial"
  | .blockSpeculative => "block_speculative"
  | .blockSpeculativePersistentSim => "block_speculative_persistent_sim"
  | .blockSpeculativeHostOrchestrated => "block_speculative_host_orchestrated"

structure BenchmarkRecord where
  batchSize : Int
  blockSize : Int
  meanTtftMs : ℚ
  p50ItlMs : ℚ
  p95ItlMs : ℚ
  p99ItlMs : ℚ
  acceptanceRate : ℚ
  kvHitRate : ℚ
  liveKvBytes : Int
  pinnedKvBytes : Int
  evictionCount : Int
  fragmentationRatio : ℚ
  mode : String
  iterations : Int := 0
  draftBlocks : Int := 0
  totalDraftTokens : Int := 0
  acceptedTokensBlock : Int := 0
  rejectedTokens : Int := 0
  averageAcceptedPrefixLen : ℚ := 0
  stateReads : Int := 0
  stateWrites : Int := 0
  hostKernelLaunches : Int := 0
  hostSynchronizations : Int := 0
  simulatedTokensPerIteration : ℚ := 0
  meanBlockSize : ℚ := 0
  minBlockSize : Int := 0
  maxBlockSize : Int := 0
  blockSizeVariance : ℚ := 0
  kvBlocksTotal : Int := 0
  kvBlocksSelected : Int := 0
  kvSparsityRatio : ℚ := 0
  estimatedKvBytesRead : Int := 0
  estimatedKvBytesSaved : Int := 0
  tokensPerResidentLoop : ℚ := 0

/-- The counters that the benchmark sums over the runs of a batch. -/
inductive BlockCounter where
  | acceptedTokens
  | iterations
  | draftBlocks
  | totalDraftTokens
  | rejectedTokens
  | stateReads
  | stateWrites

def BlockRuntimeMetrics.count (m : BlockRuntimeMetrics) : BlockCounter → Int
  | .acceptedTokens => m.acceptedTokens
  | .iterations => m.iterations
  | .draftBlocks => m.draftBlocks
  | .totalDraftTokens => m.totalDraftTokens
  | .rejectedTokens => m.rejectedTokens
  | .stateReads => m.stateReads
  | .stateWrites => m.stateWrites

def BenchmarkRecord.count (record : BenchmarkRecord) : BlockCounter → Int
  | .acceptedTokens => record.acceptedTokensBlock
  | .iterations => record.iterations
  | .draftBlocks => record.draftBlocks
  | .totalDraftTokens => record.totalDraftTokens
  | .rejectedTokens => record.rejectedTokens
  | .stateReads => record.stateReads
  | .stateWrites => record.stateWrites

namespace BlockSpeculativeRuntime

/-- What the benchmark sets back before each run. The metrics and the window pages stay. -/
def restart (rt : BlockSpeculativeRuntime) : BlockSpeculativeRuntime :=
  { rt with
    tokenState := { rt.tokenState with committedTokens := [], currentPosition := 0 }
    swa := { rt.swa with totalStateReads := 0, totalStateWrites := 0 } }

/-- The loop over a batch of `n` requests. -/
def runBatch (maxNewTokens : Int) :
    Nat → BlockSpeculativeRuntime → (BlockCounter → Int) →
      Part (Except Fault (BlockCounter → Int))
  | 0, _, total => Part.some (.ok total)
  | n+1, rt, total => (rt.restart.run maxNewTokens).bind fun
    | .error e => Part.some (.error e)
    | .ok rt' => runBatch maxNewTokens n rt' (total + rt'.metrics.count)

end BlockSpeculativeRuntime

namespace BenchmarkRunner

/-- The runtime that the benchmark builds for a mode. -/
def blockRuntime (rnd : ℚ → ℚ) (blockSize windowSize : Int) (mode : BenchmarkMode) :
    BlockSpeculativeRuntime :=
  { drafter :=
      { blockSize := if mode = .autoregressiveSerial then 1 else blockSize
        windowSize }
    rnd }

/-- The record made from the totals of a batch. -/
def blockRecord (rnd : ℚ → ℚ) (batchSize blockSize : Int) (mode : BenchmarkMode)
    (total : BlockCounter → Int) : BenchmarkRecord :=
  let numTotal := total .acceptedTokens + total .rejectedTokens
  let hostCalls :=
    if mode = .blockSpeculativePersistentSim then 1
    else if mode = .blockSpeculativeHostOrchestrated then total .iterations * 4
    else total .iterations
  let tokensPerIter :=
    if 0 < total .iterations then rnd (total .acceptedTokens / total .iterations) else 0
  { batchSize, blockSize
    meanTtftMs := 0, p50ItlMs := 0, p95ItlMs := 0, p99ItlMs := 0
    acceptanceRate := if 0 < numTotal then rnd (total .acceptedTokens / numTotal) else 0
    kvHitRate := 0, liveKvBytes := 0, pinnedKvBytes := 0, evictionCount := 0
    fragmentationRatio := 0
    mode := mode.value
    iterations := total .iterations
    draftBlocks := total .draftBlocks
    totalDraftTokens := total .totalDraftTokens
    acceptedTokensBlock := total .acceptedTokens
    rejectedTokens := total .rejectedTokens
    averageAcceptedPrefixLen :=
      if 0 < total .draftBlocks then rnd (total .acceptedTokens / total .draftBlocks) else 0
    stateReads := total .stateReads
    stateWrites := total .stateWrites
    hostKernelLaunches := hostCalls
    hostSynchronizations := hostCalls
    simulatedTokensPerIteration := tokensPerIter
    tokensPerResidentLoop := tokensPerIter }

/-- `BenchmarkRunner._run_block_single` -/
def runBlockSingle (rnd : ℚ → ℚ) (batchSize blockSize windowSize : Int) (mode : BenchmarkMode)
    (maxNewTokens : Int := 64) : Part (Except Fault BenchmarkRecord) :=
  ((blockRuntime rnd blockSize windowSize mode).runBatch maxNewTokens batchSize.toNat 0).map
    fun total => total.map (blockRecord rnd batchSize blockSize mode)

end BenchmarkRunner

/-! ### A run on top of earlier metrics -/

namespace BlockSpeculativeRuntime
variable {rt rt' rt₀ : BlockSpeculativeRuntime} {base : BlockCounter → Int} {maxNewTokens : Int}

/-- `rt'` is `rt` with other windows, and with `base` counted before. -/
structure Resumes (base : BlockCounter → Int) (rt rt' : BlockSpeculativeRuntime) : Prop where
  drafter : rt'.drafter = rt.drafter
  tokenState : rt'.tokenState = rt.tokenState
  count : ∀ counter, rt'.metrics.count counter = base counter + rt.metrics.count counter

/-- `Resumes` for the states of a loop. -/
def Mirrors (base : BlockCounter → Int) :
    Except Fault BlockSpeculativeRuntime → Except Fault BlockSpeculativeRuntime → Prop
  | .ok rt, .ok rt' => Resumes base rt rt'
  | .error e, .error e' => e = e'
  | _, _ => False

/-- Nothing reads the metrics, and an iteration only adds to them. -/
theorem Resumes.iterate (h : Resumes base rt rt') : Mirrors base rt.iterate rt'.iterate := by
  simp only [BlockSpeculativeRuntime.iterate, h.drafter, h.tokenState, bind, Except.bind, pure,
    Except.pure]
  cases rt.drafter.draftBlock rt.tokenState.committedTokens rt.tokenState.currentPosition with
  | error e => exact rfl
  | ok draft =>
    dsimp only
    cases rt.drafter.verifyBlock rt.tokenState.committedTokens draft with
    | error e => exact rfl
    | ok verify =>
      dsimp only
      split
      all_goals
        refine ⟨rfl, rfl, fun counter => ?_⟩
        have hcount := h.count counter
        cases counter <;> simp only [BlockRuntimeMetrics.count] at hcount ⊢ <;> omega

theorem Resumes.loop (h : Resumes base rt rt') (maxNewTokens : Int) :
    loop maxNewTokens (.ok rt) = none ∧ loop maxNewTokens (.ok rt') = none ∨
      loop maxNewTokens (.ok rt) = some rt.iterate ∧
        loop maxNewTokens (.ok rt') = some rt'.iterate := by
  simp only [BlockSpeculativeRuntime.loop, h.tokenState]
  cases rt.tokenState.isComplete maxNewTokens with
  | true => exact Or.inl ⟨rfl, rfl⟩
  | false => exact Or.inr ⟨rfl, rfl⟩

theorem respects_loop (base : BlockCounter → Int) (maxNewTokens : Int) :
    Respects (loop maxNewTokens) (loop maxNewTokens) (Mirrors base) := by
  intro state state' h
  cases state with
  | error e =>
    cases state' with
    | error e' => exact rfl
    | ok rt' => exact h.elim
  | ok rt =>
    cases state' with
    | error e' => exact h.elim
    | ok rt' =>
      have hresumes : Resumes base rt rt' := h
      obtain ⟨hstop, hstop'⟩ | ⟨hgo, hgo'⟩ := hresumes.loop maxNewTokens
      · rw [hstop]
        exact hstop'
      · rw [hgo]
        exact ⟨rt'.iterate, hresumes.iterate, Relation.TransGen.single hgo'⟩

/-- A run on top of earlier metrics makes the same steps and adds the same counts. -/
theorem Resumes.run (h : Resumes base rt rt') {last : BlockSpeculativeRuntime}
    (hlast : .ok last ∈ rt.run maxNewTokens) :
    ∃ last', .ok last' ∈ rt'.run maxNewTokens ∧ Resumes base last last' := by
  obtain ⟨last, hmem, rfl⟩ := mem_run.mp hlast
  obtain ⟨state', hmirrors, hmem'⟩ := tr_eval (respects_loop base maxNewTokens)
    (show Mirrors base (.ok rt) (.ok rt') from h) hmem
  cases state' with
  | error e => exact hmirrors.elim
  | ok last' =>
    have hresumes : Resumes base last last' := hmirrors
    refine ⟨last'.finish, mem_run.mpr ⟨last', hmem', rfl⟩, hresumes.drafter, hresumes.tokenState,
      fun counter => ?_⟩
    have hcount := hresumes.count counter
    cases counter <;> exact hcount

/-! ### The runtime between two runs -/

/-- A runtime with no draft in flight. -/
def Idle (rt : BlockSpeculativeRuntime) : Prop := rt.tokenState.resetDraft = rt.tokenState

theorem iterate_idle (h : rt.iterate = .ok rt') : rt'.Idle ∧ rt'.drafter = rt.drafter := by
  simp only [iterate, bind, Except.bind, pure, Except.pure] at h
  split at h
  · cases h
  · split at h
    · cases h
    · obtain rfl := Except.ok.inj h
      refine ⟨rfl, ?_⟩
      dsimp only
      split <;> rfl

theorem Idle.run (h : rt.Idle) {last : BlockSpeculativeRuntime}
    (hlast : .ok last ∈ rt.run maxNewTokens) : last.Idle ∧ last.drafter = rt.drafter := by
  obtain ⟨last, hmem, rfl⟩ := mem_run.mp hlast
  have hkept := Runs.invariant
    (P := fun state => ∀ rt', state = .ok rt' → rt'.Idle ∧ rt'.drafter = rt.drafter)
    (mem_eval.mp hmem).1 (fun rt' heq => Except.ok.inj heq ▸ ⟨h, rfl⟩) ?_
  · exact hkept last rfl
  · intro state next _ hstate hstep rt' hnext
    subst hnext
    cases state with
    | error e => cases hstep
    | ok rt'' =>
      rw [loop] at hstep
      split at hstep
      · cases hstep
      · obtain ⟨hidle, hdrafter⟩ := iterate_idle (Option.some.inj hstep)
        exact ⟨hidle, hdrafter.trans (hstate rt'' rfl).2⟩

theorem Fresh.idle (h : rt.Fresh) : rt.Idle := by
  rw [Idle, h.tokenState]
  rfl

theorem Fresh.count (h : rt.Fresh) (counter : BlockCounter) : rt.metrics.count counter = 0 := by
  rw [h.metrics]
  cases counter <;> rfl

theorem Idle.restart (h : rt.Idle) : rt.restart.tokenState = {} := by
  rw [BlockSpeculativeRuntime.restart, ← show rt.tokenState.resetDraft = rt.tokenState from h]
  rfl

/-- An idle runtime that is set back goes on as a fresh one would, its earlier counts aside. -/
theorem Fresh.resumes_restart (h : rt₀.Fresh) (hidle : rt.Idle)
    (hdrafter : rt.drafter = rt₀.drafter) : Resumes rt.metrics.count rt₀ rt.restart where
  drafter := hdrafter
  tokenState := by rw [h.tokenState, hidle.restart]
  count := by
    intro counter
    rw [h.count, Int.add_zero]
    rfl

/-- A fresh runtime asked for no token makes no iteration. -/
theorem Fresh.run_nonpos (h : rt.Fresh) (hn : maxNewTokens ≤ 0) :
    .ok rt.finish ∈ rt.run maxNewTokens := by
  refine mem_run.mpr ⟨rt, mem_eval.mpr ⟨Relation.ReflTransGen.refl, ?_⟩, rfl⟩
  rw [loop, h.tokenState]
  exact if_pos (decide_eq_true hn)

theorem Fresh.run_pos (h : rt.Fresh) (hb : 1 ≤ rt.drafter.blockSize)
    (hv : 1 ≤ rt.drafter.vocabSize) (hn : 0 < maxNewTokens) :
    ∃ last, .ok last ∈ rt.run maxNewTokens ∧ 0 < last.metrics.iterations := by
  obtain ⟨rt', k, hmem, hafter, hk⟩ := h.ends hb hv hn.le
  refine ⟨rt'.finish, mem_run.mpr ⟨rt', hmem, rfl⟩, ?_⟩
  rw [hafter.accounted.iterations, hk]
  exact (ceilDiv_pos hb).mpr hn

/-! ### The totals of a batch -/

/-- The counts after a run are those of all the runs so far, and each of them is added. -/
theorem Fresh.runBatch_total (h : rt₀.Fresh) {last : BlockSpeculativeRuntime}
    (hlast : .ok last ∈ rt₀.run maxNewTokens) (n : Nat) (hidle : rt.Idle)
    (hdrafter : rt.drafter = rt₀.drafter) (total : BlockCounter → Int) :
    ∃ total', .ok total' ∈ runBatch maxNewTokens n rt total ∧ ∀ counter,
      2 * total' counter = 2 * total counter +
        n * (2 * rt.metrics.count counter + (n+1) * last.metrics.count counter) := by
  induction n generalizing rt total with
  | zero => exact ⟨total, Part.mem_some _, fun counter => by simp⟩
  | succ n ih =>
    obtain ⟨rt', hmem, hresumes⟩ := (h.resumes_restart hidle hdrafter).run hlast
    have hrestart : rt.restart.Idle := by
      rw [Idle, hidle.restart]
      rfl
    obtain ⟨hidle', hdrafter'⟩ := hrestart.run hmem
    obtain ⟨total', htotal', hcount⟩ := ih hidle' (hdrafter'.trans hdrafter)
      (total + rt'.metrics.count)
    refine ⟨total', ?_, fun counter => ?_⟩
    · rw [runBatch, Part.mem_bind_iff]
      exact ⟨.ok rt', hmem, htotal'⟩
    · rw [hcount, Pi.add_apply, hresumes.count]
      push_cast
      ring

end BlockSpeculativeRuntime

namespace BenchmarkRunner
open BlockSpeculativeRuntime
variable {rnd : ℚ → ℚ} {batchSize blockSize windowSize maxNewTokens : Int} {mode : BenchmarkMode}

theorem fresh_blockRuntime (rnd : ℚ → ℚ) (blockSize windowSize : Int) (mode : BenchmarkMode) :
    (blockRuntime rnd blockSize windowSize mode).Fresh := ⟨rfl, rfl, rfl⟩

theorem blockSize_blockRuntime (hb : 1 ≤ blockSize) :
    1 ≤ (blockRuntime rnd blockSize windowSize mode).drafter.blockSize := by
  dsimp only [blockRuntime]
  split
  · exact le_rfl
  · exact hb

/-- Every total of the record is the sum of the first `batchSize` multiples of the count of one
fresh run. -/
theorem runBlockSingle_total (hbatch : 1 ≤ batchSize) {last : BlockSpeculativeRuntime}
    (hlast : .ok last ∈ (blockRuntime rnd blockSize windowSize mode).run maxNewTokens) :
    ∃ record, .ok record ∈ runBlockSingle rnd batchSize blockSize windowSize mode maxNewTokens ∧
      ∀ counter, 2 * record.count counter =
        batchSize * ((batchSize + 1) * last.metrics.count counter) := by
  have hfresh := fresh_blockRuntime rnd blockSize windowSize mode
  obtain ⟨total, htotal, hcount⟩ :=
    hfresh.runBatch_total hlast batchSize.toNat hfresh.idle rfl 0
  refine ⟨blockRecord rnd batchSize blockSize mode total, ?_, fun counter => ?_⟩
  · rw [runBlockSingle, Part.mem_map_iff]
    exact ⟨.ok total, htotal, rfl⟩
  · have hn : (batchSize.toNat : Int) = batchSize := Int.toNat_of_nonneg (by omega)
    have htotal : (blockRecord rnd batchSize blockSize mode total).count counter =
        total counter := by cases counter <;> rfl
    rw [htotal, hcount, hn, hfresh.count]
    simp

/-- The totals are those of as many fresh runs as the batch has requests exactly if there is one
request or nothing to run. -/
theorem runBlockSingle_totals_iff (rnd : ℚ → ℚ) (windowSize : Int) (mode : BenchmarkMode)
    (hbatch : 1 ≤ batchSize) (hb : 1 ≤ blockSize) (maxNewTokens : Int) :
    (∃ record last,
        .ok record ∈ runBlockSingle rnd batchSize blockSize windowSize mode maxNewTokens ∧
          .ok last ∈ (blockRuntime rnd blockSize windowSize mode).run maxNewTokens ∧
            ∀ counter, record.count counter = batchSize * last.metrics.count counter) ↔
      batchSize = 1 ∨ maxNewTokens ≤ 0 := by
  have hfresh := fresh_blockRuntime rnd blockSize windowSize mode
  obtain hn | hn := le_or_gt maxNewTokens 0
  · have hlast := hfresh.run_nonpos hn
    obtain ⟨record, hrecord, htotal⟩ := runBlockSingle_total hbatch hlast
    refine iff_of_true ⟨record, _, hrecord, hlast, fun counter => ?_⟩ (Or.inr hn)
    have hzero : (blockRuntime rnd blockSize windowSize mode).finish.metrics.count counter = 0 := by
      rw [← hfresh.count counter]
      cases counter <;> rfl
    have hcount := htotal counter
    rw [hzero] at hcount ⊢
    omega
  · have hvocab : (1 : Int) ≤ 32000 := by decide
    obtain ⟨last, hlast, hpos⟩ := hfresh.run_pos (blockSize_blockRuntime hb) hvocab hn
    obtain ⟨record, hrecord, htotal⟩ := runBlockSingle_total hbatch hlast
    constructor
    · rintro ⟨record', last', hrecord', hlast', hcount⟩
      obtain rfl := Except.ok.inj (Part.mem_unique hrecord hrecord')
      obtain rfl := Except.ok.inj (Part.mem_unique hlast hlast')
      have htwice := htotal .iterations
      rw [hcount, ← mul_assoc, mul_comm 2, mul_assoc] at htwice
      have hcancel := mul_left_cancel₀ (by omega : batchSize ≠ 0) htwice
      have hbatch' := mul_right_cancel₀ hpos.ne' hcancel
      exact Or.inl (by omega)
    · rintro (rfl | hle)
      · refine ⟨record, last, hrecord, hlast, fun counter => ?_⟩
        have hcount := htotal counter
        omega
      · omega

theorem runBlockSingle_totals_one :
    ∃ record last, .ok record ∈ runBlockSingle id 1 8 256 .blockSpeculative 64 ∧
      .ok last ∈ (blockRuntime id 8 256 .blockSpeculative).run 64 ∧
        ∀ counter, record.count counter = 1 * last.metrics.count counter :=
  (runBlockSingle_totals_iff id 256 .blockSpeculative (by decide) (by decide) 64).mpr (Or.inl rfl)

/-- For two requests of 64 tokens in blocks of eight the totals are those of three runs. -/
theorem runBlockSingle_counts_earlier_runs :
    ¬ ∀ batchSize blockSize windowSize maxNewTokens : Int, ∀ mode : BenchmarkMode,
      1 ≤ batchSize → 1 ≤ blockSize →
        ∃ record last,
          .ok record ∈ runBlockSingle id batchSize blockSize windowSize mode maxNewTokens ∧
            .ok last ∈ (blockRuntime id blockSize windowSize mode).run maxNewTokens ∧
              ∀ counter, record.count counter = batchSize * last.metrics.count counter := by
  intro h
  obtain ⟨record, last, hrecord, hlast, hcount⟩ :=
    h 2 8 256 64 .blockSpeculative (by decide) (by decide)
  obtain ⟨record', hrecord', htotal⟩ := runBlockSingle_total (show (1 : Int) ≤ 2 by decide) hlast
  obtain rfl := Except.ok.inj (Part.mem_unique hrecord hrecord')
  obtain ⟨last', hlast', hpos⟩ := (fresh_blockRuntime id 8 256 .blockSpeculative).run_pos
    (by decide) (by decide) (show (0 : Int) < 64 by decide)
  obtain rfl := Except.ok.inj (Part.mem_unique hlast hlast')
  have htwice := htotal .iterations
  rw [hcount] at htwice
  have hcounted : last.metrics.count .iterations = last.metrics.iterations := rfl
  omega

end BenchmarkRunner
end ResidentInference

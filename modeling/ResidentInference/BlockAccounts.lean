import ResidentInference.BlockRuntime

/-! What the metrics of a block run count: as many iterations as it takes, and every drafted token
accepted. -/
namespace ResidentInference.BlockSpeculativeRuntime
open StateTransition Runs
variable {rt rt' : BlockSpeculativeRuntime} {maxNewTokens : Int}

/-- The block that is drafted next is accepted in full. -/
def AcceptsNext (rt : BlockSpeculativeRuntime) : Prop :=
  ∃ draft result,
    rt.drafter.draftBlock rt.tokenState.committedTokens rt.tokenState.currentPosition = .ok draft ∧
      rt.drafter.verifyBlock rt.tokenState.committedTokens draft = .ok result ∧
      result.acceptedTokens = draft.draftTokens ∧ result.rejectedTokens = []

theorem acceptsNext (hv : rt.drafter.vocabSize ≠ 0) : rt.AcceptsNext :=
  ⟨_, _, DFlashStyleDrafter.draftBlock_eq hv _ _, DFlashStyleDrafter.verifyBlock_block hv _ _,
    rfl, rfl⟩

/-- The metrics of a run of `n` iterations in which nothing was rejected. -/
structure Accounted (rt : BlockSpeculativeRuntime) (n : Int) : Prop where
  iterations : rt.metrics.iterations = n
  draftBlocks : rt.metrics.draftBlocks = n
  stateReads : rt.metrics.stateReads = n
  stateWrites : rt.metrics.stateWrites = n
  rejected : rt.metrics.rejectedTokens = 0
  accepted : rt.metrics.acceptedTokens = rt.metrics.totalDraftTokens
  committed : rt.metrics.totalDraftTokens = rt.tokenState.committedTokens.length

theorem After.accounted {k : Nat} (h : After rt k rt') : rt'.finish.Accounted k := by
  constructor <;> simp [finish, BlockRuntimeMetrics.finalize, h.metrics]

theorem Fresh.after_runFor (h : rt.Fresh) (hb : 1 ≤ rt.drafter.blockSize)
    (hv : 1 ≤ rt.drafter.vocabSize) {k : Nat}
    (hk : (k : Int) ≤ ceilDiv maxNewTokens rt.drafter.blockSize) :
    ∃ rt', runFor (loop maxNewTokens) k (.ok rt) = .ok rt' ∧ After rt k rt' := by
  induction k with
  | zero => exact ⟨rt, rfl, h.after⟩
  | succ k ih =>
    obtain ⟨rt', hrun, hafter⟩ := ih (by omega)
    have hgo : ¬ loop maxNewTokens (.ok rt') = none := by
      rw [hafter.stopped_iff hb hv]
      omega
    obtain ⟨next, hnext⟩ := Option.ne_none_iff_exists'.mp hgo
    obtain ⟨rfl, hafter', -⟩ := hafter.turn hb hv hnext
    exact ⟨rt'.advanced, by rw [runFor_succ, hrun, hnext, Option.getD_some], hafter'⟩

/-- A run makes exactly the iterations whose blocks make up the tokens asked for. -/
theorem Fresh.stopped_iff (h : rt.Fresh) (hb : 1 ≤ rt.drafter.blockSize)
    (hv : 1 ≤ rt.drafter.vocabSize) (hn : 0 ≤ maxNewTokens) (k : Nat) :
    loop maxNewTokens (runFor (loop maxNewTokens) k (.ok rt)) = none ↔
      ceilDiv maxNewTokens rt.drafter.blockSize ≤ k := by
  obtain hle | hlt := le_or_gt (k : Int) (ceilDiv maxNewTokens rt.drafter.blockSize)
  · obtain ⟨rt', hrun, hafter⟩ := h.after_runFor hb hv hle
    rw [hrun, hafter.stopped_iff hb hv]
  · have hpos : 0 < rt.drafter.blockSize := hb
    obtain ⟨m, hm⟩ := Int.eq_ofNat_of_zero_le (ceilDiv_nonneg hpos hn)
    obtain ⟨rt', hrun, hafter⟩ := h.after_runFor hb hv (k := m) hm.ge
    have hstop : loop maxNewTokens (runFor (loop maxNewTokens) m (.ok rt)) = none := by
      rw [hrun, hafter.stopped_iff hb hv]
      exact hm.le
    rw [runFor_of_le hstop (show m ≤ k by omega), hstop]
    exact iff_of_true rfl hlt.le

/-- A run for `n` tokens stops after the iterations that `n` tokens take, accepts every block that
it drafts, and counts so. -/
theorem run_accounted (h : rt.Fresh) (hb : 1 ≤ rt.drafter.blockSize)
    (hv : 1 ≤ rt.drafter.vocabSize) (hn : 0 ≤ maxNewTokens) :
    (∀ k : Nat, loop maxNewTokens (runFor (loop maxNewTokens) k (.ok rt)) = none ↔
        ceilDiv maxNewTokens rt.drafter.blockSize ≤ k) ∧
      (∀ rt', Reaches (loop maxNewTokens) (.ok rt) (.ok rt') → rt'.AcceptsNext) ∧
      ∃ last, .ok last ∈ rt.run maxNewTokens ∧
        last.Accounted (ceilDiv maxNewTokens rt.drafter.blockSize) := by
  refine ⟨h.stopped_iff hb hv hn, fun rt' hreach => ?_, ?_⟩
  · obtain ⟨rt'', k, hr⟩ := h.reaches hb hv hreach
    obtain rfl := Except.ok.inj hr.state
    refine acceptsNext ?_
    rw [hr.after.drafter]
    omega
  · obtain ⟨rt', k, hmem, hafter, hk⟩ := h.ends hb hv hn
    exact ⟨rt'.finish, mem_run.mpr ⟨rt', hmem, rfl⟩, hk ▸ hafter.accounted⟩

theorem run_accounted_three_blocks :
    let rt : BlockSpeculativeRuntime := {}
    (∀ k : Nat, loop 20 (runFor (loop 20) k (.ok rt)) = none ↔ ceilDiv 20 8 ≤ k) ∧
      (∀ rt', Reaches (loop 20) (.ok rt) (.ok rt') → rt'.AcceptsNext) ∧
      ∃ last, .ok last ∈ rt.run 20 ∧ last.Accounted (ceilDiv 20 8) := by
  intro rt
  have hfresh : rt.Fresh := ⟨rfl, rfl, rfl⟩
  exact run_accounted hfresh (by decide) (by decide) (by decide)

end ResidentInference.BlockSpeculativeRuntime

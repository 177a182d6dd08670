import ResidentInference.BlockDrafting
import ResidentInference.Runs
import Mathlib.Data.Rat.Defs

/-! The block speculative runtime: its loop drafts, verifies and commits one block after another
until there are as many tokens as were asked for. -/
namespace ResidentInference
open StateTransition

structure BlockRuntimeMetrics where
  draftBlocks : Int := 0
  totalDraftTokens : Int := 0
  acceptedTokens : Int := 0
  rejectedTokens : Int := 0
  averageAcceptedPrefixLen : ℚ := 0
  acceptanceRate : ℚ := 0
  stateReads : Int := 0
  stateWrites : Int := 0
  committedTokens : Int := 0
  iterations : Int := 0
  deriving DecidableEq

/-- The averages at the end of a run; `rnd` rounds as the doubles of the source do. -/
def BlockRuntimeMetrics.finalize (m : BlockRuntimeMetrics) (rnd : ℚ → ℚ) : BlockRuntimeMetrics :=
  let total := m.acceptedTokens + m.rejectedTokens
  { m with
    averageAcceptedPrefixLen :=
      if 0 < m.draftBlocks then rnd (m.acceptedTokens / m.draftBlocks)
      else m.averageAcceptedPrefixLen
    acceptanceRate := if 0 < total then rnd (m.acceptedTokens / total) else m.acceptanceRate }

structure BlockSpeculativeRuntime where
  drafter : DFlashStyleDrafter := {}
  swa : SlidingWindowState := {}
  tokenState : TokenState := {}
  metrics : BlockRuntimeMetrics := {}
  rnd : ℚ → ℚ := id

namespace BlockSpeculativeRuntime

/-- One iteration of the loop of `run`: one block. The window tokens are read and dropped. -/
def iterate (rt : BlockSpeculativeRuntime) : Except Fault BlockSpeculativeRuntime := do
  let position := rt.tokenState.currentPosition
  let committed := rt.tokenState.committedTokens
  let _ := rt.swa.getWindowTokens committed position
  let swa := rt.swa.readWindowState 0 position
  let draft ← rt.drafter.draftBlock committed position
  let tokenState := rt.tokenState.appendDraft draft.draftTokens
  let metrics := { rt.metrics with
    stateReads := rt.metrics.stateReads + 1
    draftBlocks := rt.metrics.draftBlocks + 1
    totalDraftTokens := rt.metrics.totalDraftTokens + draft.draftTokens.length }
  let verify ← rt.drafter.verifyBlock committed draft
  let accepted := verify.acceptedTokens
  let rejected := verify.rejectedTokens
  let rt :=
    if accepted ≠ [] then
      let tokenState := (tokenState.commitPrefix accepted.length).discardRejectedTail
      let tokenState := tokenState.advancePosition accepted.length
      { rt with
        swa := swa.updateWindowState 0 tokenState.committedTokens
        tokenState
        metrics := { metrics with
          stateWrites := metrics.stateWrites + 1
          acceptedTokens := metrics.acceptedTokens + accepted.length
          rejectedTokens := metrics.rejectedTokens + rejected.length
          committedTokens := tokenState.committedTokens.length } }
    else
      { rt with
        swa
        tokenState := tokenState.discardRejectedTail
        metrics := { metrics with rejectedTokens := metrics.rejectedTokens + rejected.length } }
  return { rt with
    tokenState := rt.tokenState.resetDraft
    metrics := { rt.metrics with iterations := rt.metrics.iterations + 1 } }

/-- The loop of `run`; its states are those at the head of an iteration. -/
def loop (maxNewTokens : Int) :
    Except Fault BlockSpeculativeRuntime → Option (Except Fault BlockSpeculativeRuntime)
  | .error _ => none
  | .ok rt => if rt.tokenState.isComplete maxNewTokens then none else some rt.iterate

def finish (rt : BlockSpeculativeRuntime) : BlockSpeculativeRuntime :=
  { rt with metrics := rt.metrics.finalize rt.rnd }

/-- The runtime that `run` leaves behind, if it ends. -/
def run (rt : BlockSpeculativeRuntime) (maxNewTokens : Int) :
    Part (Except Fault BlockSpeculativeRuntime) :=
  (eval (loop maxNewTokens) (.ok rt)).map fun last => last.map finish

/-- A runtime as it is constructed, with any drafter and any window. -/
structure Fresh (rt : BlockSpeculativeRuntime) : Prop where
  swa : rt.swa = { windowSize := rt.swa.windowSize }
  tokenState : rt.tokenState = {}
  metrics : rt.metrics = {}

/-! ### One iteration -/

/-- The block that the runtime drafts next. -/
def nextBlock (rt : BlockSpeculativeRuntime) : List Int :=
  rt.drafter.block rt.tokenState.committedTokens rt.tokenState.currentPosition

/-- The runtime with that block committed. The position has moved twice. -/
def advanced (rt : BlockSpeculativeRuntime) : BlockSpeculativeRuntime :=
  let committed := rt.tokenState.committedTokens ++ rt.nextBlock
  { rt with
    swa := (rt.swa.readWindowState 0 rt.tokenState.currentPosition).updateWindowState 0 committed
    tokenState :=
      { committedTokens := committed
        currentPosition :=
          rt.tokenState.currentPosition + rt.nextBlock.length + rt.nextBlock.length }
    metrics := { rt.metrics with
      stateReads := rt.metrics.stateReads + 1
      draftBlocks := rt.metrics.draftBlocks + 1
      totalDraftTokens := rt.metrics.totalDraftTokens + rt.nextBlock.length
      stateWrites := rt.metrics.stateWrites + 1
      acceptedTokens := rt.metrics.acceptedTokens + rt.nextBlock.length
      committedTokens := committed.length
      iterations := rt.metrics.iterations + 1 } }

variable {rt rt' : BlockSpeculativeRuntime}

theorem iterate_eq (hb : 1 ≤ rt.drafter.blockSize) (hv : rt.drafter.vocabSize ≠ 0)
    (hacc : rt.tokenState.acceptedTokens = []) : rt.iterate = .ok rt.advanced := by
  have hdraft : rt.drafter.draftBlock rt.tokenState.committedTokens rt.tokenState.currentPosition =
      .ok ⟨0, rt.tokenState.currentPosition, rt.drafter.blockSize, rt.nextBlock⟩ :=
    DFlashStyleDrafter.draftBlock_eq hv _ _
  have hverify : rt.drafter.verifyBlock rt.tokenState.committedTokens
      ⟨0, rt.tokenState.currentPosition, rt.drafter.blockSize, rt.nextBlock⟩ =
        .ok ⟨0, rt.drafter.blockSize.toNat, rt.nextBlock, [], false⟩ :=
    DFlashStyleDrafter.verifyBlock_block hv _ _
  have hne : rt.nextBlock ≠ [] := by
    apply List.ne_nil_of_length_pos
    rw [nextBlock, DFlashStyleDrafter.length_block]
    omega
  have hcommit : (rt.tokenState.appendDraft rt.nextBlock).commitPrefix rt.nextBlock.length =
      { rt.tokenState with
        draftTokens := rt.nextBlock
        acceptedTokens := rt.nextBlock
        committedTokens := rt.tokenState.committedTokens ++ rt.nextBlock
        currentPosition := rt.tokenState.currentPosition + rt.nextBlock.length } := by
    have hall := TokenState.commitPrefix_all (s := rt.tokenState.appendDraft rt.nextBlock) hne
    simpa [TokenState.appendDraft, hacc] using hall
  -- nothing is rejected, so the tail that is discarded is empty
  simp only [iterate, hdraft, hverify, bind, Except.bind, pure, Except.pure, if_pos hne,
    hcommit, TokenState.discardRejectedTail, le_refl, if_true]
  simp [advanced, TokenState.advancePosition, TokenState.resetDraft]

/-- A run goes on as long as tokens are missing. -/
theorem loop_eq (hb : 1 ≤ rt.drafter.blockSize) (hv : rt.drafter.vocabSize ≠ 0)
    (hacc : rt.tokenState.acceptedTokens = []) (maxNewTokens : Int) :
    loop maxNewTokens (.ok rt) =
      if maxNewTokens ≤ rt.tokenState.committedTokens.length then none
      else some (.ok rt.advanced) := by
  rw [loop, iterate_eq hb hv hacc]
  simp only [TokenState.isComplete, decide_eq_true_eq]

/-! ### Whole runs -/

/-- The runtime after `k` iterations of a run that began with `rt₀`. -/
structure After (rt₀ : BlockSpeculativeRuntime) (k : Nat) (rt : BlockSpeculativeRuntime) : Prop where
  drafter : rt.drafter = rt₀.drafter
  accepted : rt.tokenState.acceptedTokens = []
  committed : (rt.tokenState.committedTokens.length : Int) = k * rt₀.drafter.blockSize
  position : rt.tokenState.currentPosition = 2 * rt.tokenState.committedTokens.length
  metrics : rt.metrics =
    { draftBlocks := k
      totalDraftTokens := rt.tokenState.committedTokens.length
      acceptedTokens := rt.tokenState.committedTokens.length
      stateReads := k
      stateWrites := k
      committedTokens := rt.tokenState.committedTokens.length
      iterations := k }

variable {rt₀ : BlockSpeculativeRuntime} {k : Nat} {maxNewTokens : Int}

theorem Fresh.after (h : rt₀.Fresh) : After rt₀ 0 rt₀ where
  drafter := rfl
  accepted := by rw [h.tokenState]
  committed := by
    rw [h.tokenState]
    simp
  position := by
    rw [h.tokenState]
    simp
  metrics := by
    rw [h.metrics, h.tokenState]
    rfl

theorem After.advanced (h : After rt₀ k rt) (hb : 1 ≤ rt₀.drafter.blockSize) :
    After rt₀ (k+1) rt.advanced := by
  have hlen : (rt.nextBlock.length : Int) = rt₀.drafter.blockSize := by
    rw [nextBlock, DFlashStyleDrafter.length_block, h.drafter]
    omega
  have hcommitted : rt.advanced.tokenState.committedTokens =
      rt.tokenState.committedTokens ++ rt.nextBlock := rfl
  refine ⟨h.drafter, rfl, ?_, ?_, ?_⟩
  · rw [hcommitted, List.length_append]
    push_cast
    rw [h.committed, hlen]
    ring
  · have hpos : rt.advanced.tokenState.currentPosition =
        rt.tokenState.currentPosition + rt.nextBlock.length + rt.nextBlock.length := rfl
    rw [hpos, h.position, hcommitted, List.length_append]
    push_cast
    ring
  · rw [hcommitted, List.length_append]
    simp [BlockSpeculativeRuntime.advanced, h.metrics]

/-- An iteration commits one more block and begins only if tokens were missing. -/
theorem After.turn (h : After rt₀ k rt) (hb : 1 ≤ rt₀.drafter.blockSize)
    (hv : 1 ≤ rt₀.drafter.vocabSize) {next : Except Fault BlockSpeculativeRuntime}
    (hs : loop maxNewTokens (.ok rt) = some next) :
    next = .ok rt.advanced ∧ After rt₀ (k+1) rt.advanced ∧
      rt.tokenState.committedTokens.length < maxNewTokens := by
  rw [loop_eq (h.drafter.symm ▸ hb) (by rw [h.drafter]; omega) h.accepted] at hs
  split at hs
  · cases hs
  · next hmissing =>
    exact ⟨(Option.some.inj hs).symm, h.advanced hb, not_le.mp hmissing⟩

/-- A run has stopped as soon as its blocks make up the tokens asked for. -/
theorem After.stopped_iff (h : After rt₀ k rt) (hb : 1 ≤ rt₀.drafter.blockSize)
    (hv : 1 ≤ rt₀.drafter.vocabSize) :
    loop maxNewTokens (.ok rt) = none ↔ ceilDiv maxNewTokens rt₀.drafter.blockSize ≤ k := by
  rw [loop_eq (h.drafter.symm ▸ hb) (by rw [h.drafter]; omega) h.accepted, h.committed,
    ceilDiv_le_iff (by omega)]
  split
  · next hdone => exact iff_of_true rfl hdone
  · next hmissing => exact iff_of_false (by simp) hmissing

/-- Every state of a run is that after some iterations, the last of which began with tokens
missing. -/
structure Reached (rt₀ : BlockSpeculativeRuntime) (maxNewTokens : Int)
    (state : Except Fault BlockSpeculativeRuntime) (rt : BlockSpeculativeRuntime) (k : Nat) :
    Prop where
  state : state = .ok rt
  after : After rt₀ k rt
  missing : k = 0 ∨ (k - 1) * rt₀.drafter.blockSize < maxNewTokens

theorem Reached.turn {state next : Except Fault BlockSpeculativeRuntime}
    (h : Reached rt₀ maxNewTokens state rt k) (hb : 1 ≤ rt₀.drafter.blockSize)
    (hv : 1 ≤ rt₀.drafter.vocabSize) (hs : loop maxNewTokens state = some next) :
    Reached rt₀ maxNewTokens next rt.advanced (k+1) ∧
      rt.tokenState.committedTokens.length < maxNewTokens := by
  rw [h.state] at hs
  obtain ⟨hnext, hafter, hless⟩ := h.after.turn hb hv hs
  have hcount := h.after.committed
  refine ⟨⟨hnext, hafter, Or.inr ?_⟩, hless⟩
  rw [Nat.cast_add, Nat.cast_one, add_sub_cancel_right]
  omega

theorem Fresh.reached (h : rt₀.Fresh) (maxNewTokens : Int) :
    Reached rt₀ maxNewTokens (.ok rt₀) rt₀ 0 := ⟨rfl, h.after, Or.inl rfl⟩

theorem Fresh.reaches (h : rt₀.Fresh) (hb : 1 ≤ rt₀.drafter.blockSize)
    (hv : 1 ≤ rt₀.drafter.vocabSize) {state : Except Fault BlockSpeculativeRuntime}
    (hs : Reaches (loop maxNewTokens) (.ok rt₀) state) :
    ∃ rt k, Reached rt₀ maxNewTokens state rt k :=
  Runs.invariant (P := fun state => ∃ rt k, Reached rt₀ maxNewTokens state rt k) hs
    ⟨rt₀, 0, h.reached maxNewTokens⟩ fun _ _ _ hu hstep => by
      obtain ⟨rt, k, hr⟩ := hu
      exact ⟨rt.advanced, k+1, (hr.turn hb hv hstep).1⟩

/-- Tokens still missing. -/
def missing (maxNewTokens : Int) : Except Fault BlockSpeculativeRuntime → Nat
  | .error _ => 0
  | .ok rt => (maxNewTokens - rt.tokenState.committedTokens.length).toNat

/-- A run ends after the iterations whose blocks make up the tokens asked for. -/
theorem Fresh.ends (h : rt₀.Fresh) (hb : 1 ≤ rt₀.drafter.blockSize)
    (hv : 1 ≤ rt₀.drafter.vocabSize) (hn : 0 ≤ maxNewTokens) :
    ∃ rt k, .ok rt ∈ eval (loop maxNewTokens) (.ok rt₀) ∧ After rt₀ k rt ∧
      (k : Int) = ceilDiv maxNewTokens rt₀.drafter.blockSize := by
  obtain ⟨last, hlast, rt, k, hr⟩ := Runs.exists_last (f := loop maxNewTokens)
    (P := fun state => ∃ rt k, Reached rt₀ maxNewTokens state rt k) (missing maxNewTokens)
    (fun state next hstate hnext => by
      obtain ⟨rt, k, hr⟩ := hstate
      obtain ⟨hr', hless⟩ := hr.turn hb hv hnext
      refine ⟨⟨rt.advanced, k+1, hr'⟩, ?_⟩
      have hcount := hr.after.committed
      have hcount' := hr'.after.committed
      have hgrow : ((k + 1 : Nat) : Int) * rt₀.drafter.blockSize =
          k * rt₀.drafter.blockSize + rt₀.drafter.blockSize := by
        push_cast
        ring
      rw [hr.state, hr'.state, missing, missing]
      omega)
    (.ok rt₀) ⟨rt₀, 0, h.reached maxNewTokens⟩
  obtain ⟨hstate, hafter, hmissing⟩ := hr
  subst hstate
  refine ⟨rt, k, hlast, hafter, ?_⟩
  have hpos : 0 < rt₀.drafter.blockSize := by omega
  have hdone : ceilDiv maxNewTokens rt₀.drafter.blockSize ≤ k :=
    (hafter.stopped_iff hb hv).mp (mem_eval.mp hlast).2
  apply le_antisymm
  · obtain rfl | hless := hmissing
    · simpa using ceilDiv_nonneg hpos hn
    · have hlt := (lt_ceilDiv_iff hpos).mpr hless
      omega
  · exact hdone

theorem mem_run {last : BlockSpeculativeRuntime} :
    .ok last ∈ rt.run maxNewTokens ↔
      ∃ rt', .ok rt' ∈ eval (loop maxNewTokens) (.ok rt) ∧ rt'.finish = last := by
  rw [run, Part.mem_map_iff]
  constructor
  · rintro ⟨state, hmem, heq⟩
    cases state with
    | error e => cases heq
    | ok rt' => exact ⟨rt', hmem, Except.ok.inj heq⟩
  · rintro ⟨rt', hmem, rfl⟩
    exact ⟨.ok rt', hmem, rfl⟩

/-! ### The position -/

/-- At the head of every iteration and at the end of a run the position is the number of committed
tokens, exactly if the run makes no iteration. -/
theorem position_is_committed_length_iff (h : rt.Fresh) (hb : 1 ≤ rt.drafter.blockSize)
    (hv : 1 ≤ rt.drafter.vocabSize) (maxNewTokens : Int) :
    ((∀ rt', Reaches (loop maxNewTokens) (.ok rt) (.ok rt') →
        rt'.tokenState.currentPosition = rt'.tokenState.committedTokens.length) ∧
      ∀ rt', .ok rt' ∈ rt.run maxNewTokens →
        rt'.tokenState.currentPosition = rt'.tokenState.committedTokens.length) ↔
      maxNewTokens ≤ 0 := by
  constructor
  · intro hall
    by_contra hpos
    have hnone := h.after.committed
    have hfirst : loop maxNewTokens (.ok rt) = some (.ok rt.advanced) := by
      rw [loop_eq hb (by omega) h.after.accepted, if_neg (by omega)]
    have hafter := h.after.advanced hb
    have hequal := hall.1 rt.advanced (Relation.ReflTransGen.single (Option.mem_def.mpr hfirst))
    have hdouble := hafter.position
    have hlen := hafter.committed
    omega
  · intro hle
    have hreached {rt' : BlockSpeculativeRuntime}
        (hs : Reaches (loop maxNewTokens) (.ok rt) (.ok rt')) :
        rt'.tokenState.currentPosition = rt'.tokenState.committedTokens.length := by
      obtain ⟨rt'', k, hr⟩ := h.reaches hb hv hs
      obtain rfl := Except.ok.inj hr.state
      have hzero : k = 0 := by
        by_contra hk
        have hless := hr.missing.resolve_left hk
        have hnonneg : 0 ≤ ((k : Int) - 1) * rt.drafter.blockSize :=
          mul_nonneg (by omega) (by omega)
        omega
      have hlen := hr.after.committed
      rw [hzero] at hlen
      have hpos := hr.after.position
      omega
    refine ⟨fun rt' => hreached, fun last hlast => ?_⟩
    obtain ⟨rt', hmem, rfl⟩ := mem_run.mp hlast
    have hend : rt'.tokenState.currentPosition = rt'.tokenState.committedTokens.length :=
      hreached (mem_eval.mp hmem).1
    exact hend

/-- A run of the default runtime for one token begins with a block. -/
theorem default_loop : loop 1 (.ok {}) = some (.ok (advanced {})) := by
  rw [loop_eq (by decide) (by decide) rfl, if_neg (by decide)]

/-- After the first block of the default size the position is 16 and eight tokens are committed. -/
theorem position_counts_twice :
    ¬ ∀ rt : BlockSpeculativeRuntime, rt.Fresh → 1 ≤ rt.drafter.blockSize →
      1 ≤ rt.drafter.vocabSize → ∀ (maxNewTokens : Int) (rt' : BlockSpeculativeRuntime),
        Reaches (loop maxNewTokens) (.ok rt) (.ok rt') →
          rt'.tokenState.currentPosition = rt'.tokenState.committedTokens.length := by
  intro h
  have hequal := h {} ⟨rfl, rfl, rfl⟩ (by decide) (by decide) 1 (advanced {})
    (Relation.ReflTransGen.single (Option.mem_def.mpr default_loop))
  revert hequal
  decide

theorem position_of_empty_run :
    (∀ rt', Reaches (loop 0) (.ok {}) (.ok rt') →
        rt'.tokenState.currentPosition = rt'.tokenState.committedTokens.length) ∧
      ∀ rt', .ok rt' ∈ run {} 0 →
        rt'.tokenState.currentPosition = rt'.tokenState.committedTokens.length :=
  (position_is_committed_length_iff ⟨rfl, rfl, rfl⟩ (by decide) (by decide) 0).mpr le_rfl

/-! ### The number of tokens -/

/-- A run ends with exactly the tokens that were asked for if and only if whole blocks make them
up. -/
theorem run_commits_maxNewTokens_iff (h : rt.Fresh) (hb : 1 ≤ rt.drafter.blockSize)
    (hv : 1 ≤ rt.drafter.vocabSize) (hn : 0 ≤ maxNewTokens) :
    (∃ last, .ok last ∈ rt.run maxNewTokens ∧
        (last.tokenState.committedTokens.length : Int) = maxNewTokens) ↔
      rt.drafter.blockSize ∣ maxNewTokens := by
  obtain ⟨rt', k, hmem, hafter, hk⟩ := h.ends hb hv hn
  have hrun : .ok rt'.finish ∈ rt.run maxNewTokens := mem_run.mpr ⟨rt', hmem, rfl⟩
  have hlen : (rt'.finish.tokenState.committedTokens.length : Int) =
      ceilDiv maxNewTokens rt.drafter.blockSize * rt.drafter.blockSize := hk ▸ hafter.committed
  have hpos : 0 < rt.drafter.blockSize := by omega
  rw [← ceilDiv_mul_eq_iff hpos, ← hlen]
  constructor
  · rintro ⟨last, hlast, hcount⟩
    rwa [← Except.ok.inj (Part.mem_unique hlast hrun)]
  · intro hcount
    exact ⟨rt'.finish, hrun, hcount⟩

/-- Asked for one token, the default runtime commits a block of eight. -/
theorem run_exceeds_maxNewTokens :
    ¬ ∀ rt : BlockSpeculativeRuntime, rt.Fresh → 1 ≤ rt.drafter.blockSize →
      1 ≤ rt.drafter.vocabSize → ∀ maxNewTokens : Int, 0 ≤ maxNewTokens →
        ∃ last, .ok last ∈ rt.run maxNewTokens ∧
          (last.tokenState.committedTokens.length : Int) = maxNewTokens := by
  intro h
  obtain ⟨last, hlast, hone⟩ := h {} ⟨rfl, rfl, rfl⟩ (by decide) (by decide) 1 (by decide)
  obtain ⟨rt', hmem, rfl⟩ := mem_run.mp hlast
  have hstop : loop 1 (.ok (advanced {})) = none := by
    rw [loop_eq (by decide) (by decide) rfl, if_pos (by decide)]
  have hlast : .ok (advanced {}) ∈ eval (loop 1) (.ok {}) :=
    mem_eval.mpr ⟨Relation.ReflTransGen.single (Option.mem_def.mpr default_loop), hstop⟩
  obtain rfl := Except.ok.inj (Part.mem_unique hmem hlast)
  revert hone
  decide

theorem run_commits_two_blocks :
    ∃ last, .ok last ∈ run {} 16 ∧ (last.tokenState.committedTokens.length : Int) = 16 :=
  (run_commits_maxNewTokens_iff ⟨rfl, rfl, rfl⟩ (by decide) (by decide) (by decide)).mpr (by decide)

end BlockSpeculativeRuntime
end ResidentInference

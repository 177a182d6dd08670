import ResidentInference.BlockBench

/-! Several runs of one block speculative runtime, one after the other: together they are one run
for the largest number of tokens that was asked for. -/
namespace ResidentInference
open StateTransition

namespace BlockSpeculativeRuntime
variable {rt rt' : BlockSpeculativeRuntime} {a b : Int}

/-- `run` on what an earlier call has left behind. -/
def runNext (maxNewTokens : Int) :
    Except Fault BlockSpeculativeRuntime → Part (Except Fault BlockSpeculativeRuntime)
  | .error e => Part.some (.error e)
  | .ok rt => rt.run maxNewTokens

/-- The calls of `run` for these numbers of tokens, in this order. -/
def runEach : List Int → Except Fault BlockSpeculativeRuntime →
    Part (Except Fault BlockSpeculativeRuntime)
  | [], state => Part.some state
  | maxNewTokens :: rest, state => (runNext maxNewTokens state).bind (runEach rest)

/-! ### Averages that were taken on the way -/

/-- `rt'` is `rt` with averages from an earlier moment, which the end of a run takes anew. -/
structure Reaveraged (rt rt' : BlockSpeculativeRuntime) : Prop where
  same : rt' = { rt with metrics := { rt.metrics with
    averageAcceptedPrefixLen := rt'.metrics.averageAcceptedPrefixLen
    acceptanceRate := rt'.metrics.acceptanceRate } }
  prefixLen : rt.metrics.draftBlocks ≤ 0 →
    rt'.metrics.averageAcceptedPrefixLen = rt.metrics.averageAcceptedPrefixLen
  rate : rt.metrics.acceptedTokens + rt.metrics.rejectedTokens ≤ 0 →
    rt'.metrics.acceptanceRate = rt.metrics.acceptanceRate

theorem reaveraged_finish (rt : BlockSpeculativeRuntime) : Reaveraged rt rt.finish where
  same := rfl
  prefixLen h := if_neg (not_lt.mpr h)
  rate h := if_neg (not_lt.mpr h)

theorem Reaveraged.finish_eq (h : Reaveraged rt rt') : rt'.finish = rt.finish := by
  have hprefix := h.prefixLen
  have hrate := h.rate
  rw [h.same] at hprefix hrate ⊢
  simp only [finish, BlockRuntimeMetrics.finalize]
  congr 2
  · split
    · rfl
    · next hblocks => exact hprefix (not_lt.mp hblocks)
  · split
    · rfl
    · next htotal => exact hrate (not_lt.mp htotal)

/-- `Reaveraged` for the states of a loop. -/
def ReaveragedState :
    Except Fault BlockSpeculativeRuntime → Except Fault BlockSpeculativeRuntime → Prop
  | .ok rt, .ok rt' => Reaveraged rt rt'
  | .error e, .error e' => e = e'
  | _, _ => False

theorem Reaveraged.iterate (h : Reaveraged rt rt') : ReaveragedState rt.iterate rt'.iterate := by
  have hprefix := h.prefixLen
  have hrate := h.rate
  rw [h.same] at hprefix hrate ⊢
  simp only [BlockSpeculativeRuntime.iterate, bind, Except.bind, pure, Except.pure]
  cases rt.drafter.draftBlock rt.tokenState.committedTokens rt.tokenState.currentPosition with
  | error e => exact rfl
  | ok draft =>
    dsimp only
    cases rt.drafter.verifyBlock rt.tokenState.committedTokens draft with
    | error e => exact rfl
    | ok verify =>
      dsimp only at hprefix hrate ⊢
      split
      all_goals
        refine ⟨rfl, fun hblocks => hprefix ?_, fun htotal => hrate ?_⟩
        · dsimp only at hblocks ⊢
          omega
        · dsimp only at htotal ⊢
          omega

theorem respects_reaveraged (maxNewTokens : Int) :
    Respects (loop maxNewTokens) (loop maxNewTokens) ReaveragedState := by
  intro state state' h
  cases state with
  | error e =>
    cases state' with
    | error e' => exact rfl
    | ok rt' => exact h.elim
  | ok rt =>
    cases state' with
    | error e' => exact h.elim
    | ok rt' =>
      have hrelated : Reaveraged rt rt' := h
      have htokens : rt'.tokenState = rt.tokenState := by rw [hrelated.same]
      cases hdone : rt.tokenState.isComplete maxNewTokens with
      | true =>
        have hstop : loop maxNewTokens (.ok rt) = none := by simp only [loop, hdone, if_true]
        have hstop' : loop maxNewTokens (.ok rt') = none := by
          simp only [loop, htokens, hdone, if_true]
        rw [hstop]
        exact hstop'
      | false =>
        have hgo : loop maxNewTokens (.ok rt) = some rt.iterate := by
          simp only [loop, hdone, Bool.false_eq_true, if_false]
        have hgo' : loop maxNewTokens (.ok rt') = some rt'.iterate := by
          simp only [loop, htokens, hdone, Bool.false_eq_true, if_false]
        rw [hgo]
        exact ⟨rt'.iterate, hrelated.iterate, Relation.TransGen.single hgo'⟩

/-- What a run leaves behind does not depend on averages taken before it. -/
theorem Reaveraged.run_eq (h : Reaveraged rt rt') (maxNewTokens : Int) :
    rt'.run maxNewTokens = rt.run maxNewTokens := by
  have hfinish (state state' : Except Fault BlockSpeculativeRuntime)
      (hs : ReaveragedState state state') : state'.map finish = state.map finish := by
    cases state with
    | error e =>
      cases state' with
      | error e' => exact congrArg Except.error (show e = e' from hs).symm
      | ok rt' => exact hs.elim
    | ok rt =>
      cases state' with
      | error e' => exact hs.elim
      | ok rt' => exact congrArg Except.ok (show Reaveraged rt rt' from hs).finish_eq
  have hstart : ReaveragedState (.ok rt) (.ok rt') := h
  apply Part.ext
  intro last
  simp only [run, Part.mem_map_iff]
  constructor
  · rintro ⟨state', hmem', rfl⟩
    obtain ⟨state, hs, hmem⟩ := tr_eval_rev (respects_reaveraged maxNewTokens) hstart hmem'
    exact ⟨state, hmem, (hfinish state state' hs).symm⟩
  · rintro ⟨state, hmem, rfl⟩
    obtain ⟨state', hs, hmem'⟩ := tr_eval (respects_reaveraged maxNewTokens) hstart hmem
    exact ⟨state', hmem', hfinish state state' hs⟩

/-! ### One run after another -/

theorem loop_of_le (h : a ≤ b) {state next : Except Fault BlockSpeculativeRuntime}
    (hs : loop a state = some next) : loop b state = some next := by
  cases state with
  | error e => cases hs
  | ok rt =>
    simp only [loop, TokenState.isComplete, decide_eq_true_eq] at hs ⊢
    split at hs
    · cases hs
    · next hmissing => rwa [if_neg (by omega)]

theorem finish_finish (rt : BlockSpeculativeRuntime) : rt.finish.finish = rt.finish :=
  (reaveraged_finish rt).finish_eq

/-- A run for no more tokens than there are already changes nothing but the averages. -/
theorem run_of_complete (h : rt.tokenState.isComplete a = true) :
    rt.run a = Part.some (.ok rt.finish) := by
  have hstop : loop a (.ok rt) = none := by simp only [loop, h, if_true]
  have hmem : (.ok rt : Except Fault BlockSpeculativeRuntime) ∈ eval (loop a) (.ok rt) :=
    mem_eval.mpr ⟨Relation.ReflTransGen.refl, hstop⟩
  rw [run, Part.eq_some_iff.mpr hmem, Part.map_some]
  rfl

/-- Where a run stops without an exception, the tokens that were asked for are there. -/
theorem isComplete_of_stopped (h : loop a (.ok rt) = none) : rt.tokenState.isComplete a = true := by
  by_contra hmissing
  rw [loop, if_neg hmissing] at h
  cases h

theorem runNext_finish (b : Int) (state : Except Fault BlockSpeculativeRuntime) :
    runNext b (state.map finish) = (eval (loop b) state).map fun last => last.map finish := by
  cases state with
  | error e =>
    have hmem : (.error e : Except Fault BlockSpeculativeRuntime) ∈ eval (loop b) (.error e) :=
      mem_eval.mpr ⟨Relation.ReflTransGen.refl, rfl⟩
    rw [Part.eq_some_iff.mpr hmem, Part.map_some]
    rfl
  | ok rt => exact (reaveraged_finish rt).run_eq b

/-- A run on what an earlier one has left ends as one run for the larger number of tokens. -/
theorem run_runNext (rt : BlockSpeculativeRuntime) (a b : Int) :
    (rt.run a).bind (runNext b) = rt.run (max a b) := by
  rw [run, Part.bind_map]
  obtain hle | hle := le_total a b
  · have hresume : eval (loop b) (.ok rt) = (eval (loop a) (.ok rt)).bind (eval (loop b)) :=
      Runs.eval_of_extends (fun _ _ => loop_of_le hle) _
    simp only [runNext_finish]
    rw [max_eq_right hle, run, hresume, Part.map_bind]
  · rw [max_eq_left hle, run, ← Part.bind_some_eq_map]
    refine Part.ext fun last => ?_
    simp only [Part.mem_bind_iff]
    refine exists_congr fun state => and_congr_right fun hmem => ?_
    have hagain : runNext b (state.map finish) = Part.some (state.map finish) := by
      cases state with
      | error e => rfl
      | ok u =>
        have hdone := isComplete_of_stopped (mem_eval.mp hmem).2
        have hdone' : u.finish.tokenState.isComplete b = true := by
          simp only [TokenState.isComplete, decide_eq_true_eq] at hdone ⊢
          exact hle.trans hdone
        exact (run_of_complete hdone').trans (by rw [finish_finish]; rfl)
    rw [hagain]

/-- Any sequence of runs on one runtime ends as a single run for the largest number of tokens asked
for does: with the same tokens, windows and metrics, with the same exception, or never. -/
theorem runEach_eq_run (rt : BlockSpeculativeRuntime) (maxNewTokens : Int) (rest : List Int) :
    runEach (maxNewTokens :: rest) (.ok rt) = rt.run (rest.foldl max maxNewTokens) := by
  induction rest generalizing maxNewTokens with
  | nil => exact Part.bind_some_right _
  | cons next rest ih =>
    have hsplit : runEach (maxNewTokens :: next :: rest) (.ok rt) =
        ((rt.run maxNewTokens).bind (runNext next)).bind (runEach rest) := by
      rw [Part.bind_assoc]
      rfl
    rw [hsplit, run_runNext, List.foldl_cons, ← ih]
    rfl

end BlockSpeculativeRuntime
end ResidentInference

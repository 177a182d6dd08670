import ResidentInference.Device.Baseline
import ResidentInference.Device.MegakernelBlocks
import ResidentInference.Schedules

/-! Whole runs of the persistent kernel: under every schedule of its blocks it ends, and when it has
ended every request is complete. -/
namespace ResidentInference.Device
open Interleaving
variable {φ : Type}

/-! ## The kernel ends -/

/-- The steps that a block still takes at most. -/
def BlockState.stepsLeft (maxIterations : Int) (l : BlockState φ) : Nat :=
  let later := 12 * (maxIterations - l.iteration - 1).toNat
  match l.point with
  | .test => 12 * (maxIterations - l.iteration).toNat + 1
  | .asbs => later + 10
  | .prefill => later + 9
  | .select => later + 8
  | .decode => later + 7
  | .verify => later + 6
  | .commit => later + 5
  | .count => later + 4
  | .poll => later + 3
  | .signal => later + 2
  | .left => 0

section
variable [DeviceFloat φ]

theorem stepsLeft_lt {n : Nat} {launch : MegakernelLaunch} {b : Fin n} {l l' : BlockState φ}
    {g g' : SharedState φ} (h : megakernelBlockStep launch b l g = some (l', g')) :
    l'.stepsLeft launch.maxIterations < l.stepsLeft launch.maxIterations := by
  have hnext : launch.maxIterations - (l.iteration + 1) = launch.maxIterations - l.iteration - 1 :=
    by omega
  rw [megakernelBlockStep] at h
  cases hpoint : l.point with
  | test =>
    simp only [hpoint] at h
    split at h
    · next hlt =>
      obtain ⟨rfl, rfl⟩ := h
      simp only [BlockState.stepsLeft, hpoint]
      omega
    · obtain ⟨rfl, rfl⟩ := h
      simp [BlockState.stepsLeft, hpoint]
  | asbs =>
    simp only [hpoint] at h
    obtain ⟨rfl, rfl⟩ := h
    by_cases hdone : (if l.asbsInitialized then l.req
      else initAsbs launch.initialBlockSize l.req).IsDone
    · simp [BlockState.stepsLeft, hpoint, hdone]
    · simp [BlockState.stepsLeft, hpoint, hdone]
  | prefill | select | decode | verify | commit =>
    simp only [hpoint] at h
    obtain ⟨rfl, rfl⟩ := h
    simp [BlockState.stepsLeft, hpoint]
  | count =>
    simp only [hpoint] at h
    split at h
    · obtain ⟨rfl, rfl⟩ := h
      simp [BlockState.stepsLeft, hpoint]
    · obtain ⟨rfl, rfl⟩ := h
      simp [BlockState.stepsLeft, hpoint]
  | poll =>
    simp only [hpoint] at h
    split at h
    · obtain ⟨rfl, rfl⟩ := h
      simp [BlockState.stepsLeft, hpoint]
    · obtain ⟨rfl, rfl⟩ := h
      simp [BlockState.stepsLeft, hpoint, hnext]
  | signal =>
    simp only [hpoint] at h
    obtain ⟨rfl, rfl⟩ := h
    simp [BlockState.stepsLeft, hpoint, hnext]
  | left => simp [hpoint] at h

/-- Only a block that has left its loop takes no step: no block ever waits for another. -/
theorem megakernelBlockStep_eq_none_iff {n : Nat} {launch : MegakernelLaunch} {b : Fin n}
    {l : BlockState φ} {g : SharedState φ} :
    megakernelBlockStep launch b l g = none ↔ l.point = .left := by
  rw [megakernelBlockStep]
  cases hpoint : l.point with
  | test | count | poll =>
    simp only [reduceCtorEq, iff_false]
    split <;> simp
  | asbs | prefill | select | decode | verify | commit | signal | left => simp

end

/-! ## What a block has achieved -/

/-- A request that the kernel has completed. -/
structure Finished (req : RequestDescriptor φ) : Prop where
  complete : req.state = .complete
  pos : 1 ≤ req.outputTokenCount
  le : req.outputTokenCount ≤ req.maxNewTokens
  ended : req.outputTokenCount = req.maxNewTokens ∨ req.hasFlag .eosSeen = true

/-- Completed, or ready for the next iteration with at least `k` tokens. -/
def Advanced (k : Int) (req : RequestDescriptor φ) : Prop :=
  Finished req ∨ (EntersLoop req ∧ k ≤ req.outputTokenCount)

/-- Ready to decode, verify or commit with at least `k` tokens and a token of the budget left. -/
structure Underway (k : Int) (state : RequestState) (req : RequestDescriptor φ) : Prop where
  state : req.state = state
  count : k ≤ req.outputTokenCount
  nonneg : 0 ≤ req.outputTokenCount
  lt : req.outputTokenCount < req.maxNewTokens

theorem EntersLoop.not_done {req : RequestDescriptor φ} (h : EntersLoop req) : ¬ req.IsDone := by
  obtain ⟨-, ⟨hs, -⟩ | ⟨hs, -⟩⟩ := h
  · simp [RequestDescriptor.IsDone, hs]
  · simp [RequestDescriptor.IsDone, hs]

theorem Advanced.finished {k : Int} {req : RequestDescriptor φ} (h : Advanced k req)
    (hdone : req.IsDone) : Finished req := by
  cases h with
  | inl hfinished => exact hfinished
  | inr hloop => exact absurd hdone hloop.1.not_done

/-- As many tokens as the budget has. -/
theorem Advanced.finished_of_le {k : Int} {req : RequestDescriptor φ} (h : Advanced k req)
    (hk : req.maxNewTokens ≤ k) : Finished req := by
  cases h with
  | inl hfinished => exact hfinished
  | inr hloop =>
    obtain ⟨⟨hpos, ⟨-, h0⟩ | ⟨-, -, hlt⟩⟩, hcount⟩ := hloop
    · omega
    · omega

theorem EntersLoop.advanced {req : RequestDescriptor φ} (h : EntersLoop req) : Advanced 0 req := by
  refine Or.inr ⟨h, ?_⟩
  obtain ⟨-, ⟨-, hcount⟩ | ⟨-, hcount, -⟩⟩ := h
  · exact hcount.ge
  · exact hcount

/-- Between iterations a request is not in the middle of a step. -/
theorem Advanced.state {k : Int} {req : RequestDescriptor φ} (h : Advanced k req) :
    req.state = .complete ∨ req.state = .prefillReady ∨ req.state = .decodeReady := by
  cases h with
  | inl hfinished => exact Or.inl hfinished.complete
  | inr hloop => exact Or.inr (hloop.1.2.imp And.left And.left)

theorem Progress.advanced {k : Int} {req req' : RequestDescriptor φ} (h : Progress req req')
    (hcount : k ≤ req.outputTokenCount) (h0 : 0 ≤ req.outputTokenCount) : Advanced (k+1) req' := by
  have hlt := h.lt
  have hle := h.le
  have hmax := h.maxNewTokens
  cases h.state with
  | inl hready => exact Or.inr ⟨h.entersLoop h0 hready, by omega⟩
  | inr hcomplete =>
    refine Or.inl ⟨hcomplete, by omega, by omega, ?_⟩
    rw [hmax]
    exact h.complete hcomplete

/-- What holds of the request of a block at each point of its loop, in iteration `k`. -/
def AtPoint (k : Int) (req : RequestDescriptor φ) : BlockPoint → Prop
  | .test | .asbs | .left => Advanced k req
  | .prefill => EntersLoop req ∧ k ≤ req.outputTokenCount
  | .select | .decode => Underway k .decodeReady req
  | .verify => Advanced (k+1) req ∨ Underway k .draftReady req
  | .commit => Advanced (k+1) req ∨
      (Underway k .commitReady req ∧ 0 ≤ req.acceptedPrefixLen ∧
        req.acceptedPrefixLen ≤ req.budgetLeft)
  | .count | .poll | .signal => Advanced (k+1) req

/-- The points from the first stage to the test that counts the request. -/
def BlockPoint.inBody : BlockPoint → Bool
  | .prefill | .select | .decode | .verify | .commit | .count => true
  | _ => false

/-- A block with a budget of `max` tokens; outside of the body it has counted a request that is
done. -/
structure BlockProgress (max : Int) (l : BlockState φ) : Prop where
  budget : l.req.maxNewTokens = max
  atPoint : AtPoint l.iteration l.req l.point
  counted : l.point.inBody = false → l.req.IsDone → l.alreadyCounted = true

theorem underway_stagePrefill {k : Int} {req : RequestDescriptor φ} (h : EntersLoop req)
    (hk : k ≤ req.outputTokenCount) (kv : KVPageTable φ) :
    Underway k .decodeReady (stagePrefill req kv).1 ∧
      (stagePrefill req kv).1.maxNewTokens = req.maxNewTokens := by
  obtain ⟨hmax, ⟨hs, hcount⟩ | ⟨hs, h0, hlt⟩⟩ := h
  · simp only [stagePrefill, hs, if_true]
    exact ⟨⟨rfl, by simpa [hcount] using hk, le_rfl, by simp; omega⟩, rfl⟩
  · rw [stagePrefill_of_ne (by simp [hs])]
    exact ⟨⟨hs, hk, h0, hlt⟩, rfl⟩

/-- Decoding one token, or drafting. -/
theorem underway_stageDecode {k : Int} {req : RequestDescriptor φ} (h : Underway k .decodeReady req)
    (draftTokens : Option (Int → Int)) :
    AtPoint k (stageDecode req draftTokens).1 .verify ∧
      (stageDecode req draftTokens).1.maxNewTokens = req.maxNewTokens := by
  cases hf : req.hasFlag .speculativeEnabled with
  | false =>
    rw [stageDecode_of_not_speculative h.state hf]
    have hlt := h.lt
    have hp : Progress req req.emitNextToken.settleToken :=
      settleToken_progress (by simp) (by simp; omega) rfl
    exact ⟨Or.inl (hp.advanced h.count h.nonneg), hp.maxNewTokens⟩
  | true =>
    rw [stageDecode_of_speculative h.state hf]
    exact ⟨Or.inr ⟨rfl, h.count, h.nonneg, h.lt⟩, rfl⟩

theorem underway_stageCommit {k : Int} {req : RequestDescriptor φ} (h : AtPoint k req .commit)
    (kv : KVPageTable φ) :
    Advanced (k+1) (stageCommit req kv).1 ∧
      (stageCommit req kv).1.maxNewTokens = req.maxNewTokens := by
  cases h with
  | inl hadvanced =>
    have hstate := hadvanced.state
    rw [stageCommit_of_ne (by grind)]
    exact ⟨hadvanced, rfl⟩
  | inr hcommit =>
    obtain ⟨hready, h0, hb⟩ := hcommit
    have hp := stageCommit_progress hready.state h0 hb hready.lt kv
    exact ⟨hp.advanced hready.count hready.nonneg, hp.maxNewTokens⟩

section
variable [DeviceFloat φ]

theorem underway_stageSpecVerify {k : Int} {req : RequestDescriptor φ}
    (h : AtPoint k req .verify) (draftTokens : Option (Int → Int)) :
    AtPoint k (stageSpecVerify req draftTokens) .commit ∧
      (stageSpecVerify req draftTokens).maxNewTokens = req.maxNewTokens := by
  cases h with
  | inl hadvanced =>
    have hstate := hadvanced.state
    rw [stageSpecVerify_of_ne (by grind) (by grind)]
    exact ⟨Or.inl hadvanced, rfl⟩
  | inr hdraft =>
    have hlt := hdraft.lt
    have hlimit : req.verifyLimit ≤ req.budgetLeft := by
      simp only [RequestDescriptor.verifyLimit]
      split <;> omega
    have hle := acceptedCount_le req draftTokens
    have hbudget : 0 < req.budgetLeft := by
      simp only [RequestDescriptor.budgetLeft]
      omega
    rw [stageSpecVerify_of_draftReady hdraft.state]
    refine ⟨Or.inr ⟨⟨rfl, hdraft.count, hdraft.nonneg, hdraft.lt⟩,
      acceptedCount_nonneg req draftTokens, ?_⟩, rfl⟩
    change req.acceptedCount draftTokens ≤ req.budgetLeft
    omega

theorem advanced_initAsbs {k initialBlockSize : Int} {req : RequestDescriptor φ} :
    Advanced k (initAsbs initialBlockSize req) ↔ Advanced k req := by
  constructor
  · exact Or.imp (fun h => ⟨h.complete, h.pos, h.le, h.ended⟩) id
  · exact Or.imp (fun h => ⟨h.complete, h.pos, h.le, h.ended⟩) id

theorem BlockProgress.step {max : Int} {n : Nat} {launch : MegakernelLaunch} {b : Fin n}
    {l l' : BlockState φ} {g g' : SharedState φ} (h : BlockProgress max l)
    (hstep : megakernelBlockStep launch b l g = some (l', g')) : BlockProgress max l' := by
  have hat := h.atPoint
  cases blockMove hstep with
  | enter point =>
    rw [point] at hat
    exact ⟨h.budget, hat, fun _ => h.counted (by rw [point]; rfl)⟩
  | leave point stop =>
    rw [point] at hat
    exact ⟨h.budget, hat, fun _ => h.counted (by rw [point]; rfl)⟩
  | asbs point req init =>
    rw [point] at hat
    have hadvanced : Advanced l.iteration req := by
      rw [init]
      split
      · exact hat
      · exact advanced_initAsbs.mpr hat
    have hbudget : req.maxNewTokens = max := by
      rw [← h.budget, init]
      split <;> rfl
    by_cases hdone : req.IsDone
    · refine ⟨hbudget, ?_, fun hno => ?_⟩
      · rw [if_pos hdone]
        exact Or.inl (hadvanced.finished hdone)
      · rw [if_pos hdone] at hno
        cases hno
    · refine ⟨hbudget, ?_, fun _ hyes => absurd hyes hdone⟩
      rw [if_neg hdone]
      exact hadvanced.resolve_left fun hf => hdone (Or.inl hf.complete)
  | prefill point =>
    rw [point] at hat
    have hstage := underway_stagePrefill hat.1 hat.2 g.kv
    exact ⟨hstage.2.trans h.budget, hstage.1, nofun⟩
  | select point =>
    rw [point] at hat
    exact ⟨h.budget, hat, nofun⟩
  | decode point =>
    rw [point] at hat
    have hstage := underway_stageDecode hat g.draftTokens
    exact ⟨hstage.2.trans h.budget, hstage.1, nofun⟩
  | verify point =>
    rw [point] at hat
    have hstage := underway_stageSpecVerify hat g.draftTokens
    exact ⟨hstage.2.trans h.budget, hstage.1, nofun⟩
  | commit point =>
    rw [point] at hat
    have hstage := underway_stageCommit hat g.kv
    exact ⟨hstage.2.trans h.budget, hstage.1, nofun⟩
  | count point new done =>
    rw [point] at hat
    exact ⟨h.budget, hat, fun _ _ => rfl⟩
  | pass point =>
    rw [point] at hat
    refine ⟨h.budget, hat, fun _ hdone => ?_⟩
    have hskipped : ¬(l.alreadyCounted = false ∧ l.req.IsDone) := by
      intro hnew
      simp only [megakernelBlockStep, point, if_pos hnew] at hstep
      have hcounter := congrArg (fun p => p.2.doneCounter) (Option.some.inj hstep)
      simp at hcounter
    simpa using fun hnew => hskipped ⟨hnew, hdone⟩
  | notice point all =>
    rw [point] at hat
    exact ⟨h.budget, hat, fun _ => h.counted (by rw [point]; rfl)⟩
  | next point =>
    rw [point] at hat
    exact ⟨h.budget, hat, fun _ => h.counted (by rw [point]; rfl)⟩
  | signal point =>
    rw [point] at hat
    exact ⟨h.budget, hat, fun _ => h.counted (by rw [point]; rfl)⟩

/-! ## Whole runs -/

variable {n : Nat} {launch : MegakernelLaunch} {requests : Fin n → RequestDescriptor φ}
  {kv : KVPageTable φ} {draftTokens : Option (Int → Int)}
  {c : Config (Fin n) (BlockState φ) (SharedState φ)}

theorem blockProgress_reaches (h : ∀ b, EntersLoop (requests b))
    (hreach : Reaches (megakernelBlockStep launch) (launchMegakernel requests kv draftTokens) c)
    (b : Fin n) : BlockProgress (requests b).maxNewTokens (c.locals b) := by
  have hstart : ∀ b, BlockProgress (requests b).maxNewTokens
      ((launchMegakernel requests kv draftTokens).locals b) := by
    intro b
    exact ⟨rfl, (h b).advanced, fun _ hdone => absurd hdone (h b).not_done⟩
  exact local_invariant (I := fun b l _ => BlockProgress (requests b).maxNewTokens l) hreach hstart
    (fun _ _ _ _ _ hl hstep => hl.step hstep) (fun _ _ _ _ _ _ _ _ _ hm _ => hm) b

theorem shutdownInvariant_reaches
    (hreach : Reaches (megakernelBlockStep launch) (launchMegakernel requests kv draftTokens) c) :
    ShutdownInvariant launch c :=
  invariant hreach (shutdownInvariant_launch launch requests kv draftTokens)
    fun _ _ _ _ hd hstep => shutdownInvariant_step hd (blockEffect hstep)

/-- A block that has left its loop, by the flag or after its last iteration, has completed its
request. -/
theorem finished_of_left (h : ∀ b, EntersLoop (requests b))
    (hmax : ∀ b, (requests b).maxNewTokens ≤ launch.maxIterations)
    (hreach : Reaches (megakernelBlockStep launch) (launchMegakernel requests kv draftTokens) c)
    {b : Fin n} (hleft : (c.locals b).point = .left) : Finished (c.locals b).req := by
  have hprogress := blockProgress_reaches h hreach b
  have hat := hprogress.atPoint
  rw [hleft] at hat
  have hadvanced : Advanced (c.locals b).iteration (c.locals b).req := hat
  by_cases hdone : (c.locals b).req.IsDone
  · exact hadvanced.finished hdone
  · have hshutdown := shutdownInvariant_reaches hreach
    have hlast := (hshutdown.left b hleft).resolve_left fun hall =>
      hdone (hshutdown.counted b (hall b))
    refine hadvanced.finished_of_le ?_
    rw [hprogress.budget]
    exact (hmax b).trans hlast

/-- Whatever the schedule, the kernel ends within a fixed number of steps, and when no block can
step any more requests that entered the loop with budgets within the number of iterations are all
complete, with at least one token and within their budgets, and the done counter has counted every
request once. -/
theorem megakernel_completes :
    (∀ schedule c, runSchedule (megakernelBlockStep launch) schedule
        (launchMegakernel requests kv draftTokens) = some c →
      schedule.length ≤ n * (12 * launch.maxIterations.toNat + 1)) ∧
    ((∀ b, EntersLoop (requests b)) →
      (∀ b, (requests b).maxNewTokens ≤ launch.maxIterations) →
      ∀ c, Reaches (megakernelBlockStep launch) (launchMegakernel requests kv draftTokens) c →
        Stopped (megakernelBlockStep launch) c →
        (∀ b, Finished (c.locals b).req) ∧ c.shared.doneCounter = n) := by
  constructor
  · intro schedule c hrun
    have hle := length_schedule_le (μ := BlockState.stepsLeft launch.maxIterations)
      (fun _ _ _ _ _ hstep => stepsLeft_lt hstep) hrun
    have hstart : ∑ b, ((launchMegakernel requests kv draftTokens).locals b).stepsLeft
        launch.maxIterations = n * (12 * launch.maxIterations.toNat + 1) := by
      simp [launchMegakernel, BlockState.stepsLeft]
    omega
  · intro h hmax c hreach hstopped
    have hleft : ∀ b, (c.locals b).point = .left :=
      fun b => megakernelBlockStep_eq_none_iff.mp (hstopped b)
    have hfinished : ∀ b, Finished (c.locals b).req := fun b =>
      finished_of_left h hmax hreach (hleft b)
    refine ⟨hfinished, ?_⟩
    have hcounted : ∀ b, (c.locals b).alreadyCounted = true := fun b =>
      (blockProgress_reaches h hreach b).counted (by rw [hleft b]; rfl)
        (Or.inl (hfinished b).complete)
    rw [(shutdownInvariant_reaches hreach).counter, countedBlocks, count,
      Finset.filter_true_of_mem fun b _ => hcounted b, Finset.card_univ, Fintype.card_fin]

/-- The requests of the host enter the loop. -/
theorem entersLoop_megakernelRequest {tokensPerRequest : Int} (h : 1 ≤ tokensPerRequest)
    (draftLen i : Int) :
    EntersLoop (megakernelRequest tokensPerRequest draftLen i : RequestDescriptor φ) :=
  ⟨h, Or.inr ⟨rfl, le_rfl, by simp only [megakernelRequest, initRequest]; omega⟩⟩

/-- The launch of the host over two requests of three tokens. -/
theorem megakernel_completes_two : ∃ c : Config (Fin 2) (BlockState ℚ) (SharedState ℚ),
    Reaches (megakernelBlockStep ⟨100000, 4⟩) (launchMegakernelPath 2 3 4 fun _ => 0) c ∧
      (∀ b, Finished (c.locals b).req) ∧ c.shared.doneCounter = (2 : Nat) := by
  let launch : MegakernelLaunch := ⟨100000, 4⟩
  obtain ⟨c, hreach, hstopped⟩ : ∃ c : Config (Fin 2) (BlockState ℚ) (SharedState ℚ),
      Reaches (megakernelBlockStep launch) (launchMegakernelPath 2 3 4 fun _ => 0) c ∧
        Stopped (megakernelBlockStep launch) c :=
    exists_stopped (fun _ _ _ _ _ hstep => stepsLeft_lt hstep) _
  have hloop : ∀ b : Fin 2, EntersLoop (megakernelRequest 3 4 b : RequestDescriptor ℚ) :=
    fun b => entersLoop_megakernelRequest (by decide) 4 b
  have hmax : ∀ b : Fin 2, (megakernelRequest 3 4 b : RequestDescriptor ℚ).maxNewTokens ≤
      launch.maxIterations := fun b => (by decide : (3 : Int) ≤ 100000)
  exact ⟨c, hreach, megakernel_completes.2 hloop hmax c hreach hstopped⟩

end
end ResidentInference.Device

import ResidentInference.Device.Host
import ResidentInference.Device.Megakernel
import ResidentInference.Schedules

/-! The blocks of the persistent kernel as interleaved processes, and when they shut down. Block
`b` is the only one that touches request `b`; the page table, the drafts, the shutdown flag and the
done counter are shared. Every stage is an atomic step of its own, so blocks may interleave inside
a loop body as well. -/
namespace ResidentInference.Device
open Interleaving
variable {φ : Type}

/-- Where a block stands in its loop. -/
inductive BlockPoint where
  | test | asbs | prefill | select | decode | verify | commit | count | poll | signal | left
  deriving DecidableEq, Repr

/-- What a block owns: its request and its local variables. -/
structure BlockState (φ : Type) where
  req : RequestDescriptor φ
  point : BlockPoint
  iteration : Int
  alreadyCounted : Bool
  asbsInitialized : Bool

structure SharedState (φ : Type) where
  kv : KVPageTable φ
  draftTokens : Option (Int → Int)
  shutdownFlag : Int
  doneCounter : Int

/-- The parameters of the launch. -/
structure MegakernelLaunch where
  maxIterations : Int
  initialBlockSize : Int

section
variable [DeviceFloat φ]

/-- The next atomic step of block `b` of `n`. -/
def megakernelBlockStep {n : Nat} (launch : MegakernelLaunch) (b : Fin n) (l : BlockState φ)
    (g : SharedState φ) : Option (BlockState φ × SharedState φ) :=
  match l.point with
  | .test =>
    if g.shutdownFlag = 0 ∧ l.iteration < launch.maxIterations then
      some ({ l with point := .asbs }, g)
    else some ({ l with point := .left }, g)
  | .asbs =>
    let req := if l.asbsInitialized then l.req else initAsbs launch.initialBlockSize l.req
    some ({ l with
      req := req
      asbsInitialized := true
      point := if req.IsDone then .count else .prefill }, g)
  | .prefill =>
    let (req, kv) := stagePrefill l.req g.kv
    some ({ l with req := req, point := .select }, { g with kv := kv })
  | .select =>
    let kv := selectSparseKvBlocks l.req g.kv l.req.currentBlockSize
    some ({ l with point := .decode }, { g with kv := kv })
  | .decode =>
    let (req, draftTokens) := stageDecode l.req g.draftTokens
    some ({ l with req := req, point := .verify }, { g with draftTokens := draftTokens })
  | .verify => some ({ l with req := stageSpecVerify l.req g.draftTokens, point := .commit }, g)
  | .commit =>
    let (req, kv) := stageCommit l.req g.kv
    some ({ l with req := req, point := .count }, { g with kv := kv })
  | .count =>
    if l.alreadyCounted = false ∧ l.req.IsDone then
      some ({ l with alreadyCounted := true, point := .poll },
        { g with doneCounter := g.doneCounter + 1 })
    else some ({ l with point := .poll }, g)
  | .poll =>
    if b.val = 0 ∧ g.doneCounter ≥ n then some ({ l with point := .signal }, g)
    else some ({ l with point := .test, iteration := l.iteration + 1 }, g)
  | .signal =>
    some ({ l with point := .test, iteration := l.iteration + 1 }, { g with shutdownFlag := 1 })
  | .left => none

end

/-- The kernel as it starts: flag and counter zero, every block before its first iteration. -/
def launchMegakernel {n : Nat} (requests : Fin n → RequestDescriptor φ) (kv : KVPageTable φ)
    (draftTokens : Option (Int → Int)) : Config (Fin n) (BlockState φ) (SharedState φ) where
  locals := fun b =>
    { req := requests b
      point := .test
      iteration := 0
      alreadyCounted := false
      asbsInitialized := false }
  shared := { kv := kv, draftTokens := draftTokens, shutdownFlag := 0, doneCounter := 0 }

/-- The state as `run_megakernel_path` launches the kernel, over a draft buffer with any content. -/
def launchMegakernelPath [DeviceFloat φ] (n : Nat) (tokensPerRequest draftLen : Int)
    (drafts : Int → Int) : Config (Fin n) (BlockState φ) (SharedState φ) :=
  launchMegakernel (fun b => megakernelRequest tokensPerRequest draftLen b) (megakernelTable n)
    (some drafts)

/-- The steps of one loop body, taken without interruption, are an iteration of the loop. -/
theorem runAlone_body [DeviceFloat φ] {n : Nat} (launch : MegakernelLaunch) (b : Fin n)
    (c : Config (Fin n) (BlockState φ) (SharedState φ)) (hpoint : (c.locals b).point = .asbs)
    (hdone : ¬ (c.locals b).req.IsDone) :
    let next := megakernelIteration launch.initialBlockSize
      { req := (c.locals b).req
        mem := ⟨c.shared.kv, c.shared.draftTokens⟩
        asbsInitialized := (c.locals b).asbsInitialized }
    runAlone (megakernelBlockStep launch) b 6 c =
      { locals := Function.update c.locals b
          { c.locals b with req := next.req, asbsInitialized := true, point := .count }
        shared := { c.shared with kv := next.mem.kv, draftTokens := next.mem.draftTokens } } := by
  have hinit : ¬ (initAsbs launch.initialBlockSize (c.locals b).req).IsDone := hdone
  cases ha : (c.locals b).asbsInitialized with
  | true =>
    simp [runAlone, step, megakernelBlockStep, hpoint, ha, hdone, megakernelIteration,
      advanceRequest]
  | false =>
    simp [runAlone, step, megakernelBlockStep, hpoint, ha, hinit, megakernelIteration,
      advanceRequest]

/-! ## The moves of a block -/

/-- The moves that a block can make, one for each branch of its step. -/
inductive BlockMove [DeviceFloat φ] (n : Nat) (launch : MegakernelLaunch) (l : BlockState φ)
    (g : SharedState φ) : BlockState φ → SharedState φ → Prop
  | enter (point : l.point = .test) : BlockMove n launch l g { l with point := .asbs } g
  | leave (point : l.point = .test)
      (stop : ¬(g.shutdownFlag = 0 ∧ l.iteration < launch.maxIterations)) :
      BlockMove n launch l g { l with point := .left } g
  | asbs (point : l.point = .asbs) (req : RequestDescriptor φ)
      (init : req =
        if l.asbsInitialized then l.req else initAsbs launch.initialBlockSize l.req) :
      BlockMove n launch l g
        { l with
          req := req
          asbsInitialized := true
          point := if req.IsDone then .count else .prefill } g
  | prefill (point : l.point = .prefill) :
      BlockMove n launch l g { l with req := (stagePrefill l.req g.kv).1, point := .select }
        { g with kv := (stagePrefill l.req g.kv).2 }
  | select (point : l.point = .select) :
      BlockMove n launch l g { l with point := .decode }
        { g with kv := selectSparseKvBlocks l.req g.kv l.req.currentBlockSize }
  | decode (point : l.point = .decode) :
      BlockMove n launch l g
        { l with req := (stageDecode l.req g.draftTokens).1, point := .verify }
        { g with draftTokens := (stageDecode l.req g.draftTokens).2 }
  | verify (point : l.point = .verify) :
      BlockMove n launch l g
        { l with req := stageSpecVerify l.req g.draftTokens, point := .commit } g
  | commit (point : l.point = .commit) :
      BlockMove n launch l g { l with req := (stageCommit l.req g.kv).1, point := .count }
        { g with kv := (stageCommit l.req g.kv).2 }
  | count (point : l.point = .count) (new : l.alreadyCounted = false) (done : l.req.IsDone) :
      BlockMove n launch l g { l with alreadyCounted := true, point := .poll }
        { g with doneCounter := g.doneCounter + 1 }
  | pass (point : l.point = .count) : BlockMove n launch l g { l with point := .poll } g
  | notice (point : l.point = .poll) (all : (n : Int) ≤ g.doneCounter) :
      BlockMove n launch l g { l with point := .signal } g
  | next (point : l.point = .poll) :
      BlockMove n launch l g { l with point := .test, iteration := l.iteration + 1 } g
  | signal (point : l.point = .signal) :
      BlockMove n launch l g { l with point := .test, iteration := l.iteration + 1 }
        { g with shutdownFlag := 1 }

theorem blockMove [DeviceFloat φ] {n : Nat} {launch : MegakernelLaunch} {b : Fin n}
    {l l' : BlockState φ} {g g' : SharedState φ}
    (h : megakernelBlockStep launch b l g = some (l', g')) : BlockMove n launch l g l' g' := by
  rw [megakernelBlockStep] at h
  cases hpoint : l.point with
  | test =>
    simp only [hpoint] at h
    split at h
    · obtain ⟨rfl, rfl⟩ := h
      exact .enter hpoint
    · next hover =>
      obtain ⟨rfl, rfl⟩ := h
      exact .leave hpoint hover
  | asbs =>
    simp only [hpoint] at h
    obtain ⟨rfl, rfl⟩ := h
    exact .asbs hpoint _ rfl
  | prefill =>
    simp only [hpoint] at h
    obtain ⟨rfl, rfl⟩ := h
    exact .prefill hpoint
  | select =>
    simp only [hpoint] at h
    obtain ⟨rfl, rfl⟩ := h
    exact .select hpoint
  | decode =>
    simp only [hpoint] at h
    obtain ⟨rfl, rfl⟩ := h
    exact .decode hpoint
  | verify =>
    simp only [hpoint] at h
    obtain ⟨rfl, rfl⟩ := h
    exact .verify hpoint
  | commit =>
    simp only [hpoint] at h
    obtain ⟨rfl, rfl⟩ := h
    exact .commit hpoint
  | count =>
    simp only [hpoint] at h
    split at h
    · next hnew =>
      obtain ⟨rfl, rfl⟩ := h
      exact .count hpoint hnew.1 hnew.2
    · obtain ⟨rfl, rfl⟩ := h
      exact .pass hpoint
  | poll =>
    simp only [hpoint] at h
    split at h
    · next hall =>
      obtain ⟨rfl, rfl⟩ := h
      exact .notice hpoint hall.2
    · obtain ⟨rfl, rfl⟩ := h
      exact .next hpoint
  | signal =>
    simp only [hpoint] at h
    obtain ⟨rfl, rfl⟩ := h
    exact .signal hpoint
  | left => simp [hpoint] at h

/-! ## What a step does to the counter and the flag -/

/-- The part of a step of block `b` that the shutdown protocol depends on. -/
structure BlockEffect (n : Nat) (launch : MegakernelLaunch) (l : BlockState φ) (g : SharedState φ)
    (l' : BlockState φ) (g' : SharedState φ) : Prop where
  counted : l.alreadyCounted = true → l'.alreadyCounted = true
  done : l.req.IsDone → l'.req.IsDone
  latch : l'.alreadyCounted = l.alreadyCounted ∧ g'.doneCounter = g.doneCounter ∨
    l.alreadyCounted = false ∧ l'.alreadyCounted = true ∧ l'.req.IsDone ∧
      g'.doneCounter = g.doneCounter + 1
  signal : l'.point = .signal → (n : Int) ≤ g.doneCounter
  flag : g'.shutdownFlag ≠ 0 → g.shutdownFlag ≠ 0 ∨ l.point = .signal
  left : l'.point = .left → g.shutdownFlag ≠ 0 ∨ launch.maxIterations ≤ l'.iteration

theorem stagePrefill_of_done {req : RequestDescriptor φ} (h : req.IsDone) (kv : KVPageTable φ) :
    stagePrefill req kv = (req, kv) :=
  stagePrefill_of_ne (by obtain h | h := h <;> simp [h]) kv

theorem stageDecode_of_done {req : RequestDescriptor φ} (h : req.IsDone)
    (draftTokens : Option (Int → Int)) : stageDecode req draftTokens = (req, draftTokens) :=
  stageDecode_of_ne (by obtain h | h := h <;> simp [h]) draftTokens

theorem stageSpecVerify_of_done [DeviceFloat φ] {req : RequestDescriptor φ} (h : req.IsDone)
    (draftTokens : Option (Int → Int)) : stageSpecVerify req draftTokens = req :=
  stageSpecVerify_of_ne (by obtain h | h := h <;> simp [h]) (by obtain h | h := h <;> simp [h])
    draftTokens

theorem stageCommit_of_done {req : RequestDescriptor φ} (h : req.IsDone) (kv : KVPageTable φ) :
    stageCommit req kv = (req, kv) :=
  stageCommit_of_ne (by obtain h | h := h <;> simp [h]) kv

/-- A step that touches neither the latch nor the counter nor the flag. -/
theorem blockEffect_of_same {n : Nat} {launch : MegakernelLaunch} {l l' : BlockState φ}
    {g g' : SharedState φ} (hdone : l.req.IsDone → l'.req.IsDone)
    (hcounted : l'.alreadyCounted = l.alreadyCounted) (hcounter : g'.doneCounter = g.doneCounter)
    (hflag : g'.shutdownFlag = g.shutdownFlag) (hsignal : l'.point ≠ .signal)
    (hleft : l'.point ≠ .left) : BlockEffect n launch l g l' g' where
  counted := fun h => hcounted.trans h
  done := hdone
  latch := Or.inl ⟨hcounted, hcounter⟩
  signal := fun h => absurd h hsignal
  flag := fun h => Or.inl (hflag ▸ h)
  left := fun h => absurd h hleft

theorem blockEffect [DeviceFloat φ] {n : Nat} {launch : MegakernelLaunch} {b : Fin n}
    {l l' : BlockState φ} {g g' : SharedState φ}
    (h : megakernelBlockStep launch b l g = some (l', g')) : BlockEffect n launch l g l' g' := by
  cases blockMove h with
  | enter point => exact blockEffect_of_same id rfl rfl rfl nofun nofun
  | leave point stop =>
    exact ⟨id, id, Or.inl ⟨rfl, rfl⟩, nofun, Or.inl, fun _ => by simp only; omega⟩
  | asbs point req init =>
    refine blockEffect_of_same (fun hdone => ?_) rfl rfl rfl ?_ ?_
    · rw [init]
      split
      · exact hdone
      · exact hdone
    all_goals grind
  | prefill point =>
    refine blockEffect_of_same (fun hdone => ?_) rfl rfl rfl nofun nofun
    simpa only [stagePrefill_of_done hdone] using hdone
  | select point => exact blockEffect_of_same id rfl rfl rfl nofun nofun
  | decode point =>
    refine blockEffect_of_same (fun hdone => ?_) rfl rfl rfl nofun nofun
    simpa only [stageDecode_of_done hdone] using hdone
  | verify point =>
    refine blockEffect_of_same (fun hdone => ?_) rfl rfl rfl nofun nofun
    simpa only [stageSpecVerify_of_done hdone] using hdone
  | commit point =>
    refine blockEffect_of_same (fun hdone => ?_) rfl rfl rfl nofun nofun
    simpa only [stageCommit_of_done hdone] using hdone
  | count point new done =>
    exact ⟨fun _ => rfl, id, Or.inr ⟨new, rfl, done, rfl⟩, nofun, Or.inl, nofun⟩
  | pass point => exact blockEffect_of_same id rfl rfl rfl nofun nofun
  | notice point all =>
    exact ⟨id, id, Or.inl ⟨rfl, rfl⟩, fun _ => all, Or.inl, nofun⟩
  | next point => exact blockEffect_of_same id rfl rfl rfl nofun nofun
  | signal point =>
    exact ⟨id, id, Or.inl ⟨rfl, rfl⟩, nofun, fun _ => Or.inr point, nofun⟩

/-! ## The shutdown protocol -/

/-- The blocks that have counted themselves. -/
def countedBlocks {n : Nat} (locals : Fin n → BlockState φ) : Nat :=
  count (fun l : BlockState φ => l.alreadyCounted = true) locals

/-- The counter counts blocks with done requests, and block 0 signals after the last of them. -/
structure ShutdownInvariant {n : Nat} (launch : MegakernelLaunch)
    (c : Config (Fin n) (BlockState φ) (SharedState φ)) : Prop where
  counter : c.shared.doneCounter = countedBlocks c.locals
  counted : ∀ b, (c.locals b).alreadyCounted = true → (c.locals b).req.IsDone
  signal : ∀ b, (c.locals b).point = .signal → ∀ b', (c.locals b').alreadyCounted = true
  flag : c.shared.shutdownFlag ≠ 0 → ∀ b', (c.locals b').alreadyCounted = true
  left : ∀ b, (c.locals b).point = .left →
    (∀ b', (c.locals b').alreadyCounted = true) ∨ launch.maxIterations ≤ (c.locals b).iteration

theorem shutdownInvariant_launch {n : Nat} (launch : MegakernelLaunch)
    (requests : Fin n → RequestDescriptor φ) (kv : KVPageTable φ)
    (draftTokens : Option (Int → Int)) :
    ShutdownInvariant launch (launchMegakernel requests kv draftTokens) where
  counter := by simp [launchMegakernel, countedBlocks, count]
  counted := nofun
  signal := nofun
  flag := fun h => absurd rfl h
  left := nofun

/-- A counter at the number of blocks has counted all of them. -/
theorem ShutdownInvariant.all_counted {n : Nat} {launch : MegakernelLaunch}
    {c : Config (Fin n) (BlockState φ) (SharedState φ)} (h : ShutdownInvariant launch c)
    (hn : (n : Int) ≤ c.shared.doneCounter) (b : Fin n) : (c.locals b).alreadyCounted = true := by
  refine forall_of_card_le_count (fun l : BlockState φ => l.alreadyCounted = true) ?_ b
  rw [h.counter] at hn
  simpa [countedBlocks] using hn

theorem shutdownInvariant_step {n : Nat} {launch : MegakernelLaunch} {b : Fin n}
    {c : Config (Fin n) (BlockState φ) (SharedState φ)} {l : BlockState φ} {g : SharedState φ}
    (h : ShutdownInvariant launch c) (he : BlockEffect n launch (c.locals b) c.shared l g) :
    ShutdownInvariant launch { locals := Function.update c.locals b l, shared := g } := by
  have hkeep (hall : ∀ b', (c.locals b').alreadyCounted = true) (b' : Fin n) :
      (Function.update c.locals b l b').alreadyCounted = true := by
    by_cases hb : b' = b
    · subst hb
      simpa using he.counted (hall b')
    · simpa [hb] using hall b'
  refine ⟨?_, fun b' hb' => ?_, fun b' hb' => ?_, fun hflag => ?_, fun b' hb' => ?_⟩
  · obtain ⟨hsame, hcounter⟩ | ⟨hold, hnew, -, hcounter⟩ := he.latch
    · have hiff : l.alreadyCounted = true ↔ (c.locals b).alreadyCounted = true := by rw [hsame]
      have hcount := count_update_of_iff (fun l : BlockState φ => l.alreadyCounted = true) hiff
      simp only [hcounter, h.counter, countedBlocks, hcount]
    · have hnot : ¬ (c.locals b).alreadyCounted = true := by simp [hold]
      have hcount := count_update_of_new (fun l : BlockState φ => l.alreadyCounted = true) hnew hnot
      simp only [hcounter, h.counter, countedBlocks, hcount]
      push_cast
      rfl
  · by_cases hb : b' = b
    · subst hb
      simp only [Function.update_self] at hb' ⊢
      obtain ⟨hsame, -⟩ | ⟨-, -, hdone, -⟩ := he.latch
      · exact he.done (h.counted b' (hsame ▸ hb'))
      · exact hdone
    · simp only [Function.update_of_ne hb] at hb' ⊢
      exact h.counted b' hb'
  · by_cases hb : b' = b
    · subst hb
      simp only [Function.update_self] at hb'
      exact hkeep (h.all_counted (he.signal hb'))
    · simp only [Function.update_of_ne hb] at hb'
      exact hkeep (h.signal b' hb')
  · obtain hold | hsignal := he.flag hflag
    · exact hkeep (h.flag hold)
    · exact hkeep (h.signal b hsignal)
  · by_cases hb : b' = b
    · subst hb
      simp only [Function.update_self] at hb' ⊢
      exact (he.left hb').imp (fun hflag => hkeep (h.flag hflag)) id
    · simp only [Function.update_of_ne hb] at hb' ⊢
      exact (h.left b' hb').imp hkeep id

/-- In every state of every interleaving the counter is the number of the blocks that have counted
themselves and each of these has a done request; so the flag is set only when all requests are
done, and a block leaves its loop with an unfinished request only after its last iteration. -/
theorem shutdown_after_all_done [DeviceFloat φ] {n : Nat} (launch : MegakernelLaunch)
    (requests : Fin n → RequestDescriptor φ) (kv : KVPageTable φ)
    (draftTokens : Option (Int → Int)) {c : Config (Fin n) (BlockState φ) (SharedState φ)}
    (h : Reaches (megakernelBlockStep launch) (launchMegakernel requests kv draftTokens) c) :
    c.shared.doneCounter = countedBlocks c.locals ∧
      (∀ b, (c.locals b).alreadyCounted = true → (c.locals b).req.IsDone) ∧
      (c.shared.shutdownFlag = 1 → ∀ b, (c.locals b).req.IsDone) ∧
      ∀ b, (c.locals b).point = .left → ¬ (c.locals b).req.IsDone →
        launch.maxIterations ≤ (c.locals b).iteration := by
  have hinv : ShutdownInvariant launch c :=
    invariant h (shutdownInvariant_launch launch requests kv draftTokens)
      fun b d l g hd hstep => shutdownInvariant_step hd (blockEffect hstep)
  refine ⟨hinv.counter, hinv.counted, fun hflag b => ?_, fun b hleft hnot => ?_⟩
  · exact hinv.counted b (hinv.flag (by rw [hflag]; decide) b)
  · obtain hall | hmax := hinv.left b hleft
    · exact absurd (hinv.counted b (hall b)) hnot
    · exact hmax

/-- Two requests of one token, whose blocks take turns: after ten steps of each the flag is set, and
both requests are done. -/
theorem shutdown_after_all_done_two :
    ∃ c : Config (Fin 2) (BlockState ℚ) (SharedState ℚ),
      Reaches (megakernelBlockStep ⟨4, 1⟩) (launchMegakernelPath 2 1 1 fun _ => 0) c ∧
        c.shared.shutdownFlag = 1 ∧ c.shared.doneCounter = countedBlocks c.locals ∧
          ∀ b, (c.locals b).req.IsDone := by
  have hset : ((runSchedule (megakernelBlockStep ⟨4, 1⟩) (List.replicate 10 [0, 1]).flatten
      (launchMegakernelPath 2 1 1 fun _ => 0 :
        Config (Fin 2) (BlockState ℚ) (SharedState ℚ))).any
          fun c => decide (c.shared.shutdownFlag = 1)) = true := by decide +kernel
  obtain ⟨c, hrun, hflag⟩ := (Option.any_eq_true _ _).mp hset
  have hreach := reaches_runSchedule hrun
  obtain ⟨hcounter, -, hdone, -⟩ := shutdown_after_all_done ⟨4, 1⟩ _ _ _ hreach
  exact ⟨c, hreach, of_decide_eq_true hflag, hcounter, hdone (of_decide_eq_true hflag)⟩

end ResidentInference.Device

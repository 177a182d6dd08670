import ResidentInference.Device.MegakernelRuns
import Mathlib.Algebra.BigOperators.Fin

/-! The host loop of the baseline, and that it and the persistent kernel end with the same requests
when speculation is off, as far as the threads of the one block that the host launches reach. -/
namespace ResidentInference.Device
open Interleaving
variable {φ : Type}

/-! ## The host loop -/

/-- `BLOCK_SIZE`, the threads of a launch. -/
def blockSize : Nat := 256

/-- A launch of one block: thread `idx` is for request `idx`. -/
def launchBaseline (requests : List (RequestDescriptor φ)) : List (RequestDescriptor φ) :=
  requests.mapIdx fun idx req =>
    if idx < blockSize then baselineHostDecodeStepKernel req else req

/-- The loop of `run_baseline_path`: the number of launches, and the requests at the end. -/
def baselineLoop : Nat → List (RequestDescriptor φ) → Nat × List (RequestDescriptor φ)
  | 0, requests => (0, requests)
  | maxIterations+1, requests =>
    if ∀ req ∈ requests, req.IsDone then (0, requests)
    else
      let (launches, requests) := baselineLoop maxIterations (launchBaseline requests)
      (launches + 1, requests)

/-- The requests of `run_baseline_path`. -/
def baselineRequests [DeviceFloat φ] (n : Nat) (tokensPerRequest : Int) :
    List (RequestDescriptor φ) :=
  List.ofFn fun i : Fin n => initRequest i tokensPerRequest false 0

def countCompleted (requests : List (RequestDescriptor φ)) : Nat :=
  requests.countP fun req => req.state = .complete

def totalTokensGenerated (requests : List (RequestDescriptor φ)) : Int :=
  (requests.map RequestDescriptor.outputTokenCount).sum

/-- The requests after a number of launches: those beyond the threads stay as they are. -/
theorem getElem?_iterate_launchBaseline (requests : List (RequestDescriptor φ)) (k i : Nat) :
    (launchBaseline^[k] requests)[i]? = requests[i]?.map fun req =>
      if i < blockSize then baselineHostDecodeStepKernel^[k] req else req := by
  induction k with
  | zero => simp
  | succ k ih =>
    rw [Function.iterate_succ_apply', launchBaseline, List.getElem?_mapIdx, ih, Option.map_map]
    refine congrArg (Option.map · requests[i]?) (funext fun req => ?_)
    by_cases hi : i < blockSize
    · simp only [Function.comp, if_pos hi, Function.iterate_succ_apply']
    · simp only [Function.comp, if_neg hi]

@[simp] theorem length_iterate_launchBaseline (requests : List (RequestDescriptor φ)) (k : Nat) :
    (launchBaseline^[k] requests).length = requests.length := by
  induction k with
  | zero => rfl
  | succ k ih => rw [Function.iterate_succ_apply', launchBaseline, List.length_mapIdx, ih]

/-- The loop launches while a request is not done and the bound is not reached. -/
theorem baselineLoop_spec (maxIterations : Nat) (requests : List (RequestDescriptor φ)) :
    let run := baselineLoop maxIterations requests
    run.2 = launchBaseline^[run.1] requests ∧ run.1 ≤ maxIterations ∧
      (∀ k < run.1, ¬ ∀ req ∈ launchBaseline^[k] requests, req.IsDone) ∧
      (run.1 < maxIterations → ∀ req ∈ run.2, req.IsDone) := by
  induction maxIterations generalizing requests with
  | zero => exact ⟨rfl, le_rfl, nofun, nofun⟩
  | succ m ih =>
    rw [baselineLoop]
    by_cases hall : ∀ req ∈ requests, req.IsDone
    · simp only [if_pos hall]
      exact ⟨rfl, Nat.zero_le _, nofun, fun _ => hall⟩
    · simp only [if_neg hall]
      obtain ⟨hfinal, hle, hbefore, hend⟩ := ih (launchBaseline requests)
      refine ⟨hfinal, Nat.succ_le_succ hle, fun k hk => ?_, fun hlt => hend (by omega)⟩
      cases k with
      | zero => exact hall
      | succ k =>
        rw [Function.iterate_succ_apply]
        exact hbefore k (by omega)

/-! ## Progress of the launches -/

theorem baseline_progress {req : RequestDescriptor φ} (h : EntersLoop req) :
    Progress req (baselineHostDecodeStepKernel req) := by
  obtain ⟨hmax, ⟨hs, hcount⟩ | ⟨hs, h0, hlt⟩⟩ := h
  · rw [baseline_of_prefillReady hs]
    exact settleToken_progress (by simp [hcount]) (by simp; omega) rfl
  · rw [baseline_of_decodeReady hs]
    exact settleToken_progress (by simp) (by simp; omega) rfl

theorem advanced_iterate_baseline {req : RequestDescriptor φ} (h : EntersLoop req) (k : Nat) :
    Advanced k (baselineHostDecodeStepKernel^[k] req) ∧
      (baselineHostDecodeStepKernel^[k] req).maxNewTokens = req.maxNewTokens := by
  induction k with
  | zero => exact ⟨h.advanced, rfl⟩
  | succ k ih =>
    rw [Function.iterate_succ_apply']
    obtain ⟨hadvanced, hmax⟩ := ih
    cases hadvanced with
    | inl hfinished =>
      rw [baseline_of_done (Or.inl hfinished.complete)]
      exact ⟨Or.inl hfinished, hmax⟩
    | inr hloop =>
      obtain ⟨hloop, hcount⟩ := hloop
      have hp := baseline_progress hloop
      have h0 : 0 ≤ (baselineHostDecodeStepKernel^[k] req).outputTokenCount := by omega
      refine ⟨?_, hp.maxNewTokens.trans hmax⟩
      push_cast
      exact hp.advanced hcount h0

theorem finished_iterate_baseline {req : RequestDescriptor φ} (h : EntersLoop req) {k : Nat}
    (hk : req.maxNewTokens ≤ k) : Finished (baselineHostDecodeStepKernel^[k] req) := by
  obtain ⟨hadvanced, hmax⟩ := advanced_iterate_baseline h k
  exact hadvanced.finished_of_le (hmax.trans_le hk)

/-- Launches do nothing to a request that is done. -/
theorem iterate_baseline_of_done {req : RequestDescriptor φ} {j k : Nat} (hjk : j ≤ k)
    (hdone : (baselineHostDecodeStepKernel^[j] req).IsDone) :
    baselineHostDecodeStepKernel^[k] req = baselineHostDecodeStepKernel^[j] req := by
  induction k, hjk using Nat.le_induction with
  | base => rfl
  | succ k _ ih => rw [Function.iterate_succ_apply', ih, baseline_of_done hdone]

theorem iterate_baseline_done_eq {req : RequestDescriptor φ} {j k : Nat}
    (hj : (baselineHostDecodeStepKernel^[j] req).IsDone)
    (hk : (baselineHostDecodeStepKernel^[k] req).IsDone) :
    baselineHostDecodeStepKernel^[j] req = baselineHostDecodeStepKernel^[k] req := by
  cases Nat.le_total j k with
  | inl hle => exact (iterate_baseline_of_done hle hj).symm
  | inr hle => exact iterate_baseline_of_done hle hk

/-- The requests that a thread of the launch is for, at the end of the loop. -/
theorem getElem?_baselineLoop (maxIterations : Nat) (requests : List (RequestDescriptor φ))
    (i : Nat) :
    (baselineLoop maxIterations requests).2[i]? = requests[i]?.map fun req =>
      if i < blockSize then
        baselineHostDecodeStepKernel^[(baselineLoop maxIterations requests).1] req
      else req := by
  rw [(baselineLoop_spec maxIterations requests).1, getElem?_iterate_launchBaseline]

/-- At the end of the loop a request within the threads of the launch is complete. -/
theorem finished_baselineLoop {maxIterations : Nat} {requests : List (RequestDescriptor φ)}
    (h : ∀ req ∈ requests, EntersLoop req)
    (hmax : ∀ req ∈ requests, req.maxNewTokens ≤ maxIterations) {i : Nat}
    {req : RequestDescriptor φ} (hreq : requests[i]? = some req) (hi : i < blockSize) :
    Finished (baselineHostDecodeStepKernel^[(baselineLoop maxIterations requests).1] req) := by
  obtain ⟨-, hle, -, hend⟩ := baselineLoop_spec maxIterations requests
  have hmem := List.mem_of_getElem? hreq
  by_cases hlt : (baselineLoop maxIterations requests).1 < maxIterations
  · have hfinal := getElem?_baselineLoop maxIterations requests i
    rw [hreq, Option.map_some, if_pos hi] at hfinal
    have hdone := hend hlt _ (List.mem_of_getElem? hfinal)
    exact (advanced_iterate_baseline (h req hmem) _).1.finished hdone
  · have hall : (baselineLoop maxIterations requests).1 = maxIterations := by omega
    rw [hall]
    exact finished_iterate_baseline (h req hmem) (hmax req hmem)

theorem length_baselineLoop (maxIterations : Nat) (requests : List (RequestDescriptor φ)) :
    (baselineLoop maxIterations requests).2.length = requests.length := by
  rw [(baselineLoop_spec maxIterations requests).1, length_iterate_launchBaseline]

/-- A request without a thread stays as it was. -/
theorem baselineLoop_beyond (maxIterations : Nat) (requests : List (RequestDescriptor φ)) {i : Nat}
    (hi : blockSize ≤ i) : (baselineLoop maxIterations requests).2[i]? = requests[i]? := by
  rw [getElem?_baselineLoop]
  simp only [if_neg (not_lt.mpr hi), Option.map_id']

/-- One block of threads covers all the requests. -/
theorem exists_of_mem_iterate {requests : List (RequestDescriptor φ)}
    (hsize : requests.length ≤ blockSize) {k : Nat} {req : RequestDescriptor φ}
    (h : req ∈ launchBaseline^[k] requests) :
    ∃ old ∈ requests, req = baselineHostDecodeStepKernel^[k] old := by
  obtain ⟨i, hi⟩ := List.mem_iff_getElem?.mp h
  rw [getElem?_iterate_launchBaseline] at hi
  obtain ⟨old, hold, rfl⟩ := Option.map_eq_some_iff.mp hi
  have hlt : i < blockSize := (List.getElem?_eq_some_iff.mp hold).1.trans_le hsize
  exact ⟨old, List.mem_of_getElem? hold, if_pos hlt⟩

section
variable {maxIterations : Nat} {requests : List (RequestDescriptor φ)}
  (h : ∀ req ∈ requests, EntersLoop req)
include h

/-- Beyond the threads there is a request that is never done. -/
theorem exists_not_done (hsize : blockSize < requests.length) :
    ∃ req ∈ (baselineLoop maxIterations requests).2, ¬ req.IsDone := by
  have hkept := baselineLoop_beyond maxIterations requests (le_refl blockSize)
  rw [List.getElem?_eq_getElem hsize] at hkept
  exact ⟨_, List.mem_of_getElem? hkept, (h _ (List.getElem_mem hsize)).not_done⟩

variable (hmax : ∀ req ∈ requests, req.maxNewTokens ≤ maxIterations)
include hmax

theorem countCompleted_baselineLoop :
    countCompleted (baselineLoop maxIterations requests).2 = requests.length ↔
      requests.length ≤ blockSize := by
  rw [countCompleted, ← length_baselineLoop maxIterations requests, List.countP_eq_length,
    length_baselineLoop]
  constructor
  · intro hall
    by_contra hsize
    obtain ⟨req, hreq, hnot⟩ := exists_not_done h (not_le.mp hsize)
    exact hnot (Or.inl (by simpa using hall req hreq))
  · intro hsize req hreq
    obtain ⟨i, hi⟩ := List.mem_iff_getElem?.mp hreq
    rw [getElem?_baselineLoop] at hi
    obtain ⟨old, hold, rfl⟩ := Option.map_eq_some_iff.mp hi
    have hlt : i < blockSize := (List.getElem?_eq_some_iff.mp hold).1.trans_le hsize
    rw [if_pos hlt]
    simpa using (finished_baselineLoop h hmax hold hlt).complete

/-- The host loop completes all requests exactly when one block of threads covers them. Up to that
many it launches until the last of them is done; beyond, it makes all its launches, and the
requests without a thread stay as they were. -/
theorem baseline_completes_iff :
    let run := baselineLoop maxIterations requests
    (countCompleted run.2 = requests.length ↔ requests.length ≤ blockSize) ∧
      (requests.length ≤ blockSize →
        (∀ req ∈ requests, (baselineHostDecodeStepKernel^[run.1] req).IsDone) ∧
        ∀ k < run.1, ∃ req ∈ requests, ¬ (baselineHostDecodeStepKernel^[k] req).IsDone) ∧
      (blockSize < requests.length → run.1 = maxIterations ∧
        ∀ i, blockSize ≤ i → run.2[i]? = requests[i]?) := by
  intro run
  obtain ⟨-, hle, hbefore, hend⟩ := baselineLoop_spec maxIterations requests
  refine ⟨countCompleted_baselineLoop h hmax, fun hsize => ⟨fun req hreq => ?_, fun k hk => ?_⟩,
    fun hsize => ⟨?_, fun i hi => baselineLoop_beyond maxIterations requests hi⟩⟩
  · obtain ⟨i, hi⟩ := List.mem_iff_getElem?.mp hreq
    have hlt : i < blockSize := (List.getElem?_eq_some_iff.mp hi).1.trans_le hsize
    exact Or.inl (finished_baselineLoop h hmax hi hlt).complete
  · obtain ⟨req, hreq, hnot⟩ := by simpa using hbefore k hk
    obtain ⟨old, hold, rfl⟩ := exists_of_mem_iterate hsize hreq
    exact ⟨old, hold, hnot⟩
  · by_contra hne
    obtain ⟨req, hreq, hnot⟩ := exists_not_done h hsize
    exact hnot (hend (lt_of_le_of_ne hle hne) req hreq)

end

theorem entersLoop_initRequest [DeviceFloat φ] {maxTokens : Int} (h : 1 ≤ maxTokens)
    (i draftOffsetStride : Int) (speculative : Bool) :
    EntersLoop (initRequest i maxTokens speculative draftOffsetStride : RequestDescriptor φ) :=
  ⟨h, Or.inr ⟨rfl, le_rfl, by simp only [initRequest]; omega⟩⟩

/-- 300 requests of the host: all launches are made, and not all requests are completed. -/
theorem baseline_leaves_requests :
    countCompleted (baselineLoop 4 (baselineRequests 300 3 : List (RequestDescriptor ℚ))).2 ≠ 300 ∧
      (baselineLoop 4 (baselineRequests 300 3 : List (RequestDescriptor ℚ))).1 = 4 := by
  have hmem : ∀ req ∈ (baselineRequests 300 3 : List (RequestDescriptor ℚ)),
      EntersLoop req ∧ req.maxNewTokens ≤ (4 : Nat) := by
    intro req hreq
    obtain ⟨i, rfl⟩ := List.mem_ofFn.mp hreq
    exact ⟨entersLoop_initRequest (by decide) i 0 false, (by decide : (3 : Int) ≤ 4)⟩
  have hlength : (baselineRequests 300 3 : List (RequestDescriptor ℚ)).length = 300 :=
    List.length_ofFn
  generalize (baselineRequests 300 3 : List (RequestDescriptor ℚ)) = requests at hmem hlength ⊢
  obtain ⟨hiff, -, hover⟩ := baseline_completes_iff (fun req hreq => (hmem req hreq).1)
    fun req hreq => (hmem req hreq).2
  rw [hlength] at hiff hover
  have hmore : blockSize < 300 := by simp [blockSize]
  exact ⟨mt hiff.mp (not_le.mpr hmore), (hover hmore).1⟩

/-! ## The blocks of the persistent kernel follow the launches -/

theorem HostDriven.state {req : RequestDescriptor φ} (h : HostDriven req) :
    req.state ≠ .draftReady ∧ req.state ≠ .verifyReady ∧ req.state ≠ .commitReady := by
  obtain ⟨-, hs | hs | hs | hs⟩ := h
  all_goals simp [hs]

theorem EntersLoop.hostDriven {req : RequestDescriptor φ} (h : EntersLoop req)
    (hf : req.hasFlag .speculativeEnabled = false) : HostDriven req :=
  ⟨hf, h.2.imp And.left fun hready => Or.inl hready.1⟩

/-- Prefill and decode of a request without speculation are one launch. -/
theorem decode_prefill_eq_baseline {req : RequestDescriptor φ} (h : HostDriven req)
    (kv : KVPageTable φ) (draftTokens : Option (Int → Int)) :
    (stageDecode (stagePrefill req kv).1 draftTokens).1 = baselineHostDecodeStepKernel req := by
  obtain ⟨hf, hs | hs | hdone⟩ := h
  · have hseed : (stagePrefill req kv).1 = req.seedDecode.setState .decodeReady := by
      simp only [stagePrefill, hs, if_true]
    have hready : (req.seedDecode.setState .decodeReady).state = .decodeReady := rfl
    rw [hseed, stageDecode_of_not_speculative hready hf, baseline_of_prefillReady hs]
  · rw [stagePrefill_of_ne (by simp [hs]), stageDecode_of_not_speculative hs hf,
      baseline_of_decodeReady hs]
  · rw [stagePrefill_of_done hdone, stageDecode_of_done hdone, baseline_of_done hdone]

section
variable [DeviceFloat φ]

/-- The request of a block after `k` iterations, next to `k` launches of it. -/
def MirrorsAt (initialBlockSize : Int) (req : RequestDescriptor φ) (k : Nat) (l : BlockState φ) :
    BlockPoint → Prop
  | .test | .asbs | .left =>
    l.req = if l.asbsInitialized then initAsbs initialBlockSize
        (baselineHostDecodeStepKernel^[k] req)
      else baselineHostDecodeStepKernel^[k] req
  | .prefill => l.asbsInitialized = true ∧
      l.req = initAsbs initialBlockSize (baselineHostDecodeStepKernel^[k] req)
  | .select | .decode => l.asbsInitialized = true ∧
      ∃ kv, l.req = (stagePrefill
        (initAsbs initialBlockSize (baselineHostDecodeStepKernel^[k] req)) kv).1
  | .verify | .commit | .count | .poll | .signal => l.asbsInitialized = true ∧
      l.req = initAsbs initialBlockSize (baselineHostDecodeStepKernel^[k+1] req)

def Mirrors (initialBlockSize : Int) (req : RequestDescriptor φ) (l : BlockState φ) : Prop :=
  ∃ k : Nat, l.iteration = k ∧ MirrorsAt initialBlockSize req k l l.point

theorem Mirrors.step {n : Nat} {launch : MegakernelLaunch} {b : Fin n} {req : RequestDescriptor φ}
    (hdriven : HostDriven req) {l l' : BlockState φ} {g g' : SharedState φ}
    (h : Mirrors launch.initialBlockSize req l)
    (hstep : megakernelBlockStep launch b l g = some (l', g')) :
    Mirrors launch.initialBlockSize req l' := by
  obtain ⟨k, hk, hat⟩ := h
  have hiterated : ∀ j, HostDriven
      (initAsbs launch.initialBlockSize (baselineHostDecodeStepKernel^[j] req)) :=
    fun j => hostDriven_initAsbs _ (hostDriven_iterate hdriven j)
  cases blockMove hstep with
  | enter point =>
    rw [point] at hat
    exact ⟨k, hk, hat⟩
  | leave point stop =>
    rw [point] at hat
    exact ⟨k, hk, hat⟩
  | asbs point r init =>
    rw [point] at hat
    have hinit : r = initAsbs launch.initialBlockSize (baselineHostDecodeStepKernel^[k] req) := by
      rw [init, show l.req = _ from hat]
      cases l.asbsInitialized <;> rfl
    refine ⟨k, hk, ?_⟩
    by_cases hdone : r.IsDone
    · have hsame : baselineHostDecodeStepKernel^[k+1] req =
          baselineHostDecodeStepKernel^[k] req := by
        rw [Function.iterate_succ_apply']
        refine baseline_of_done ?_
        rw [hinit] at hdone
        exact hdone
      simp only [if_pos hdone, MirrorsAt, hsame]
      exact ⟨trivial, hinit⟩
    · simp only [if_neg hdone, MirrorsAt]
      exact ⟨trivial, hinit⟩
  | prefill point =>
    rw [point] at hat
    refine ⟨k, hk, hat.1, g.kv, ?_⟩
    rw [← hat.2]
  | select point =>
    rw [point] at hat
    exact ⟨k, hk, hat⟩
  | decode point =>
    rw [point] at hat
    obtain ⟨hinit, kv, hreq⟩ := hat
    refine ⟨k, hk, hinit, ?_⟩
    dsimp only
    rw [hreq, decode_prefill_eq_baseline (hiterated k), baseline_initAsbs _
      (hostDriven_iterate hdriven k), Function.iterate_succ_apply']
  | verify point =>
    rw [point] at hat
    have hstate := (hiterated (k+1)).state
    rw [← hat.2] at hstate
    refine ⟨k, hk, hat.1, ?_⟩
    dsimp only
    rw [stageSpecVerify_of_ne hstate.1 hstate.2.1, hat.2]
  | commit point =>
    rw [point] at hat
    have hstate := (hiterated (k+1)).state
    rw [← hat.2] at hstate
    refine ⟨k, hk, hat.1, ?_⟩
    dsimp only
    rw [stageCommit_of_ne hstate.2.2, hat.2]
  | count point new done =>
    rw [point] at hat
    exact ⟨k, hk, hat⟩
  | pass point =>
    rw [point] at hat
    exact ⟨k, hk, hat⟩
  | notice point all =>
    rw [point] at hat
    exact ⟨k, hk, hat⟩
  | next point =>
    rw [point] at hat
    refine ⟨k+1, by simp [hk], ?_⟩
    simp only [MirrorsAt, hat.1, if_true]
    exact hat.2
  | signal point =>
    rw [point] at hat
    refine ⟨k+1, by simp [hk], ?_⟩
    simp only [MirrorsAt, hat.1, if_true]
    exact hat.2

/-- The parts of two requests that the host reports. -/
structure SameOutput (req req' : RequestDescriptor φ) : Prop where
  state : req.state = req'.state
  flags : req.flags = req'.flags
  lastToken : req.lastToken = req'.lastToken
  outputTokenCount : req.outputTokenCount = req'.outputTokenCount
  decodePos : req.decodePos = req'.decodePos

variable {n : Nat} {launch : MegakernelLaunch} {requests : Fin n → RequestDescriptor φ}
  {kv : KVPageTable φ} {draftTokens : Option (Int → Int)}
  {c : Config (Fin n) (BlockState φ) (SharedState φ)}

theorem mirrors_reaches (h : ∀ b, HostDriven (requests b))
    (hreach : Reaches (megakernelBlockStep launch) (launchMegakernel requests kv draftTokens) c)
    (b : Fin n) : Mirrors launch.initialBlockSize (requests b) (c.locals b) :=
  local_invariant (I := fun b l _ => Mirrors launch.initialBlockSize (requests b) l) hreach
    (fun _ => ⟨0, rfl, rfl⟩) (fun b _ _ _ _ hl hstep => hl.step (h b) hstep)
    (fun _ _ _ _ _ _ _ _ _ hm _ => hm) b

theorem sameOutput_initAsbs (initialBlockSize : Int) (req : RequestDescriptor φ) :
    SameOutput (initAsbs initialBlockSize req) req where
  state := rfl
  flags := rfl
  lastToken := rfl
  outputTokenCount := rfl
  decodePos := rfl

/-- A block that has left with a finished request reports what any number of launches that finish
the request leave behind. -/
theorem Mirrors.sameOutput {initialBlockSize : Int} {req : RequestDescriptor φ} {l : BlockState φ}
    (h : Mirrors initialBlockSize req l) (hleft : l.point = .left) (hfinished : Finished l.req)
    {j : Nat} (hj : (baselineHostDecodeStepKernel^[j] req).IsDone) :
    SameOutput l.req (baselineHostDecodeStepKernel^[j] req) := by
  obtain ⟨k, -, hat⟩ := h
  rw [hleft] at hat
  have hreq : l.req = if l.asbsInitialized then initAsbs initialBlockSize
      (baselineHostDecodeStepKernel^[k] req) else baselineHostDecodeStepKernel^[k] req := hat
  have hsame : SameOutput l.req (baselineHostDecodeStepKernel^[k] req) := by
    rw [hreq]
    split
    · exact sameOutput_initAsbs initialBlockSize _
    · exact ⟨rfl, rfl, rfl, rfl, rfl⟩
  have hk : (baselineHostDecodeStepKernel^[k] req).IsDone :=
    Or.inl (hsame.state.symm.trans hfinished.complete)
  rwa [iterate_baseline_done_eq hk hj] at hsame

/-- Without speculation, and with at most as many requests as the launches have threads, the
persistent kernel under every schedule ends with the requests that the host loop ends with. -/
theorem paths_agree (hn : n ≤ blockSize) (h : ∀ b, EntersLoop (requests b))
    (hf : ∀ b, (requests b).hasFlag .speculativeEnabled = false)
    (hmax : ∀ b, (requests b).maxNewTokens ≤ launch.maxIterations)
    (hreach : Reaches (megakernelBlockStep launch) (launchMegakernel requests kv draftTokens) c)
    (hstopped : Stopped (megakernelBlockStep launch) c) :
    let final := (baselineLoop launch.maxIterations.toNat (List.ofFn requests)).2
    (∀ b : Fin n, ∃ req, final[b.val]? = some req ∧ SameOutput (c.locals b).req req) ∧
      countCompleted final = n ∧
      totalTokensGenerated final = ∑ b, (c.locals b).req.outputTokenCount := by
  intro final
  have hmem : ∀ req ∈ List.ofFn requests, ∃ b, requests b = req := fun req hreq =>
    List.mem_ofFn.mp hreq
  have hloop : ∀ req ∈ List.ofFn requests, EntersLoop req := by
    intro req hreq
    obtain ⟨b, rfl⟩ := hmem req hreq
    exact h b
  have hbudget : ∀ req ∈ List.ofFn requests, req.maxNewTokens ≤ launch.maxIterations.toNat := by
    intro req hreq
    obtain ⟨b, rfl⟩ := hmem req hreq
    exact (hmax b).trans (Int.self_le_toNat _)
  generalize hlaunches : (baselineLoop launch.maxIterations.toNat (List.ofFn requests)).1 =
    launches
  have hget : ∀ b : Fin n,
      final[b.val]? = some (baselineHostDecodeStepKernel^[launches] (requests b)) := by
    intro b
    rw [getElem?_baselineLoop, hlaunches, List.getElem?_ofFn, dif_pos b.isLt, Option.map_some,
      if_pos (b.isLt.trans_le hn)]
  have hfinal : final = List.ofFn fun b =>
      baselineHostDecodeStepKernel^[launches] (requests b) := by
    refine List.ext_getElem? fun i => ?_
    rw [getElem?_baselineLoop, hlaunches, List.getElem?_ofFn, List.getElem?_ofFn]
    by_cases hi : i < n
    · simp only [dif_pos hi, Option.map_some, if_pos (hi.trans_le hn)]
    · simp only [dif_neg hi, Option.map_none]
  have hsame : ∀ b, SameOutput (c.locals b).req
      (baselineHostDecodeStepKernel^[launches] (requests b)) := by
    intro b
    have hleft := megakernelBlockStep_eq_none_iff.mp (hstopped b)
    have hb : (List.ofFn requests)[b.val]? = some (requests b) := by
      rw [List.getElem?_ofFn, dif_pos b.isLt]
    have hdone := finished_baselineLoop hloop hbudget hb (b.isLt.trans_le hn)
    rw [hlaunches] at hdone
    exact (mirrors_reaches (fun b => (h b).hostDriven (hf b)) hreach b).sameOutput hleft
      (finished_of_left h hmax hreach hleft) (Or.inl hdone.complete)
  refine ⟨fun b => ⟨_, hget b, hsame b⟩, ?_, ?_⟩
  · have hcompletes := countCompleted_baselineLoop hloop hbudget
    rw [List.length_ofFn] at hcompletes
    exact hcompletes.mpr hn
  · rw [hfinal, totalTokensGenerated, List.map_ofFn, List.sum_ofFn]
    exact Finset.sum_congr rfl fun b _ => (hsame b).outputTokenCount.symm

/-- Two requests of the host with three tokens each. -/
theorem paths_agree_two : ∃ c : Config (Fin 2) (BlockState ℚ) (SharedState ℚ),
    (∀ b : Fin 2, ∃ req, (baselineLoop 4 (baselineRequests 2 3)).2[b.val]? = some req ∧
      SameOutput (c.locals b).req req) ∧
    countCompleted (baselineLoop 4 (baselineRequests 2 3 : List (RequestDescriptor ℚ))).2 =
      2 := by
  let launch : MegakernelLaunch := ⟨4, 4⟩
  let requests : Fin 2 → RequestDescriptor ℚ := fun b => initRequest b 3 false 0
  obtain ⟨c, hreach, hstopped⟩ : ∃ c : Config (Fin 2) (BlockState ℚ) (SharedState ℚ),
      Reaches (megakernelBlockStep launch)
        (launchMegakernel requests (megakernelTable 2) (some fun _ => 0)) c ∧
        Stopped (megakernelBlockStep launch) c :=
    exists_stopped (fun _ _ _ _ _ hstep => stepsLeft_lt hstep) _
  have hf : ∀ b, (requests b).hasFlag .speculativeEnabled = false := fun b =>
    hasFlag_initRequest b 3 0 false .speculativeEnabled
  have hmax : ∀ b, (requests b).maxNewTokens ≤ launch.maxIterations := fun b =>
    (by decide : (3 : Int) ≤ 4)
  have hagree := paths_agree (by decide) (fun b => entersLoop_initRequest (by decide) b 0 false)
    hf hmax hreach hstopped
  have hiterations : launch.maxIterations.toNat = 4 := rfl
  simp only [hiterations] at hagree
  exact ⟨c, hagree.1, hagree.2.1⟩

end
end ResidentInference.Device

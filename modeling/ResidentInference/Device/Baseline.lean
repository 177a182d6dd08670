import ResidentInference.Device.Megakernel
import Mathlib.Logic.Function.Iterate

/-! The host-driven baseline kernel, and that the persistent loop produces the same tokens when
speculation is off. -/
namespace ResidentInference.Device
variable {φ : Type}

/-- One launch of the kernel on one request. -/
def baselineHostDecodeStepKernel (req : RequestDescriptor φ) : RequestDescriptor φ :=
  if req.IsDone then req
  else if req.state ≠ .decodeReady ∧ req.state ≠ .prefillReady then req
  else
    let req := if req.state = .prefillReady then req.seedDecode.setState .decodeReady else req
    if req.state = .decodeReady then req.emitNextToken.settleToken else req

/-- A request of the comparison: without speculation, ready or done. -/
def HostDriven (req : RequestDescriptor φ) : Prop :=
  req.hasFlag .speculativeEnabled = false ∧
    (req.state = .prefillReady ∨ req.state = .decodeReady ∨ req.IsDone)

theorem settleToken_state (req : RequestDescriptor φ) :
    req.settleToken.state = .decodeReady ∨ req.settleToken.state = .complete := by
  simp only [RequestDescriptor.settleToken, RequestDescriptor.settle]
  split
  · exact Or.inr rfl
  · split
    · exact Or.inr rfl
    · exact Or.inl rfl

theorem settleToken_speculative (req : RequestDescriptor φ) :
    req.settleToken.hasFlag .speculativeEnabled = req.hasFlag .speculativeEnabled := by
  have hset : (req.setFlag .eosSeen).hasFlag .speculativeEnabled =
      req.hasFlag .speculativeEnabled := by
    simp [RequestDescriptor.hasFlag, RequestFlag.shift]
  simp only [RequestDescriptor.settleToken, RequestDescriptor.settle]
  split
  · exact hset
  · split <;> rfl

theorem hostDriven_settleToken {req : RequestDescriptor φ}
    (hf : req.hasFlag .speculativeEnabled = false) : HostDriven req.settleToken := by
  refine ⟨(settleToken_speculative req).trans hf, ?_⟩
  obtain h | h := settleToken_state req
  · exact Or.inr (Or.inl h)
  · exact Or.inr (Or.inr (Or.inl h))

theorem baseline_of_done {req : RequestDescriptor φ} (h : req.IsDone) :
    baselineHostDecodeStepKernel req = req := by
  simp only [baselineHostDecodeStepKernel, if_pos h]

theorem baseline_of_decodeReady {req : RequestDescriptor φ} (hs : req.state = .decodeReady) :
    baselineHostDecodeStepKernel req = req.emitNextToken.settleToken := by
  simp [baselineHostDecodeStepKernel, RequestDescriptor.IsDone, hs]

theorem baseline_of_prefillReady {req : RequestDescriptor φ} (hs : req.state = .prefillReady) :
    baselineHostDecodeStepKernel req =
      (req.seedDecode.setState .decodeReady).emitNextToken.settleToken := by
  simp [baselineHostDecodeStepKernel, RequestDescriptor.IsDone, hs]

theorem hostDriven_baseline {req : RequestDescriptor φ} (h : HostDriven req) :
    HostDriven (baselineHostDecodeStepKernel req) := by
  obtain ⟨hf, hs | hs | hdone⟩ := h
  · rw [baseline_of_prefillReady hs]
    exact hostDriven_settleToken hf
  · rw [baseline_of_decodeReady hs]
    exact hostDriven_settleToken hf
  · rw [baseline_of_done hdone]
    exact ⟨hf, Or.inr (Or.inr hdone)⟩

theorem hostDriven_iterate {req : RequestDescriptor φ} (h : HostDriven req) (k : Nat) :
    HostDriven (baselineHostDecodeStepKernel^[k] req) := by
  induction k with
  | zero => exact h
  | succ k ih =>
    rw [Function.iterate_succ_apply']
    exact hostDriven_baseline ih

section
variable [DeviceFloat φ]

/-- On a request without speculation that is ready to decode, verification and commit find
nothing to do. -/
theorem decodeStages_of_not_speculative {req : RequestDescriptor φ} (hs : req.state = .decodeReady)
    (hf : req.hasFlag .speculativeEnabled = false) (kv : KVPageTable φ)
    (draftTokens verified : Option (Int → Int)) :
    stageCommit (stageSpecVerify (stageDecode req draftTokens).1 verified) kv =
      (req.emitNextToken.settleToken, kv) := by
  rw [stageDecode_of_not_speculative hs hf, stageSpecVerify_of_ne, stageCommit_of_ne]
  all_goals obtain h | h := settleToken_state req.emitNextToken <;> simp [h]

/-- Without speculation the five stages do to the request what one launch does. -/
theorem advanceRequest_eq_baseline {req : RequestDescriptor φ} (h : HostDriven req)
    (mem : DeviceMemory φ) :
    (advanceRequest req mem).1 = baselineHostDecodeStepKernel req := by
  obtain ⟨hf, hs | hs | hdone⟩ := h
  · have hdone : ¬ req.IsDone := by simp [RequestDescriptor.IsDone, hs]
    simp only [advanceRequest, if_neg hdone, stagePrefill, hs, if_true]
    have hseed : (req.seedDecode.setState .decodeReady).state = .decodeReady := rfl
    rw [decodeStages_of_not_speculative hseed hf,
      baseline_of_prefillReady hs]
  · have hdone : ¬ req.IsDone := by simp [RequestDescriptor.IsDone, hs]
    simp only [advanceRequest, if_neg hdone, stagePrefill_of_ne (by simp [hs] : req.state ≠ _)]
    rw [decodeStages_of_not_speculative hs hf, baseline_of_decodeReady hs]
  · rw [advanceRequest_of_done hdone, baseline_of_done hdone]

theorem settleToken_initAsbs (initialBlockSize : Int) (req : RequestDescriptor φ) :
    (initAsbs initialBlockSize req).settleToken = initAsbs initialBlockSize req.settleToken := by
  simp only [RequestDescriptor.settleToken, RequestDescriptor.settle, initAsbs_lastToken,
    initAsbs_eosTokenId, initAsbs_outputTokenCount, initAsbs_maxNewTokens]
  by_cases heos : req.lastToken = req.eosTokenId
  · simp only [heos, if_true]
    rfl
  · simp only [heos, if_false]
    split <;> rfl

theorem hostDriven_initAsbs (initialBlockSize : Int) {req : RequestDescriptor φ}
    (h : HostDriven req) : HostDriven (initAsbs initialBlockSize req) := h

theorem baseline_initAsbs (initialBlockSize : Int) {req : RequestDescriptor φ}
    (h : HostDriven req) :
    baselineHostDecodeStepKernel (initAsbs initialBlockSize req) =
      initAsbs initialBlockSize (baselineHostDecodeStepKernel req) := by
  obtain ⟨hf, hs | hs | hdone⟩ := h
  · have hinit : (initAsbs initialBlockSize req).state = .prefillReady := hs
    rw [baseline_of_prefillReady hinit,
      baseline_of_prefillReady hs, ← settleToken_initAsbs]
    rfl
  · have hinit : (initAsbs initialBlockSize req).state = .decodeReady := hs
    rw [baseline_of_decodeReady hinit,
      baseline_of_decodeReady hs, ← settleToken_initAsbs]
    rfl
  · have hinit : (initAsbs initialBlockSize req).IsDone := hdone
    rw [baseline_of_done hinit, baseline_of_done hdone]

/-- From the second iteration on the loop differs from the launches in the average and the
block size only. -/
theorem megakernelRun_succ (initialBlockSize : Int)
    (others : Nat → DeviceMemory φ → DeviceMemory φ) {req : RequestDescriptor φ}
    (h : HostDriven req) (mem : DeviceMemory φ) (k : Nat) :
    (megakernelRun initialBlockSize others req mem (k+1)).asbsInitialized = true ∧
      (megakernelRun initialBlockSize others req mem (k+1)).req =
        initAsbs initialBlockSize (baselineHostDecodeStepKernel^[k+1] req) := by
  induction k with
  | zero =>
    refine ⟨rfl, ?_⟩
    simp only [megakernelRun, megakernelIteration, Bool.false_eq_true, if_false]
    rw [advanceRequest_eq_baseline (hostDriven_initAsbs _ h), baseline_initAsbs _ h]
    rfl
  | succ k ih =>
    refine ⟨rfl, ?_⟩
    have hk := hostDriven_iterate h (k+1)
    rw [megakernelRun, megakernelIteration]
    simp only [ih.1, if_true, ih.2]
    rw [advanceRequest_eq_baseline (hostDriven_initAsbs _ hk),
      baseline_initAsbs _ hk, Function.iterate_succ_apply' _ (k+1)]

/-- `k` iterations of the loop and `k` launches of the baseline kernel agree on the tokens and
the state of a request without speculation. -/
theorem megakernelRun_eq_baseline (initialBlockSize : Int)
    (others : Nat → DeviceMemory φ → DeviceMemory φ) {req : RequestDescriptor φ}
    (hf : req.hasFlag .speculativeEnabled = false)
    (hs : req.state = .prefillReady ∨ req.state = .decodeReady) (mem : DeviceMemory φ) (k : Nat) :
    let looped := (megakernelRun initialBlockSize others req mem k).req
    let launched := baselineHostDecodeStepKernel^[k] req
    looped.state = launched.state ∧ looped.flags = launched.flags ∧
      looped.lastToken = launched.lastToken ∧
      looped.outputTokenCount = launched.outputTokenCount ∧
      looped.decodePos = launched.decodePos := by
  cases k with
  | zero => exact ⟨rfl, rfl, rfl, rfl, rfl⟩
  | succ k =>
    have h : HostDriven req := ⟨hf, hs.imp_right Or.inl⟩
    simp only [(megakernelRun_succ initialBlockSize others h mem k).2]
    exact ⟨rfl, rfl, rfl, rfl, rfl⟩

/-- Three steps of the first request of the host, speculation off. -/
theorem megakernelRun_eq_baseline_three :
    let req : RequestDescriptor ℚ := initRequest 0 8 false 4
    let looped := (megakernelRun 4 (fun _ => id) req ⟨megakernelTable 1, some fun _ => 0⟩ 3).req
    let launched := baselineHostDecodeStepKernel^[3] req
    looped.state = launched.state ∧ looped.flags = launched.flags ∧
      looped.lastToken = launched.lastToken ∧
      looped.outputTokenCount = launched.outputTokenCount ∧
      looped.decodePos = launched.decodePos :=
  megakernelRun_eq_baseline 4 (fun _ => id) (by decide) (Or.inr rfl) _ 3

end
end ResidentInference.Device

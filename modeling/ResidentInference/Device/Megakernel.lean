import ResidentInference.Device.VerifyCommit

/-! The loop of the persistent kernel for one request: progress within the token budget, and
agreement with the host-driven baseline when speculation is off. -/
namespace ResidentInference.Device
open Loops
variable {φ : Type}

/-- The memory that the blocks share. -/
structure DeviceMemory (φ : Type) where
  kv : KVPageTable φ
  draftTokens : Option (Int → Int)

/-! ## The loop body -/

section
variable [DeviceFloat φ]

@[simps] def initAsbs (initialBlockSize : Int) (req : RequestDescriptor φ) : RequestDescriptor φ :=
  { req with
    emaAcceptanceRate := DeviceFloat.literal (4 / 5)
    currentBlockSize := if initialBlockSize > 0 then initialBlockSize else 4 }

/-- The five stages, under the guard of the loop. -/
def advanceRequest (req : RequestDescriptor φ) (mem : DeviceMemory φ) :
    RequestDescriptor φ × DeviceMemory φ :=
  if req.IsDone then (req, mem)
  else
    let (req, kv) := stagePrefill req mem.kv
    let kv := selectSparseKvBlocks req kv req.currentBlockSize
    let (req, draftTokens) := stageDecode req mem.draftTokens
    let req := stageSpecVerify req draftTokens
    let (req, kv) := stageCommit req kv
    (req, ⟨kv, draftTokens⟩)

structure LoopState (φ : Type) where
  req : RequestDescriptor φ
  mem : DeviceMemory φ
  asbsInitialized : Bool

def megakernelIteration (initialBlockSize : Int) (s : LoopState φ) : LoopState φ :=
  let req := if s.asbsInitialized then s.req else initAsbs initialBlockSize s.req
  let (req, mem) := advanceRequest req s.mem
  { req := req, mem := mem, asbsInitialized := true }

/-- The first `n` iterations of the loop; `others k` is what the other blocks do to the shared
memory before iteration `k`. -/
def megakernelRun (initialBlockSize : Int) (others : Nat → DeviceMemory φ → DeviceMemory φ)
    (req : RequestDescriptor φ) (mem : DeviceMemory φ) : Nat → LoopState φ
  | 0 => { req := req, mem := mem, asbsInitialized := false }
  | n+1 =>
    let s := megakernelRun initialBlockSize others req mem n
    megakernelIteration initialBlockSize { s with mem := others n s.mem }

end

/-! ## What each stage does -/

theorem stagePrefill_of_ne {req : RequestDescriptor φ} (h : req.state ≠ .prefillReady)
    (kv : KVPageTable φ) : stagePrefill req kv = (req, kv) := by
  simp only [stagePrefill, if_neg h]

theorem stageDecode_of_ne {req : RequestDescriptor φ} (h : req.state ≠ .decodeReady)
    (draftTokens : Option (Int → Int)) : stageDecode req draftTokens = (req, draftTokens) := by
  simp only [stageDecode, if_neg h]

theorem stageCommit_of_ne {req : RequestDescriptor φ} (h : req.state ≠ .commitReady)
    (kv : KVPageTable φ) : stageCommit req kv = (req, kv) := by
  simp only [stageCommit, if_neg h]

theorem stageSpecVerify_of_ne [DeviceFloat φ] {req : RequestDescriptor φ}
    (hdraft : req.state ≠ .draftReady) (hverify : req.state ≠ .verifyReady)
    (draftTokens : Option (Int → Int)) : stageSpecVerify req draftTokens = req := by
  simp only [stageSpecVerify, hdraft, hverify, or_self, if_false]

/-- What an iteration may do to the counters and the state of a request. -/
structure Progress (req req' : RequestDescriptor φ) : Prop where
  lt : req.outputTokenCount < req'.outputTokenCount
  le : req'.outputTokenCount ≤ req.maxNewTokens
  maxNewTokens : req'.maxNewTokens = req.maxNewTokens
  state : req'.state = .decodeReady ∨ req'.state = .complete
  ready : req'.state = .decodeReady → req'.outputTokenCount < req.maxNewTokens
  complete : req'.state = .complete →
    req'.outputTokenCount = req.maxNewTokens ∨ req'.hasFlag .eosSeen = true

@[simp] theorem hasFlag_setFlag (req : RequestDescriptor φ) (f : RequestFlag) :
    (req.setFlag f).hasFlag f = true := by
  simp [RequestDescriptor.hasFlag]

@[simp] theorem hasFlag_setState (req : RequestDescriptor φ) (s : RequestState) (f : RequestFlag) :
    (req.setState s).hasFlag f = req.hasFlag f := rfl

theorem settle_progress {req r : RequestDescriptor φ}
    (hlt : req.outputTokenCount < r.outputTokenCount)
    (hle : r.outputTokenCount ≤ req.maxNewTokens) (hmax : r.maxNewTokens = req.maxNewTokens) :
    Progress req r.settle := by
  simp only [RequestDescriptor.settle]
  split
  · next hfull => exact ⟨hlt, hle, hmax, Or.inr rfl, nofun, fun _ => Or.inl (by simp; omega)⟩
  · next hfull => exact ⟨hlt, hle, hmax, Or.inl rfl, fun _ => by simp; omega, nofun⟩

theorem settleToken_progress {req r : RequestDescriptor φ}
    (hlt : req.outputTokenCount < r.outputTokenCount)
    (hle : r.outputTokenCount ≤ req.maxNewTokens) (hmax : r.maxNewTokens = req.maxNewTokens) :
    Progress req r.settleToken := by
  simp only [RequestDescriptor.settleToken]
  split
  · exact ⟨hlt, hle, hmax, Or.inr rfl, nofun, fun _ => Or.inr (by simp)⟩
  · exact settle_progress hlt hle hmax

theorem stageDecode_of_not_speculative {req : RequestDescriptor φ} (hs : req.state = .decodeReady)
    (hf : req.hasFlag .speculativeEnabled = false) (draftTokens : Option (Int → Int)) :
    stageDecode req draftTokens = (req.emitNextToken.settleToken, draftTokens) := by
  simp only [stageDecode, hs, hf, if_true, Bool.false_eq_true, if_false]

theorem stageDecode_of_speculative {req : RequestDescriptor φ} (hs : req.state = .decodeReady)
    (hf : req.hasFlag .speculativeEnabled = true) (draftTokens : Option (Int → Int)) :
    (stageDecode req draftTokens).1 =
      { req with draftLen := req.clampToBudget req.currentBlockSize }.setState .draftReady := by
  simp only [stageDecode, hs, hf, if_true]

theorem length_acceptedDrafts_le (req : RequestDescriptor φ) (tokens : Int → Int) (limit : Int) :
    (req.acceptedDrafts tokens limit).length ≤ limit.toNat := by
  calc
    (req.acceptedDrafts tokens limit).length ≤ (draftIndices req.draftOffset limit).length :=
      (List.takeWhile_prefix _).length_le
    _ = limit.toNat := by simp [draftIndices]

theorem acceptedCount_nonneg (req : RequestDescriptor φ) (draftTokens : Option (Int → Int)) :
    0 ≤ req.acceptedCount draftTokens := by
  cases draftTokens with
  | none => exact le_rfl
  | some tokens => exact Int.natCast_nonneg _

theorem acceptedCount_le (req : RequestDescriptor φ) (draftTokens : Option (Int → Int)) :
    req.acceptedCount draftTokens ≤ max 0 req.verifyLimit := by
  cases draftTokens with
  | none => exact le_max_left 0 _
  | some tokens =>
    have hlen := length_acceptedDrafts_le req tokens req.verifyLimit
    simp only [RequestDescriptor.acceptedCount]
    omega

theorem stageCommit_progress {req : RequestDescriptor φ} (hs : req.state = .commitReady)
    (h0 : 0 ≤ req.acceptedPrefixLen) (hb : req.acceptedPrefixLen ≤ req.budgetLeft)
    (hc : req.outputTokenCount < req.maxNewTokens) (kv : KVPageTable φ) :
    Progress req (stageCommit req kv).1 := by
  simp only [RequestDescriptor.budgetLeft] at hb
  simp only [stageCommit, hs, if_true]
  split
  · exact settleToken_progress (by simp) (by simp; omega) rfl
  · exact settle_progress (by simp; omega) (by simp; omega) rfl

theorem Progress.of_same {req r r' : RequestDescriptor φ} (h : Progress r r')
    (hcount : r.outputTokenCount = req.outputTokenCount)
    (hmax : r.maxNewTokens = req.maxNewTokens) : Progress req r' where
  lt := hcount ▸ h.lt
  le := hmax ▸ h.le
  maxNewTokens := h.maxNewTokens.trans hmax
  state := h.state
  ready := fun hs => hmax ▸ h.ready hs
  complete := fun hs => hmax ▸ h.complete hs

section
variable [DeviceFloat φ]

theorem stageSpecVerify_of_draftReady {req : RequestDescriptor φ} (hs : req.state = .draftReady)
    (draftTokens : Option (Int → Int)) :
    stageSpecVerify req draftTokens = (req.recordAccepted (req.acceptedCount draftTokens)
      req.verifyLimit).setState .commitReady := by
  simp only [stageSpecVerify, hs, true_or, if_true]

/-- Decode, verify and commit on a request that is ready to decode. The drafts may be any tokens:
what is accepted never exceeds the budget, and what is rejected is replaced by one token. -/
theorem decodeStages_progress {req : RequestDescriptor φ} (hs : req.state = .decodeReady)
    (hc : req.outputTokenCount < req.maxNewTokens) (kv : KVPageTable φ)
    (draftTokens verified : Option (Int → Int)) :
    Progress req
      (stageCommit (stageSpecVerify (stageDecode req draftTokens).1 verified) kv).1 := by
  cases hf : req.hasFlag .speculativeEnabled with
  | false =>
    rw [stageDecode_of_not_speculative hs hf]
    have hp : Progress req req.emitNextToken.settleToken :=
      settleToken_progress (by simp) (by simp; omega) rfl
    rw [stageSpecVerify_of_ne, stageCommit_of_ne]
    · exact hp
    all_goals obtain h | h := hp.state <;> simp [h]
  | true =>
    rw [stageDecode_of_speculative hs hf, stageSpecVerify_of_draftReady rfl]
    generalize hr : ({ req with
      draftLen := req.clampToBudget req.currentBlockSize }.setState .draftReady) = r
    have hcount : r.outputTokenCount = req.outputTokenCount := by rw [← hr]; rfl
    have hmax : r.maxNewTokens = req.maxNewTokens := by rw [← hr]; rfl
    have hlimit : r.verifyLimit ≤ r.budgetLeft := by
      simp only [RequestDescriptor.verifyLimit]
      split <;> omega
    have haccepted := acceptedCount_le r verified
    have hbudget : 0 < r.budgetLeft := by
      simp only [RequestDescriptor.budgetLeft]
      omega
    refine (stageCommit_progress rfl (acceptedCount_nonneg r verified) ?_ ?_ kv).of_same hcount hmax
    · change r.acceptedCount verified ≤ r.budgetLeft
      omega
    · change r.outputTokenCount < r.maxNewTokens
      omega

end

/-- A request as it may enter the loop. -/
def EntersLoop (req : RequestDescriptor φ) : Prop :=
  1 ≤ req.maxNewTokens ∧
    (req.state = .prefillReady ∧ req.outputTokenCount = 0 ∨
      req.state = .decodeReady ∧ 0 ≤ req.outputTokenCount ∧
        req.outputTokenCount < req.maxNewTokens)

theorem Progress.entersLoop {req r : RequestDescriptor φ} (h : Progress req r)
    (h0 : 0 ≤ req.outputTokenCount) (hs : r.state = .decodeReady) : EntersLoop r := by
  have hlt := h.lt
  have hready := h.ready hs
  have hmax := h.maxNewTokens
  exact ⟨by omega, Or.inr ⟨hs, by omega, by omega⟩⟩

section
variable [DeviceFloat φ]

theorem advanceRequest_progress {req : RequestDescriptor φ} (h : EntersLoop req)
    (mem : DeviceMemory φ) : Progress req (advanceRequest req mem).1 := by
  obtain ⟨hmax, ⟨hs, hcount⟩ | ⟨hs, -, hlt⟩⟩ := h
  · have hdone : ¬ req.IsDone := by simp [RequestDescriptor.IsDone, hs]
    simp only [advanceRequest, if_neg hdone, stagePrefill, hs, if_true]
    exact (decodeStages_progress rfl (by simp; omega) _ _ _).of_same (by simp [hcount]) rfl
  · have hdone : ¬ req.IsDone := by simp [RequestDescriptor.IsDone, hs]
    simp only [advanceRequest, if_neg hdone, stagePrefill_of_ne (by simp [hs] : req.state ≠ _)]
    exact decodeStages_progress hs hlt _ _ _

theorem advanceRequest_of_done {req : RequestDescriptor φ} (h : req.IsDone)
    (mem : DeviceMemory φ) : advanceRequest req mem = (req, mem) := by
  simp only [advanceRequest, if_pos h]

theorem megakernelIteration_progress (initialBlockSize : Int) {s : LoopState φ}
    (h : EntersLoop s.req) : Progress s.req (megakernelIteration initialBlockSize s).req := by
  cases hinit : s.asbsInitialized with
  | true =>
    simp only [megakernelIteration, hinit, if_true]
    exact advanceRequest_progress h s.mem
  | false =>
    have hloop : EntersLoop (initAsbs initialBlockSize s.req) := h
    have hp := advanceRequest_progress hloop s.mem
    simp only [megakernelIteration, hinit, Bool.false_eq_true, if_false]
    exact hp.of_same rfl rfl

theorem megakernelIteration_of_complete (initialBlockSize : Int) {s : LoopState φ}
    (h : s.req.state = .complete) :
    (megakernelIteration initialBlockSize s).req.state = .complete ∧
      (megakernelIteration initialBlockSize s).req.maxNewTokens = s.req.maxNewTokens := by
  cases hinit : s.asbsInitialized with
  | true =>
    simp only [megakernelIteration, hinit, if_true, advanceRequest_of_done (Or.inl h)]
    exact ⟨h, trivial⟩
  | false =>
    have hdone : (initAsbs initialBlockSize s.req).IsDone := Or.inl h
    simp only [megakernelIteration, hinit, Bool.false_eq_true, if_false,
      advanceRequest_of_done hdone]
    exact ⟨h, rfl⟩

/-- After `n` iterations an unfinished request has produced at least `n` tokens. -/
theorem megakernelRun_invariant (initialBlockSize : Int)
    (others : Nat → DeviceMemory φ → DeviceMemory φ) {req : RequestDescriptor φ}
    (h : EntersLoop req) (mem : DeviceMemory φ) (n : Nat) :
    (megakernelRun initialBlockSize others req mem n).req.maxNewTokens = req.maxNewTokens ∧
      ((megakernelRun initialBlockSize others req mem n).req.state = .complete ∨
        EntersLoop (megakernelRun initialBlockSize others req mem n).req ∧
          n ≤ (megakernelRun initialBlockSize others req mem n).req.outputTokenCount) := by
  induction n with
  | zero =>
    refine ⟨rfl, Or.inr ⟨h, ?_⟩⟩
    obtain ⟨-, ⟨-, hcount⟩ | ⟨-, hcount, -⟩⟩ := h
    · exact hcount.ge
    · exact hcount
  | succ n ih =>
    obtain ⟨hmax, ih⟩ := ih
    simp only [megakernelRun]
    generalize megakernelRun initialBlockSize others req mem n = s at hmax ih ⊢
    obtain hdone | ⟨hloop, hn⟩ := ih
    · have hnext := megakernelIteration_of_complete initialBlockSize
        (s := { s with mem := others n s.mem }) hdone
      exact ⟨hnext.2.trans hmax, Or.inl hnext.1⟩
    · have hp := megakernelIteration_progress initialBlockSize
        (s := { s with mem := others n s.mem }) hloop
      refine ⟨hp.maxNewTokens.trans hmax, ?_⟩
      have hlt := hp.lt
      obtain hs | hs := hp.state
      · have h0 : 0 ≤ s.req.outputTokenCount := by omega
        refine Or.inr ⟨hp.entersLoop h0 hs, ?_⟩
        push_cast
        simp only at hlt
        omega
      · exact Or.inl hs

/-- Every iteration on an unfinished request produces a token within the budget and completes
the request only with a full budget or an end token, so the request completes within
`maxNewTokens` iterations, whatever the other blocks do to the shared memory. -/
theorem megakernelRun_completes (initialBlockSize : Int)
    (others : Nat → DeviceMemory φ → DeviceMemory φ) {req : RequestDescriptor φ}
    (h : EntersLoop req) (mem : DeviceMemory φ) :
    let run := fun n => (megakernelRun initialBlockSize others req mem n).req
    (∀ n, ¬ (run n).IsDone →
      (run n).outputTokenCount + 1 ≤ (run (n+1)).outputTokenCount ∧
      (run (n+1)).outputTokenCount ≤ req.maxNewTokens ∧
      ((run (n+1)).state = .decodeReady ∨ (run (n+1)).state = .complete) ∧
      ((run (n+1)).state = .complete →
        (run (n+1)).outputTokenCount = req.maxNewTokens ∨ (run (n+1)).hasFlag .eosSeen = true)) ∧
    ∀ n : Nat, req.maxNewTokens ≤ n → (run n).state = .complete := by
  intro run
  refine ⟨fun n hdone => ?_, fun n hn => ?_⟩
  · obtain ⟨hmax, hcomplete | ⟨hloop, -⟩⟩ :=
      megakernelRun_invariant initialBlockSize others h mem n
    · exact absurd (Or.inl hcomplete) hdone
    · have hp : Progress (run n) (run (n+1)) := megakernelIteration_progress initialBlockSize
        (s := { megakernelRun initialBlockSize others req mem n with
          mem := others n (megakernelRun initialBlockSize others req mem n).mem }) hloop
      rw [← hmax]
      exact ⟨hp.lt, hp.le, hp.state, hp.complete⟩
  · obtain ⟨hmax, hcomplete | ⟨hloop, hcount⟩⟩ :=
      megakernelRun_invariant initialBlockSize others h mem n
    · exact hcomplete
    · obtain ⟨hpos, ⟨-, h0⟩ | ⟨-, -, hlt⟩⟩ := hloop
      · omega
      · omega

/-- The first request of the host, with a budget of 8 tokens. -/
theorem megakernelRun_completes_host :
    let req : RequestDescriptor ℚ := megakernelRequest 8 4 0
    let run := fun n =>
      (megakernelRun 4 (fun _ => id) req ⟨megakernelTable 1, some fun _ => 0⟩ n).req
    (∀ n, ¬ (run n).IsDone →
      (run n).outputTokenCount + 1 ≤ (run (n+1)).outputTokenCount ∧
      (run (n+1)).outputTokenCount ≤ req.maxNewTokens ∧
      ((run (n+1)).state = .decodeReady ∨ (run (n+1)).state = .complete) ∧
      ((run (n+1)).state = .complete →
        (run (n+1)).outputTokenCount = req.maxNewTokens ∨ (run (n+1)).hasFlag .eosSeen = true)) ∧
    ∀ n : Nat, req.maxNewTokens ≤ n → (run n).state = .complete :=
  megakernelRun_completes 4 (fun _ => id) ⟨by decide, Or.inr ⟨rfl, by decide, by decide⟩⟩ _

end
end ResidentInference.Device

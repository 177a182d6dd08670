import ResidentInference.Device.Stages
import ResidentInference.Device.Host

/-! The fused verify-and-commit kernel, and that it is verification followed by commit. -/
namespace ResidentInference.Device
variable {φ : Type}

structure VerifyCommitMetrics where
  requestId : Int := 0
  speculativeCandidates : Int := 0
  acceptedTokens : Int := 0
  rejectedTokens : Int := 0
  committedPages : Int := 0
  releasedPages : Int := 0
  deriving DecidableEq, Repr

/-- The pages that a commit of `accepted` tokens covers, at most `totalPages`. -/
def coveredPages (pageSizeTokens totalPages accepted : Int) : Int :=
  let committedPages := (accepted + pageSizeTokens - 1).tdiv pageSizeTokens
  if committedPages > totalPages then totalPages else committedPages

/-- The pages that the commit of the first `committedPages` leaves. -/
def remainingPages (totalPages committedPages : Int) : Int :=
  let releasedPages := totalPages - committedPages
  if releasedPages < 0 then 0 else releasedPages

def commitAndReleasePages (kv : KVPageTable φ) (offset committedPages releasedPages : Int) :
    KVPageTable φ :=
  let kv' := commitDraftKvRegion kv offset committedPages
  if releasedPages > 0 then discardRejectedKvRegion kv' (offset + committedPages) releasedPages
  else kv'

/-- It makes no difference whether the covered pages are lowered to the total before or after
the others are counted. -/
theorem commitKvPages_eq (kv : KVPageTable φ) (offset totalPages accepted : Int) :
    commitKvPages kv offset totalPages accepted =
      commitAndReleasePages kv offset (coveredPages kv.pageSizeTokens totalPages accepted)
        (remainingPages totalPages (coveredPages kv.pageSizeTokens totalPages accepted)) := by
  have hreleased (hit : Int) : (if totalPages - hit < 0 then 0 else totalPages - hit) =
      remainingPages totalPages (if hit > totalPages then totalPages else hit) := by
    simp only [remainingPages]
    grind
  simp only [commitKvPages, commitAndReleasePages, coveredPages, hreleased]
  rfl

variable [DeviceFloat φ]

/-- The body of the kernel for the request of one block. -/
def fusedVerifyAndCommitKernel (req : RequestDescriptor φ) (kv : KVPageTable φ)
    (draftTokens : Option (Int → Int)) :
    RequestDescriptor φ × KVPageTable φ × VerifyCommitMetrics :=
  let metric : VerifyCommitMetrics := { requestId := req.requestId }
  if req.state = .draftReady ∨ req.state = .verifyReady then
    let limit := req.verifyLimit
    let accepted := req.acceptedCount draftTokens
    let req := req.recordAccepted accepted limit
    let metric := { metric with
      speculativeCandidates := limit
      acceptedTokens := accepted
      rejectedTokens := limit - accepted }
    if accepted = 0 then (req.emitNextToken.settleToken, kv, metric)
    else
      let req := req.emitAccepted accepted
      let (kv, metric) :=
        if req.kvNumPages > 0 then
          let committedPages := coveredPages kv.pageSizeTokens req.kvNumPages accepted
          let releasedPages := remainingPages req.kvNumPages committedPages
          (commitAndReleasePages kv req.kvTableOffset committedPages releasedPages,
            { metric with committedPages := committedPages, releasedPages := releasedPages })
        else (kv, metric)
      (req.settle, kv, metric)
  else (req, kv, metric)

/-- Verification hands commit the accepted length alone, which is all that the fused kernel keeps
of it: the two stages leave its request and its table. -/
theorem stageCommit_stageSpecVerify_eq (req : RequestDescriptor φ) (kv : KVPageTable φ)
    (draftTokens : Option (Int → Int)) (h : req.state = .draftReady ∨ req.state = .verifyReady) :
    stageCommit (stageSpecVerify req draftTokens) kv =
      ((fusedVerifyAndCommitKernel req kv draftTokens).1,
        (fusedVerifyAndCommitKernel req kv draftTokens).2.1) := by
  have hverify : stageSpecVerify req draftTokens = (req.recordAccepted
      (req.acceptedCount draftTokens) req.verifyLimit).setState .commitReady := by
    simp only [stageSpecVerify, if_pos h]
  simp only [hverify, fusedVerifyAndCommitKernel, if_pos h]
  have haccepted : (req.recordAccepted (req.acceptedCount draftTokens)
      req.verifyLimit).acceptedPrefixLen = req.acceptedCount draftTokens := rfl
  generalize req.recordAccepted (req.acceptedCount draftTokens) req.verifyLimit = r at haccepted
  simp only [← haccepted, stageCommit, RequestDescriptor.setState_state,
    RequestDescriptor.setState_acceptedPrefixLen, if_true]
  by_cases h0 : r.acceptedPrefixLen = 0
  · simp only [h0, if_true]
    rfl
  · simp only [h0, if_false, commitKvPages_eq,
      RequestDescriptor.emitAccepted_kvNumPages, RequestDescriptor.emitAccepted_kvTableOffset,
      RequestDescriptor.setState_kvNumPages, RequestDescriptor.setState_kvTableOffset]
    split <;> rfl

/-- The fused kernel is verification followed by commit, on the request and on every page. -/
theorem fusedVerifyAndCommitKernel_eq_stages (req : RequestDescriptor φ) (kv : KVPageTable φ)
    (draftTokens : Option (Int → Int)) (h : req.state = .draftReady ∨ req.state = .verifyReady) :
    (fusedVerifyAndCommitKernel req kv draftTokens).1 =
      (stageCommit (stageSpecVerify req draftTokens) kv).1 ∧
    (fusedVerifyAndCommitKernel req kv draftTokens).2.1 =
      (stageCommit (stageSpecVerify req draftTokens) kv).2 := by
  rw [stageCommit_stageSpecVerify_eq req kv draftTokens h]
  exact ⟨rfl, rfl⟩

/-- The drafts 1, 2, 3 of a request of the host. -/
theorem fusedVerifyAndCommitKernel_eq_stages_drafts :
    let req : RequestDescriptor ℚ :=
      { megakernelRequest 8 3 0 with state := .draftReady, draftLen := 3 }
    let kv : KVPageTable ℚ := megakernelTable 1
    (fusedVerifyAndCommitKernel req kv (some (· + 1))).1 =
      (stageCommit (stageSpecVerify req (some (· + 1))) kv).1 ∧
    (fusedVerifyAndCommitKernel req kv (some (· + 1))).2.1 =
      (stageCommit (stageSpecVerify req (some (· + 1))) kv).2 :=
  fusedVerifyAndCommitKernel_eq_stages _ _ _ (Or.inl rfl)

end ResidentInference.Device

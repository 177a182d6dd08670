import ResidentInference.Device.VerifyCommit
import ResidentInference.Device.Acceptance

/-! The end-of-sequence token among the drafts: verification stops there, but only the fallback
token of a commit without accepted drafts can end the request. -/
namespace ResidentInference.Device
open Loops
variable {φ : Type}

namespace RequestDescriptor

/-- `COMPLETE` with `EOS_SEEN`. -/
def EndedByEos (req : RequestDescriptor φ) : Prop :=
  req.state = .complete ∧ req.hasFlag .eosSeen = true

theorem endedByEos_settle_iff (req : RequestDescriptor φ) :
    req.settle.EndedByEos ↔
      req.outputTokenCount ≥ req.maxNewTokens ∧ req.hasFlag .eosSeen = true := by
  have hflag : ∀ s, (req.setState s).hasFlag .eosSeen = req.hasFlag .eosSeen := fun _ => rfl
  simp only [settle, EndedByEos]
  split
  · next hfull => simp [hfull, hflag]
  · next hroom => simp [hroom]

theorem endedByEos_settleToken_iff (req : RequestDescriptor φ) :
    req.settleToken.EndedByEos ↔ req.lastToken = req.eosTokenId ∨
      req.outputTokenCount ≥ req.maxNewTokens ∧ req.hasFlag .eosSeen = true := by
  by_cases hend : req.lastToken = req.eosTokenId
  · have hset : ((req.setFlag .eosSeen).setState .complete).hasFlag .eosSeen = true := by
      simp [hasFlag, setState, setFlag]
    rw [settleToken, if_pos hend]
    exact iff_of_true ⟨rfl, hset⟩ (Or.inl hend)
  · rw [settleToken, if_neg hend, endedByEos_settle_iff]
    exact ⟨Or.inr, fun h => h.resolve_left hend⟩

/-- Verification stops at draft `i`, which is the end of the sequence. -/
structure StopsAtEos (req : RequestDescriptor φ) (tokens : Int → Int) (i : Int) : Prop where
  eos_pos : req.eosTokenId > 0
  accepted : req.acceptedCount (some tokens) = i
  lt_limit : i < req.verifyLimit
  token_eq : tokens (req.draftOffset + i) = req.eosTokenId

/-- The end of the sequence is the first draft, and the fallback token is the end of the sequence
or the request carries the flag already and has one token left. -/
def EosEnds (req : RequestDescriptor φ) (tokens : Int → Int) : Prop :=
  tokens req.draftOffset = req.eosTokenId ∧
    ((req.lastToken + 1 + req.requestId).tmod 32000 = req.eosTokenId ∨
      req.outputTokenCount + 1 ≥ req.maxNewTokens ∧ req.hasFlag .eosSeen = true)

/-- Nothing is accepted when the end of the sequence is the first draft. -/
theorem StopsAtEos.eq_zero_iff {req : RequestDescriptor φ} {tokens : Int → Int} {i : Int}
    (h : req.StopsAtEos tokens i) :
    i = 0 ↔ tokens req.draftOffset = req.eosTokenId := by
  refine ⟨fun hi => ?_, fun hfirst => ?_⟩
  · have htoken := h.token_eq
    rwa [hi, add_zero] at htoken
  · have hreject : req.acceptsToken (tokens (req.draftOffset + (0 : Nat))) = false := by
      simp [acceptsToken, hfirst, h.eos_pos]
    have hlength : ((req.acceptedDrafts tokens req.verifyLimit).length : Int) = i := h.accepted
    have hnone : (req.acceptedDrafts tokens req.verifyLimit).length ≤ 0 :=
      length_acceptedDrafts_le_of_reject hreject
    omega

end RequestDescriptor

variable [DeviceFloat φ]

/-- The request after verification and commit. -/
theorem stageCommit_stageSpecVerify {req : RequestDescriptor φ}
    (h : req.state = .draftReady ∨ req.state = .verifyReady) (draftTokens : Option (Int → Int))
    (kv : KVPageTable φ) :
    let accepted := req.acceptedCount draftTokens
    let req' := (req.recordAccepted accepted req.verifyLimit).setState .commitReady
    (stageCommit (stageSpecVerify req draftTokens) kv).1 =
      if accepted = 0 then req'.emitNextToken.settleToken
      else (req'.emitAccepted accepted).settle := by
  intro accepted req'
  have hverify : stageSpecVerify req draftTokens = req' := by
    simp only [stageSpecVerify, if_pos h, req', accepted]
  have haccepted : req'.acceptedPrefixLen = accepted := rfl
  have hstate : req'.state = .commitReady := rfl
  rw [hverify]
  simp only [stageCommit, if_pos hstate, haccepted]
  split <;> rfl

/-- A draft that ends the sequence behind another one never ends the request. -/
theorem stageCommit_endedByEos_iff {req : RequestDescriptor φ}
    (hstate : req.state = .draftReady ∨ req.state = .verifyReady) {tokens : Int → Int} {i : Int}
    (h : req.StopsAtEos tokens i) (kv : KVPageTable φ) :
    (stageCommit (stageSpecVerify req (some tokens)) kv).1.EndedByEos ↔ req.EosEnds tokens := by
  rw [stageCommit_stageSpecVerify hstate, h.accepted]
  by_cases hi : i = 0
  · rw [if_pos hi, RequestDescriptor.endedByEos_settleToken_iff]
    exact ⟨fun hend => ⟨h.eq_zero_iff.mp hi, hend⟩, fun hend => hend.2⟩
  · have hroom : req.outputTokenCount + i < req.maxNewTokens := by
      have hlt := h.lt_limit
      simp only [RequestDescriptor.verifyLimit, RequestDescriptor.budgetLeft] at hlt
      grind
    rw [if_neg hi, RequestDescriptor.endedByEos_settle_iff]
    exact iff_of_false (fun hend => not_le.mpr hroom hend.1)
      fun hend => hi (h.eq_zero_iff.mpr hend.1)

/-- A request whose draft ends the sequence is ended by it only when that draft is the first and
the commit's own token happens to end the sequence too, or the flag was set before. -/
theorem endedByEos_iff_eosEnds {req : RequestDescriptor φ} (hstate : req.state = .draftReady)
    {tokens : Int → Int} {i : Int} (h : req.StopsAtEos tokens i) (kv : KVPageTable φ) :
    ((stageCommit (stageSpecVerify req (some tokens)) kv).1.EndedByEos ↔ req.EosEnds tokens) ∧
      ((fusedVerifyAndCommitKernel req kv (some tokens)).1.EndedByEos ↔ req.EosEnds tokens) := by
  have hstages := stageCommit_endedByEos_iff (Or.inl hstate) h kv
  have hfused := stageCommit_stageSpecVerify_eq req kv (some tokens) (Or.inl hstate)
  exact ⟨hstages, (congrArg Prod.fst hfused) ▸ hstages⟩

/-- The drafts 14 and 15 of a request of the host that ends with 15; the request goes on. -/
theorem eos_draft_ignored :
    let req : RequestDescriptor ℚ :=
      { megakernelRequest 8 2 0 with
        state := .draftReady, draftLen := 2, eosTokenId := 15
        lastToken := 12, outputTokenCount := 1, decodePos := 1 }
    let tokens : Int → Int := fun i => (req.lastToken + 1 + i + req.requestId).tmod 32000
    let kv : KVPageTable ℚ := megakernelTable 1
    req.StopsAtEos tokens 1 ∧
      (stageCommit (stageSpecVerify req (some tokens)) kv).1.state = .decodeReady ∧
      (fusedVerifyAndCommitKernel req kv (some tokens)).1.state = .decodeReady ∧
      ¬ (stageCommit (stageSpecVerify req (some tokens)) kv).1.EndedByEos ∧
      ¬ (fusedVerifyAndCommitKernel req kv (some tokens)).1.EndedByEos := by
  intro req tokens kv
  have hcommit : (stageCommit (stageSpecVerify req (some tokens)) kv).1.state = .decodeReady := by
    decide +kernel
  have hfused : (fusedVerifyAndCommitKernel req kv (some tokens)).1.state = .decodeReady := by
    decide +kernel
  refine ⟨⟨by decide, by decide, by decide, by decide⟩, hcommit, hfused, fun h => ?_, fun h => ?_⟩
  · rw [RequestDescriptor.EndedByEos, hcommit] at h
    exact absurd h.1 (by decide)
  · rw [RequestDescriptor.EndedByEos, hfused] at h
    exact absurd h.1 (by decide)

/-- The only draft ends the sequence, and so does the fallback token. -/
theorem endedByEos_iff_eosEnds_first :
    let req : RequestDescriptor ℚ :=
      { megakernelRequest 8 2 0 with state := .draftReady, draftLen := 1, eosTokenId := 12 }
    let kv : KVPageTable ℚ := megakernelTable 1
    req.EosEnds (fun _ => 12) ∧
      (stageCommit (stageSpecVerify req (some fun _ => 12)) kv).1.EndedByEos := by
  intro req kv
  have hends : req.EosEnds fun _ => 12 := ⟨by decide, Or.inl (by decide)⟩
  have hstops : req.StopsAtEos (fun _ => 12) 0 := ⟨by decide, by decide, by decide, by decide⟩
  exact ⟨hends, (endedByEos_iff_eosEnds rfl hstops kv).1.mpr hends⟩

end ResidentInference.Device

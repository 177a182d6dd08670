import ResidentInference.State
import Mathlib.Data.List.GetD

/-! Speculative decoding: the acceptance and the block-size policies, the proposer, the verifier
over any backend, and the CPU stub backend. -/
namespace ResidentInference

structure AcceptancePolicy where
  mismatchStride : Int := 0
  rejectDraftBlocks : Bool := false

structure AdaptiveBlockPolicy where
  minBlock : Int := 1
  maxBlock : Int := 8
  alpha : ℚ := 1 / 5
  pressureCap : Int := 2
  highAcceptThreshold : ℚ := 4 / 5
  lowAcceptThreshold : ℚ := 1 / 2

/-- Update the moving average and the next block size. The source computes with doubles; `rnd`
is the rounding of each result, the identity in exact arithmetic. -/
def updateBlockSize (rnd : ℚ → ℚ) (r : RequestState) (mask : AcceptanceMask)
    (policy : AdaptiveBlockPolicy) (kvPressure : Bool) : RequestState :=
  let proposed := max mask.accepted.length 1
  let observed := rnd (mask.acceptedCount / proposed)
  let rate := rnd (rnd (policy.alpha * observed) +
    rnd (rnd (1 - policy.alpha) * r.emaAcceptanceRate))
  let nextBlock :=
    if policy.highAcceptThreshold ≤ rate then policy.maxBlock
    else if policy.lowAcceptThreshold ≤ rate then (policy.minBlock + policy.maxBlock) / 2
    else policy.minBlock
  let nextBlock :=
    if kvPressure ∧ policy.pressureCap < nextBlock then policy.pressureCap else nextBlock
  let blockSize := max nextBlock policy.minBlock
  { r with
    emaAcceptanceRate := rate
    currentBlockSize := blockSize
    blockSizeHistory := r.blockSizeHistory ++ [blockSize] }

structure DraftBlockProposer where
  blockSize : Int
  eosTokenId : Int

/-- Draft up to `blockSize` next tokens, the proposer's own block size when none is given. -/
def DraftBlockProposer.propose (p : DraftBlockProposer) (r : RequestState)
    (blockSize : Option Int) : List Int :=
  if r.remainingTarget = [] ∨ r.tokenBudgetLeft = 0 then [p.eosTokenId]
  else
    let width := blockSize.getD p.blockSize
    sliceTo r.remainingTarget (min (min width r.remainingTarget.length) r.tokenBudgetLeft)

/-! ### The CPU stub backend

`decodeStep` keeps a reference to the request, which `speculativeVerify` reads. No token is
committed between the two calls, so the value stands for the reference. -/
namespace CPUStubBackend

def decodeStep (r : RequestState) (_kvPages : List Nat) : TokenLogits × Option RequestState :=
  let width := max 1 (min r.tokenBudgetLeft r.remainingTarget.length)
  let candidateTokens := sliceTo r.remainingTarget width
  (⟨if candidateTokens = [] then [r.eosTokenId] else candidateTokens⟩, some r)

def speculativeVerify (activeRequest : Option RequestState) (draftTokens : List Int)
    (_kvPages : List Nat) : Except Fault AcceptanceMask :=
  match activeRequest with
  | none => .error .decodeStepMissing
  | some r =>
    let expected := r.remainingTarget
    .ok ⟨draftTokens.mapIdx fun idx token => decide (expected[idx]? = some token)⟩

end CPUStubBackend

/-! ### The verifier -/

namespace AcceptancePolicy
variable (policy : AcceptancePolicy)

/-- The simulated cut-off: every `mismatchStride`-th output position that is not the last of
its block. -/
def forcedAt (committed n idx : Nat) : Bool :=
  decide (0 < policy.mismatchStride) &&
    (decide (((committed + idx + 1 : Nat) : Int) % policy.mismatchStride = 0) &&
      decide (idx + 1 < n))

/-- The token is the expected one and the backend, where its mask reaches, accepts it. -/
def matchesAt (expected : List Int) (mask : List Bool) (idx : Nat) (token : Int) : Bool :=
  decide (expected[idx]? = some token) && mask.getD idx true

/-- The loop over the block of `n` tokens, from position `idx` on, up to its `break`. -/
def verifyLoop (committed n : Nat) (expected : List Int) (mask : List Bool) :
    Nat → List Int → List Bool
  | _, [] => []
  | idx, token :: tokens =>
    if policy.forcedAt committed n idx then [true]
    else if matchesAt expected mask idx token then
      true :: verifyLoop committed n expected mask (idx+1) tokens
    else [false]

end AcceptancePolicy

/-- `SpeculativeVerifier.verify` over any backend. -/
def AcceptancePolicy.verify (policy : AcceptancePolicy) (r : RequestState) (proposal : List Int)
    (kvPages : List Nat) (backend : List Int → List Nat → Except Fault AcceptanceMask) :
    Except Fault AcceptanceMask :=
  if policy.rejectDraftBlocks ∧ 1 < proposal.length then
    .ok ⟨List.replicate proposal.length false⟩
  else
    match backend proposal kvPages with
    | .error e => .error e
    | .ok mask =>
      let result := policy.verifyLoop r.committedTokens.length proposal.length r.remainingTarget
        mask.accepted 0 proposal
      .ok ⟨result ++ List.replicate (proposal.length - result.length) false⟩

namespace AcceptancePolicy
variable {policy : AcceptancePolicy} {committed n : Nat} {expected : List Int} {mask : List Bool}

/-- How many tokens the loop accepts. -/
def acceptLength (policy : AcceptancePolicy) (committed n : Nat) (expected : List Int)
    (mask : List Bool) : Nat → List Int → Nat
  | _, [] => 0
  | idx, token :: tokens =>
    if policy.forcedAt committed n idx then 1
    else if matchesAt expected mask idx token then
      acceptLength policy committed n expected mask (idx+1) tokens + 1
    else 0

theorem acceptLength_le (policy : AcceptancePolicy) (committed n : Nat) (expected : List Int)
    (mask : List Bool) (idx : Nat) (tokens : List Int) :
    policy.acceptLength committed n expected mask idx tokens ≤ tokens.length := by
  induction tokens generalizing idx with
  | nil => exact le_rfl
  | cons token tokens ih =>
    have hi := ih (idx+1)
    simp only [acceptLength, List.length_cons]
    split
    · omega
    · split <;> omega

/-- With its padding the mask is a run of `true` followed by `false` only. -/
theorem verifyLoop_padded (policy : AcceptancePolicy) (committed n : Nat) (expected : List Int)
    (mask : List Bool) (idx : Nat) (tokens : List Int) :
    policy.verifyLoop committed n expected mask idx tokens ++ List.replicate (tokens.length -
        (policy.verifyLoop committed n expected mask idx tokens).length) false =
      List.replicate (policy.acceptLength committed n expected mask idx tokens) true ++
        List.replicate (tokens.length -
          policy.acceptLength committed n expected mask idx tokens) false := by
  induction tokens generalizing idx with
  | nil => rfl
  | cons token tokens ih =>
    have hi := ih (idx+1)
    simp only [verifyLoop, acceptLength]
    cases hf : policy.forcedAt committed n idx with
    | true => simp
    | false =>
      cases hm : matchesAt expected mask idx token with
      | true => simp [List.replicate_succ, hi]
      | false => simp [← List.replicate_succ]

theorem acceptedCount_replicate (k m : Nat) :
    (AcceptanceMask.mk (List.replicate k true ++ List.replicate m false)).acceptedCount = k := by
  unfold AcceptanceMask.acceptedCount
  induction k with
  | zero =>
    cases m with
    | zero => rfl
    | succ m => simp [List.replicate_succ]
  | succ k _ => simp [List.replicate_succ]

/-- Position `i` of `tokens`, which start at position `idx` of the block, is correct. -/
def GoodAt (expected : List Int) (mask : List Bool) (idx : Nat) (tokens : List Int) (i : Nat) :
    Prop := ∃ token, tokens[i]? = some token ∧ matchesAt expected mask (idx + i) token = true

theorem goodAt_zero {idx : Nat} {token : Int} {tokens : List Int} :
    GoodAt expected mask idx (token :: tokens) 0 ↔ matchesAt expected mask idx token = true := by
  simp [GoodAt]

theorem goodAt_succ {idx i : Nat} {token : Int} {tokens : List Int} :
    GoodAt expected mask idx (token :: tokens) (i+1) ↔
      GoodAt expected mask (idx+1) tokens i := by
  have he : idx + (i + 1) = idx + 1 + i := by omega
  simp [GoodAt, he]

/-- The cut-off at `i` is reached through correct positions without an earlier cut-off. -/
def CutReached (policy : AcceptancePolicy) (committed n : Nat) (expected : List Int)
    (mask : List Bool) (idx : Nat) (tokens : List Int) (i : Nat) : Prop :=
  i < tokens.length ∧ policy.forcedAt committed n (idx + i) = true ∧
    ∀ j < i, GoodAt expected mask idx tokens j ∧ policy.forcedAt committed n (idx + j) = false

theorem not_cutReached_zero {idx : Nat} {tokens : List Int}
    (hf : policy.forcedAt committed n idx = false) :
    ¬ CutReached policy committed n expected mask idx tokens 0 := by
  intro h
  have hforced := h.2.1
  rw [Nat.add_zero, hf] at hforced
  cases hforced

/-- A later cut-off is reached past a first token that is correct and not cut off. -/
theorem head_of_cutReached {idx i : Nat} {token : Int} {tokens : List Int}
    (h : CutReached policy committed n expected mask idx (token :: tokens) (i+1)) :
    matchesAt expected mask idx token = true ∧ policy.forcedAt committed n idx = false := by
  obtain ⟨hgood, hf⟩ := h.2.2 0 (Nat.succ_pos i)
  exact ⟨goodAt_zero.mp hgood, hf⟩

theorem cutReached_succ {idx i : Nat} {token : Int} {tokens : List Int}
    (hm : matchesAt expected mask idx token = true)
    (hf : policy.forcedAt committed n idx = false) :
    CutReached policy committed n expected mask idx (token :: tokens) (i+1) ↔
      CutReached policy committed n expected mask (idx+1) tokens i := by
  have hsucc : ∀ i, idx + (i + 1) = idx + 1 + i := fun i => by omega
  rw [CutReached, CutReached, hsucc, List.length_cons]
  refine and_congr Nat.succ_lt_succ_iff (and_congr_right fun _ => ?_)
  constructor
  · intro h j hj
    have hj' := h (j+1) (by omega)
    rwa [goodAt_succ, hsucc j] at hj'
  · intro h j hj
    cases j with
    | zero => exact ⟨goodAt_zero.mpr hm, hf⟩
    | succ j =>
      rw [goodAt_succ, hsucc j]
      exact h j (by omega)

/-- Everything accepted is correct exactly if the cut-off, where it is reached, falls on a
correct token. -/
theorem acceptLength_good_iff (idx : Nat) (tokens : List Int) :
    (∀ i < policy.acceptLength committed n expected mask idx tokens,
      GoodAt expected mask idx tokens i) ↔
    ∀ i, CutReached policy committed n expected mask idx tokens i →
      GoodAt expected mask idx tokens i := by
  induction tokens generalizing idx with
  | nil =>
    constructor
    · intro _ i hi
      exact absurd hi.1 (Nat.not_lt_zero i)
    · intro _ i hi
      exact absurd hi (Nat.not_lt_zero i)
  | cons token tokens ih =>
    have hi := ih (idx+1)
    cases hf : policy.forcedAt committed n idx with
    | true =>
      -- the loop stops here: the only cut-off that is reached is this one
      have hlen : policy.acceptLength committed n expected mask idx (token :: tokens) = 1 := by
        simp [acceptLength, hf]
      rw [hlen]
      constructor
      · intro hall i hcut
        cases i with
        | zero => exact hall 0 Nat.one_pos
        | succ i =>
          rw [(head_of_cutReached hcut).2] at hf
          cases hf
      · intro hall i hlt
        obtain rfl : i = 0 := by omega
        exact hall 0 ⟨Nat.succ_pos _, hf, fun j hj => absurd hj (Nat.not_lt_zero j)⟩
    | false =>
      cases hm : matchesAt expected mask idx token with
      | false =>
        have hlen : policy.acceptLength committed n expected mask idx (token :: tokens) = 0 := by
          simp [acceptLength, hf, hm]
        rw [hlen]
        constructor
        · intro _ i hcut
          cases i with
          | zero => exact absurd hcut (not_cutReached_zero hf)
          | succ i =>
            rw [(head_of_cutReached hcut).1] at hm
            cases hm
        · intro _ i hlt
          exact absurd hlt (Nat.not_lt_zero i)
      | true =>
        have hlen : policy.acceptLength committed n expected mask idx (token :: tokens) =
            policy.acceptLength committed n expected mask (idx+1) tokens + 1 := by
          simp [acceptLength, hf, hm]
        rw [hlen]
        constructor
        · intro hall i hc
          cases i with
          | zero => exact absurd hc (not_cutReached_zero hf)
          | succ i =>
            rw [goodAt_succ]
            refine hi.mp (fun j hj => ?_) i ((cutReached_succ hm hf).mp hc)
            exact goodAt_succ.mp (hall (j+1) (by omega))
        · intro hall i hlt
          cases i with
          | zero => exact goodAt_zero.mpr hm
          | succ i =>
            rw [goodAt_succ]
            refine hi.mpr (fun j hj => ?_) i (by omega)
            exact goodAt_succ.mp (hall (j+1) ((cutReached_succ hm hf).mpr hj))

/-- The accepted positions come first, and each of them holds the token of the target that the
backend, where its mask reaches, accepted too. -/
def SoundMask (expected : List Int) (backendMask : List Bool) (proposal : List Int)
    (mask : AcceptanceMask) : Prop :=
  ∃ k ≤ proposal.length,
    mask.accepted = List.replicate k true ++ List.replicate (proposal.length - k) false ∧
      ∀ i < k, (∃ token, proposal[i]? = some token ∧ expected[i]? = some token) ∧
        ∀ b, backendMask[i]? = some b → b = true

theorem goodAt_iff {tokens : List Int} {i : Nat} :
    GoodAt expected mask 0 tokens i ↔
      (∃ token, tokens[i]? = some token ∧ expected[i]? = some token) ∧
        ∀ b, mask[i]? = some b → b = true := by
  have hmask : mask.getD i true = true ↔ ∀ b, mask[i]? = some b → b = true := by
    rw [List.getD_eq_getElem?_getD]
    cases mask[i]? with
    | none => simp
    | some b => simp
  simp only [GoodAt, matchesAt, Nat.zero_add, Bool.and_eq_true, decide_eq_true_eq, hmask]
  constructor
  · rintro ⟨token, ht, he, hb⟩
    exact ⟨⟨token, ht, he⟩, hb⟩
  · rintro ⟨⟨token, ht, he⟩, hb⟩
    exact ⟨token, ht, he, hb⟩

theorem replicate_true_inj {k k' n : Nat}
    (h : List.replicate k true ++ List.replicate (n - k) false =
      List.replicate k' true ++ List.replicate (n - k') false) : k = k' := by
  have hc := congrArg (fun l => (AcceptanceMask.mk l).acceptedCount) h
  simpa only [acceptedCount_replicate] using hc

/-- The verifier is sound exactly if it rejects the block outright or its simulated cut-off,
where it is reached, falls on a correct token. -/
theorem verify_sound_iff (policy : AcceptancePolicy) (r : RequestState) (proposal : List Int)
    (kvPages : List Nat) (backend : List Int → List Nat → Except Fault AcceptanceMask)
    (backendMask : AcceptanceMask) (hb : backend proposal kvPages = .ok backendMask) :
    (∃ mask, policy.verify r proposal kvPages backend = .ok mask ∧
        SoundMask r.remainingTarget backendMask.accepted proposal mask) ↔
      (policy.rejectDraftBlocks = true ∧ 1 < proposal.length) ∨
        ∀ i, CutReached policy r.committedTokens.length proposal.length r.remainingTarget
            backendMask.accepted 0 proposal i →
          GoodAt r.remainingTarget backendMask.accepted 0 proposal i := by
  rw [← acceptLength_good_iff]
  by_cases hreject : policy.rejectDraftBlocks ∧ 1 < proposal.length
  · have hv : policy.verify r proposal kvPages backend =
        .ok ⟨List.replicate proposal.length false⟩ := by rw [verify, if_pos hreject]
    constructor
    · intro _
      exact Or.inl hreject
    · intro _
      refine ⟨_, hv, 0, Nat.zero_le _, rfl, ?_⟩
      intro i hi
      exact absurd hi (Nat.not_lt_zero i)
  · have hpad := verifyLoop_padded policy r.committedTokens.length proposal.length
      r.remainingTarget backendMask.accepted 0 proposal
    have hle := acceptLength_le policy r.committedTokens.length proposal.length
      r.remainingTarget backendMask.accepted 0 proposal
    generalize hk : policy.acceptLength r.committedTokens.length proposal.length r.remainingTarget
      backendMask.accepted 0 proposal = k at hpad hle ⊢
    have hv : policy.verify r proposal kvPages backend =
        .ok ⟨List.replicate k true ++ List.replicate (proposal.length - k) false⟩ := by
      rw [verify, if_neg hreject, hb, ← hpad]
    constructor
    · rintro ⟨mask, hmask, k', _, haccepted, hgood⟩
      refine Or.inr fun i hi => goodAt_iff.mpr (hgood i ?_)
      rw [hv] at hmask
      obtain rfl := Except.ok.inj hmask
      rwa [replicate_true_inj haccepted.symm]
    · intro h
      refine ⟨_, hv, k, hle, rfl, fun i hi => goodAt_iff.mp ?_⟩
      exact h.resolve_left hreject i hi

/-- With a stride of one a block of two wrong tokens gets its first token accepted, although the
target and the backend both refuse it. -/
theorem verify_unsound_at_stride :
    ¬ ∀ (policy : AcceptancePolicy) (r : RequestState) (proposal : List Int)
      (kvPages : List Nat) (backendMask : AcceptanceMask),
      ∃ mask, policy.verify r proposal kvPages (fun _ _ => .ok backendMask) = .ok mask ∧
        SoundMask r.remainingTarget backendMask.accepted proposal mask := by
  intro h
  obtain ⟨mask, hv, k, _, haccepted, hgood⟩ := h { mismatchStride := 1 }
    { requestId := 1, promptTokens := [5], targetTokens := [10, 11], maxNewTokens := 2
      eosTokenId := 0 } [99, 98] [] ⟨[false, false]⟩
  obtain rfl := Except.ok.inj hv
  cases k with
  | zero => cases haccepted
  | succ k =>
    obtain ⟨⟨token, hp, he⟩, _⟩ := hgood 0 (Nat.succ_pos k)
    obtain rfl := Option.some.inj hp
    cases he

/-- The same stride on a correct block: one token is accepted and it is the target's. -/
theorem verify_sound_at_correct_stride :
    ∃ mask, ({ mismatchStride := 1 } : AcceptancePolicy).verify
        { requestId := 1, promptTokens := [5], targetTokens := [10, 11], maxNewTokens := 2
          eosTokenId := 0 } [10, 11] [] (fun _ _ => .ok ⟨[true, true]⟩) = .ok mask ∧
      SoundMask [10, 11] [true, true] [10, 11] mask := by
  apply (verify_sound_iff { mismatchStride := 1 }
    { requestId := 1, promptTokens := [5], targetTokens := [10, 11], maxNewTokens := 2
      eosTokenId := 0 } [10, 11] [] (fun _ _ => .ok ⟨[true, true]⟩) ⟨[true, true]⟩ rfl).mpr
  refine Or.inr fun i hcut => ?_
  have hi : i < 2 := hcut.1
  match i with
  | 0 => exact ⟨10, rfl, rfl⟩
  | 1 => exact ⟨11, rfl, rfl⟩

end AcceptancePolicy
end ResidentInference

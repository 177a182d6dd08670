import ResidentInference.State

/-! Block drafting: the life of a draft token, the window of the context that a drafter reads, and
the drafter that proposes a block and checks it. The confidences of a draft, which nothing reads,
are left out. -/
namespace ResidentInference

/-- The slice `xs[k:]`; a negative `k` counts from the end. -/
def sliceFrom {α : Type*} (xs : List α) (k : Int) : List α :=
  if 0 ≤ k then xs.drop k.toNat else xs.drop (xs.length + k).toNat

/-- The remainder `a % b` of the source, which takes the sign of `b`. -/
def floorMod (a b : Int) : Except Fault Int :=
  if b = 0 then .error .zeroDivision else .ok (a.fmod b)

/-! ### The life of a token -/

structure TokenState where
  committedTokens : List Int := []
  draftTokens : List Int := []
  acceptedTokens : List Int := []
  rejectedTokens : List Int := []
  currentPosition : Int := 0
  deriving DecidableEq

namespace TokenState

def appendDraft (s : TokenState) (tokens : List Int) : TokenState := { s with draftTokens := tokens }

def commitPrefix (s : TokenState) (n : Int) : TokenState :=
  if n ≤ 0 ∨ s.draftTokens.length < n then s
  else
    let accepted := s.draftTokens.take n.toNat
    { s with
      acceptedTokens := s.acceptedTokens ++ accepted
      committedTokens := s.committedTokens ++ accepted
      currentPosition := s.currentPosition + n }

def discardRejectedTail (s : TokenState) : TokenState :=
  if s.draftTokens.length ≤ s.acceptedTokens.length then s
  else
    { s with
      rejectedTokens := s.rejectedTokens ++ s.draftTokens.drop s.acceptedTokens.length }

def advancePosition (s : TokenState) (n : Int) : TokenState :=
  { s with currentPosition := s.currentPosition + n }

def isComplete (s : TokenState) (maxNewTokens : Int) : Bool :=
  decide (maxNewTokens ≤ s.committedTokens.length)

def resetDraft (s : TokenState) : TokenState :=
  { s with draftTokens := [], acceptedTokens := [], rejectedTokens := [] }

/-- A whole block is committed. -/
theorem commitPrefix_all {s : TokenState} (hne : s.draftTokens ≠ []) :
    s.commitPrefix s.draftTokens.length =
      { s with
        acceptedTokens := s.acceptedTokens ++ s.draftTokens
        committedTokens := s.committedTokens ++ s.draftTokens
        currentPosition := s.currentPosition + s.draftTokens.length } := by
  have hpos : 0 < s.draftTokens.length := List.length_pos_of_ne_nil hne
  have hkeep : ¬ ((s.draftTokens.length : Int) ≤ 0 ∨
      (s.draftTokens.length : Int) < s.draftTokens.length) := by omega
  rw [commitPrefix, if_neg hkeep]
  simp

end TokenState

/-! ### The window -/

structure SlidingWindowState where
  windowSize : Int := 256
  kvOrStatePages : Dict Int (List Int) := Dict.empty
  totalStateReads : Int := 0
  totalStateWrites : Int := 0

namespace SlidingWindowState

def getWindowTokens (s : SlidingWindowState) (committed : List Int) (_position : Int) : List Int :=
  if committed.length ≤ s.windowSize then committed else sliceFrom committed (-s.windowSize)

def readWindowState (s : SlidingWindowState) (requestId position : Int) : SlidingWindowState :=
  let pages := (s.kvOrStatePages.get? requestId).getD []
  { s with
    totalStateReads := s.totalStateReads + 1
    kvOrStatePages := s.kvOrStatePages.set requestId (if pages = [] then [position] else pages) }

def updateWindowState (s : SlidingWindowState) (requestId : Int) (committed : List Int) :
    SlidingWindowState :=
  { s with
    totalStateWrites := s.totalStateWrites + 1
    kvOrStatePages := s.kvOrStatePages.set requestId committed }

end SlidingWindowState

/-! ### The drafter -/

structure BlockDraft where
  requestId : Int
  startPos : Int
  blockSize : Int
  draftTokens : List Int
  deriving DecidableEq

structure BlockVerifyResult where
  requestId : Int
  acceptedPrefixLen : Int
  acceptedTokens : List Int
  rejectedTokens : List Int
  resampleRequired : Bool
  deriving DecidableEq

structure DFlashStyleDrafter where
  blockSize : Int := 8
  windowSize : Int := 256
  vocabSize : Int := 32000
  seed : Int := 17

namespace DFlashStyleDrafter

def deterministicToken (d : DFlashStyleDrafter) (contextHash : Int) (offset : Nat) :
    Except Fault Int :=
  floorMod (d.seed * 31 + contextHash * 7 + offset * 13) d.vocabSize

def slidingWindowContext (d : DFlashStyleDrafter) (committed : List Int) (_position : Int) :
    List Int :=
  committed.drop (max 0 (committed.length - d.windowSize)).toNat

/-- The hash of the context, zero for an empty one. -/
def contextHash (d : DFlashStyleDrafter) (context : List Int) : Except Fault Int :=
  if context = [] then .ok 0 else floorMod context.sum d.vocabSize

def draftBlock (d : DFlashStyleDrafter) (committed : List Int) (position : Int) :
    Except Fault BlockDraft := do
  let contextHash ← d.contextHash (d.slidingWindowContext committed position)
  let draftTokens ← (List.range d.blockSize.toNat).mapM (d.deterministicToken contextHash)
  return { requestId := 0, startPos := position, blockSize := d.blockSize, draftTokens }

/-- The loop of `verify_block` over the tokens from `offset` on: it accepts the first half of the
block whatever it is, and stops at the first wrong token of the second. -/
def verifyLoop (d : DFlashStyleDrafter) (contextHash : Int) (half : Nat) :
    Nat → List Int → List Int → Except Fault (List Int × List Int)
  | _, [], accepted => .ok (accepted, [])
  | offset, token :: tokens, accepted => do
    let expected ← d.deterministicToken contextHash offset
    if offset < half ∨ token = expected then
      d.verifyLoop contextHash half (offset+1) tokens (accepted ++ [token])
    else return (accepted, [token])

def verifyBlock (d : DFlashStyleDrafter) (committed : List Int) (draft : BlockDraft) :
    Except Fault BlockVerifyResult := do
  let contextHash ← d.contextHash (d.slidingWindowContext committed draft.startPos)
  let (accepted, rejected) ←
    d.verifyLoop contextHash (draft.draftTokens.length / 2) 0 draft.draftTokens []
  let rejectedTokens := rejected ++ draft.draftTokens.drop (accepted.length + 1)
  return {
    requestId := draft.requestId
    acceptedPrefixLen := accepted.length
    acceptedTokens := accepted
    rejectedTokens
    resampleRequired := decide (0 < rejectedTokens.length) }

variable {d : DFlashStyleDrafter}

/-- The token that the drafter expects at an offset. -/
def expected (d : DFlashStyleDrafter) (contextHash : Int) (offset : Nat) : Int :=
  (d.seed * 31 + contextHash * 7 + offset * 13).fmod d.vocabSize

/-- The hash of the context that ends with the committed tokens. -/
def hashAt (d : DFlashStyleDrafter) (committed : List Int) (position : Int) : Int :=
  let context := d.slidingWindowContext committed position
  if context = [] then 0 else context.sum.fmod d.vocabSize

/-- The block that follows the committed tokens. -/
def block (d : DFlashStyleDrafter) (committed : List Int) (position : Int) : List Int :=
  (List.range d.blockSize.toNat).map (d.expected (d.hashAt committed position))

@[simp] theorem length_block (d : DFlashStyleDrafter) (committed : List Int) (position : Int) :
    (d.block committed position).length = d.blockSize.toNat := by
  simp [block]

theorem deterministicToken_eq (hv : d.vocabSize ≠ 0) (contextHash : Int) (offset : Nat) :
    d.deterministicToken contextHash offset = .ok (d.expected contextHash offset) := if_neg hv

theorem contextHash_eq (hv : d.vocabSize ≠ 0) (committed : List Int) (position : Int) :
    d.contextHash (d.slidingWindowContext committed position) =
      .ok (d.hashAt committed position) := by
  simp only [contextHash, hashAt]
  split
  · rfl
  · exact if_neg hv

theorem draftBlock_eq (hv : d.vocabSize ≠ 0) (committed : List Int) (position : Int) :
    d.draftBlock committed position =
      .ok ⟨0, position, d.blockSize, d.block committed position⟩ := by
  have htokens (contextHash : Int) : (List.range d.blockSize.toNat).mapM
      (d.deterministicToken contextHash) =
        .ok ((List.range d.blockSize.toNat).map (d.expected contextHash)) := by
    rw [funext (deterministicToken_eq hv contextHash)]
    exact List.mapM_pure
  simp only [draftBlock, contextHash_eq hv, htokens, bind, Except.bind, pure, Except.pure]
  rfl

/-- Tokens that are all as expected are all accepted. -/
theorem verifyLoop_expected (hv : d.vocabSize ≠ 0) (contextHash : Int) (half n offset : Nat)
    (accepted : List Int) :
    d.verifyLoop contextHash half offset ((List.range' offset n).map (d.expected contextHash))
        accepted =
      .ok (accepted ++ (List.range' offset n).map (d.expected contextHash), []) := by
  induction n generalizing offset accepted with
  | zero => simp [verifyLoop]
  | succ n ih =>
    rw [List.range'_succ, List.map_cons, verifyLoop, deterministicToken_eq hv]
    simp only [bind, Except.bind, or_true, if_true]
    rw [ih, List.append_assoc, List.singleton_append]

/-- The drafter accepts the blocks that it drafts. -/
theorem verifyBlock_block (hv : d.vocabSize ≠ 0) (committed : List Int) (position : Int) :
    d.verifyBlock committed ⟨0, position, d.blockSize, d.block committed position⟩ =
      .ok ⟨0, d.blockSize.toNat, d.block committed position, [], false⟩ := by
  have hloop (half : Nat) : d.verifyLoop (d.hashAt committed position) half 0
      (d.block committed position) [] = .ok (d.block committed position, []) := by
    rw [block, List.range_eq_range', verifyLoop_expected hv, List.nil_append]
  have hnone : (d.block committed position).drop (d.blockSize.toNat + 1) = [] :=
    List.drop_eq_nil_of_le (by rw [length_block]; exact Nat.le_succ _)
  simp only [verifyBlock, contextHash_eq hv, hloop, bind, Except.bind, pure, Except.pure,
    length_block, hnone, List.append_nil, List.length_nil, lt_irrefl, decide_false]

/-! ### What verification keeps -/

/-- Where the loop parts the tokens from `offset` on: all before position `k` are accepted, and a
token at position `k` is a wrong one of the second half. -/
structure Parts (d : DFlashStyleDrafter) (contextHash : Int) (half offset : Nat)
    (tokens : List Int) (k : Nat) : Prop where
  le : k ≤ tokens.length
  half : k < tokens.length → half ≤ offset + k
  wrong : ∀ token, tokens[k]? = some token → token ≠ d.expected contextHash (offset + k)

theorem Parts.cons {contextHash : Int} {half offset k : Nat} {tokens : List Int}
    (h : d.Parts contextHash half (offset+1) tokens k) (token : Int) :
    d.Parts contextHash half offset (token :: tokens) (k+1) where
  le := Nat.succ_le_succ h.le
  half := by
    intro hk
    have hhalf := h.half (Nat.lt_of_succ_lt_succ hk)
    omega
  wrong := by
    intro token' ht
    rw [List.getElem?_cons_succ] at ht
    have hwrong := h.wrong token' ht
    rwa [Nat.add_right_comm, Nat.add_assoc] at hwrong

theorem verifyLoop_parts (hv : d.vocabSize ≠ 0) (contextHash : Int) (half offset : Nat)
    (tokens accepted : List Int) :
    ∃ k, d.Parts contextHash half offset tokens k ∧
      d.verifyLoop contextHash half offset tokens accepted =
        .ok (accepted ++ tokens.take k, (tokens.drop k).take 1) := by
  induction tokens generalizing offset accepted with
  | nil => exact ⟨0, ⟨le_rfl, fun h => absurd h (lt_irrefl 0), fun _ h => by cases h⟩, by
      simp [verifyLoop]⟩
  | cons token tokens ih =>
    rw [verifyLoop, deterministicToken_eq hv]
    simp only [bind, Except.bind, pure, Except.pure]
    by_cases hgo : offset < half ∨ token = d.expected contextHash offset
    · obtain ⟨k, hk, heq⟩ := ih (offset+1) (accepted ++ [token])
      refine ⟨k+1, hk.cons token, ?_⟩
      rw [if_pos hgo, heq, List.append_assoc, List.singleton_append]
      rfl
    · rw [not_or] at hgo
      refine ⟨0, ⟨Nat.zero_le _, fun _ => not_lt.mp hgo.1, ?_⟩, ?_⟩
      · rintro token' ⟨⟩
        exact hgo.2
      · rw [if_neg (not_or.mpr hgo)]
        simp

/-- A draft is parted at one position: what is before it is accepted, the rest rejected. -/
theorem verifyBlock_parts (hv : d.vocabSize ≠ 0) (committed : List Int) (draft : BlockDraft) :
    ∃ k, d.Parts (d.hashAt committed draft.startPos) (draft.draftTokens.length / 2) 0
        draft.draftTokens k ∧
      d.verifyBlock committed draft =
        .ok { requestId := draft.requestId
              acceptedPrefixLen := k
              acceptedTokens := draft.draftTokens.take k
              rejectedTokens := draft.draftTokens.drop k
              resampleRequired := decide (0 < (draft.draftTokens.drop k).length) } := by
  obtain ⟨k, hk, hloop⟩ := verifyLoop_parts hv (d.hashAt committed draft.startPos)
    (draft.draftTokens.length / 2) 0 draft.draftTokens []
  have hlen : (draft.draftTokens.take k).length = k := List.length_take_of_le hk.le
  have hrest : (draft.draftTokens.drop k).take 1 ++ draft.draftTokens.drop (k+1) =
      draft.draftTokens.drop k := by
    rw [← List.drop_drop, List.take_append_drop]
  refine ⟨k, hk, ?_⟩
  simp only [verifyBlock, contextHash_eq hv, hloop, bind, Except.bind, pure, Except.pure,
    List.nil_append, hlen, hrest]

/-- Verification splits every draft in two: at least its first half is accepted, and where a token
is rejected, the first one is not the token that the drafter expects there. -/
theorem verifyBlock_conserves (hv : 1 ≤ d.vocabSize) (committed : List Int) (draft : BlockDraft) :
    ∃ result, d.verifyBlock committed draft = .ok result ∧
      result.acceptedTokens ++ result.rejectedTokens = draft.draftTokens ∧
      result.acceptedPrefixLen = result.acceptedTokens.length ∧
      draft.draftTokens.length / 2 ≤ result.acceptedTokens.length ∧
      (result.resampleRequired = true ↔ result.rejectedTokens ≠ []) ∧
      ∀ token contextHash, result.rejectedTokens.head? = some token →
        d.contextHash (d.slidingWindowContext committed draft.startPos) = .ok contextHash →
          d.deterministicToken contextHash result.acceptedTokens.length ≠ .ok token := by
  have hv' : d.vocabSize ≠ 0 := by omega
  obtain ⟨k, hk, hresult⟩ := verifyBlock_parts hv' committed draft
  have hlen : (draft.draftTokens.take k).length = k := List.length_take_of_le hk.le
  refine ⟨_, hresult, List.take_append_drop _ _, ?_, ?_, ?_, ?_⟩
  · rw [hlen]
  · rw [hlen]
    have hhalf := hk.half
    have hle := hk.le
    omega
  · simp only [decide_eq_true_eq, List.length_pos_iff]
  · intro token contextHash hhead hhash
    rw [contextHash_eq hv'] at hhash
    obtain rfl := Except.ok.inj hhash
    rw [List.head?_drop] at hhead
    rw [hlen, deterministicToken_eq hv']
    intro heq
    have hwrong := hk.wrong token hhead
    rw [Nat.zero_add] at hwrong
    exact hwrong (Except.ok.inj heq).symm

/-- Six tokens the last three of which are wrong. -/
theorem verifyBlock_conserves_wrong_tail :
    let d : DFlashStyleDrafter := {}
    let draft : BlockDraft := ⟨0, 0, 6, [527, 540, 553, 0, 0, 0]⟩
    ∃ result, d.verifyBlock [] draft = .ok result ∧
      result.acceptedTokens ++ result.rejectedTokens = draft.draftTokens ∧
      result.acceptedPrefixLen = result.acceptedTokens.length ∧
      draft.draftTokens.length / 2 ≤ result.acceptedTokens.length ∧
      (result.resampleRequired = true ↔ result.rejectedTokens ≠ []) ∧
      ∀ token contextHash, result.rejectedTokens.head? = some token →
        d.contextHash (d.slidingWindowContext [] draft.startPos) = .ok contextHash →
          d.deterministicToken contextHash result.acceptedTokens.length ≠ .ok token :=
  verifyBlock_conserves (by decide) _ _

end DFlashStyleDrafter
end ResidentInference

import ResidentInference.Speculation
import ResidentInference.SchedulerRuns

/-! One prefill and one decode step taken apart: the stages of a step that succeeds, and what it
does to the request. -/
namespace ResidentInference

/-- What decoding reads of a request, with everything else reset. -/
def RequestState.tokens (r : RequestState) : RequestState where
  requestId := r.requestId
  promptTokens := r.promptTokens
  targetTokens := r.targetTokens
  maxNewTokens := r.maxNewTokens
  eosTokenId := r.eosTokenId
  priority := r.priority
  committedTokens := r.committedTokens
  finished := r.finished

/-- What a trace tells about the tokens. -/
structure TokenTrace where
  workerId : WorkerId
  proposedTokens : List Int
  acceptedTokens : List Int
  usedFallbackSerial : Bool
  deriving DecidableEq

def DecodeStepTrace.tokens (t : DecodeStepTrace) : TokenTrace :=
  ⟨t.workerId, t.proposedTokens, t.acceptedTokens, t.usedFallbackSerial⟩

def Speculation.trace (spec : Speculation) (idx : Nat) : TokenTrace :=
  ⟨.decode idx, spec.proposal, spec.accepted, spec.usedFallback⟩

def RequestState.commit (r : RequestState) (accepted : List Int) : RequestState :=
  { r with committedTokens := r.committedTokens ++ accepted }

/-- The request after a step that accepted these tokens. -/
def RequestState.advance (r : RequestState) (spec : Speculation) : RequestState :=
  { r.commit spec.accepted with
    finished := r.finished || (r.commit spec.accepted).finishes spec }

/-! What the tokens of a request fix. -/

theorem RequestState.requestId_eq {r r' : RequestState} (h : r'.tokens = r.tokens) :
    r'.requestId = r.requestId :=
  (congrArg RequestState.requestId h :)

theorem RequestState.finished_eq {r r' : RequestState} (h : r'.tokens = r.tokens) :
    r'.finished = r.finished :=
  (congrArg RequestState.finished h :)

theorem RequestState.promptTokens_eq {r r' : RequestState} (h : r'.tokens = r.tokens) :
    r'.promptTokens = r.promptTokens :=
  (congrArg RequestState.promptTokens h :)

theorem RequestState.targetTokens_eq {r r' : RequestState} (h : r'.tokens = r.tokens) :
    r'.targetTokens = r.targetTokens :=
  (congrArg RequestState.targetTokens h :)

theorem RequestState.currentTokens_eq {r r' : RequestState} (h : r'.tokens = r.tokens) :
    r'.currentTokens = r.currentTokens :=
  (congrArg RequestState.currentTokens h :)

theorem RequestState.committed_eq {r r' : RequestState} (h : r'.tokens = r.tokens) :
    r'.committedTokens = r.committedTokens :=
  (congrArg RequestState.committedTokens h :)

theorem RequestState.remainingTarget_eq {r r' : RequestState} (h : r'.tokens = r.tokens) :
    r'.remainingTarget = r.remainingTarget :=
  (congrArg RequestState.remainingTarget h :)

theorem RequestState.tokenBudgetLeft_eq {r r' : RequestState} (h : r'.tokens = r.tokens) :
    r'.tokenBudgetLeft = r.tokenBudgetLeft :=
  (congrArg RequestState.tokenBudgetLeft h :)

theorem RequestState.commit_tokens {r r' : RequestState} (h : r'.tokens = r.tokens)
    (accepted : List Int) : (r'.commit accepted).tokens = (r.commit accepted).tokens :=
  (congrArg (fun q => (RequestState.commit q accepted).tokens) h :)

theorem RequestState.finishes_eq {r r' : RequestState} (h : r'.tokens = r.tokens)
    (spec : Speculation) : r'.finishes spec = r.finishes spec :=
  (congrArg (fun q => RequestState.finishes q spec) h :)

/-! ### The prefill worker -/

theorem prefillProcess_ok {pin : Bool} {idx : Nat} {c c' : KVCache} {r r' : RequestState}
    (h : prefillProcess pin idx c r = (.ok r', c')) :
    ∃ m c₁, c.allocateForRequest { r with phase := .prefill } r.promptTokens.length pin =
        (.ok m, c₁) ∧ c' = c₁.touchPages m.pageIds ∧
      r' = { r with
        kvSnapshot := some (r.snapshot m)
        phase := .readyDecode
        prefillWorkerId := some (.prefill idx) } := by
  unfold prefillProcess at h
  split at h
  · cases h
  · next m c₁ ha =>
    cases h
    exact ⟨m, c₁, ha, rfl, rfl⟩

theorem prefillProcess_error {pin : Bool} {idx : Nat} {c c' : KVCache} {r : RequestState}
    {e : Fault} (h : prefillProcess pin idx c r = (.error e, c')) :
    c.allocateForRequest { r with phase := .prefill } r.promptTokens.length pin =
      (.error e, c') := by
  unfold prefillProcess at h
  split at h
  · next ha =>
    cases h
    exact ha
  · cases h

/-! ### The stages of a decode step -/

theorem rehydrateIfNeeded_ok {c c' : KVCache} {r r' : RequestState}
    (h : rehydrateIfNeeded c r = (.ok r', c')) :
    (c.hasSnapshot r = true ∧ r' = r ∧ c' = c) ∨
      ∃ m, (c.releaseRequest r.requestId).allocateForRequest r r.currentTokens true =
          (.ok m, c') ∧
        r' = { r with
          kvSnapshot := some (r.snapshot m)
          rehydrationCount := r.rehydrationCount + 1 } := by
  unfold rehydrateIfNeeded at h
  split at h
  · next hs =>
    cases h
    exact Or.inl ⟨hs, rfl, rfl⟩
  · split at h
    · cases h
    · next m c₁ ha =>
      cases h
      exact Or.inr ⟨m, ha, rfl⟩

theorem rehydrateIfNeeded_error {c c' : KVCache} {r : RequestState} {e : Fault}
    (h : rehydrateIfNeeded c r = (.error e, c')) :
    (c.releaseRequest r.requestId).allocateForRequest r r.currentTokens true =
      (.error e, c') := by
  unfold rehydrateIfNeeded at h
  split at h
  · cases h
  · split at h
    · next ha =>
      cases h
      exact ha
    · cases h

theorem rehydrateIfNeeded_tokens {c c' : KVCache} {r r' : RequestState}
    (h : rehydrateIfNeeded c r = (.ok r', c')) :
    r'.tokens = r.tokens ∧ r'.layerIds = r.layerIds ∧
      r'.currentBlockSize = r.currentBlockSize := by
  obtain ⟨_, rfl, _⟩ | ⟨m, _, rfl⟩ := rehydrateIfNeeded_ok h
  · exact ⟨rfl, rfl, rfl⟩
  · exact ⟨rfl, rfl, rfl⟩

theorem commitAccepted_nil (c : KVCache) (r : RequestState) :
    commitAccepted c r [] = (.ok r, c) := if_pos rfl

theorem commitAccepted_ok {c c' : KVCache} {r r' : RequestState} {accepted : List Int}
    (h : commitAccepted c r accepted = (.ok r', c')) :
    (accepted = [] ∧ r' = r ∧ c' = c) ∨
      ∃ c₁ m, (c₁ = c ∨ c₁ = (c.evictLru
            (c.neededPages r (r.currentTokens + accepted.length))).1) ∧
        c₁.commitTokens r accepted.length = (.ok m, c') ∧
        r' = { r.commit accepted with kvSnapshot := some (r.snapshot m) } := by
  unfold commitAccepted at h
  split at h
  · next hnil =>
    cases h
    exact Or.inl ⟨hnil, rfl, rfl⟩
  · split at h
    · cases h
    · next able _ =>
      dsimp only at h
      split at h
      · cases h
      · next m c₂ hc =>
        cases h
        refine Or.inr ⟨_, m, ?_, hc, rfl⟩
        cases able with
        | true => exact Or.inl rfl
        | false => exact Or.inr rfl

theorem commitAccepted_tokens {c c' : KVCache} {r r' : RequestState} {accepted : List Int}
    (h : commitAccepted c r accepted = (.ok r', c')) :
    r'.tokens = (r.commit accepted).tokens ∧ r'.layerIds = r.layerIds ∧
      r'.currentBlockSize = r.currentBlockSize := by
  obtain ⟨rfl, rfl, _⟩ | ⟨_, m, _, _, rfl⟩ := commitAccepted_ok h
  · exact ⟨by simp [RequestState.commit], rfl, rfl⟩
  · exact ⟨rfl, rfl, rfl⟩

namespace PersistentDecodeRuntime
variable {rt : PersistentDecodeRuntime}

theorem prepare_ok {c c' : KVCache} {r r' : RequestState} {reads : KVReads}
    (h : rt.prepare c r = (.ok (r', reads), c')) :
    ∃ c₁, rehydrateIfNeeded c r = (.ok r', c₁) ∧ reads = (rt.selectReads c₁ r').1 ∧
      c' = ((rt.selectReads c₁ r').2.pinPages reads.pageIds).touchPages reads.pageIds := by
  unfold prepare at h
  split at h
  · cases h
  · next c₁ hr =>
    cases h
    exact ⟨c₁, hr, rfl, rfl⟩

theorem prepare_error {c c' : KVCache} {r : RequestState} {e : Fault}
    (h : rt.prepare c r = (.error e, c')) : rehydrateIfNeeded c r = (.error e, c') := by
  unfold prepare at h
  split at h
  · next hr =>
    cases h
    exact hr
  · cases h

/-- The request as the decode worker takes it up. -/
def taken (idx : Nat) (r : RequestState) : RequestState :=
  { r with phase := .decode, decodeWorkerId := some (.decode idx) }

/-- The trace of a decode step. -/
def traceOf (idx : Nat) (blockSize : Int) (spec : Speculation) (reads : KVReads) :
    DecodeStepTrace where
  workerId := .decode idx
  proposedTokens := spec.proposal
  acceptedTokens := spec.accepted
  usedFallbackSerial := spec.usedFallback
  blockSizeUsed := blockSize
  kvBlocksTotal := reads.blocksTotal
  kvBlocksSelected := reads.blocksSelected
  estimatedKvBytesRead := reads.bytesRead
  estimatedKvBytesSaved := reads.bytesSaved
  selectedKvPageIds := reads.pageIds

theorem askBackend_ok {idx : Nat} {c prepared : KVCache} {r ready : RequestState}
    {reads : KVReads} {spec : Speculation} {calls : List (BackendCall × KVCache)}
    (h : rt.askBackend idx c r = (.ok (ready, reads, spec), prepared, calls)) :
    rt.prepare c (taken idx r) = (.ok (ready, reads), prepared) ∧
      (rt.speculate ready (rt.effectiveBlockSize ready) reads.pageIds).1 = .ok spec := by
  unfold askBackend at h
  split at h
  · cases h
  · next ready' reads' prepared' hp =>
    obtain ⟨hspec, hrest⟩ := Prod.mk.inj h
    cases hs : (rt.speculate ready' (rt.effectiveBlockSize ready') reads'.pageIds).1 with
    | error e =>
      rw [hs] at hspec
      cases hspec
    | ok spec' =>
      rw [hs] at hspec
      cases hspec
      cases hrest
      exact ⟨hp, hs⟩

/-- The backend is not asked after a failed rehydration; else it may fail itself. -/
theorem askBackend_error {idx : Nat} {c c' : KVCache} {r : RequestState} {e : Fault}
    {calls : List (BackendCall × KVCache)} (h : rt.askBackend idx c r = (.error e, c', calls)) :
    rt.prepare c (taken idx r) = (.error e, c') ∨
      ∃ ready reads, rt.prepare c (taken idx r) = (.ok (ready, reads), c') ∧
        (rt.speculate ready (rt.effectiveBlockSize ready) reads.pageIds).1 = .error e := by
  unfold askBackend at h
  split at h
  · next hp =>
    cases h
    exact Or.inl hp
  · next ready reads prepared hp =>
    obtain ⟨hspec, hrest⟩ := Prod.mk.inj h
    cases hs : (rt.speculate ready (rt.effectiveBlockSize ready) reads.pageIds).1 with
    | error e' =>
      rw [hs] at hspec
      cases hspec
      cases hrest
      exact Or.inr ⟨ready, reads, hp, hs⟩
    | ok spec =>
      rw [hs] at hspec
      cases hspec

/-- A decode step that succeeds is made of these stages. -/
structure Stages (rt : PersistentDecodeRuntime) (idx : Nat) (c : KVCache) (r r' : RequestState)
    (t : DecodeStepTrace) (c' : KVCache) (ready : RequestState) (reads : KVReads)
    (spec : Speculation) (committed : RequestState) (prepared grown : KVCache) : Prop where
  prepare : rt.prepare c (taken idx r) = (.ok (ready, reads), prepared)
  speculate : (rt.speculate ready (rt.effectiveBlockSize ready) reads.pageIds).1 = .ok spec
  commit : commitAccepted prepared
      (rt.adapt prepared { ready with draftTokens := spec.proposal } spec.adaptiveMask)
      spec.accepted = (.ok committed, grown)
  settle : rt.settle grown committed spec reads = (r', c')
  trace : t = traceOf idx (rt.effectiveBlockSize ready) spec reads

theorem decodeProcess_ok {idx : Nat} {c c' : KVCache} {r r' : RequestState} {t : DecodeStepTrace}
    (h : rt.decodeProcess idx c r = (.ok (r', t), c')) :
    ∃ ready reads spec committed prepared grown,
      rt.Stages idx c r r' t c' ready reads spec committed prepared grown := by
  unfold decodeProcess at h
  split at h
  · cases h
  · next ready reads spec prepared calls hask =>
    obtain ⟨hp, hs⟩ := askBackend_ok hask
    dsimp only at h
    split at h
    · cases h
    · next committed grown hc =>
      cases h
      exact ⟨ready, reads, spec, committed, prepared, grown, hp, hs, hc, rfl, rfl⟩

/-- A decode step fails in the rehydration, in the speculation or in the commit. -/
theorem decodeProcess_error {idx : Nat} {c c' : KVCache} {r : RequestState} {e : Fault}
    (h : rt.decodeProcess idx c r = (.error e, c')) :
    rehydrateIfNeeded c (taken idx r) = (.error e, c') ∨
      ∃ ready reads prepared, rt.prepare c (taken idx r) = (.ok (ready, reads), prepared) ∧
        ((rt.speculate ready (rt.effectiveBlockSize ready) reads.pageIds).1 = .error e ∨
          ∃ spec, (rt.speculate ready (rt.effectiveBlockSize ready) reads.pageIds).1 = .ok spec ∧
            commitAccepted prepared (rt.adapt prepared
              { ready with draftTokens := spec.proposal } spec.adaptiveMask) spec.accepted =
                (.error e, c')) := by
  unfold decodeProcess at h
  split at h
  · next hask =>
    cases h
    exact (askBackend_error hask).imp prepare_error
      fun ⟨ready, reads, hp, hs⟩ => ⟨ready, reads, c', hp, Or.inl hs⟩
  · next ready reads spec prepared calls hask =>
    obtain ⟨hp, hs⟩ := askBackend_ok hask
    refine Or.inr ⟨ready, reads, prepared, hp, Or.inr ⟨spec, hs, ?_⟩⟩
    dsimp only at h
    split at h
    · next hc =>
      cases h
      exact hc
    · cases h

/-! ### The tokens of a decode step -/

/-- Submitting changes the layers and the state of the block size only. -/
theorem submit_keeps {β : Type*} {f : RequestState → β}
    (hlayers : ∀ r layerIds, f { r with layerIds := layerIds } = f r)
    (hsize : ∀ (r : RequestState) size ema history,
      f { r with currentBlockSize := size, emaAcceptanceRate := ema, blockSizeHistory := history } =
        f r)
    (rt : PersistentDecodeRuntime) (r : RequestState) : f (rt.submit r) = f r := by
  have hfilled (layerIds : List Int) :
      f (if r.layerIds = [] then { r with layerIds := layerIds } else r) = f r := by
    split
    · exact hlayers r layerIds
    · rfl
  unfold submit
  cases rt.adaptivePolicy with
  | none => exact hfilled _
  | some policy => exact (hsize _ _ _ _).trans (hfilled _)

theorem submit_tokens (rt : PersistentDecodeRuntime) (r : RequestState) :
    (rt.submit r).tokens = r.tokens :=
  submit_keeps (fun _ _ => rfl) (fun _ _ _ _ => rfl) rt r

theorem speculate_tokens (rt : PersistentDecodeRuntime) {r r' : RequestState}
    (h : r'.tokens = r.tokens) (blockSize : Int) (kvPages kvPages' : List Nat) :
    (rt.speculate r' blockSize kvPages').1 = (rt.speculate r blockSize kvPages).1 := by
  have hrem := RequestState.remainingTarget_eq h
  have hbudget := RequestState.tokenBudgetLeft_eq h
  have hcommitted := RequestState.committed_eq h
  have hpropose : ∀ b, rt.proposer.propose r' b = rt.proposer.propose r b := by
    intro b
    simp only [DraftBlockProposer.propose, hrem, hbudget]
  have hverify : ∀ proposal, rt.policy.verify r' proposal kvPages'
        (CPUStubBackend.speculativeVerify (some r')) =
      rt.policy.verify r proposal kvPages (CPUStubBackend.speculativeVerify (some r)) := by
    intro proposal
    simp only [AcceptancePolicy.verify, CPUStubBackend.speculativeVerify, hrem, hcommitted]
  unfold speculate
  simp only [CPUStubBackend.decodeStep, hpropose, hverify]
  split
  · rfl
  · split
    · split <;> rfl
    · rfl

theorem adapt_tokens (rt : PersistentDecodeRuntime) (c : KVCache) (r : RequestState)
    (mask : AcceptanceMask) :
    (rt.adapt c r mask).tokens = r.tokens ∧ (rt.adapt c r mask).layerIds = r.layerIds := by
  unfold adapt
  split
  · exact ⟨rfl, rfl⟩
  · exact ⟨rfl, rfl⟩

theorem adapt_blockSize {policy : AdaptiveBlockPolicy} (h : rt.adaptivePolicy = some policy)
    (c : KVCache) (r : RequestState) (mask : AcceptanceMask) :
    policy.minBlock ≤ (rt.adapt c r mask).currentBlockSize := by
  unfold adapt
  rw [h]
  exact le_max_right _ _

/-- A step ends by unpinning pages, none if the pins stay, and by changing the request's phase. -/
theorem settle_eq (rt : PersistentDecodeRuntime) (c : KVCache) (r : RequestState)
    (spec : Speculation) (reads : KVReads) :
    ∃ ids phase finished wasPreempted, rt.settle c r spec reads =
      ({ r with phase, finished, wasPreempted }, c.unpinPages ids) := by
  unfold settle
  split
  · exact ⟨_, _, _, _, rfl⟩
  · cases rt.config.pinReadyDecodePages with
    | true => exact ⟨[], _, _, _, rfl⟩
    | false => exact ⟨_, _, _, _, rfl⟩

theorem settle_tokens (rt : PersistentDecodeRuntime) (c : KVCache) (r : RequestState)
    (spec : Speculation) (reads : KVReads) :
    (rt.settle c r spec reads).1.tokens =
        { r.tokens with finished := r.finished || r.finishes spec } ∧
      (rt.settle c r spec reads).1.layerIds = r.layerIds ∧
      (rt.settle c r spec reads).1.currentBlockSize = r.currentBlockSize := by
  unfold settle
  cases hf : r.finishes spec with
  | true => simp [RequestState.tokens]
  | false => simp [RequestState.tokens]

theorem prefill_tokens {pin : Bool} {idx : Nat} {c c' : KVCache} {r r' : RequestState}
    (h : prefillProcess pin idx c r = (.ok r', c')) :
    r'.tokens = r.tokens ∧ r'.layerIds = r.layerIds ∧
      r'.currentBlockSize = r.currentBlockSize := by
  obtain ⟨m, c₁, _, _, rfl⟩ := prefillProcess_ok h
  exact ⟨rfl, rfl, rfl⟩

/-- What a decode step does to the tokens depends on the tokens and the block size only. -/
theorem decode_tokens {idx : Nat} {c c' : KVCache} {r r' : RequestState} {t : DecodeStepTrace}
    (h : rt.decodeProcess idx c r = (.ok (r', t), c')) :
    ∃ spec, (rt.speculate r (rt.effectiveBlockSize r) []).1 = .ok spec ∧
      r'.tokens = (r.advance spec).tokens ∧ t.tokens = spec.trace idx ∧
      r'.layerIds = r.layerIds ∧
      ∀ policy, rt.adaptivePolicy = some policy → policy.minBlock ≤ r'.currentBlockSize := by
  obtain ⟨ready, reads, spec, committed, prepared, grown, hst⟩ := decodeProcess_ok h
  obtain ⟨c₁, hre, _, _⟩ := prepare_ok hst.prepare
  obtain ⟨htok, hlay, hblock⟩ := rehydrateIfNeeded_tokens hre
  have htaken : ready.tokens = r.tokens := htok
  have hsize : rt.effectiveBlockSize ready = rt.effectiveBlockSize r :=
    rt.effectiveBlockSize_congr hblock
  obtain ⟨hctok, hclay, hcblock⟩ := commitAccepted_tokens hst.commit
  obtain ⟨hatok, halay⟩ := rt.adapt_tokens prepared { ready with draftTokens := spec.proposal }
    spec.adaptiveMask
  obtain ⟨hstok, hslay, hsblock⟩ := rt.settle_tokens grown committed spec reads
  rw [hst.settle] at hstok hslay hsblock
  have hcommit : committed.tokens = (r.commit spec.accepted).tokens :=
    hctok.trans (RequestState.commit_tokens (hatok.trans htaken) spec.accepted)
  refine ⟨spec, ?_, ?_, ?_, ?_, ?_⟩
  · rw [← hst.speculate, hsize]
    exact rt.speculate_tokens htaken.symm _ _ _
  · have hfin : committed.finished = r.finished := (RequestState.finished_eq hcommit :)
    dsimp only at hstok
    rw [hstok, hcommit, RequestState.finishes_eq hcommit, hfin]
    rfl
  · rw [hst.trace]
    rfl
  · exact hslay.trans (hclay.trans (halay.trans hlay))
  · intro policy hpolicy
    dsimp only at hsblock
    rw [hsblock, hcblock]
    exact adapt_blockSize hpolicy _ _ _

end PersistentDecodeRuntime
end ResidentInference

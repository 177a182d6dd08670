import ResidentInference.BlockSizing
import ResidentInference.PageCounts

/-! Runs without rejections and without memory pressure, in exact arithmetic: an adaptive block size
that starts where full acceptance keeps it never changes, and every figure of the results has a
closed form. -/
namespace ResidentInference
open StateTransition KVCache

theorem AcceptancePolicy.verify_length {policy : AcceptancePolicy} {r : RequestState}
    {proposal : List Int} {kvPages : List Nat}
    {backend : List Int → List Nat → Except Fault AcceptanceMask} {mask : AcceptanceMask}
    (h : policy.verify r proposal kvPages backend = .ok mask) :
    mask.accepted.length = proposal.length := by
  unfold verify at h
  split at h
  · cases h
    exact List.length_replicate
  · split at h
    · cases h
    · next backendMask _ =>
      cases h
      have hle := acceptLength_le policy r.committedTokens.length proposal.length
        r.remainingTarget backendMask.accepted 0 proposal
      rw [verifyLoop_padded, List.length_append, List.length_replicate, List.length_replicate]
      omega

/-- A mask that accepts every token of a block. -/
theorem AcceptanceMask.observed_full {mask : AcceptanceMask}
    (hcount : mask.acceptedCount = mask.accepted.length) (hpos : 0 < mask.accepted.length) :
    mask.observed = 1 := by
  rw [observed, hcount, max_eq_left (by omega)]
  exact div_self (by exact_mod_cast hpos.ne')

namespace PersistentDecodeRuntime
variable {rt : PersistentDecodeRuntime}

/-- Every draft of target tokens is accepted as a whole. -/
structure AcceptsAll (rt : PersistentDecodeRuntime) : Prop where
  stride : rt.policy.stride = 0
  keep : rt.policy.rejectDraftBlocks = false

/-- The draft of a step: the next tokens of the target, as many as the block holds and the budget
allows. -/
def draft (r : RequestState) (blockSize : Int) : List Int :=
  r.remainingTarget.take (min blockSize.toNat r.draftable)

theorem speculate_whole (hall : rt.AcceptsAll) {r : RequestState} {blockSize : Int}
    (hd : r.draftable ≠ 0) (hb : 1 ≤ blockSize) {kvPages : List Nat} {spec : Speculation}
    (hspec : (rt.speculate r blockSize kvPages).1 = .ok spec) :
    spec.proposal = draft r blockSize ∧ spec.accepted = draft r blockSize ∧
      spec.usedFallback = false ∧ spec.adaptiveMask.observed = 1 := by
  have hp : rt.proposer.propose r (some blockSize) = draft r blockSize := propose_draft _ hd hb
  have hlen : (draft r blockSize).length = min blockSize.toNat r.draftable := length_draft r _
  obtain ⟨bmask, hbm, hgood⟩ := CPUStubBackend.goodAt_of_prefix
    (List.take_prefix (min blockSize.toNat r.draftable) r.remainingTarget) kvPages
  obtain ⟨mask, hv, hcount⟩ := AcceptancePolicy.verify_correct rt.policy r kvPages hbm hgood
    (by simp [hall.keep])
  rw [AcceptancePolicy.width_eq _ hall.keep, if_pos hall.stride] at hcount
  have hvlen := AcceptancePolicy.verify_length hv
  have hv' : rt.policy.verify r (draft r blockSize) kvPages
      (CPUStubBackend.speculativeVerify (some r)) = .ok mask := hv
  have hcount' : mask.acceptedCount = (draft r blockSize).length := hcount
  have hne : draft r blockSize ≠ [] := by
    apply List.ne_nil_of_length_pos
    omega
  simp only [speculate, CPUStubBackend.decodeStep, hp, hv', hcount', List.take_length] at hspec
  rw [if_neg fun hnil => hne hnil.1] at hspec
  obtain rfl := Except.ok.inj hspec
  have hpos : 0 < mask.accepted.length := by
    rw [hvlen]
    exact List.length_pos_of_ne_nil hne
  exact ⟨rfl, rfl, rfl, AcceptanceMask.observed_full (hcount.trans hvlen.symm) hpos⟩

/-! ### Sizes that stay -/

/-- The size that the policy chooses at full acceptance is the configured one, and so is the size
at the average that a submitted request starts with. -/
structure SteadyPolicy (rt : PersistentDecodeRuntime) (policy : AdaptiveBlockPolicy) : Prop where
  maxBlock : policy.maxBlock = rt.config.blockSize
  minBlock : policy.minBlock ≤ rt.config.blockSize
  alpha : policy.alpha ∈ Set.Icc 0 1
  threshold : policy.highAcceptThreshold ≤ 4 / 5

/-- The request is stepped with the configured block size, and its average does not call for
another. -/
structure SteadySize (rt : PersistentDecodeRuntime) (r : RequestState) : Prop where
  size : rt.effectiveBlockSize r = rt.config.blockSize
  rate : rt.adaptivePolicy ≠ none → r.emaAcceptanceRate ∈ Set.Icc (4 / 5) 1

theorem steadySize_submit (hexact : rt.rnd = id) (r : RequestState) :
    rt.SteadySize (rt.submit r) := by
  refine ⟨?_, fun hadaptive => ?_⟩
  · unfold effectiveBlockSize submit
    cases rt.adaptivePolicy with
    | none => rfl
    | some policy => rfl
  · unfold submit
    cases hp : rt.adaptivePolicy with
    | none => exact absurd hp hadaptive
    | some policy =>
      simp only [hexact, id_eq]
      norm_num

theorem SteadyPolicy.sizeAt {policy : AdaptiveBlockPolicy} (h : rt.SteadyPolicy policy)
    {rate : ℚ} (hrate : 4 / 5 ≤ rate) : policy.sizeAt rate false = rt.config.blockSize := by
  have hmin := h.minBlock
  rw [AdaptiveBlockPolicy.sizeAt, MovingAverage.level, if_pos (h.threshold.trans hrate),
    h.maxBlock]
  simp only [Bool.false_eq_true, if_false, MovingAverage.capped, Option.elim_none]
  exact max_eq_left hmin

/-- A step that accepts its whole draft without pressure leaves the size as it is. -/
theorem adapt_steady (hexact : rt.rnd = id)
    (hsteady : ∀ policy, rt.adaptivePolicy = some policy → rt.SteadyPolicy policy)
    {c : KVCache} {r : RequestState} {mask : AcceptanceMask} (hr : rt.SteadySize r)
    (hfull : mask.observed = 1)
    (hcalm : rt.adaptivePolicy ≠ none → c.isUnderPressure rt.rnd = false) :
    rt.SteadySize (rt.adapt c r mask) := by
  cases hp : rt.adaptivePolicy with
  | none =>
    have hsame : rt.adapt c r mask = r := by rw [adapt, hp]
    exact hsame.symm ▸ hr
  | some policy =>
    have hadaptive : rt.adaptivePolicy ≠ none := by simp [hp]
    have hpolicy := hsteady policy hp
    have hmem : MovingAverage.average policy.alpha mask.observed r.emaAcceptanceRate ∈
        Set.Icc (4 / 5) 1 := by
      refine MovingAverage.average_mem hpolicy.alpha ?_ (hr.rate hadaptive)
      rw [hfull]
      norm_num
    have hadapt : rt.adapt c r mask = updateBlockSize id r mask policy false := by
      rw [adapt, hp]
      dsimp only
      rw [hcalm hadaptive, hexact]
    rw [hadapt, AdaptiveBlockPolicy.updateBlockSize_eq]
    refine ⟨?_, fun _ => hmem⟩
    rw [effectiveBlockSize, hp]
    exact hpolicy.sizeAt hmem.1

theorem SteadySize.congr {r r' : RequestState} (h : rt.SteadySize r)
    (hsize : r'.currentBlockSize = r.currentBlockSize)
    (hrate : r'.emaAcceptanceRate = r.emaAcceptanceRate) : rt.SteadySize r' :=
  ⟨(rt.effectiveBlockSize_congr hsize).trans h.size, fun hadaptive => hrate ▸ h.rate hadaptive⟩

/-! ### Room to spare -/

theorem Roomy.size_le {c : KVCache} {r : RequestState} {rest : Multiset RequestState}
    (h : Roomy rt c (r ::ₘ rest)) (hps : 1 ≤ rt.config.pageSize) :
    (c.pages.size : Int) ≤ ((r ::ₘ rest).map rt.demand).sum := by
  have hzero : (0 : Int) ≤ r.promptTokens.length + r.targetTokens.length := by omega
  have hown := h.needed_le hps (Multiset.mem_cons_self r rest) hzero
  have hforeign := h.foreign_le hps
  have hsize := c.size_eq_own_add_foreign r.requestId
  have hneed : 0 ≤ c.neededPages r 0 := List.sum_nonneg fun n hn => by
    obtain ⟨l, -, rfl⟩ := List.mem_map.mp hn
    exact pagesNeededForLayer_nonneg c r 0 l
  rw [Multiset.map_cons, Multiset.sum_cons]
  omega

/-- All the pages that the requests may ever need together leave 15% of the cache free. -/
def SpareRoom (rt : PersistentDecodeRuntime) (requests : List RequestState) : Prop :=
  20 * (requests.map fun r => rt.demand (rt.submit r)).sum ≤ 17 * rt.config.maxPages

instance (rt : PersistentDecodeRuntime) (requests : List RequestState) :
    Decidable (rt.SpareRoom requests) :=
  inferInstanceAs (Decidable (_ ≤ _))

theorem SpareRoom.fitTogether {requests : List RequestState} (h : rt.SpareRoom requests)
    (hps : 1 ≤ rt.config.pageSize) : rt.FitTogether requests := by
  have hnonneg : 0 ≤ (requests.map fun r => rt.demand (rt.submit r)).sum :=
    List.sum_nonneg fun n hn => by
      obtain ⟨r, -, rfl⟩ := List.mem_map.mp hn
      exact demand_nonneg hps _
  unfold SpareRoom at h
  unfold FitTogether
  omega

/-- The cache of a step is never under pressure in a run with room to spare. -/
theorem SpareRoom.calm {requests : List RequestState} (h : rt.SpareRoom requests)
    (hexact : rt.rnd = id) (hv : rt.ValidBlocks) (hps : 1 ≤ rt.config.pageSize)
    (hf : FreshRequests requests) {s : RuntimeState}
    (hs : Reaches rt.workers.step (rt.start requests) s) {r : RequestState}
    (hnext : s.nextDecode = some r) {idx : Nat} {ready : RequestState} {reads : KVReads}
    {prepared : KVCache}
    (hrun : rt.prepare s.cache (taken idx r) = (.ok (ready, reads), prepared)) :
    prepared.isUnderPressure rt.rnd = false := by
  have hn := Workers.not_raised_of_next (Or.inr hnext)
  have hfit := h.fitTogether hps
  have hbag := PoolState.mem_bag_of_waiting (Workers.nextDecode_waiting hnext)
  obtain ⟨rest, hrest⟩ := Multiset.exists_cons_of_mem hbag
  have hroomy := roomy_run hv hps hf hfit hs hn
  have hids := ids_nodup hf hs hn
  have hdemand := (demand_bounded_run hps le_rfl hs).resolve_right hn
  rw [hrest] at hroomy hids hdemand
  rw [Multiset.map_cons, Multiset.nodup_cons] at hids
  have hne : ∀ q ∈ rest, q.requestId ≠ r.requestId := fun q hq heq =>
    hids.1 (Multiset.mem_map.mpr ⟨q, hq, heq⟩)
  have hres := ((tidy_run hf.fresh hs).resolve_right hn).resident r hbag
  have hlive := ((unpressed_run hv hps hf hfit hs).resolve_right hn).snapshots r
    (Workers.nextDecode_prefilled hnext)
  obtain ⟨-, -, hprepared⟩ := prepare_roomy hroomy hne hres hps hlive hrun
  have hsize := hprepared.size_le hps
  have hspare : 20 * (prepared.pages.size : Int) ≤ 17 * rt.config.maxPages := by
    unfold SpareRoom at h
    omega
  rw [isUnderPressure, hexact, hprepared.maxPages, decide_eq_false_iff_not, not_lt]
  simp only [id_eq]
  rw [← mul_div_assoc, le_div_iff₀ (by norm_num)]
  exact_mod_cast (by omega : (prepared.pages.size : Int) * 20 ≤ rt.config.maxPages * 17)

/-! ### One step -/

theorem decode_steady (hexact : rt.rnd = id) (hall : rt.AcceptsAll)
    (hsteady : ∀ policy, rt.adaptivePolicy = some policy → rt.SteadyPolicy policy)
    (hv : rt.ValidBlocks) {idx : Nat} {c c' : KVCache} {r r' : RequestState}
    {t : DecodeStepTrace} (hr : rt.SteadySize r) (hd : r.draftable ≠ 0)
    (hcalm : rt.adaptivePolicy ≠ none → ∀ ready reads prepared,
      rt.prepare c (taken idx r) = (.ok (ready, reads), prepared) →
        prepared.isUnderPressure rt.rnd = false)
    (hrun : rt.decodeProcess idx c r = (.ok (r', t), c')) :
    t.proposedTokens = draft r rt.config.blockSize ∧
      t.acceptedTokens = draft r rt.config.blockSize ∧ t.usedFallbackSerial = false ∧
      t.blockSizeUsed = rt.config.blockSize ∧ rt.SteadySize r' := by
  obtain ⟨ready, reads, spec, committed, prepared, grown, hst⟩ := decodeProcess_ok hrun
  obtain ⟨c₁, hre, -, -⟩ := prepare_ok hst.prepare
  obtain ⟨htok, -, hsize⟩ := rehydrateIfNeeded_tokens hre
  have hrate := (rehydrateIfNeeded_sizing hre).2
  have hready : rt.SteadySize ready := hr.congr hsize hrate
  have hdraft : draft ready rt.config.blockSize = draft r rt.config.blockSize := by
    unfold draft RequestState.draftable
    rw [RequestState.remainingTarget_eq (r := r) htok,
      RequestState.tokenBudgetLeft_eq (r := r) htok]
  have hopen : ready.draftable ≠ 0 := by
    unfold RequestState.draftable at hd ⊢
    rwa [RequestState.remainingTarget_eq (r := r) htok,
      RequestState.tokenBudgetLeft_eq (r := r) htok]
  have hspec := hst.speculate
  rw [hready.size] at hspec
  obtain ⟨hproposal, haccepted, hfallback, hfull⟩ := speculate_whole hall hopen hv.blockSize hspec
  have hdrafted : rt.SteadySize { ready with draftTokens := spec.proposal } :=
    hready.congr rfl rfl
  have hadapted := adapt_steady hexact hsteady hdrafted hfull
    fun hadaptive => hcalm hadaptive ready reads prepared hst.prepare
  have hcommitted : rt.SteadySize committed :=
    hadapted.congr (commitAccepted_tokens hst.commit).2.2 (commitAccepted_sizing hst.commit).2
  obtain ⟨ids, phase, finished, preempted, hsettle⟩ := rt.settle_eq grown committed spec reads
  have hend := hst.settle
  rw [hsettle] at hend
  cases hend
  rw [hst.trace]
  exact ⟨hproposal.trans hdraft, haccepted.trans hdraft, hfallback, hready.size,
    hcommitted.congr rfl rfl⟩

/-! ### All the steps of a request -/

/-- The request asks for its whole target, which holds the EOS token at its end at most. -/
structure Plain (r : RequestState) : Prop where
  target : r.targetTokens ≠ []
  limit : (r.targetTokens.length : Int) ≤ r.maxNewTokens
  eos : r.eosTokenId ∉ r.targetTokens.dropLast

instance (r : RequestState) : Decidable (Plain r) :=
  decidable_of_iff (r.targetTokens ≠ [] ∧ (r.targetTokens.length : Int) ≤ r.maxNewTokens ∧
      r.eosTokenId ∉ r.targetTokens.dropLast)
    ⟨fun h => ⟨h.1, h.2.1, h.2.2⟩, fun h => ⟨h.target, h.limit, h.eos⟩⟩

/-- The block of the target that step `k` drafts. -/
def blockAt (rt : PersistentDecodeRuntime) (target : List Int) (k : Nat) : List Int :=
  (target.drop (k * rt.config.blockSize.toNat)).take rt.config.blockSize.toNat

/-- Step `k` drafts its block of the target and commits it. -/
structure StepOf (rt : PersistentDecodeRuntime) (target : List Int) (k : Nat)
    (t : DecodeStepTrace) : Prop where
  proposed : t.proposedTokens = rt.blockAt target k
  accepted : t.acceptedTokens = rt.blockAt target k
  serial : t.usedFallbackSerial = false
  size : t.blockSizeUsed = rt.config.blockSize

/-- A request that is stepped through its target block by block. -/
structure Stepped (rt : PersistentDecodeRuntime) (requests : List RequestState)
    (r : RequestState) (traces : List DecodeStepTrace) : Prop where
  origin : ∃ r₀ ∈ requests, Decodes r₀ r
  plain : Plain r
  size : rt.SteadySize r
  committed : r.committedTokens = r.targetTokens.take (traces.length * rt.config.blockSize.toNat)
  unfinished : r.finished = false →
    traces.length * rt.config.blockSize.toNat < r.targetTokens.length
  finished : r.finished = true → r.committedTokens = r.targetTokens ∧
    traces.length = r.targetTokens.length ⌈/⌉ rt.config.blockSize.toNat
  steps : ∀ k t, traces[k]? = some t → rt.StepOf r.targetTokens k t

theorem Stepped.draftable {requests : List RequestState} {r : RequestState}
    {traces : List DecodeStepTrace} (h : rt.Stepped requests r traces)
    (hopen : r.finished = false) :
    r.committedTokens.length = traces.length * rt.config.blockSize.toNat ∧
      r.draftable = r.targetTokens.length - traces.length * rt.config.blockSize.toNat := by
  have hless := h.unfinished hopen
  have hlimit := h.plain.limit
  have hlen : r.committedTokens.length = traces.length * rt.config.blockSize.toNat := by
    rw [h.committed, List.length_take]
    omega
  refine ⟨hlen, ?_⟩
  simp only [RequestState.draftable, RequestState.remainingTarget, RequestState.tokenBudgetLeft,
    List.length_drop, hlen]
  omega

theorem Stepped.draft_eq {requests : List RequestState} {r : RequestState}
    {traces : List DecodeStepTrace} (h : rt.Stepped requests r traces)
    (hopen : r.finished = false) :
    draft r rt.config.blockSize = rt.blockAt r.targetTokens traces.length := by
  obtain ⟨hlen, hdraft⟩ := h.draftable hopen
  rw [draft, blockAt, RequestState.remainingTarget, hlen, hdraft, List.take_eq_take_iff,
    List.length_drop]
  omega

/-- A step that leaves tokens of the target does not finish its request. -/
theorem Plain.not_finishes {r : RequestState} (h : Plain r) {spec : Speculation} {n : Nat}
    (hcommitted : (r.commit spec.accepted).committedTokens = r.targetTokens.take n)
    (hne : spec.accepted ≠ []) (hn : n < r.targetTokens.length) :
    (r.commit spec.accepted).finishes spec = false := by
  have hlen : (r.commit spec.accepted).committedTokens.length = n := by
    rw [hcommitted, List.length_take]
    omega
  rw [Bool.eq_false_iff]
  intro hfinishes
  have hlimit := h.limit
  rcases finishes_iff.mp hfinishes with hbudget | heos | hall | ⟨hnil, -⟩
  · change max (r.maxNewTokens - ((r.commit spec.accepted).committedTokens.length : Int)) 0 = 0
      at hbudget
    omega
  · -- the last token of the step lies before the last token of the target
    have hmem : r.eosTokenId ∈ (r.commit spec.accepted).committedTokens :=
      List.mem_append_right _ (List.mem_of_getLast? heos)
    rw [hcommitted] at hmem
    have hsub : r.targetTokens.take n <+: r.targetTokens.dropLast := by
      rw [List.dropLast_eq_take]
      exact List.take_prefix_take_left (by omega)
    exact h.eos (hsub.subset hmem)
  · change r.targetTokens.length ≤ _ at hall
    omega
  · exact hne hnil

/-- With the block of the next step a request has as many tokens as steps times the block size. -/
theorem Stepped.grown {requests : List RequestState} {r : RequestState}
    {traces : List DecodeStepTrace} (h : rt.Stepped requests r traces) {accepted : List Int}
    (haccepted : accepted = rt.blockAt r.targetTokens traces.length) :
    (r.commit accepted).committedTokens =
      r.targetTokens.take ((traces.length + 1) * rt.config.blockSize.toNat) := by
  change r.committedTokens ++ accepted = _
  rw [haccepted, blockAt, h.committed, ← List.take_add, Nat.succ_mul]

/-- A step finishes its request with the last token of the target only. -/
theorem Stepped.covers (hv : rt.ValidBlocks) {requests : List RequestState} {r : RequestState}
    {traces : List DecodeStepTrace} (h : rt.Stepped requests r traces)
    (hopen : r.finished = false) {spec : Speculation}
    (haccepted : spec.accepted = rt.blockAt r.targetTokens traces.length)
    (hdone : (r.commit spec.accepted).finishes spec = true) :
    r.targetTokens.length ≤ (traces.length + 1) * rt.config.blockSize.toNat := by
  have hb := hv.blockSize
  have hless := h.unfinished hopen
  by_contra hleft
  have hne : spec.accepted ≠ [] := by
    rw [haccepted, blockAt]
    apply List.ne_nil_of_length_pos
    rw [List.length_take, List.length_drop]
    omega
  have hnot := h.plain.not_finishes (h.grown haccepted) hne (not_le.mp hleft)
  exact Bool.false_ne_true (hnot.symm.trans hdone)

theorem StepOf.concat {target : List Int} {traces : List DecodeStepTrace} {t : DecodeStepTrace}
    (h : ∀ k u, traces[k]? = some u → rt.StepOf target k u)
    (ht : rt.StepOf target traces.length t) :
    ∀ k u, (traces ++ [t])[k]? = some u → rt.StepOf target k u := by
  intro k u hk
  rw [List.getElem?_append] at hk
  split at hk
  · exact h k u hk
  · rw [List.getElem?_singleton] at hk
    split at hk
    · obtain rfl := Option.some.inj hk
      obtain rfl : k = traces.length := by omega
      exact ht
    · cases hk

theorem Stepped.decode (hv : rt.ValidBlocks) {requests : List RequestState}
    {r r' : RequestState} {t : DecodeStepTrace} {traces : List DecodeStepTrace}
    (h : rt.Stepped requests r traces) (hopen : r.finished = false) {idx : Nat} {c c' : KVCache}
    (hrun : rt.decodeProcess idx c r = (.ok (r', t), c'))
    (hproposed : t.proposedTokens = draft r rt.config.blockSize)
    (haccepted : t.acceptedTokens = draft r rt.config.blockSize)
    (hserial : t.usedFallbackSerial = false) (hsize : t.blockSizeUsed = rt.config.blockSize)
    (hsteady : rt.SteadySize r') : rt.Stepped requests r' (traces ++ [t]) := by
  have hb := hv.blockSize
  have hless := h.unfinished hopen
  obtain ⟨hlen, hdraft⟩ := h.draftable hopen
  obtain ⟨spec, hst⟩ := decode_block hv (by rw [h.size.size]; exact hb) hrun
  have hadvanced := decode_advanced hv (by rw [h.size.size]; exact hb) hrun
  have htarget : r'.targetTokens = r.targetTokens := (RequestState.targetTokens_eq hst.tokens :)
  have hspec : spec.accepted = rt.blockAt r.targetTokens traces.length := by
    rw [hst.accepted, ← hadvanced.accepted, haccepted, h.draft_eq hopen]
  have hcommitted : r'.committedTokens = _ :=
    (RequestState.committed_eq hst.tokens).trans (h.grown hspec)
  have hfinished : r'.finished = (r.finished || (r.commit spec.accepted).finishes spec) :=
    RequestState.finished_eq hst.tokens
  obtain ⟨r₀, hr₀, horigin⟩ := h.origin
  refine ⟨⟨r₀, hr₀, (horigin.advance spec).of_tokens hst.tokens⟩, ?_, hsteady, ?_, fun hf => ?_,
    fun hdone => ?_, ?_⟩
  · have hmax : r'.maxNewTokens = r.maxNewTokens :=
      (congrArg RequestState.maxNewTokens hst.tokens :)
    have heos : r'.eosTokenId = r.eosTokenId := (congrArg RequestState.eosTokenId hst.tokens :)
    exact ⟨htarget ▸ h.plain.target, htarget ▸ hmax ▸ h.plain.limit,
      htarget ▸ heos ▸ h.plain.eos⟩
  · rw [hcommitted, htarget, List.length_append, List.length_singleton]
  · have hleft := hadvanced.goesOn hf
    rw [hadvanced.draftable, hdraft, ← hadvanced.accepted, haccepted, h.draft_eq hopen, blockAt,
      List.length_take, List.length_drop] at hleft
    rw [htarget, List.length_append, List.length_singleton, Nat.succ_mul]
    omega
  · rw [hfinished, hopen, Bool.false_or] at hdone
    have hall := h.covers hv hopen hspec hdone
    rw [hcommitted, htarget, List.take_of_length_le hall, List.length_append,
      List.length_singleton]
    refine ⟨rfl, le_antisymm (Nat.succ_le_of_lt (lt_of_not_ge fun hle => ?_)) ?_⟩
    · have hcover := (ceilDiv_le_iff_le_mul (by omega)).mp hle
      rw [Nat.mul_comm] at hcover
      omega
    · refine (ceilDiv_le_iff_le_mul (by omega)).mpr ?_
      rwa [Nat.mul_comm]
  · rw [htarget]
    exact StepOf.concat h.steps ⟨hproposed.trans (h.draft_eq hopen),
      haccepted.trans (h.draft_eq hopen), hserial, hsize⟩

/-! ### Whole runs -/

variable {requests : List RequestState}

theorem stepped_run (hexact : rt.rnd = id) (hall : rt.AcceptsAll)
    (hsteady : ∀ policy, rt.adaptivePolicy = some policy → rt.SteadyPolicy policy)
    (hv : rt.ValidBlocks) (hps : 1 ≤ rt.config.pageSize) (hf : FreshRequests requests)
    (hplain : ∀ r ∈ requests, Plain r)
    (hspare : rt.adaptivePolicy ≠ none → rt.SpareRoom requests) {s : RuntimeState}
    (hs : Reaches rt.workers.step (rt.start requests) s) :
    rt.workers.Histories (rt.Stepped requests) s := by
  refine histories_run hf (fun r hr => ?_) ?_ ?_ hs
  · have htok := rt.submit_tokens r
    have hzero := submit_committed rt (hf.fresh r hr)
    have htarget : (rt.submit r).targetTokens = r.targetTokens := RequestState.targetTokens_eq htok
    have hmax : (rt.submit r).maxNewTokens = r.maxNewTokens :=
      (congrArg RequestState.maxNewTokens htok :)
    have heos : (rt.submit r).eosTokenId = r.eosTokenId :=
      (congrArg RequestState.eosTokenId htok :)
    have hopen : (rt.submit r).finished = false :=
      (RequestState.finished_eq htok).trans (hf.fresh r hr).unfinished
    have hr' := hplain r hr
    refine ⟨⟨r, hr, Decodes.of_tokens ⟨rfl, rfl, rfl, rfl, rfl⟩ htok⟩,
      ⟨htarget ▸ hr'.target, htarget ▸ hmax ▸ hr'.limit, htarget ▸ heos ▸ hr'.eos⟩,
      rt.steadySize_submit hexact r, ?_, fun _ => ?_, fun hdone => ?_, fun k t hk => ?_⟩
    · rw [hzero, List.length_nil, Nat.zero_mul, List.take_zero]
    · rw [List.length_nil, Nat.zero_mul, htarget]
      exact List.length_pos_of_ne_nil hr'.target
    · rw [hopen] at hdone
      cases hdone
    · cases hk
  · intro u i r r' c' traces _ _ hP hrun
    obtain ⟨m, c₁, -, -, rfl⟩ := prefillProcess_ok hrun
    obtain ⟨r₀, hr₀, horigin⟩ := hP.origin
    exact ⟨⟨r₀, hr₀, horigin.of_tokens rfl⟩, ⟨hP.plain.target, hP.plain.limit, hP.plain.eos⟩,
      hP.size.congr rfl rfl, hP.committed, hP.unfinished, hP.finished, hP.steps⟩
  · intro u i r r' t c' traces hu hnext hopen hP hrun
    have hd : r.draftable ≠ 0 := by
      have hless := hP.unfinished hopen
      rw [(hP.draftable hopen).2]
      omega
    obtain ⟨hproposed, haccepted, hserial, hsize, hnew⟩ :=
      decode_steady hexact hall hsteady hv hP.size hd
        (fun hadaptive ready reads prepared hprepare =>
          (hspare hadaptive).calm hexact hv hps hf hu hnext hprepare) hrun
    exact hP.decode hv hopen hrun hproposed haccepted hserial hsize hnew

/-- The tokens that full blocks commit. -/
theorem committedBy_blocks {target : List Int} {traces : List DecodeStepTrace}
    (hsteps : ∀ k t, traces[k]? = some t → rt.StepOf target k t) {k : Nat}
    (hk : k ≤ traces.length) (hless : k * rt.config.blockSize.toNat ≤ target.length) :
    committedBy (traces.take k) = k * rt.config.blockSize.toNat := by
  induction k with
  | zero => simp [committedBy]
  | succ k ih =>
    rw [Nat.succ_mul] at hless
    have hget : traces[k]? = some traces[k] := List.getElem?_eq_getElem hk
    have hstep := hsteps k _ hget
    rw [List.take_add_one, hget, Option.toList_some, committedBy, List.map_append,
      List.sum_append, ← committedBy, ih (by omega) (by omega), List.map_singleton,
      List.sum_singleton, hstep.accepted, blockAt, List.length_take, List.length_drop,
      Nat.succ_mul]
    omega

/-- A run without rejections and without memory pressure in closed form: every result is that of a
submitted request, with its whole target committed in blocks of the configured size, one after the
other, each drafted and accepted as a whole, each step reading the pages of the tokens before it. An
adaptive policy that starts where full acceptance keeps it changes nothing of this. -/
theorem steady_results (hexact : rt.rnd = id) (hall : rt.AcceptsAll)
    (hsteady : ∀ policy, rt.adaptivePolicy = some policy → rt.SteadyPolicy policy)
    (hv : rt.ValidBlocks) (hps : 1 ≤ rt.config.pageSize)
    (hdense : rt.config.enableSparseKv = false) (hf : FreshRequests requests)
    (hplain : ∀ r ∈ requests, Plain r)
    (hspare : rt.adaptivePolicy ≠ none → rt.SpareRoom requests) {s : RuntimeState}
    (hs : Reaches rt.workers.step (rt.start requests) s) {b : DecodeResult}
    (hb : b ∈ s.finalResults) :
    ∃ r₀ ∈ requests, b.requestId = r₀.requestId ∧ b.promptTokens = r₀.promptTokens ∧
      b.committedTokens = r₀.targetTokens ∧
      b.traces.length = r₀.targetTokens.length ⌈/⌉ rt.config.blockSize.toNat ∧
      ∀ k t, b.traces[k]? = some t → rt.StepOf r₀.targetTokens k t ∧
        ReadsAll rt.bytesPerPage ((rt.submit r₀).pagesFor rt.config.pageSize
          (r₀.promptTokens.length + k * rt.config.blockSize.toNat)) t := by
  obtain ⟨r₁, hr₁, hid₁, hreads⟩ := dense_reads_follow_tokens hv hps hdense hf hs hb
  obtain ⟨r, traces, hdone, hP, rfl⟩ :=
    (stepped_run hexact hall hsteady hv hps hf hplain hspare hs).results b hb
  obtain ⟨r₀, hr₀, horigin⟩ := hP.origin
  obtain ⟨hcommitted, hlen⟩ := hP.finished hdone
  have hsame : r₁ = r₀ := by
    have heq : r₁.requestId = r₀.requestId := hid₁.symm.trans horigin.requestId
    exact List.inj_on_of_nodup_map hf.distinct hr₁ hr₀ heq
  subst hsame
  have htarget := horigin.targetTokens
  rw [htarget] at hcommitted hlen
  refine ⟨r₁, hr₁, horigin.requestId, horigin.promptTokens, hcommitted, hlen, fun k t hk => ?_⟩
  refine ⟨htarget ▸ hP.steps k t hk, ?_⟩
  have hk' : traces[k]? = some t := hk
  obtain ⟨hlt, hget⟩ := List.getElem?_eq_some_iff.mp hk'
  have hless : k * rt.config.blockSize.toNat ≤ r.targetTokens.length := by
    have hb := hv.blockSize
    have hlt' : ¬ r₁.targetTokens.length ⌈/⌉ rt.config.blockSize.toNat ≤ k := by
      rw [← hlen]
      exact not_le.mpr hlt
    rw [ceilDiv_le_iff_le_mul (by omega), Nat.mul_comm] at hlt'
    rw [htarget]
    omega
  have hsplit : traces = traces.take k ++ t :: traces.drop (k+1) := by
    rw [← hget, ← List.drop_eq_getElem_cons hlt]
    exact (List.take_append_drop k traces).symm
  have hread := hreads _ _ _ hsplit
  rw [committedBy_blocks hP.steps hlt.le hless] at hread
  have hprompt : (rt.workers.buildResult r traces).promptTokens = r₁.promptTokens :=
    horigin.promptTokens
  rw [hprompt] at hread
  exact_mod_cast hread

/-- Five tokens in blocks of two with an adaptive size: the third step commits the last of them and
reads the three pages of the prompt and the first four. -/
theorem last_block_of_five :
    let rt : PersistentDecodeRuntime :=
      { config := { blockSize := 2, pageSize := 2 }, adaptivePolicy := some { maxBlock := 2 } }
    ∃ s, Reaches rt.workers.step (rt.start [.ask 1 [5] [6, 7, 8, 9, 10]]) s ∧
      ∃ b ∈ s.finalResults, b.traces.length = 3 ∧ ∃ t ∈ b.traces[2]?,
        t.acceptedTokens = [10] ∧ t.blockSizeUsed = 2 ∧ ReadsAll rt.bytesPerPage 3 t := by
  intro rt
  have hpolicy : ∀ policy, rt.adaptivePolicy = some policy → rt.SteadyPolicy policy := by
    rintro _ ⟨⟩
    exact ⟨rfl, by decide, ⟨by norm_num, by norm_num⟩, le_rfl⟩
  have hsome : (Runs.runFor rt.workers.step 40
      (rt.start [.ask 1 [5] [6, 7, 8, 9, 10]])).finalResults ≠ [] := by decide +kernel
  obtain ⟨b, hb⟩ := List.exists_mem_of_ne_nil _ hsome
  have hs := Runs.reaches_runFor rt.workers.step 40 (rt.start [.ask 1 [5] [6, 7, 8, 9, 10]])
  obtain ⟨r₀, hr₀, -, -, -, hlen, hsteps⟩ := steady_results rfl ⟨rfl, rfl⟩ hpolicy (by decide)
    (by decide) rfl (by decide) (by decide) (fun _ => by decide) hs hb
  obtain rfl := List.mem_singleton.mp hr₀
  have hthree : b.traces.length = 3 := by
    rw [hlen, Nat.ceilDiv_eq_add_pred_div]
    decide
  have htwo : 2 < b.traces.length := by
    rw [hthree]
    decide
  have hget : b.traces[2]? = some b.traces[2] := List.getElem?_eq_getElem htwo
  obtain ⟨hstep, hread⟩ := hsteps 2 _ hget
  exact ⟨_, hs, b, hb, hthree, _, hget, hstep.accepted, hstep.size, hread⟩

end PersistentDecodeRuntime
end ResidentInference

import ResidentInference.OutputEquivalence

/-! What a request has committed at any moment of a run: a prefix of its target, whatever the
block sizes and the policies are, and within its limit unless the limit is zero and the target
begins with the EOS of the configuration. -/
namespace ResidentInference
open StateTransition

/-! ### The speculation of a step with any block size -/

/-- A slice of a list from its start is a prefix of it, also when the length counts from the
end. -/
theorem prefix_sliceTo {α : Type*} (xs : List α) (k : Int) : sliceTo xs k <+: xs := by
  unfold sliceTo
  split
  · exact List.take_prefix _ _
  · exact List.take_prefix _ _

theorem DraftBlockProposer.propose_cases (p : DraftBlockProposer) (r : RequestState)
    (blockSize : Option Int) :
    p.propose r blockSize <+: r.remainingTarget ∨ p.propose r blockSize = [p.eosTokenId] := by
  unfold DraftBlockProposer.propose
  split
  · exact Or.inr rfl
  · exact Or.inl (prefix_sliceTo _ _)

namespace AcceptancePolicy
variable {policy : AcceptancePolicy}

theorem matchesAt_head {expected : List Int} {mask : List Bool} {token : Int}
    (h : matchesAt expected mask 0 token = true) : [token] <+: expected := by
  rw [matchesAt, Bool.and_eq_true, decide_eq_true_eq] at h
  cases expected with
  | nil => cases h.1
  | cons t ts =>
    obtain rfl : t = token := Option.some.inj h.1
    exact ⟨ts, rfl⟩

/-- The simulated cut-off never falls on the last token of a block, so a single token is accepted
only where the target goes on with it. -/
theorem acceptLength_single (policy : AcceptancePolicy) (committed : Nat) (expected : List Int)
    (mask : List Bool) (token : Int) :
    [token].take (policy.acceptLength committed 1 expected mask 0 [token]) <+: expected := by
  have hf : policy.forcedAt committed 1 0 = false := by simp [forcedAt]
  simp only [acceptLength, hf, Bool.false_eq_true, if_false]
  by_cases hm : matchesAt expected mask 0 token = true
  · simp only [hm, if_true]
    exact matchesAt_head hm
  · simp only [hm, Bool.false_eq_true, if_false, List.take_zero]
    exact List.nil_prefix

/-- What the verifier accepts of a draft of the target, or of a single token, is a piece of the
target: a token that is accepted unseen is one of the draft. -/
theorem verify_prefix {r : RequestState} {proposal : List Int} {kvPages : List Nat}
    {backend : List Int → List Nat → Except Fault AcceptanceMask} {mask : AcceptanceMask}
    (hv : policy.verify r proposal kvPages backend = .ok mask)
    (hp : proposal <+: r.remainingTarget ∨ ∃ token, proposal = [token]) :
    proposal.take mask.acceptedCount <+: r.remainingTarget := by
  obtain hdraft | ⟨token, rfl⟩ := hp
  · exact (List.take_prefix _ _).trans hdraft
  · unfold verify at hv
    rw [if_neg (by simp)] at hv
    cases hb : backend [token] kvPages with
    | error e =>
      rw [hb] at hv
      cases hv
    | ok backendMask =>
      rw [hb] at hv
      dsimp only at hv
      obtain rfl := Except.ok.inj hv
      rw [verifyLoop_padded, acceptedCount_replicate]
      exact acceptLength_single policy _ _ _ token

end AcceptancePolicy

namespace PersistentDecodeRuntime
variable {rt : PersistentDecodeRuntime}

theorem propose_draft_or_single (rt : PersistentDecodeRuntime) (r : RequestState)
    (blockSize : Option Int) :
    rt.proposer.propose r blockSize <+: r.remainingTarget ∨
      ∃ token, rt.proposer.propose r blockSize = [token] :=
  (rt.proposer.propose_cases r blockSize).imp id fun h => ⟨_, h⟩

/-- Whatever the block size is, a step accepts a piece of the target. -/
theorem prefix_speculate {r : RequestState} {blockSize : Int} {kvPages : List Nat}
    {spec : Speculation} (h : (rt.speculate r blockSize kvPages).1 = .ok spec) :
    spec.accepted <+: r.remainingTarget := by
  have hblock := rt.propose_draft_or_single r (some blockSize)
  have hserial := rt.propose_draft_or_single r (some 1)
  unfold speculate at h
  dsimp only at h
  split at h
  · cases h
  · next mask hv =>
    split at h
    · -- the serial fallback: its own proposal and its own mask
      split at h
      · cases h
      · next serialMask hsv =>
        obtain rfl := Except.ok.inj h
        exact AcceptancePolicy.verify_prefix hsv hserial
    · obtain rfl := Except.ok.inj h
      exact AcceptancePolicy.verify_prefix hv hblock

/-- The request was decoded from `r₀` and has committed a prefix of its target. -/
structure Prefixed (r₀ r : RequestState) : Prop where
  decodes : Decodes r₀ r
  committed : r.committedTokens <+: r₀.targetTokens

theorem Prefixed.of_tokens {r₀ r r' : RequestState} (h : Prefixed r₀ r)
    (ht : r'.tokens = r.tokens) : Prefixed r₀ r' :=
  ⟨h.decodes.of_tokens ht, RequestState.committed_eq ht ▸ h.committed⟩

theorem Prefixed.advance {r₀ r : RequestState} {spec : Speculation} (h : Prefixed r₀ r)
    (hspec : spec.accepted <+: r.remainingTarget) : Prefixed r₀ (r.advance spec) := by
  have hsplit : r.committedTokens ++ r.remainingTarget = r₀.targetTokens := by
    rw [RequestState.remainingTarget, h.decodes.targetTokens]
    exact List.prefix_iff_eq_append.mp h.committed
  refine ⟨h.decodes.advance spec, ?_⟩
  change r.committedTokens ++ spec.accepted <+: r₀.targetTokens
  rw [← hsplit]
  exact (List.prefix_append_right_inj _).mpr hspec

theorem Prefixed.decode {r₀ r r' : RequestState} {idx : Nat} {c c' : KVCache}
    {t : DecodeStepTrace} (h : Prefixed r₀ r)
    (hrun : rt.decodeProcess idx c r = (.ok (r', t), c')) : Prefixed r₀ r' := by
  obtain ⟨spec, hspec, htok, _⟩ := decode_tokens hrun
  exact (h.advance (prefix_speculate hspec)).of_tokens htok

/-- A result that holds of its request what `P` says of what was committed. -/
def Reported (requests : List RequestState) (P : RequestState → List Int → Prop)
    (b : DecodeResult) : Prop :=
  ∃ r₀ ∈ requests, b.requestId = r₀.requestId ∧ P r₀ b.committedTokens

/-- In every state of every run, under any block sizes, policies and cache settings, each request
in flight and each result has committed a prefix of its target. -/
theorem committed_prefix_of_target (rt : PersistentDecodeRuntime) {requests : List RequestState}
    (hfresh : ∀ r ∈ requests, r.Fresh) {t : RuntimeState}
    (ht : Reaches rt.workers.step (rt.start requests) t) :
    (∀ r ∈ t.bag, (∃ r₀ ∈ requests, Decodes r₀ r) ∧ r.committedTokens <+: r.targetTokens) ∧
      ∀ b ∈ t.finalResults,
        Reported requests (fun r₀ committed => committed <+: r₀.targetTokens) b := by
  have hholds : rt.workers.Holds (fun r => ∃ r₀ ∈ requests, Prefixed r₀ r) t := by
    refine rt.workers_lawful.holds_throughout ?_ ?_ ?_ ht
    · intro r hr
      refine ⟨submit_unfinished hfresh r hr, ?_⟩
      obtain ⟨r₀, hr₀, rfl⟩ := List.mem_map.mp hr
      have hnil : Prefixed r₀ r₀ :=
        ⟨⟨rfl, rfl, rfl, rfl, rfl⟩, (hfresh r₀ hr₀).committed ▸ List.nil_prefix⟩
      exact ⟨r₀, hr₀, hnil.of_tokens (rt.submit_tokens r₀)⟩
    · rintro s i r r' c' _ _ ⟨r₀, hr₀, hp⟩ hrun
      exact ⟨r₀, hr₀, hp.of_tokens (prefill_tokens hrun).1⟩
    · rintro s i r r' trace c' _ _ _ ⟨r₀, hr₀, hp⟩ hrun
      exact ⟨r₀, hr₀, hp.decode hrun⟩
  refine ⟨fun r hr => ?_, fun b hb => ?_⟩
  · obtain ⟨r₀, hr₀, hp⟩ := hholds.bag r hr
    exact ⟨⟨r₀, hr₀, hp.decodes⟩, hp.decodes.targetTokens ▸ hp.committed⟩
  · obtain ⟨r, traces, ⟨r₀, hr₀, hp⟩, _, rfl⟩ := hholds.results b hb
    exact ⟨r₀, hr₀, hp.decodes.requestId, hp.committed⟩

/-- A block size of minus one drafts all but the last token of the target. -/
theorem negative_block_commits_prefix :
    let rt : PersistentDecodeRuntime :=
      { config := { blockSize := -1 }, policy := { mismatchStride := 2 } }
    let t := Runs.runFor rt.workers.step 8 (rt.start [.ask 1 [1] [10, 11, 12, 13]])
    (∀ r ∈ t.bag, (∃ r₀ ∈ [RequestState.ask 1 [1] [10, 11, 12, 13]], Decodes r₀ r) ∧
      r.committedTokens <+: r.targetTokens) ∧
      ∀ b ∈ t.finalResults, Reported [.ask 1 [1] [10, 11, 12, 13]]
        (fun r₀ committed => committed <+: r₀.targetTokens) b :=
  committed_prefix_of_target _ (by decide) (Runs.reaches_runFor _ _ _)

/-! ### The limit -/

/-- The limit leaves room for a token, or the target does not begin with the proposed EOS. -/
def SparesLimit (rt : PersistentDecodeRuntime) (r : RequestState) : Prop :=
  r.maxNewTokens = 0 → r.targetTokens.head? ≠ some rt.config.eosTokenId

/-- The request was decoded from `r₀` within its limit. One that is not finished may draft on, or
has committed nothing. -/
structure WithinLimit (r₀ r : RequestState) : Prop where
  decodes : Decodes r₀ r
  limit : (r.committedTokens.length : Int) ≤ r₀.maxNewTokens
  running : r.finished = false → r.committedTokens = [] ∨ 0 < r.tokenBudgetLeft

theorem WithinLimit.of_tokens {r₀ r r' : RequestState} (h : WithinLimit r₀ r)
    (ht : r'.tokens = r.tokens) : WithinLimit r₀ r' where
  decodes := h.decodes.of_tokens ht
  limit := RequestState.committed_eq ht ▸ h.limit
  running := by
    rw [RequestState.finished_eq ht, RequestState.committed_eq ht,
      RequestState.tokenBudgetLeft_eq ht]
    exact h.running

/-- A drafted block is within the limit; with nothing left to draft the only token that a step can
commit is the proposed EOS. -/
theorem WithinLimit.block_length {r₀ r : RequestState} (h : WithinLimit r₀ r)
    (hf : r.finished = false) (hspares : rt.SparesLimit r₀) :
    (r.committedTokens.length : Int) + (rt.block r).length ≤ r₀.maxNewTokens := by
  have hlimit := h.limit
  have hbudget : r.tokenBudgetLeft = max (r₀.maxNewTokens - r.committedTokens.length) 0 := by
    rw [RequestState.tokenBudgetLeft, h.decodes.maxNewTokens]
  have hlen : (rt.block r).length ≤ rt.width r (rt.effectiveBlockSize r) := by
    rw [block, List.length_take]
    exact min_le_left _ _
  by_cases hd : r.draftable = 0
  · have hw : rt.width r (rt.effectiveBlockSize r) = 0 := by
      rw [width, if_pos hd, if_neg]
      intro heos
      have hrem : r.remainingTarget ≠ [] := by
        intro hnil
        rw [hnil] at heos
        cases heos
      have hzero := (draftable_eq_zero.mp hd).resolve_left hrem
      have hnil := (h.running hf).resolve_right (by omega)
      have hall : r.remainingTarget = r₀.targetTokens := by
        rw [RequestState.remainingTarget, hnil, h.decodes.targetTokens]
        rfl
      rw [hnil] at hbudget
      simp only [List.length_nil, Nat.cast_zero, sub_zero] at hbudget
      exact hspares (by omega) (hall ▸ heos)
    omega
  · have hdraft := rt.width_le_draftable hd (rt.effectiveBlockSize r)
    have hleft : r.draftable ≤ r.tokenBudgetLeft.toNat := min_le_right _ _
    omega

theorem WithinLimit.advance {r₀ r : RequestState} {spec : Speculation} (h : WithinLimit r₀ r)
    (hf : r.finished = false) (hspares : rt.SparesLimit r₀) (hacc : spec.accepted = rt.block r) :
    WithinLimit r₀ (r.advance spec) := by
  have hblock := h.block_length hf hspares
  refine ⟨h.decodes.advance spec, ?_, fun hrun => Or.inr ?_⟩
  · change ((r.committedTokens ++ spec.accepted).length : Int) ≤ r₀.maxNewTokens
    rw [List.length_append, hacc]
    push_cast
    exact hblock
  · change (r.finished || (r.commit spec.accepted).finishes spec) = false at hrun
    rw [hf, Bool.false_or, ← Bool.not_eq_true, finishes_iff, not_or] at hrun
    have hleft : 0 ≤ (r.commit spec.accepted).tokenBudgetLeft := le_max_right _ _
    change 0 < (r.commit spec.accepted).tokenBudgetLeft
    omega

/-- Nothing in flight and no result is over its limit. -/
def KeepsLimits (requests : List RequestState) (t : RuntimeState) : Prop :=
  (∀ r ∈ t.bag, (r.committedTokens.length : Int) ≤ r.maxNewTokens) ∧
    ∀ b ∈ t.finalResults,
      Reported requests (fun r₀ committed => (committed.length : Int) ≤ r₀.maxNewTokens) b

theorem keepsLimits_of_spares (hv : rt.ValidBlocks) {requests : List RequestState}
    (hfresh : ∀ r ∈ requests, r.Fresh) (hlimit : ∀ r ∈ requests, 0 ≤ r.maxNewTokens)
    (hspares : ∀ r ∈ requests, rt.SparesLimit r) {t : RuntimeState}
    (ht : Reaches rt.workers.step (rt.start requests) t) : KeepsLimits requests t := by
  have hholds : rt.workers.Holds (rt.Submitted requests WithinLimit) t := by
    refine rt.workers_lawful.holds_throughout ?_ ?_ ?_ ht
    · intro r hr
      refine ⟨submit_unfinished hfresh r hr, ?_⟩
      obtain ⟨r₀, hr₀, rfl⟩ := List.mem_map.mp hr
      have hnil := (hfresh r₀ hr₀).committed
      have hwithin : WithinLimit r₀ r₀ := by
        refine ⟨⟨rfl, rfl, rfl, rfl, rfl⟩, ?_, fun _ => Or.inl hnil⟩
        rw [hnil]
        exact hlimit r₀ hr₀
      exact ⟨r₀, hr₀, hwithin.of_tokens (rt.submit_tokens r₀), submit_blockSize hv r₀⟩
    · rintro s i r r' c' _ _ ⟨r₀, hr₀, hw, hb⟩ hrun
      exact ⟨r₀, hr₀, hw.of_tokens (prefill_tokens hrun).1, prefill_blockSize hrun ▸ hb⟩
    · rintro s i r r' trace c' _ _ hf ⟨r₀, hr₀, hw, hb⟩ hrun
      obtain ⟨spec, hblock⟩ := decode_block hv hb hrun
      have hadv := hw.advance hf (hspares r₀ hr₀) hblock.accepted
      exact ⟨r₀, hr₀, hadv.of_tokens hblock.tokens, hblock.blockSize⟩
  refine ⟨fun r hr => ?_, fun b hb => ?_⟩
  · obtain ⟨r₀, _, hw, _⟩ := hholds.bag r hr
    exact hw.decodes.maxNewTokens ▸ hw.limit
  · obtain ⟨r, traces, ⟨r₀, hr₀, hw, _⟩, _, rfl⟩ := hholds.results b hb
    exact ⟨r₀, hr₀, hw.decodes.requestId, hw.limit⟩

/-- The request stems from `r₀` and waits for its first decode step. -/
structure Awaits (rt : PersistentDecodeRuntime) (r₀ r : RequestState) : Prop where
  decodes : Decodes r₀ r
  blockSize : 1 ≤ rt.effectiveBlockSize r
  unfinished : r.finished = false
  committed : r.committedTokens = []

/-- The first step of a request without a limit whose target begins with the EOS commits it. -/
theorem Awaits.over (hv : rt.ValidBlocks) {r₀ r r' : RequestState} {idx : Nat} {c c' : KVCache}
    {t : DecodeStepTrace} (h : rt.Awaits r₀ r) (hbad : ¬ rt.SparesLimit r₀)
    (hrun : rt.decodeProcess idx c r = (.ok (r', t), c')) :
    r'.maxNewTokens < r'.committedTokens.length := by
  obtain ⟨hzero, heos⟩ := Classical.not_imp.mp hbad
  obtain ⟨spec, hblock⟩ := decode_block hv h.blockSize hrun
  have hmax : r.maxNewTokens = 0 := h.decodes.maxNewTokens.trans hzero
  have hrem : r.remainingTarget = r₀.targetTokens := by
    rw [RequestState.remainingTarget, h.committed, h.decodes.targetTokens]
    rfl
  have hdone : r.draftable = 0 := by
    refine draftable_eq_zero.mpr (Or.inr ?_)
    rw [RequestState.tokenBudgetLeft, hmax, h.committed]
    rfl
  have hwidth : rt.width r (rt.effectiveBlockSize r) = 1 := by
    rw [width, if_pos hdone, hrem, if_pos (not_not.mp heos)]
  have haccepted : spec.accepted.length = 1 := by
    rw [hblock.accepted, block, hwidth, hrem, List.length_take]
    cases htarget : r₀.targetTokens with
    | nil => exact absurd (not_not.mp heos) (by simp [htarget])
    | cons a l => simp
  have hcommitted : r'.committedTokens = spec.accepted := by
    rw [RequestState.committed_eq hblock.tokens]
    change r.committedTokens ++ spec.accepted = spec.accepted
    rw [h.committed, List.nil_append]
  have hmax' : r'.maxNewTokens = 0 :=
    (congrArg RequestState.maxNewTokens hblock.tokens :).trans hmax
  rw [hmax', hcommitted, haccepted]
  exact Int.zero_lt_one

/-- A run that returns has decoded every request, also one that then goes over its limit. -/
theorem Returns.over (hv : rt.ValidBlocks) {requests : List RequestState}
    (hfresh : ∀ r ∈ requests, r.Fresh) {results : List DecodeResult}
    (h : rt.Returns requests results) {r₀ : RequestState} (hr₀ : r₀ ∈ requests)
    (hbad : ¬ rt.SparesLimit r₀) :
    ∃ u, Reaches rt.workers.step (rt.start requests) u ∧ ¬ KeepsLimits requests u := by
  obtain ⟨t, ht, hc, hbag, _, _⟩ := h.ended hfresh
  have hstart : rt.Awaits r₀ (rt.submit r₀) := by
    have htok := rt.submit_tokens r₀
    have hd : Decodes r₀ r₀ := ⟨rfl, rfl, rfl, rfl, rfl⟩
    exact ⟨hd.of_tokens htok, submit_blockSize hv r₀,
      (RequestState.finished_eq htok).trans (hfresh r₀ hr₀).unfinished,
      (RequestState.committed_eq htok).trans (hfresh r₀ hr₀).committed⟩
  -- the request waits in the bag until its step takes it over the limit
  have hrun := Workers.invariant_or_raised (w := rt.workers)
    (Q := fun s => (∃ r ∈ s.bag, rt.Awaits r₀ r) ∨
      ∃ u, Reaches rt.workers.step (rt.start requests) u ∧ ¬ KeepsLimits requests u)
    (mem_eval.mp ht).1 ?_ ?_
  · obtain ⟨r, hr, _⟩ | hover := hrun.resolve_right (Workers.not_raised_of_returned hc)
    · rw [hbag] at hr
      cases Multiset.notMem_zero r hr
    · exact hover
  · refine Or.inl ⟨rt.submit r₀, ?_, hstart⟩
    rw [start, Workers.bag_start]
    exact List.mem_map_of_mem hr₀
  · intro s s' hs hQ hstep
    obtain ⟨q, hq, hawait⟩ | hover := hQ
    · cases rt.workers.step_effect hstep with
      | silent _ bag _ _ => exact Or.inl (Or.inl ⟨q, bag ▸ hq, hawait⟩)
      | prefilled i r r' rest _ bag run bag' _ _ =>
        rw [bag] at hq
        rw [bag']
        refine Or.inl (Or.inl ?_)
        cases Multiset.mem_cons.mp hq with
        | inl heq =>
          subst heq
          have htok := (prefill_tokens run).1
          exact ⟨r', Multiset.mem_cons_self r' rest, hawait.decodes.of_tokens htok,
            prefill_blockSize run ▸ hawait.blockSize,
            (RequestState.finished_eq htok).trans hawait.unfinished,
            (RequestState.committed_eq htok).trans hawait.committed⟩
        | inr hmem => exact ⟨q, Multiset.mem_cons_of_mem hmem, hawait⟩
      | decoded i r r' trace rest _ bag run bag' _ _ =>
        rw [bag] at hq
        cases Multiset.mem_cons.mp hq with
        | inl heq =>
          subst heq
          refine Or.inl (Or.inr ⟨s', hs.tail hstep, fun hkeeps => ?_⟩)
          exact absurd (hkeeps.1 r' (bag' ▸ Multiset.mem_cons_self r' rest))
            (not_le.mpr (hawait.over hv hbad run))
        | inr hmem =>
          exact Or.inl (Or.inl ⟨q, bag' ▸ Multiset.mem_cons_of_mem hmem, hawait⟩)
      | finished r traces bag done _ _ _ =>
        rw [bag] at hq
        cases Multiset.mem_cons.mp hq with
        | inl heq => exact absurd (hawait.unfinished.symm.trans (heq ▸ done)) Bool.false_ne_true
        | inr hmem => exact Or.inl (Or.inl ⟨q, hmem, hawait⟩)
      | failed e control _ _ => exact Or.inr ⟨e, control⟩
    · exact Or.inl (Or.inr hover)

/-- No request is ever over its limit when each of them spares it; a run that returns stays within
the limits only then. -/
theorem limits_kept_iff (hv : rt.ValidBlocks) {requests : List RequestState}
    (hfresh : ∀ r ∈ requests, r.Fresh) (hlimit : ∀ r ∈ requests, 0 ≤ r.maxNewTokens) :
    ((∀ r ∈ requests, rt.SparesLimit r) →
      ∀ t, Reaches rt.workers.step (rt.start requests) t → KeepsLimits requests t) ∧
    ∀ results, rt.Returns requests results →
      ((∀ t, Reaches rt.workers.step (rt.start requests) t → KeepsLimits requests t) ↔
        ∀ r ∈ requests, rt.SparesLimit r) := by
  have hkeeps := fun hspares t ht => keepsLimits_of_spares (t := t) hv hfresh hlimit hspares ht
  refine ⟨hkeeps, fun results hreturns => ⟨fun hall r hr => ?_, hkeeps⟩⟩
  by_contra hbad
  obtain ⟨u, hu, hover⟩ := hreturns.over hv hfresh hr hbad
  exact hover (hall u hu)

/-- Without room for a token the proposed EOS is still committed. -/
theorem eos_over_limit_zero :
    ¬ ∀ (rt : PersistentDecodeRuntime) (requests : List RequestState), rt.ValidBlocks →
      (∀ r ∈ requests, r.Fresh) → (∀ r ∈ requests, 0 ≤ r.maxNewTokens) →
      ∀ t, Reaches rt.workers.step (rt.start requests) t → KeepsLimits requests t := by
  intro hall
  have hkeeps := hall { config := {} } [{ RequestState.ask 1 [1] [0] with maxNewTokens := 0 }]
    (by decide) (by decide) (by decide) _ (Runs.reaches_runFor _ 6 _)
  exact absurd hkeeps.1 (by decide +kernel)

/-- One token of two fits within the limit. -/
theorem limits_kept_of_ask :
    let rt : PersistentDecodeRuntime := { config := {} }
    let requests := [{ RequestState.ask 1 [1] [10, 0] with maxNewTokens := 1 }]
    ∀ t, Reaches rt.workers.step (rt.start requests) t → KeepsLimits requests t := by
  intro rt requests
  refine (limits_kept_iff (by decide) (by decide) (by decide)).1 fun r hr hzero => ?_
  obtain rfl := List.mem_singleton.mp hr
  exact absurd hzero (by decide)

end PersistentDecodeRuntime
end ResidentInference

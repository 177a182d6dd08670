import ResidentInference.Histories
import ResidentInference.Sessions
import Mathlib.Algebra.Order.Floor.Div

/-! How many decode steps a request takes, and with which block sizes. -/
namespace ResidentInference
open StateTransition

/-! ### Counting steps -/

/-- The steps of `e` tokens at most that commit `n` tokens and end at every multiple of `s`; there
are no multiples to end at for `s = 0`. -/
def stepsFor (s e n : Nat) : Nat := n / s * (s ⌈/⌉ e) + (n % s) ⌈/⌉ e

theorem ceilDiv_block {a e : Nat} (j : Nat) (ha : 0 < a) (hae : a ≤ e) :
    (e * j + a) ⌈/⌉ e = j + 1 := by
  rw [Nat.ceilDiv_eq_add_pred_div, show e * j + a + e - 1 = (a - 1) + e * (j + 1) by
    rw [Nat.mul_succ]; omega, Nat.add_mul_div_left _ _ (by omega), Nat.div_eq_of_lt (by omega),
    Nat.zero_add]

theorem ceilDiv_blocks {e : Nat} (j : Nat) (he : 0 < e) : (e * j) ⌈/⌉ e = j := by
  cases j with
  | zero => simp
  | succ j => exact ceilDiv_block j he le_rfl

/-- From the end of a step the next one adds one to the count, up to the next multiple of `s`. -/
theorem stepsFor_add {s e n a : Nat} (haligned : e ∣ n % s) (ha : 0 < a) (hae : a ≤ e)
    (has : 0 < s → a ≤ s - n % s) : stepsFor s e (n + a) = stepsFor s e n + 1 := by
  obtain ⟨j, hj⟩ := haligned
  have he : 0 < e := ha.trans_le hae
  obtain rfl | hs := Nat.eq_zero_or_pos s
  · rw [Nat.mod_zero] at hj
    simp only [stepsFor, Nat.div_zero, Nat.mod_zero, Nat.zero_mul, Nat.zero_add, hj,
      ceilDiv_block j ha hae, ceilDiv_blocks j he]
  · have hlt := Nat.mod_lt n hs
    have hdiv := Nat.div_add_mod n s
    have ha' := has hs
    obtain hin | hend : a < s - n % s ∨ n % s + a = s := by omega
    · have hq : (n + a) / s = n / s := by
        rw [← hdiv, Nat.add_assoc, Nat.mul_add_div hs, Nat.mul_add_div hs,
          Nat.div_eq_of_lt (show n % s + a < s by omega), Nat.div_eq_of_lt hlt]
      have hr : (n + a) % s = e * j + a := by
        rw [← hdiv, Nat.add_assoc, Nat.mul_add_mod, ← hj]
        exact Nat.mod_eq_of_lt (by omega)
      rw [stepsFor, hq, hr, ceilDiv_block j ha hae, stepsFor, hj, ceilDiv_blocks j he]
      omega
    · have hsum : n + a = s * (n / s + 1) := by
        rw [Nat.mul_succ]
        omega
      have hq : (n + a) / s = n / s + 1 := by rw [hsum, Nat.mul_div_cancel_left _ hs]
      have hr : (n + a) % s = 0 := by rw [hsum, Nat.mul_mod_right]
      have hs' : s ⌈/⌉ e = j + 1 := by
        conv_lhs => rw [← hend, hj]
        exact ceilDiv_block j ha hae
      rw [stepsFor, hq, hr, hs', stepsFor, hj, ceilDiv_blocks j he, hs']
      simp only [zero_ceilDiv]
      ring

/-- A full step, or one up to a multiple of `s`, ends where the next step may begin. -/
theorem aligned_add {s e n a : Nat} (haligned : e ∣ n % s)
    (h : a = e ∧ (0 < s → a ≤ s - n % s) ∨ 0 < s ∧ a = s - n % s) : e ∣ (n + a) % s := by
  have hdiv := Nat.div_add_mod n s
  have hmod : (n + a) % s = (n % s + a) % s := by
    conv_lhs => rw [← hdiv, Nat.add_assoc, Nat.mul_add_mod]
  have hfull : 0 < s → a = s - n % s → (n + a) % s = 0 := by
    intro hs ha
    have hlt := Nat.mod_lt n hs
    rw [hmod, ha, Nat.add_sub_cancel' hlt.le, Nat.mod_self]
  cases h with
  | inl hstep =>
    obtain ⟨rfl, has⟩ := hstep
    obtain rfl | hs := Nat.eq_zero_or_pos s
    · rw [Nat.mod_zero] at haligned ⊢
      exact Nat.dvd_add haligned (dvd_refl a)
    · obtain hlt | heq := (has hs).lt_or_eq
      · rw [hmod, Nat.mod_eq_of_lt (by omega)]
        exact Nat.dvd_add haligned (dvd_refl a)
      · rw [hfull hs heq]
        exact dvd_zero a
  | inr hend =>
    rw [hfull hend.1 hend.2]
    exact dvd_zero e

theorem stepsFor_zero (s e : Nat) : stepsFor s e 0 = 0 := by simp [stepsFor]

/-! ### What one step commits -/

namespace AcceptancePolicy
variable (policy : AcceptancePolicy)

/-- The distance between two simulated cut-offs, zero if there are none. -/
def stride : Nat := policy.mismatchStride.toNat

theorem forcedAt_iff (committed n idx : Nat) : policy.forcedAt committed n idx = true ↔
    0 < policy.stride ∧ policy.stride ∣ committed + idx + 1 ∧ idx + 1 < n := by
  rw [forcedAt, stride]
  cases policy.mismatchStride with
  | ofNat k =>
    cases k with
    | zero => simp
    | succ k =>
      simp only [Int.ofNat_eq_natCast, Bool.and_eq_true, decide_eq_true_eq, Int.toNat_natCast,
        Nat.dvd_iff_mod_eq_zero]
      norm_cast
  | negSucc k => simp

/-- Without rejections a step commits its whole draft, or the tokens up to the next cut-off. -/
theorem width_eq (hkeep : policy.rejectDraftBlocks = false) (committed n : Nat) :
    policy.width committed n =
      if policy.stride = 0 then n else min n (policy.stride - committed % policy.stride) := by
  rw [width, hkeep, if_neg (by simp)]
  by_cases hs : policy.stride = 0
  · have hnone : (List.range n).find? (policy.forcedAt committed n) = none := by
      refine List.find?_eq_none.mpr fun idx _ hforced => ?_
      have := ((policy.forcedAt_iff committed n idx).mp hforced).1
      omega
    rw [hnone, if_pos hs]
  · rw [if_neg hs]
    have hmod := Nat.mod_lt committed (Nat.pos_of_ne_zero hs)
    have hdvd : ∀ idx, policy.stride ∣ committed + idx + 1 ↔
        policy.stride ∣ committed % policy.stride + idx + 1 := by
      intro idx
      rw [Nat.add_assoc, Nat.add_assoc, Nat.dvd_iff_mod_eq_zero, Nat.dvd_iff_mod_eq_zero,
        Nat.mod_add_mod]
    -- the first multiple of the stride after the committed tokens
    have hearly : ∀ idx, idx + 1 < policy.stride - committed % policy.stride →
        policy.forcedAt committed n idx = false := by
      intro idx hlt
      by_contra hforced
      have hmult := (hdvd idx).mp ((policy.forcedAt_iff committed n idx).mp
        (Bool.not_eq_false _ ▸ hforced)).2.1
      exact absurd (Nat.le_of_dvd (by omega) hmult) (by omega)
    by_cases hlt : policy.stride - committed % policy.stride < n
    · have hfind : (List.range n).find? (policy.forcedAt committed n) =
          some (policy.stride - committed % policy.stride - 1) := by
        rw [List.find?_range_eq_some]
        refine ⟨(policy.forcedAt_iff _ _ _).mpr ⟨by omega, (hdvd _).mpr ⟨1, by omega⟩, by omega⟩,
          List.mem_range.mpr (by omega), fun idx hidx => ?_⟩
        rw [hearly idx (by omega)]
        rfl
      rw [hfind]
      dsimp only
      omega
    · have hnone : (List.range n).find? (policy.forcedAt committed n) = none := by
        refine List.find?_eq_none.mpr fun idx _ hforced => ?_
        have hbefore := ((policy.forcedAt_iff committed n idx).mp hforced).2.2
        rw [hearly idx (by omega)] at hforced
        exact Bool.false_ne_true hforced
      rw [hnone]
      dsimp only
      omega

theorem width_rejected (hreject : policy.rejectDraftBlocks = true) (committed : Nat) {n : Nat}
    (hn : 0 < n) : policy.width committed n = 1 := by
  obtain hone | hmore := Nat.lt_or_ge 1 n
  · rw [width, if_pos ⟨hreject, hone⟩]
  · have hle := policy.width_le committed n
    have hpos := policy.width_pos committed hn
    omega

end AcceptancePolicy

/-- The sizes a policy can choose. -/
def AdaptiveBlockPolicy.Allows (policy : AdaptiveBlockPolicy) (size : Int) : Prop :=
  policy.minBlock ≤ size ∧ size ≤ max policy.minBlock policy.maxBlock

namespace PersistentDecodeRuntime
variable {rt : PersistentDecodeRuntime}

/-- The tokens that a step with a full draft commits at most. -/
def stepSize (rt : PersistentDecodeRuntime) : Nat :=
  if rt.policy.rejectDraftBlocks then 1 else rt.config.blockSize.toNat

theorem stepSize_pos (hv : rt.ValidBlocks) : 0 < rt.stepSize := by
  have hb := hv.blockSize
  unfold stepSize
  split
  · exact Nat.one_pos
  · omega

/-- The distance between two positions at which every step ends, zero if there are none. -/
def cutoff (rt : PersistentDecodeRuntime) : Nat :=
  if rt.policy.rejectDraftBlocks then 0 else rt.policy.stride

/-- A step of fixed size commits a full step, or what is left to draft, or it ends at a cut-off. -/
theorem width_fixed (hfixed : rt.adaptivePolicy = none) (hv : rt.ValidBlocks) {r : RequestState}
    (hd : r.draftable ≠ 0) : rt.width r (rt.effectiveBlockSize r) =
      if rt.cutoff = 0 then min rt.stepSize r.draftable
      else min (min rt.stepSize r.draftable)
        (rt.cutoff - r.committedTokens.length % rt.cutoff) := by
  have hb := hv.blockSize
  rw [width, if_neg hd, effectiveBlockSize_fixed hfixed]
  cases hr : rt.policy.rejectDraftBlocks with
  | true =>
    rw [AcceptancePolicy.width_rejected _ hr _ (by omega), stepSize, cutoff, hr]
    simp only [if_true]
    omega
  | false =>
    rw [AcceptancePolicy.width_eq _ hr, stepSize, cutoff, hr]
    simp

theorem length_block (rt : PersistentDecodeRuntime) (r : RequestState) :
    (rt.block r).length = rt.width r (rt.effectiveBlockSize r) := by
  rw [block, List.length_take]
  exact min_eq_left (rt.width_le_remaining r _)

/-- What a decode step does to the tokens, the block size and the end of its request. -/
structure Advanced (rt : PersistentDecodeRuntime) (r r' : RequestState) (t : DecodeStepTrace) :
    Prop where
  accepted : t.acceptedTokens = rt.block r
  committed : r'.committedTokens = r.committedTokens ++ rt.block r
  blockSize : 1 ≤ rt.effectiveBlockSize r'
  draftable : r'.draftable = r.draftable - (rt.block r).length
  used : t.blockSizeUsed = rt.effectiveBlockSize r
  ends : r.draftable = 0 → r'.finished = true
  goesOn : r'.finished = false → r'.draftable ≠ 0

theorem decode_used {idx : Nat} {c c' : KVCache} {r r' : RequestState} {t : DecodeStepTrace}
    (h : rt.decodeProcess idx c r = (.ok (r', t), c')) :
    t.blockSizeUsed = rt.effectiveBlockSize r := by
  obtain ⟨ready, reads, spec, committed, prepared, grown, hst⟩ := decodeProcess_ok h
  obtain ⟨c₁, hre, -, -⟩ := prepare_ok hst.prepare
  rw [hst.trace]
  exact rt.effectiveBlockSize_congr (rehydrateIfNeeded_tokens hre).2.2

theorem decode_advanced (hv : rt.ValidBlocks) {idx : Nat} {c c' : KVCache} {r r' : RequestState}
    {t : DecodeStepTrace} (hb : 1 ≤ rt.effectiveBlockSize r)
    (h : rt.decodeProcess idx c r = (.ok (r', t), c')) : rt.Advanced r r' t := by
  obtain ⟨spec, hst⟩ := decode_block hv hb h
  have hcommitted : r'.committedTokens = r.committedTokens ++ rt.block r := by
    rw [RequestState.committed_eq hst.tokens, ← hst.accepted]
    rfl
  have happend : r'.committedTokens = r.committedTokens ++ t.acceptedTokens :=
    rt.workers_append.decode h
  have hfinished : r'.finished = (r.finished || (r.commit spec.accepted).finishes spec) :=
    RequestState.finished_eq hst.tokens
  have htarget : r'.targetTokens = r.targetTokens := (RequestState.targetTokens_eq hst.tokens :)
  have hmax : r'.maxNewTokens = r.maxNewTokens :=
    (congrArg RequestState.maxNewTokens hst.tokens :)
  refine ⟨List.append_cancel_left (happend.symm.trans hcommitted), hcommitted, hst.blockSize, ?_,
    decode_used h, fun hd => ?_, fun hopen => ?_⟩
  · simp only [RequestState.draftable, RequestState.remainingTarget, RequestState.tokenBudgetLeft,
      htarget, hmax, hcommitted, List.length_drop, List.length_append]
    push_cast
    omega
  · rw [hfinished, finishes_of_done hd hst.accepted (hst.single hd), Bool.or_true]
  · rw [hfinished, Bool.or_eq_false_iff] at hopen
    have hnot := mt finishes_iff.mpr (Bool.eq_false_iff.mp hopen.2)
    push Not at hnot
    have hbudget : (r.commit spec.accepted).tokenBudgetLeft = r'.tokenBudgetLeft :=
      (RequestState.tokenBudgetLeft_eq hst.tokens :).symm
    have hlen : (r.commit spec.accepted).committedTokens = r'.committedTokens :=
      (RequestState.committed_eq hst.tokens :).symm
    rw [hbudget, hlen] at hnot
    intro hd
    cases draftable_eq_zero.mp hd with
    | inl hrem =>
      have hle := List.drop_eq_nil_iff.mp hrem
      rw [htarget] at hle
      exact absurd hle (not_le.mpr hnot.2.2.1)
    | inr hzero => exact hnot.1 hzero

/-! ### Steps of a fixed size -/

/-- How many steps a request has taken that has committed `n` tokens. -/
def stepCount (rt : PersistentDecodeRuntime) (n : Nat) : Nat := stepsFor rt.cutoff rt.stepSize n

/-- The steps of a request so far, counted by its tokens. An unfinished request is at the end of a
full step or at a cut-off. -/
structure Counted (rt : PersistentDecodeRuntime) (r : RequestState)
    (traces : List DecodeStepTrace) : Prop where
  blockSize : 1 ≤ rt.effectiveBlockSize r
  fresh : traces = [] → r.committedTokens = []
  pending : r.finished = false → traces ≠ [] → r.draftable ≠ 0
  aligned : r.finished = false → rt.stepSize ∣ r.committedTokens.length % rt.cutoff
  unfinished : r.finished = false → traces.length = rt.stepCount r.committedTokens.length
  finished : r.finished = true → traces.length = max 1 (rt.stepCount r.committedTokens.length)

/-- A step with nothing to draft is the only one of its request. -/
theorem Counted.only {r r' : RequestState} {t : DecodeStepTrace} {traces : List DecodeStepTrace}
    (h : rt.Counted r traces) (hv : rt.ValidBlocks) (hopen : r.finished = false)
    (hst : rt.Advanced r r' t) (hd : r.draftable = 0) :
    (traces ++ [t]).length = max 1 (rt.stepCount r'.committedTokens.length) := by
  have hnil : traces = [] := by
    by_contra hne
    exact h.pending hopen hne hd
  have hlen : r'.committedTokens.length = (rt.block r).length := by
    rw [hst.committed, h.fresh hnil, List.nil_append]
  have hle := rt.width_le_one hd (rt.effectiveBlockSize r)
  rw [← length_block] at hle
  have hlast : rt.stepCount r'.committedTokens.length ≤ 1 := by
    rw [hlen]
    obtain hnone | hone : (rt.block r).length = 0 ∨ (rt.block r).length = 1 := by omega
    · rw [hnone, stepCount, stepsFor_zero]
      exact Nat.zero_le 1
    · have hadd := stepsFor_add (n := 0) (s := rt.cutoff) (by simp) Nat.one_pos
        (stepSize_pos hv) fun hs => by rw [Nat.zero_mod]; omega
      rw [hone, stepCount, ← Nat.zero_add 1, hadd, stepsFor_zero]
  rw [hnil, List.nil_append, List.length_singleton]
  omega

theorem Counted.decode (hfixed : rt.adaptivePolicy = none) (hv : rt.ValidBlocks)
    {r r' : RequestState} {t : DecodeStepTrace} {traces : List DecodeStepTrace}
    (h : rt.Counted r traces) (hopen : r.finished = false) (hst : rt.Advanced r r' t) :
    rt.Counted r' (traces ++ [t]) := by
  have hlen : r'.committedTokens.length = r.committedTokens.length + (rt.block r).length := by
    rw [hst.committed, List.length_append]
  by_cases hd : r.draftable = 0
  · have hdone := hst.ends hd
    have hnot : r'.finished ≠ false := by simp [hdone]
    exact ⟨hst.blockSize, fun hne => absurd hne (by simp), fun hf => absurd hf hnot,
      fun hf => absurd hf hnot, fun hf => absurd hf hnot, fun _ => h.only hv hopen hst hd⟩
  · have hwidth := width_fixed hfixed hv hd
    rw [← length_block] at hwidth
    have hpos : 0 < (rt.block r).length := by
      rw [length_block]
      exact rt.width_pos hd h.blockSize
    have hsize : (rt.block r).length ≤ rt.stepSize := by split at hwidth <;> omega
    have hcut : 0 < rt.cutoff →
        (rt.block r).length ≤ rt.cutoff - r.committedTokens.length % rt.cutoff := by
      intro hs
      rw [if_neg (by omega)] at hwidth
      omega
    have hcount : (traces ++ [t]).length = rt.stepCount r'.committedTokens.length := by
      rw [List.length_append, List.length_singleton, h.unfinished hopen, hlen, stepCount,
        stepCount, stepsFor_add (h.aligned hopen) hpos hsize hcut]
    refine ⟨hst.blockSize, fun hne => absurd hne (by simp), fun hf _ => hst.goesOn hf,
      fun hf => ?_, fun _ => hcount, fun _ => ?_⟩
    · -- a step that ends with tokens left to draft was a full one or ended at a cut-off
      have hmore := hst.goesOn hf
      rw [hst.draftable] at hmore
      rw [hlen]
      refine aligned_add (h.aligned hopen) ?_
      split at hwidth <;> omega
    · rw [List.length_append, List.length_singleton] at hcount ⊢
      omega

theorem Counted.of_tokens {r r' : RequestState} {traces : List DecodeStepTrace}
    (h : rt.Counted r traces) (htok : r'.tokens = r.tokens)
    (hsize : rt.effectiveBlockSize r' = rt.effectiveBlockSize r) : rt.Counted r' traces := by
  have hfin := RequestState.finished_eq htok
  have hcommitted := RequestState.committed_eq htok
  have hdraft : r'.draftable = r.draftable := by
    rw [RequestState.draftable, RequestState.remainingTarget_eq htok,
      RequestState.tokenBudgetLeft_eq htok, RequestState.draftable]
  constructor
  · exact hsize ▸ h.blockSize
  · exact hcommitted ▸ h.fresh
  · rw [hfin, hdraft]
    exact h.pending
  · rw [hfin, hcommitted]
    exact h.aligned
  · rw [hfin, hcommitted]
    exact h.unfinished
  · rw [hfin, hcommitted]
    exact h.finished

/-- What holds of every submitted request without a trace, and what prefills and decode steps keep,
holds of the histories of a run. -/
theorem histories_run {P : RequestState → List DecodeStepTrace → Prop}
    {requests : List RequestState} (hf : FreshRequests requests)
    (hfresh : ∀ r ∈ requests, P (rt.submit r) [])
    (hpre : ∀ s i r r' c' traces, Reaches rt.workers.step (rt.start requests) s →
      s.nextPrefill = some r → P r traces →
      prefillProcess rt.config.pinReadyDecodePages i s.cache r = (.ok r', c') → P r' traces)
    (hdec : ∀ s i r r' t c' traces, Reaches rt.workers.step (rt.start requests) s →
      s.nextDecode = some r → r.finished = false → P r traces →
      rt.decodeProcess i s.cache r = (.ok (r', t), c') → P r' (traces ++ [t]))
    {s : RuntimeState} (hs : Reaches rt.workers.step (rt.start requests) s) :
    rt.workers.Histories P s := by
  refine rt.workers_lawful.histories ?_ (fun r hr => ⟨submit_unfinished hf.fresh r hr, ?_⟩) hpre
    hdec hs
  · rw [rt.submit_ids]
    exact hf.distinct
  · obtain ⟨r₀, hr₀, rfl⟩ := List.mem_map.mp hr
    exact hfresh r₀ hr₀

/-- With blocks of a fixed size the number of decode steps of every request follows from the number
of its tokens: full steps between the cut-offs, one short step at most before each of them and one
at the end, and one step for a request without tokens. -/
theorem decode_steps_counted (hfixed : rt.adaptivePolicy = none) (hv : rt.ValidBlocks)
    {requests : List RequestState} (hf : FreshRequests requests) {s : RuntimeState}
    (hs : Reaches rt.workers.step (rt.start requests) s) {b : DecodeResult}
    (hb : b ∈ s.finalResults) :
    b.traces.length = max 1 (stepsFor rt.cutoff rt.stepSize b.committedTokens.length) := by
  have h : rt.workers.Histories rt.Counted s := by
    refine histories_run hf (fun r hr => ?_) ?_ ?_ hs
    · have hzero := submit_committed rt (hf.fresh r hr)
      have hopen : (rt.submit r).finished = false :=
        (RequestState.finished_eq (rt.submit_tokens r)).trans (hf.fresh r hr).unfinished
      refine ⟨submit_blockSize hv r, fun _ => hzero, fun _ hne => absurd rfl hne, fun _ => ?_,
        fun _ => ?_, fun hdone => ?_⟩
      · simp [hzero]
      · rw [hzero]
        exact (stepsFor_zero _ _).symm
      · rw [hopen] at hdone
        cases hdone
    · intro u i r r' c' traces _ _ hP hrun
      exact hP.of_tokens (prefill_tokens hrun).1 (prefill_blockSize hrun)
    · intro u i r r' t c' traces _ _ hopen hP hrun
      exact hP.decode hfixed hv hopen (decode_advanced hv hP.blockSize hrun)
  obtain ⟨r, traces, hdone, hP, rfl⟩ := h.results b hb
  exact hP.finished hdone

/-- A request of five tokens in blocks of two, with a cut-off after the third. -/
theorem five_tokens_take_three_steps :
    let rt : PersistentDecodeRuntime :=
      { config := { blockSize := 2 }, policy := { mismatchStride := 3 } }
    ∃ s, Reaches rt.workers.step (rt.start [.ask 1 [5] [6, 7, 8, 9, 10]]) s ∧
      ∃ b ∈ s.finalResults, b.committedTokens.length = 5 ∧ b.traces.length = 3 := by
  intro rt
  have hany : (Runs.runFor rt.workers.step 40
      (rt.start [.ask 1 [5] [6, 7, 8, 9, 10]])).finalResults.any
        (fun b => b.committedTokens.length = 5) = true := by decide +kernel
  obtain ⟨b, hb, hlen⟩ := List.any_eq_true.mp hany
  have hs := Runs.reaches_runFor rt.workers.step 40 (rt.start [.ask 1 [5] [6, 7, 8, 9, 10]])
  refine ⟨_, hs, b, hb, of_decide_eq_true hlen, ?_⟩
  have hcount : b.traces.length =
      max 1 (stepsFor rt.cutoff rt.stepSize b.committedTokens.length) :=
    decode_steps_counted rfl (by decide) (by decide) hs hb
  rw [of_decide_eq_true hlen] at hcount
  exact hcount.trans (by decide)

/-! ### Steps of any size -/

/-- The policy appends one size to the history, within its bounds, and goes on with it. -/
theorem adapt_sizes {policy : AdaptiveBlockPolicy} (h : rt.adaptivePolicy = some policy)
    (c : KVCache) (r : RequestState) (mask : AcceptanceMask) :
    policy.Allows (rt.adapt c r mask).currentBlockSize ∧
      (rt.adapt c r mask).blockSizeHistory =
        r.blockSizeHistory ++ [(rt.adapt c r mask).currentBlockSize] := by
  rw [adapt, h]
  refine ⟨⟨le_max_right _ _, ?_⟩, rfl⟩
  simp only [updateBlockSize]
  generalize rt.rnd (_ + _) = rate
  have hlevel : (if policy.highAcceptThreshold ≤ rate then policy.maxBlock
      else if policy.lowAcceptThreshold ≤ rate then (policy.minBlock + policy.maxBlock) / 2
      else policy.minBlock) ≤ max policy.minBlock policy.maxBlock := by
    split
    · exact le_max_right _ _
    · split <;> omega
  generalize (if policy.highAcceptThreshold ≤ rate then policy.maxBlock
      else if policy.lowAcceptThreshold ≤ rate then (policy.minBlock + policy.maxBlock) / 2
      else policy.minBlock) = size at hlevel ⊢
  split <;> omega

theorem rehydrateIfNeeded_sizing {c c' : KVCache} {r r' : RequestState}
    (h : rehydrateIfNeeded c r = (.ok r', c')) :
    r'.blockSizeHistory = r.blockSizeHistory ∧ r'.emaAcceptanceRate = r.emaAcceptanceRate := by
  cases rehydrateIfNeeded_ok h with
  | inl hkeep =>
    obtain ⟨-, rfl, -⟩ := hkeep
    exact ⟨rfl, rfl⟩
  | inr hnew =>
    obtain ⟨m, -, rfl⟩ := hnew
    exact ⟨rfl, rfl⟩

theorem commitAccepted_sizing {c c' : KVCache} {r r' : RequestState} {accepted : List Int}
    (h : commitAccepted c r accepted = (.ok r', c')) :
    r'.blockSizeHistory = r.blockSizeHistory ∧ r'.emaAcceptanceRate = r.emaAcceptanceRate := by
  cases commitAccepted_ok h with
  | inl hnone =>
    obtain ⟨-, rfl, -⟩ := hnone
    exact ⟨rfl, rfl⟩
  | inr hsome =>
    obtain ⟨c₁, m, -, -, rfl⟩ := hsome
    exact ⟨rfl, rfl⟩

theorem decode_sizes {policy : AdaptiveBlockPolicy} (hp : rt.adaptivePolicy = some policy)
    {idx : Nat} {c c' : KVCache} {r r' : RequestState} {t : DecodeStepTrace}
    (h : rt.decodeProcess idx c r = (.ok (r', t), c')) :
    policy.Allows r'.currentBlockSize ∧
      r'.blockSizeHistory = r.blockSizeHistory ++ [r'.currentBlockSize] := by
  obtain ⟨ready, reads, spec, committed, prepared, grown, hst⟩ := decodeProcess_ok h
  obtain ⟨c₁, hre, -, -⟩ := prepare_ok hst.prepare
  have hready : ready.blockSizeHistory = r.blockSizeHistory :=
    (rehydrateIfNeeded_sizing (r := taken idx r) hre).1
  obtain ⟨hbounds, hhistory⟩ := adapt_sizes hp prepared
    { ready with draftTokens := spec.proposal } spec.adaptiveMask
  have hsize := (commitAccepted_tokens hst.commit).2.2
  have hkept := (commitAccepted_sizing hst.commit).1
  obtain ⟨ids, phase, finished, preempted, hsettle⟩ := rt.settle_eq grown committed spec reads
  have hend := hst.settle
  rw [hsettle] at hend
  cases hend
  dsimp only
  rw [hsize, hkept, hhistory]
  exact ⟨hbounds, congrArg (· ++ _) hready⟩

/-- The adaptive sizes of a request: its history is the sizes of its steps so far and then the size
of the next one, starts from the configured size, and stays within the bounds of the policy. -/
structure InStep (rt : PersistentDecodeRuntime) (policy : AdaptiveBlockPolicy) (r : RequestState)
    (traces : List DecodeStepTrace) : Prop where
  history : r.blockSizeHistory = traces.map DecodeStepTrace.blockSizeUsed ++ [r.currentBlockSize]
  first : r.blockSizeHistory.head? = some rt.config.blockSize
  bounds : ∀ size ∈ r.blockSizeHistory.tail, policy.Allows size

theorem InStep.decode {policy : AdaptiveBlockPolicy} {r r' : RequestState} {t : DecodeStepTrace}
    {traces : List DecodeStepTrace} (h : rt.InStep policy r traces)
    (hbounds : policy.Allows r'.currentBlockSize)
    (happend : r'.blockSizeHistory = r.blockSizeHistory ++ [r'.currentBlockSize])
    (hused : t.blockSizeUsed = r.currentBlockSize) : rt.InStep policy r' (traces ++ [t]) where
  history := by rw [happend, h.history, List.map_append, List.map_singleton, hused]
  first := by rw [happend, List.head?_append, h.first, Option.some_or]
  bounds := by
    have hne : r.blockSizeHistory ≠ [] := by simp [h.history]
    intro size hsize
    rw [happend, List.tail_append_of_ne_nil hne, List.mem_append, List.mem_singleton] at hsize
    cases hsize with
    | inl hold => exact h.bounds size hold
    | inr hnew => exact hnew ▸ hbounds

/-- The sizes that the steps used. -/
theorem InStep.used {policy : AdaptiveBlockPolicy} {r : RequestState}
    {traces : List DecodeStepTrace} (h : rt.InStep policy r traces) {k : Nat} {t : DecodeStepTrace}
    (hk : traces[k]? = some t) :
    if k = 0 then t.blockSizeUsed = rt.config.blockSize else policy.Allows t.blockSizeUsed := by
  have hget : r.blockSizeHistory[k]? = some t.blockSizeUsed := by
    have hlt := (List.getElem?_eq_some_iff.mp hk).1
    rw [h.history, List.getElem?_append_left (by rwa [List.length_map]), List.getElem?_map, hk]
    rfl
  cases k with
  | zero =>
    rw [← List.head?_eq_getElem?, h.first] at hget
    exact (Option.some.inj hget).symm
  | succ k =>
    rw [if_neg k.succ_ne_zero]
    refine h.bounds _ (List.mem_of_getElem? (i := k) ?_)
    rw [List.getElem?_tail, hget]

/-- The block sizes of the steps of a request so far. -/
structure Sized (rt : PersistentDecodeRuntime) (r : RequestState)
    (traces : List DecodeStepTrace) : Prop where
  blockSize : 1 ≤ rt.effectiveBlockSize r
  fresh : traces = [] → r.committedTokens = []
  pending : r.finished = false → traces ≠ [] → r.draftable ≠ 0
  covered : (r.committedTokens.length : Int) ≤ (traces.map DecodeStepTrace.blockSizeUsed).sum
  unfinished : r.finished = false → traces.length ≤ r.committedTokens.length
  finished : traces.length ≤ max 1 r.committedTokens.length
  committing : r.finished = false → ∀ t ∈ traces, t.acceptedTokens ≠ []
  commits : 1 < traces.length → ∀ t ∈ traces, t.acceptedTokens ≠ []
  fixed : rt.adaptivePolicy = none → ∀ t ∈ traces, t.blockSizeUsed = rt.config.blockSize
  adaptive : ∀ policy, rt.adaptivePolicy = some policy → rt.InStep policy r traces

/-- A block has no more tokens than its size. -/
theorem length_block_le (rt : PersistentDecodeRuntime) {r : RequestState}
    (hb : 1 ≤ rt.effectiveBlockSize r) :
    ((rt.block r).length : Int) ≤ rt.effectiveBlockSize r := by
  rw [length_block]
  by_cases hd : r.draftable = 0
  · have hle := rt.width_le_one hd (rt.effectiveBlockSize r)
    omega
  · rw [width, if_neg hd]
    have hle := rt.policy.width_le r.committedTokens.length
      (min (rt.effectiveBlockSize r).toNat r.draftable)
    omega

theorem Sized.decode (hv : rt.ValidBlocks) {idx : Nat} {c c' : KVCache} {r r' : RequestState}
    {t : DecodeStepTrace} {traces : List DecodeStepTrace} (h : rt.Sized r traces)
    (hopen : r.finished = false) (hrun : rt.decodeProcess idx c r = (.ok (r', t), c')) :
    rt.Sized r' (traces ++ [t]) := by
  have hst := decode_advanced hv h.blockSize hrun
  have hlen : r'.committedTokens.length = r.committedTokens.length + (rt.block r).length := by
    rw [hst.committed, List.length_append]
  have hblock := rt.length_block_le h.blockSize
  have hmore : r.draftable ≠ 0 → 0 < (rt.block r).length := by
    intro hd
    rw [length_block]
    exact rt.width_pos hd h.blockSize
  have hnil : r.draftable = 0 → traces = [] := by
    intro hd
    by_contra hne
    exact h.pending hopen hne hd
  have hbefore := h.unfinished hopen
  have hall : r.draftable ≠ 0 → ∀ u ∈ traces ++ [t], u.acceptedTokens ≠ [] := by
    intro hd u hu
    rw [List.mem_append, List.mem_singleton] at hu
    cases hu with
    | inl hold => exact h.committing hopen u hold
    | inr hnew =>
      rw [hnew, hst.accepted]
      exact List.ne_nil_of_length_pos (hmore hd)
  refine ⟨hst.blockSize, fun hne => absurd hne (by simp), fun hf _ => hst.goesOn hf, ?_,
    fun hf => ?_, ?_, fun hf => hall fun hd => ?_, fun hmany => hall fun hd => ?_,
    fun hfixed t' ht' => ?_, fun policy hp => ?_⟩
  · rw [hlen, List.map_append, List.sum_append, List.map_singleton, List.sum_singleton, hst.used]
    have hold := h.covered
    push_cast
    omega
  · have hd : r.draftable ≠ 0 := by
      intro hd
      rw [hst.ends hd] at hf
      cases hf
    have hpos := hmore hd
    rw [List.length_append, List.length_singleton]
    omega
  · rw [List.length_append, List.length_singleton]
    by_cases hd : r.draftable = 0
    · rw [hnil hd, List.length_nil]
      omega
    · have hpos := hmore hd
      omega
  · rw [hst.ends hd] at hf
    cases hf
  · rw [hnil hd] at hmany
    exact absurd hmany (lt_irrefl 1)
  · rw [List.mem_append, List.mem_singleton] at ht'
    cases ht' with
    | inl hold => exact h.fixed hfixed t' hold
    | inr hnew => rw [hnew, hst.used, effectiveBlockSize_fixed hfixed]
  · obtain ⟨hbounds, happend⟩ := decode_sizes hp hrun
    refine (h.adaptive policy hp).decode hbounds happend ?_
    rw [hst.used, effectiveBlockSize, hp]

theorem sized_run (hv : rt.ValidBlocks) {requests : List RequestState} (hf : FreshRequests requests)
    {s : RuntimeState} (hs : Reaches rt.workers.step (rt.start requests) s) :
    rt.workers.Histories rt.Sized s := by
  refine histories_run hf (fun r hr => ?_) ?_ ?_ hs
  · have hzero := submit_committed rt (hf.fresh r hr)
    refine ⟨submit_blockSize hv r, fun _ => hzero, fun _ hne => absurd rfl hne, ?_, fun _ => ?_,
      ?_, fun _ t ht => absurd ht List.not_mem_nil, fun _ t ht => absurd ht List.not_mem_nil,
      fun _ t ht => absurd ht List.not_mem_nil, fun policy hp => ?_⟩
    · simp [hzero]
    · simp [hzero]
    · exact Nat.zero_le _
    · have hhistory : (rt.submit r).blockSizeHistory = [rt.config.blockSize] := by rw [submit, hp]
      have hsize : (rt.submit r).currentBlockSize = rt.config.blockSize := by rw [submit, hp]
      refine ⟨?_, ?_, fun size hmem => ?_⟩
      · rw [hhistory, hsize]
        rfl
      · rw [hhistory]
        rfl
      · rw [hhistory] at hmem
        exact absurd hmem List.not_mem_nil
  · intro u i r r' c' traces _ _ hP hrun
    obtain ⟨m, c₁, -, -, rfl⟩ := prefillProcess_ok hrun
    refine ⟨hP.blockSize, hP.fresh, hP.pending, hP.covered, hP.unfinished, hP.finished,
      hP.committing, hP.commits, hP.fixed, fun policy hp => ?_⟩
    have hsizes := hP.adaptive policy hp
    exact ⟨hsizes.history, hsizes.first, hsizes.bounds⟩
  · intro u i r r' t c' traces _ _ hopen hP hrun
    exact hP.decode hv hopen hrun

/-- Whatever the policy: the block sizes of the steps cover the tokens of a request, every step but
the only one of a request commits a token, and adaptive sizes start from the configured one and stay
within the bounds of the policy. In every state the history of a request in flight is the sizes of
its steps so far and then the size of the next one. -/
theorem decode_sizes_cover (hv : rt.ValidBlocks) {requests : List RequestState}
    (hf : FreshRequests requests) {s : RuntimeState}
    (hs : Reaches rt.workers.step (rt.start requests) s) :
    (∀ b ∈ s.finalResults,
      (b.committedTokens.length : Int) ≤ (b.traces.map DecodeStepTrace.blockSizeUsed).sum ∧
      b.traces.length ≤ max 1 b.committedTokens.length ∧
      (1 < b.traces.length → ∀ t ∈ b.traces, t.acceptedTokens ≠ []) ∧
      (rt.adaptivePolicy = none → ∀ t ∈ b.traces, t.blockSizeUsed = rt.config.blockSize) ∧
      ∀ policy, rt.adaptivePolicy = some policy → ∀ k t, b.traces[k]? = some t →
        if k = 0 then t.blockSizeUsed = rt.config.blockSize
        else policy.minBlock ≤ t.blockSizeUsed ∧
          t.blockSizeUsed ≤ max policy.minBlock policy.maxBlock) ∧
    ∀ policy, rt.adaptivePolicy = some policy →
      (∀ r ∈ s.waiting, rt.InStep policy r (s.filed r.requestId)) ∧
      ∀ p ∈ s.control.stepped, rt.InStep policy p.1 (s.filed p.1.requestId ++ [p.2]) := by
  have h := sized_run hv hf hs
  refine ⟨fun b hb => ?_, fun policy hp => ⟨fun r hr => (h.waiting r hr).adaptive policy hp,
    fun p hmem => (h.stepped p hmem).adaptive policy hp⟩⟩
  obtain ⟨r, traces, hdone, hP, rfl⟩ := h.results b hb
  exact ⟨hP.covered, hP.finished, hP.commits, hP.fixed,
    fun policy hp k t hk => (hP.adaptive policy hp).used hk⟩

/-- Five tokens with adaptive blocks of one to three tokens. -/
theorem adaptive_sizes_cover_five_tokens :
    let rt : PersistentDecodeRuntime :=
      { config := { blockSize := 2 }, adaptivePolicy := some { maxBlock := 3 } }
    ∃ s, Reaches rt.workers.step (rt.start [.ask 1 [5] [6, 7, 8, 9, 10]]) s ∧
      ∃ b ∈ s.finalResults, b.committedTokens.length = 5 ∧ b.traces.length ≤ 5 ∧
        5 ≤ (b.traces.map DecodeStepTrace.blockSizeUsed).sum ∧
        ∀ t ∈ b.traces, t.acceptedTokens ≠ [] := by
  intro rt
  have hany : (Runs.runFor rt.workers.step 40
      (rt.start [.ask 1 [5] [6, 7, 8, 9, 10]])).finalResults.any
        (fun b => b.committedTokens.length = 5 ∧ 1 < b.traces.length) = true := by decide +kernel
  obtain ⟨b, hb, hboth⟩ := List.any_eq_true.mp hany
  obtain ⟨hlen, hmany⟩ := of_decide_eq_true hboth
  have hs := Runs.reaches_runFor rt.workers.step 40 (rt.start [.ask 1 [5] [6, 7, 8, 9, 10]])
  have hblocks : rt.ValidBlocks := by decide
  obtain ⟨hcovered, hsteps, hcommits, -⟩ := (decode_sizes_cover hblocks (by decide) hs).1 b hb
  rw [hlen] at hcovered hsteps
  exact ⟨_, hs, b, hb, hlen, hsteps, hcovered, hcommits hmany⟩

end PersistentDecodeRuntime
end ResidentInference

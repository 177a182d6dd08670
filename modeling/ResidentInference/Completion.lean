import ResidentInference.Residency

/-! Completion and drain: every run stops, a run that returns has served every request within a
bounded number of decode steps and leaves an empty cache, and a run can only fail in its cache. -/
namespace ResidentInference
open StateTransition KVCache

/-- The decode steps that the request may still take. -/
def RequestState.stepsLeft (r : RequestState) : Nat :=
  if r.finished then 0 else max 1 r.draftable

/-- The decode steps that a fresh request may take. -/
def RequestState.stepBound (r : RequestState) : Int :=
  max 1 (min r.maxNewTokens r.targetTokens.length)

namespace PersistentDecodeRuntime
variable {rt : PersistentDecodeRuntime}

/-! ### Progress -/

/-- A step that does not end the request leaves it less to draft. -/
theorem draftable_lt_of_advance {r : RequestState} {spec : Speculation} (hd : r.draftable ≠ 0)
    (hb : 1 ≤ rt.effectiveBlockSize r) (hacc : spec.accepted = rt.block r)
    (hgo : (r.commit spec.accepted).finishes spec = false) :
    0 < (r.commit spec.accepted).draftable ∧
      (r.commit spec.accepted).draftable < r.draftable := by
  have hpos := rt.width_pos hd hb
  have hle := rt.width_le_remaining r (rt.effectiveBlockSize r)
  have hlen : spec.accepted.length = rt.width r (rt.effectiveBlockSize r) := by
    rw [hacc, block, List.length_take]
    omega
  have hno := mt finishes_iff.mpr (by rw [hgo]; exact Bool.false_ne_true)
  rw [not_or, not_or, not_or] at hno
  obtain ⟨hbudget, _, htarget, _⟩ := hno
  have hcommitted : (r.commit spec.accepted).committedTokens.length =
      r.committedTokens.length + spec.accepted.length := List.length_append
  have hrem : r.remainingTarget.length = r.targetTokens.length - r.committedTokens.length :=
    List.length_drop
  have hrem' : (r.commit spec.accepted).remainingTarget.length =
      r.targetTokens.length - (r.commit spec.accepted).committedTokens.length := List.length_drop
  have hleft : r.tokenBudgetLeft = max (r.maxNewTokens - r.committedTokens.length) 0 := rfl
  have hleft' : (r.commit spec.accepted).tokenBudgetLeft =
      max (r.maxNewTokens - (r.commit spec.accepted).committedTokens.length) 0 := rfl
  have htarget' : ¬ r.targetTokens.length ≤ (r.commit spec.accepted).committedTokens.length :=
    htarget
  have hdraft : r.draftable = min r.remainingTarget.length r.tokenBudgetLeft.toNat := rfl
  have hdraft' : (r.commit spec.accepted).draftable =
      min (r.commit spec.accepted).remainingTarget.length
        (r.commit spec.accepted).tokenBudgetLeft.toNat := rfl
  omega

theorem stepsLeft_lt_of_advance {r : RequestState} {spec : Speculation}
    (hf : r.finished = false) (hb : 1 ≤ rt.effectiveBlockSize r) (hacc : spec.accepted = rt.block r)
    (hsingle : r.draftable = 0 → spec.proposal.length = 1) :
    (r.advance spec).stepsLeft < r.stepsLeft := by
  have hnow : r.stepsLeft = max 1 r.draftable := by
    rw [RequestState.stepsLeft, hf]
    rfl
  have hfinished : (r.advance spec).finished = (r.commit spec.accepted).finishes spec := by
    change (r.finished || _) = _
    rw [hf, Bool.false_or]
  have hthen : (r.advance spec).stepsLeft =
      if (r.commit spec.accepted).finishes spec then 0
      else max 1 (r.commit spec.accepted).draftable := by
    rw [RequestState.stepsLeft, hfinished]
    rfl
  rw [hnow, hthen]
  cases hgo : (r.commit spec.accepted).finishes spec with
  | true =>
    rw [if_pos rfl]
    omega
  | false =>
    have hd : r.draftable ≠ 0 := by
      intro hz
      rw [finishes_of_done hz hacc (hsingle hz)] at hgo
      cases hgo
    obtain ⟨hpos, hlt⟩ := draftable_lt_of_advance hd hb hacc hgo
    rw [if_neg Bool.false_ne_true]
    omega

/-- Every decode step takes one of the steps that its request has left. -/
theorem workers_progress (hv : rt.ValidBlocks) :
    rt.workers.Progress (fun r => 1 ≤ rt.effectiveBlockSize r) RequestState.stepsLeft where
  prefill hb hrun :=
    ⟨prefill_blockSize hrun ▸ hb, (congrArg RequestState.stepsLeft (prefill_tokens hrun).1 :)⟩
  decode := by
    intro i c r r' t c' hb hf hrun
    obtain ⟨spec, hblock⟩ := decode_block hv hb hrun
    refine ⟨hblock.blockSize, ?_⟩
    have heq : r'.stepsLeft = (r.advance spec).stepsLeft :=
      (congrArg RequestState.stepsLeft hblock.tokens :)
    rw [heq]
    exact stepsLeft_lt_of_advance hf hb hblock.accepted hblock.single

theorem stepsLeft_submit (rt : PersistentDecodeRuntime) {r : RequestState} (h : r.Fresh) :
    ((rt.submit r).stepsLeft : Int) = r.stepBound := by
  have htok : (rt.submit r).stepsLeft = r.stepsLeft :=
    (congrArg RequestState.stepsLeft (rt.submit_tokens r) :)
  have hdraft : r.draftable = min r.targetTokens.length (max r.maxNewTokens 0).toNat := by
    rw [RequestState.draftable, RequestState.remainingTarget, RequestState.tokenBudgetLeft,
      h.committed]
    simp
  rw [htok, RequestState.stepsLeft, h.unfinished, RequestState.stepBound]
  simp only [Bool.false_eq_true, if_false]
  omega

theorem sum_stepsLeft (rt : PersistentDecodeRuntime) {requests : List RequestState}
    (h : ∀ r ∈ requests, r.Fresh) :
    (((requests.map rt.submit).map RequestState.stepsLeft).sum : Int) =
      (requests.map RequestState.stepBound).sum := by
  induction requests with
  | nil => rfl
  | cons r requests ih =>
    have hr := stepsLeft_submit rt (h r List.mem_cons_self)
    have hi := ih fun q hq => h q (List.mem_cons_of_mem r hq)
    simp only [List.map_cons, List.sum_cons, Nat.cast_add]
    omega

/-! ### Faults -/

/-- The faults of the cache: no room, or a division by a page size of zero. -/
def CacheFault (pageSize : Int) (e : Fault) : Prop :=
  e = .kvCannotAllocate ∨ (pageSize = 0 ∧ e = .zeroDivision)

theorem pagesNeeded_fault {c : KVCache} {r : RequestState} {total : Int} {e : Fault}
    (h : c.pagesNeeded r total = .error e) : CacheFault c.pageSize e := by
  unfold pagesNeeded at h
  split at h
  · next hz => exact Or.inr ⟨hz.1, (Except.error.inj h).symm⟩
  · cases h

theorem allocate_fault {c c' : KVCache} {r : RequestState} {total : Int} {pinned : Bool}
    {e : Fault} (h : c.allocateForRequest r total pinned = (.error e, c')) :
    CacheFault c.pageSize e := by
  unfold allocateForRequest at h
  split at h
  · next hneed =>
    cases h
    exact pagesNeeded_fault hneed
  · dsimp only at h
    split at h
    · cases h
      exact Or.inl rfl
    · cases h

theorem canAllocate_fault {c : KVCache} {r : RequestState} {n : Int} {e : Fault}
    (h : c.canAllocate r n = .error e) : CacheFault c.pageSize e := by
  unfold canAllocate at h
  cases hneed : c.pagesNeeded r (r.currentTokens + n) with
  | error e' =>
    rw [hneed] at h
    cases h
    exact pagesNeeded_fault hneed
  | ok needed =>
    rw [hneed] at h
    simp only [bind, Except.bind, pure, Except.pure] at h
    split at h <;> cases h

theorem commitAccepted_fault {c c' : KVCache} {r : RequestState} {accepted : List Int} {e : Fault}
    (h : commitAccepted c r accepted = (.error e, c')) : CacheFault c.pageSize e := by
  unfold commitAccepted at h
  split at h
  · cases h
  · split at h
    · next hcan =>
      cases h
      exact canAllocate_fault hcan
    · next able _ =>
      dsimp only at h
      split at h
      · next c₂ hcommit =>
        cases h
        unfold commitTokens at hcommit
        split at hcommit
        · next halloc =>
          cases hcommit
          have hfault := allocate_fault halloc
          cases able with
          | true => exact hfault
          | false =>
            have hsize := (evolves_evictLru (fun _ => True) c
              (c.neededPages r (r.currentTokens + accepted.length))).pageSize
            rw [← hsize]
            exact hfault
        · cases hcommit
      · cases h

/-- A worker can only fail in the cache. -/
theorem decode_fault {idx : Nat} {c c' : KVCache} {r : RequestState} {e : Fault} (h : Inv c)
    (hres : Resident c r) (hblock : 1 ≤ rt.effectiveBlockSize r)
    (hrun : rt.decodeProcess idx c r = (.error e, c')) : CacheFault c.pageSize e := by
  have hrelease := (evolves_releaseRequest (fun _ => True) c r.requestId).pageSize
  cases decodeProcess_error hrun with
  | inl hre =>
    have hfault := allocate_fault (rehydrateIfNeeded_error hre)
    rw [← hrelease]
    exact hfault
  | inr hlater =>
    obtain ⟨ready, reads, prepared, hprepare, hcases⟩ := hlater
    have htaken : Resident c (taken idx r) := hres.congr rfl rfl rfl
    obtain ⟨hm, _, _⟩ := prepare_moves h htaken hprepare
    cases hcases with
    | inl hspec =>
      obtain ⟨c₁, hre, _⟩ := prepare_ok hprepare
      have hsize : rt.effectiveBlockSize ready = rt.effectiveBlockSize r :=
        rt.effectiveBlockSize_congr (rehydrateIfNeeded_tokens hre).2.2
      obtain ⟨spec, hok, _⟩ := rt.speculate_spec ready (hsize ▸ hblock) reads.pageIds
      rw [hok] at hspec
      cases hspec
    | inr hcommit =>
      obtain ⟨spec, _, hcommit⟩ := hcommit
      rw [← hm.evolves.pageSize]
      exact commitAccepted_fault hcommit

/-! ### Whole runs -/

/-- What holds of every state of a run until it fails. -/
structure Running (rt : PersistentDecodeRuntime) (s : RuntimeState) : Prop where
  orderly : rt.workers.Orderly s
  tidy : Tidy rt s
  blocks : ∀ r ∈ s.bag, 1 ≤ rt.effectiveBlockSize r

theorem running_start (hv : rt.ValidBlocks) {requests : List RequestState}
    (hfresh : ∀ r ∈ requests, r.Fresh) : Running rt (rt.start requests) where
  orderly := rt.workers.orderly_start _ (submit_unfinished hfresh)
  tidy := tidy_start rt hfresh
  blocks r hr := by
    obtain ⟨r₀, _, rfl⟩ := submitted_of_start hr
    exact submit_blockSize hv r₀

theorem Running.step (hv : rt.ValidBlocks) {s s' : RuntimeState} (h : Running rt s)
    (hs : rt.workers.step s = some s') : Running rt s' ∨ Workers.Raised s' := by
  by_cases hr : Workers.Raised s'
  · exact Or.inr hr
  · have ho := (rt.workers_lawful.orderly_step h.orderly hs).resolve_right hr
    have hc := (workers_progress hv).costStep h.orderly h.blocks hs
    exact Or.inl ⟨ho, (h.tidy.step hs).resolve_right hr, hc.kept⟩

theorem running_run (hv : rt.ValidBlocks) {requests : List RequestState}
    (hfresh : ∀ r ∈ requests, r.Fresh) {s : RuntimeState}
    (hs : Reaches rt.workers.step (rt.start requests) s) : Running rt s ∨ Workers.Raised s :=
  Workers.invariant_or_raised hs (running_start hv hfresh) fun _ _ _ hu hstep => hu.step hv hstep

/-- With workers of both kinds the loop itself never fails, only the cache under a worker. -/
theorem Running.fault (hp : 1 ≤ rt.config.numPrefillWorkers)
    (hd : 1 ≤ rt.config.numDecodeWorkers) {s : RuntimeState} (h : Running rt s) {e : Fault}
    (hfail : rt.workers.Fails s e) : CacheFault rt.config.pageSize e := by
  rw [← h.tidy.pageSize]
  cases hfail with
  | prefill i r cache next run => exact allocate_fault (prefillProcess_error run)
  | decode i r cache next run =>
    have hbag := PoolState.mem_bag_of_waiting (Workers.nextDecode_waiting next)
    exact decode_fault h.tidy.inv (h.tidy.resident r hbag) (h.blocks r hbag) run
  | noWorker _ none =>
    have hnone : rt.config.numPrefillWorkers = 0 ∨ rt.config.numDecodeWorkers = 0 := none
    omega
  | emptyQueue _ n stepped control empty =>
    have hphase := h.orderly.phase
    simp only [Workers.InPhase, control] at hphase
    rw [empty, List.length_nil] at hphase
    omega

/-- A run that fails fails in its cache. -/
theorem raised_cacheFault (hv : rt.ValidBlocks) (hp : 1 ≤ rt.config.numPrefillWorkers)
    (hd : 1 ≤ rt.config.numDecodeWorkers) {requests : List RequestState}
    (hfresh : ∀ r ∈ requests, r.Fresh) {t : RuntimeState}
    (ht : Reaches rt.workers.step (rt.start requests) t) {e : Fault}
    (he : t.control = .raised e) : CacheFault rt.config.pageSize e := by
  obtain ⟨s, hs, hn, hfail⟩ := Workers.fails_of_run (Workers.not_raised_start _ _ _) ht he
  exact ((running_run hv hfresh hs).resolve_right hn).fault hp hd hfail

/-- The state in which a run that has served every request stops, with its results. -/
structure Drained (requests : List RequestState) (t : RuntimeState)
    (results : List DecodeResult) : Prop where
  returned : t.control = .returned results
  decodeSteps : (t.decodeRr : Int) ≤ (requests.map RequestState.stepBound).sum
  served : (results.map DecodeResult.requestId).Perm (requests.map RequestState.requestId)
  ascending : (results.map DecodeResult.requestId).Pairwise (· < ·)
  prefillQueue : t.prefillQueue.items = []
  decodeQueue : t.decodeQueue.items = []
  livePages : t.cache.pages.items = []
  liveBytes : t.cache.totalLiveKvBytes = 0
  pinnedBytes : t.cache.pinnedKvBytes = 0

theorem tidy_drained {s : RuntimeState} (h : Tidy rt s) (hbag : s.bag = 0) :
    s.cache.pages.items = [] ∧ s.cache.totalLiveKvBytes = 0 ∧ s.cache.pinnedKvBytes = 0 := by
  have hitems : s.cache.pages.items = [] := by
    rw [List.eq_nil_iff_forall_not_mem]
    intro entry hentry
    obtain ⟨r, hr, _⟩ := h.owners entry.1 entry.2 ((Dict.get?_eq_some_iff _ _ _).mpr hentry)
    rw [hbag] at hr
    exact Multiset.notMem_zero r hr
  refine ⟨hitems, ?_, ?_⟩
  · rw [h.inv.accounted.live, Dict.sumBy, hitems]
    rfl
  · rw [h.inv.accounted.pinned, Dict.sumBy, hitems]
    rfl

theorem queues_empty_of_bag {s : RuntimeState} (h : s.bag = 0) :
    s.prefillQueue.items = [] ∧ s.decodeQueue.items = [] := by
  have hcard := congrArg Multiset.card h
  simp only [PoolState.bag, RequestQueue.requests, Multiset.card_add, Multiset.coe_card,
    List.length_map, Multiset.card_zero] at hcard
  exact ⟨List.length_eq_zero_iff.mp (by omega), List.length_eq_zero_iff.mp (by omega)⟩

/-- Every run stops: it fails in its cache, or it has served every request. -/
theorem run_drains (hv : rt.ValidBlocks) (hp : 1 ≤ rt.config.numPrefillWorkers)
    (hd : 1 ≤ rt.config.numDecodeWorkers) {requests : List RequestState}
    (hf : FreshRequests requests) :
    ∃ t ∈ rt.run requests, t.control = .raised .kvCannotAllocate ∨
      (rt.config.pageSize = 0 ∧ t.control = .raised .zeroDivision) ∨
      ∃ results, Drained requests t results := by
  have hsubmitted : ∀ r ∈ requests.map rt.submit,
      rt.workers.finished r = false ∧ 1 ≤ rt.effectiveBlockSize r := by
    intro r hr
    refine ⟨submit_unfinished hf.fresh r hr, ?_⟩
    obtain ⟨r₀, _, rfl⟩ := List.mem_map.mp hr
    exact submit_blockSize hv r₀
  obtain ⟨t, ht, hcases⟩ := rt.workers_lawful.run_stops (workers_progress hv)
    (KVCache.new rt.config.pageSize rt.config.maxPages (some rt.config))
    (requests.map rt.submit) hsubmitted
  have hreach := (mem_eval.mp ht).1
  refine ⟨t, ht, ?_⟩
  cases hcases with
  | inl hraised =>
    obtain ⟨e, he⟩ := hraised
    cases raised_cacheFault hv hp hd hf.fresh hreach he with
    | inl hroom => exact Or.inl (hroom ▸ he)
    | inr hzero => exact Or.inr (Or.inl ⟨hzero.1, hzero.2 ▸ he⟩)
  | inr hreturned =>
    obtain ⟨hc, hbag, _, hsteps⟩ := hreturned
    have hn := Workers.not_raised_of_returned hc
    have htidy := (tidy_run hf.fresh hreach).resolve_right hn
    obtain ⟨hpages, hlive, hpinned⟩ := tidy_drained htidy hbag
    obtain ⟨hprefill, hdecode⟩ := queues_empty_of_bag hbag
    obtain ⟨_, _, hids⟩ := rt.workers_lawful.returned (submit_unfinished hf.fresh) hreach hc
    rw [rt.submit_ids] at hids
    have hids' : (rt.workers.sortResults t.finalResults).map DecodeResult.requestId =
        (requests.map RequestState.requestId).insertionSort (· ≤ ·) := hids
    have hperm := List.perm_insertionSort (· ≤ ·) (requests.map RequestState.requestId)
    refine Or.inr (Or.inr ⟨_, hc, ?_, ?_, ?_, hprefill, hdecode, hpages, hlive, hpinned⟩)
    · rw [← sum_stepsLeft rt hf.fresh]
      exact Int.ofNat_le.mpr hsteps
    · rw [hids']
      exact hperm
    · rw [hids']
      have hsorted := List.pairwise_insertionSort (· ≤ ·) (requests.map RequestState.requestId)
      have hnodup := hperm.nodup_iff.mpr hf.distinct
      exact hsorted.imp₂ (fun _ _ hle hne => lt_of_le_of_ne hle hne) hnodup

/-- Completion and drain: every run stops; it fails in its cache, or it has served every request
within the bound on the decode steps and left nothing behind. -/
theorem completes_and_drains (hv : rt.ValidBlocks) (hp : 1 ≤ rt.config.numPrefillWorkers)
    (hd : 1 ≤ rt.config.numDecodeWorkers) {requests : List RequestState}
    (hf : FreshRequests requests) :
    ∃ t ∈ rt.run requests, t.control = .raised .kvCannotAllocate ∨
      (rt.config.pageSize = 0 ∧ t.control = .raised .zeroDivision) ∨
      ∃ results, Drained requests t results :=
  run_drains hv hp hd hf

/-- With a page size of zero the first prefill divides by zero. -/
theorem zero_page_size_raises :
    ∃ t ∈ run { config := { pageSize := 0 } } [.ask 1 [1] [10]],
      t.control = .raised .zeroDivision ∧ t.control ≠ .raised .kvCannotAllocate ∧
        ∀ results, t.control ≠ .returned results := by
  refine ⟨Runs.runFor _ 2 _, Runs.mem_eval_runFor ?_, ?_, ?_, ?_⟩
  · rfl
  · rfl
  · intro h
    cases h
  · intro results h
    cases h

/-- Two requests with two workers of each kind are served and leave nothing behind. -/
theorem two_requests_complete :
    ∃ t ∈ run { config := { pageSize := 2, numPrefillWorkers := 2, numDecodeWorkers := 2 } }
        [.ask 2 [1] [10, 11, 12, 13, 14], .ask 1 [3, 4] [12]],
      ∃ results, Drained [.ask 2 [1] [10, 11, 12, 13, 14], .ask 1 [3, 4] [12]] t results := by
  let rt : PersistentDecodeRuntime :=
    { config := { pageSize := 2, numPrefillWorkers := 2, numDecodeWorkers := 2 } }
  let requests : List RequestState := [.ask 2 [1] [10, 11, 12, 13, 14], .ask 1 [3, 4] [12]]
  have hreturned : (rt.runFor requests 40).isSome = true := by decide +kernel
  obtain ⟨results, hresults⟩ := Option.isSome_iff_exists.mp hreturned
  obtain ⟨u, hu, hc⟩ := rt.returns_of_runFor hresults
  have hblocks : rt.ValidBlocks := by decide
  have hfresh : FreshRequests requests := by decide
  obtain ⟨t, ht, hcases⟩ := completes_and_drains hblocks (by decide) (by decide) hfresh
  have hn : ∀ e, t.control ≠ .raised e := by
    intro e he
    rw [Part.mem_unique ht hu, hc] at he
    cases he
  refine ⟨t, ht, ?_⟩
  rcases hcases with hroom | ⟨-, hzero⟩ | hdrained
  · exact absurd hroom (hn _)
  · exact absurd hzero (hn _)
  · exact hdrained

end PersistentDecodeRuntime
end ResidentInference

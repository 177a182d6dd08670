import ResidentInference.SchedulerMaps
import ResidentInference.Histories
import Mathlib.Data.Int.CardIntervalMod
import Mathlib.Algebra.BigOperators.Ring.Finset
import Mathlib.Tactic.Linarith
import Mathlib.Algebra.Order.Ring.Rat

/-! The virtual clock of the loop over any workers: every call of a worker takes the time that its
backend reports, the clock goes on by it, and requests, traces and results carry their times. Sums of
times are exact. -/
namespace ResidentInference
open StateTransition

structure WorkerStats where
  processedRequests : Nat := 0
  backendTimeMs : ℚ := 0

def WorkerStats.record (stats : WorkerStats) (latencyMs : ℚ) : WorkerStats where
  processedRequests := stats.processedRequests + 1
  backendTimeMs := stats.backendTimeMs + latencyMs

/-- A request with its times. -/
structure TimedRequest (ρ : Type) where
  request : ρ
  prefillCompleteMs : Option ℚ := none
  firstDecodeMs : Option ℚ := none
  lastDecodeMs : Option ℚ := none

structure TimedTrace (τ : Type) where
  trace : τ
  backendLatencyMs : ℚ

structure TimedResult (τ β : Type) where
  result : β
  traces : List (TimedTrace τ)
  ttftMs : ℚ
  interTokenLatencyMs : List ℚ

/-- The cache of a pool with the clock and the figures of its workers. The clock is
`_virtual_time_ms` together with what the dispatch under way has spent. -/
structure TimedCache (κ : Type) where
  cache : κ
  nowMs : ℚ := 0
  prefillStats : Nat → WorkerStats := fun _ => {}
  decodeStats : Nat → WorkerStats := fun _ => {}

/-- How long the calls of the workers take, on what they are called with. A decode step takes time,
so that a time in a finished request is never zero. -/
structure Latencies (ρ κ τ : Type) where
  prefillMs : ρ → ℚ
  decodeMs : κ → ρ → τ → ℚ
  accepts : τ → Bool
  prefill_nonneg : ∀ r, 0 ≤ prefillMs r
  decode_pos : ∀ c r t, 0 < decodeMs c r t

namespace Workers
variable {ρ κ τ β η : Type}

/-- The workers with a clock. -/
def clocked (w : Workers ρ κ τ β η) (lat : Latencies ρ κ τ) :
    Workers (TimedRequest ρ) (TimedCache κ) (TimedTrace τ) (TimedResult τ β) η where
  numPrefill := w.numPrefill
  numDecode := w.numDecode
  requestId r := w.requestId r.request
  priority r := w.priority r.request
  finished r := w.finished r.request
  prefill i c r :=
    let latencyMs := lat.prefillMs r.request
    match w.prefill i c.cache r.request with
    | (.error e, cache) => (.error e, { c with cache })
    | (.ok request, cache) =>
      (.ok { r with request, prefillCompleteMs := some (c.nowMs + latencyMs) },
        { c with
          cache
          nowMs := c.nowMs + latencyMs
          prefillStats := Function.update c.prefillStats i ((c.prefillStats i).record latencyMs) })
  decode i c r :=
    match w.decode i c.cache r.request with
    | (.error e, cache) => (.error e, { c with cache })
    | (.ok (request, trace), cache) =>
      let latencyMs := lat.decodeMs c.cache r.request trace
      (.ok ({ r with
          request
          firstDecodeMs := some (r.firstDecodeMs.getD (c.nowMs + latencyMs))
          lastDecodeMs := some (c.nowMs + latencyMs) }, ⟨trace, latencyMs⟩),
        { c with
          cache
          nowMs := c.nowMs + latencyMs
          decodeStats := Function.update c.decodeStats i ((c.decodeStats i).record latencyMs) })
  handoff i j r := w.handoff i j r.request
  release c rid := { c with cache := w.release c.cache rid }
  buildResult r traces :=
    { result := w.buildResult r.request (traces.map TimedTrace.trace)
      traces
      ttftMs := r.firstDecodeMs.getD 0 - r.prefillCompleteMs.getD 0
      interTokenLatencyMs :=
        (traces.filter fun t => lat.accepts t.trace).map TimedTrace.backendLatencyMs }
  resultId b := w.resultId b.result

variable {w : Workers ρ κ τ β η} {lat : Latencies ρ κ τ}

/-- Without the times the workers are the given ones. -/
def unclocked (w : Workers ρ κ τ β η) (lat : Latencies ρ κ τ) :
    Projection (w.clocked lat) w where
  request := TimedRequest.request
  cache := TimedCache.cache
  trace := TimedTrace.trace
  result := TimedResult.result
  numPrefill := rfl
  numDecode := rfl
  requestId _ := rfl
  priority _ := rfl
  finished _ := rfl
  prefill i c r := by
    dsimp only [clocked]
    obtain ⟨res, cache⟩ := w.prefill i c.cache r.request
    cases res <;> rfl
  decode i c r := by
    dsimp only [clocked]
    obtain ⟨res, cache⟩ := w.decode i c.cache r.request
    cases res <;> rfl
  handoff _ _ _ := rfl
  release _ _ := rfl
  buildResult _ _ := rfl
  resultId _ := rfl

/-! ### One call of a worker -/

theorem clocked_prefill_ok {i : Nat} {c c' : TimedCache κ} {r r' : TimedRequest ρ}
    (h : (w.clocked lat).prefill i c r = (.ok r', c')) :
    w.prefill i c.cache r.request = (.ok r'.request, c'.cache) ∧
      r' = { r with
        request := r'.request, prefillCompleteMs := some (c.nowMs + lat.prefillMs r.request) } ∧
      c' = { c with
        cache := c'.cache
        nowMs := c.nowMs + lat.prefillMs r.request
        prefillStats := Function.update c.prefillStats i
          ((c.prefillStats i).record (lat.prefillMs r.request)) } := by
  dsimp only [clocked] at h
  cases hrun : w.prefill i c.cache r.request with
  | mk res cache =>
    rw [hrun] at h
    cases res with
    | error e => cases h
    | ok request =>
      cases h
      exact ⟨rfl, rfl, rfl⟩

theorem clocked_decode_ok {i : Nat} {c c' : TimedCache κ} {r r' : TimedRequest ρ}
    {t : TimedTrace τ} (h : (w.clocked lat).decode i c r = (.ok (r', t), c')) :
    w.decode i c.cache r.request = (.ok (r'.request, t.trace), c'.cache) ∧
      t.backendLatencyMs = lat.decodeMs c.cache r.request t.trace ∧
      r' = { r with
        request := r'.request
        firstDecodeMs := some (r.firstDecodeMs.getD (c.nowMs + t.backendLatencyMs))
        lastDecodeMs := some (c.nowMs + t.backendLatencyMs) } ∧
      c' = { c with
        cache := c'.cache
        nowMs := c.nowMs + t.backendLatencyMs
        decodeStats := Function.update c.decodeStats i
          ((c.decodeStats i).record t.backendLatencyMs) } := by
  dsimp only [clocked] at h
  cases hrun : w.decode i c.cache r.request with
  | mk res cache =>
    rw [hrun] at h
    cases res with
    | error e => cases h
    | ok p =>
      cases h
      exact ⟨rfl, rfl, rfl, rfl⟩

theorem clocked_lawful (hw : w.Lawful) : (w.clocked lat).Lawful where
  prefillId h := hw.prefillId (clocked_prefill_ok h).1
  prefillFinished h := hw.prefillFinished (clocked_prefill_ok h).1
  decodeId h := hw.decodeId (clocked_decode_ok h).1
  resultId r traces := hw.resultId r.request (traces.map TimedTrace.trace)

/-! ### Turns and times -/

/-- The time that the first `n` workers have been busy. -/
def busyMs (n : Nat) (stats : Nat → WorkerStats) : ℚ :=
  ∑ i ∈ Finset.range n, (stats i).backendTimeMs

theorem busyMs_record {n i : Nat} (hi : i < n) (stats : Nat → WorkerStats) (latencyMs : ℚ) :
    busyMs n (Function.update stats i ((stats i).record latencyMs)) =
      busyMs n stats + latencyMs := by
  have hterm (j : Nat) :
      (Function.update stats i ((stats i).record latencyMs) j).backendTimeMs =
        (stats j).backendTimeMs + if j = i then latencyMs else 0 := by
    by_cases hj : j = i
    · subst hj
      rw [Function.update_self, if_pos rfl]
      rfl
    · rw [Function.update_of_ne hj, if_neg hj, add_zero]
  simp only [busyMs, hterm, Finset.sum_add_distrib, Finset.sum_ite_eq', Finset.mem_range, hi,
    if_true]

/-- The turns of worker `i` among the first `m` turns of `n` workers that take turns. -/
def turnsOf (n m i : Nat) : Nat := m.count fun k => k % n = i

theorem turnsOf_eq {n i : Nat} (hi : i < n) (m : Nat) :
    turnsOf n m i = m / n + if i < m % n then 1 else 0 := by
  have hcount := Nat.count_modEq_card m (Nat.zero_lt_of_lt hi) i
  rw [Nat.mod_eq_of_lt hi] at hcount
  rw [← hcount, turnsOf]
  congr 1
  funext k
  rw [Nat.ModEq, Nat.mod_eq_of_lt hi]

theorem turnsOf_record {n m : Nat} {stats : Nat → WorkerStats} (latencyMs : ℚ)
    (h : ∀ i, (stats i).processedRequests = turnsOf n m i) (i : Nat) :
    (Function.update stats (m % n) ((stats (m % n)).record latencyMs) i).processedRequests =
      turnsOf n (m+1) i := by
  rw [turnsOf, Nat.count_succ]
  by_cases hi : i = m % n
  · subst hi
    rw [Function.update_self, if_pos rfl]
    exact congrArg Nat.succ (h _)
  · rw [Function.update_of_ne hi, if_neg fun heq => hi heq.symm]
    exact h i

/-- The clock and the figures of the workers agree, and no time lies ahead of the clock. -/
structure OnTime (w : Workers ρ κ τ β η)
    (s : PoolState (TimedRequest ρ) (TimedCache κ) (TimedTrace τ) (TimedResult τ β) η) : Prop where
  now : s.cache.nowMs =
    busyMs w.numPrefill s.cache.prefillStats + busyMs w.numDecode s.cache.decodeStats
  started : 0 ≤ s.cache.nowMs
  prefills : ∀ i, (s.cache.prefillStats i).processedRequests = turnsOf w.numPrefill s.prefillRr i
  decodes : ∀ i, (s.cache.decodeStats i).processedRequests = turnsOf w.numDecode s.decodeRr i
  queued : ∀ r ∈ s.prefillQueue.requests, r.firstDecodeMs = none ∧ r.lastDecodeMs = none
  prefilled : ∀ r ∈ s.prefilled, ∃ p, r.prefillCompleteMs = some p ∧ 0 ≤ p ∧ p ≤ s.cache.nowMs ∧
    ∀ l, r.lastDecodeMs = some l → l ≤ s.cache.nowMs

theorem onTime_start (w : Workers ρ κ τ β η) (lat : Latencies ρ κ τ) (cache : κ)
    {requests : List (TimedRequest ρ)}
    (h : ∀ r ∈ requests, r.firstDecodeMs = none ∧ r.lastDecodeMs = none) :
    OnTime w ((w.clocked lat).start ⟨cache, 0, fun _ => {}, fun _ => {}⟩ requests) where
  now := by simp [start, busyMs]
  started := le_rfl
  prefills _ := by simp [start, turnsOf]
  decodes _ := by simp [start, turnsOf]
  queued r hr := by
    have hqueue := (w.clocked lat).start_queue requests RequestQueue.empty
    have hmem : r ∈ (requests : Multiset (TimedRequest ρ)) := by
      have hr' := Multiset.mem_coe.mpr hr
      rw [show ((w.clocked lat).start ⟨cache, 0, fun _ => {}, fun _ => {}⟩ requests).prefillQueue =
        requests.foldl (fun q r => q.push ((w.clocked lat).priority r) r) RequestQueue.empty from
          rfl, hqueue] at hr'
      simpa [RequestQueue.empty, RequestQueue.requests] using hr'
    exact h r (Multiset.mem_coe.mp hmem)
  prefilled r hr := absurd hr (Multiset.notMem_zero r)

variable {s s' : PoolState (TimedRequest ρ) (TimedCache κ) (TimedTrace τ) (TimedResult τ β) η}

/-- A request that has been through its prefill stays in time when the clock goes on. -/
theorem OnTime.later (h : OnTime w s) {now : ℚ} (hle : s.cache.nowMs ≤ now) {r : TimedRequest ρ}
    (hr : r ∈ s.prefilled) : ∃ p, r.prefillCompleteMs = some p ∧ 0 ≤ p ∧ p ≤ now ∧
      ∀ l, r.lastDecodeMs = some l → l ≤ now := by
  obtain ⟨p, hp, hpos, hnow, hlast⟩ := h.prefilled r hr
  exact ⟨p, hp, hpos, hnow.trans hle, fun l hl => (hlast l hl).trans hle⟩

theorem OnTime.prefilled_step (h : OnTime w s) (hs : (w.clocked lat).step s = some s') :
    (∀ r ∈ s'.prefilled, ∃ p, r.prefillCompleteMs = some p ∧ 0 ≤ p ∧ p ≤ s'.cache.nowMs ∧
      ∀ l, r.lastDecodeMs = some l → l ≤ s'.cache.nowMs) ∨ Raised s' := by
  cases step_handled hs with
  | same cache prefilled =>
    rw [cache, prefilled]
    exact Or.inl h.prefilled
  | joined i r r' next run prefilled =>
    obtain ⟨-, hr', hc'⟩ := clocked_prefill_ok run
    have hnow : s'.cache.nowMs = s.cache.nowMs + lat.prefillMs r.request := by rw [hc']
    have hpos := lat.prefill_nonneg r.request
    have hnew : r'.prefillCompleteMs = some s'.cache.nowMs := by rw [hr', hnow]
    have hlast : r'.lastDecodeMs = none := by
      rw [hr']
      exact (h.queued r (PoolState.mem_prefillQueue_of_nextPrefill next)).2
    rw [prefilled]
    refine Or.inl (Multiset.forall_mem_cons.mpr ⟨?_, fun q hq => h.later (by linarith) hq⟩)
    refine ⟨s'.cache.nowMs, hnew, ?_, le_rfl, fun l hl => ?_⟩
    · rw [hnow]
      exact add_nonneg h.started hpos
    · rw [hlast] at hl
      cases hl
  | decoded i r r' trace rest next prefilled run prefilled' =>
    obtain ⟨-, hms, hr', hc'⟩ := clocked_decode_ok run
    have hnow : s'.cache.nowMs = s.cache.nowMs + trace.backendLatencyMs := by rw [hc']
    have hpos : 0 < trace.backendLatencyMs := hms ▸ lat.decode_pos _ _ _
    have hle : s.cache.nowMs ≤ s'.cache.nowMs := by linarith
    rw [prefilled']
    refine Or.inl (Multiset.forall_mem_cons.mpr ⟨?_, fun q hq => ?_⟩)
    · obtain ⟨p, hp, hpnonneg, hple, -⟩ := h.later hle (nextDecode_prefilled next)
      refine ⟨p, ?_, hpnonneg, hple, fun l hl => ?_⟩
      · rw [hr']
        exact hp
      · rw [hr', ← hnow] at hl
        exact (Option.some.inj hl).ge
    · exact h.later hle (prefilled ▸ Multiset.mem_cons_of_mem hq)
  | left r bag prefilled cache =>
    refine Or.inl fun q hq => ?_
    have hnow : s'.cache.nowMs = s.cache.nowMs := by rw [cache]; rfl
    rw [hnow]
    exact h.prefilled q (prefilled ▸ Multiset.mem_cons_of_mem hq)
  | failed control => exact Or.inr control

variable (w lat) in
/-- Collecting a trace takes no time and no turn. -/
theorem collect_clock
    (s : PoolState (TimedRequest ρ) (TimedCache κ) (TimedTrace τ) (TimedResult τ β) η)
    (r : TimedRequest ρ) (trace : TimedTrace τ) (rest : List (TimedRequest ρ × TimedTrace τ)) :
    let s' := (w.clocked lat).collect s r trace rest
    (s'.cache.nowMs = s.cache.nowMs ∧ s'.cache.prefillStats = s.cache.prefillStats ∧
        s'.cache.decodeStats = s.cache.decodeStats) ∧
      s'.prefillRr = s.prefillRr ∧ s'.decodeRr = s.decodeRr := by
  simp only [collect]
  split <;> exact ⟨⟨rfl, rfl, rfl⟩, rfl, rfl⟩

theorem OnTime.step (h : OnTime w s) (hs : (w.clocked lat).step s = some s') :
    OnTime w s' ∨ Raised s' := by
  have hprefilled := h.prefilled_step hs
  cases (w.clocked lat).step_turn hs with
  | returns | begins | prefillsDone | handsOver | handoversDone | decodesDone | collectsDone =>
    exact hprefilled.imp_left fun hall =>
      ⟨h.now, h.started, h.prefills, h.decodes, h.queued, hall⟩
  | prefills completed r r' queue cache hc hp hpre hdec hr =>
    obtain ⟨-, -, hcache⟩ := clocked_prefill_ok hr
    have hpos := lat.prefill_nonneg r.request
    have hworker : s.prefillRr % w.numPrefill < w.numPrefill :=
      Nat.mod_lt _ (Nat.pos_of_ne_zero hpre)
    refine hprefilled.imp_left fun hall => ⟨?_, ?_, ?_, ?_, fun q hq => h.queued q ?_, hall⟩
    · rw [hcache]
      dsimp only [clocked]
      rw [busyMs_record hworker, h.now]
      ring
    · rw [hcache]
      exact add_nonneg h.started hpos
    · rw [hcache]
      exact turnsOf_record _ h.prefills
    · rw [hcache]
      exact h.decodes
    · rw [(RequestQueue.pop_some hp).1]
      exact List.mem_cons_of_mem _ hq
  | decodes n stepped r r' trace queue cache hc hp hdec hr =>
    obtain ⟨-, hms, -, hcache⟩ := clocked_decode_ok hr
    have hpos : 0 < trace.backendLatencyMs := hms ▸ lat.decode_pos _ _ _
    have hworker : s.decodeRr % w.numDecode < w.numDecode :=
      Nat.mod_lt _ (Nat.pos_of_ne_zero hdec)
    refine hprefilled.imp_left fun hall => ⟨?_, ?_, ?_, ?_, h.queued, hall⟩
    · rw [hcache]
      dsimp only [clocked]
      rw [busyMs_record hworker, h.now]
      ring
    · rw [hcache]
      exact add_nonneg h.started hpos.le
    · rw [hcache]
      exact h.prefills
    · rw [hcache]
      exact turnsOf_record _ h.decodes
  | collects r trace rest hc =>
    have hqueue := ((w.clocked lat).collect_control s r trace rest).1
    obtain ⟨⟨hnow, hpre, hdec⟩, hprr, hdrr⟩ := collect_clock w lat s r trace rest
    refine hprefilled.imp_left fun hall => ⟨?_, ?_, ?_, ?_, ?_, hall⟩
    · rw [hnow, hpre, hdec, h.now]
    · rw [hnow]
      exact h.started
    · rw [hpre, hprr]
      exact h.prefills
    · rw [hdec, hdrr]
      exact h.decodes
    · rw [hqueue]
      exact h.queued
  | fails _ e hc _ _ _ => exact Or.inr ⟨e, hc⟩

theorem onTime_run {cache : κ} {requests : List (TimedRequest ρ)}
    (h : ∀ r ∈ requests, r.firstDecodeMs = none ∧ r.lastDecodeMs = none)
    (hs : Reaches (w.clocked lat).step
      ((w.clocked lat).start ⟨cache, 0, fun _ => {}, fun _ => {}⟩ requests) s) :
    OnTime w s ∨ Raised s :=
  invariant_or_raised hs (onTime_start w lat cache h) fun _ _ _ hu hstep => hu.step hstep

/-! ### The times of a request -/

/-- The latencies of the steps of a request, the first one aside. -/
def laterMs (traces : List (TimedTrace τ)) : ℚ :=
  (traces.tail.map TimedTrace.backendLatencyMs).sum

/-- The times of a request and the latencies of its steps so far: the first step ends after the
prefill by its own latency at least, and the others take their time after it. -/
structure Elapsed (w : Workers ρ κ τ β η) (r : TimedRequest ρ) (traces : List (TimedTrace τ)) :
    Prop where
  fresh : traces = [] → r.firstDecodeMs = none ∧ r.lastDecodeMs = none
  unfinished : traces = [] → w.finished r.request = false
  positive : ∀ t ∈ traces, 0 < t.backendLatencyMs
  steps : ∀ t ∈ traces.head?, ∃ p f l, r.prefillCompleteMs = some p ∧ r.firstDecodeMs = some f ∧
    r.lastDecodeMs = some l ∧ 0 ≤ p ∧ p + t.backendLatencyMs ≤ f ∧ f + laterMs traces ≤ l

theorem Elapsed.prefill (hw : w.Lawful) (hon : OnTime w s) {i : Nat} {r r' : TimedRequest ρ}
    {c' : TimedCache κ} {traces : List (TimedTrace τ)} (h : Elapsed w r traces)
    (hnext : s.nextPrefill = some r) (hrun : (w.clocked lat).prefill i s.cache r = (.ok r', c')) :
    Elapsed w r' traces := by
  obtain ⟨hprefill, hr', -⟩ := clocked_prefill_ok hrun
  obtain ⟨hfirst, hlast⟩ := hon.queued r (PoolState.mem_prefillQueue_of_nextPrefill hnext)
  have hnil : traces = [] := by
    cases traces with
    | nil => rfl
    | cons t rest =>
      obtain ⟨p, f, l, -, hf, -⟩ := h.steps t rfl
      rw [hfirst] at hf
      cases hf
  subst hnil
  refine ⟨fun _ => ?_, fun _ => ?_, fun t ht => absurd ht List.not_mem_nil, fun t ht => nomatch ht⟩
  · rw [hr']
    exact ⟨hfirst, hlast⟩
  · rw [hw.prefillFinished hprefill]
    exact h.unfinished rfl

theorem Elapsed.decode (hon : OnTime w s) {i : Nat} {r r' : TimedRequest ρ} {t : TimedTrace τ}
    {c' : TimedCache κ} {traces : List (TimedTrace τ)} (h : Elapsed w r traces)
    (hnext : s.nextDecode = some r)
    (hrun : (w.clocked lat).decode i s.cache r = (.ok (r', t), c')) :
    Elapsed w r' (traces ++ [t]) := by
  obtain ⟨-, hms, hr', -⟩ := clocked_decode_ok hrun
  obtain ⟨p, hp, hpnonneg, hple, hlast⟩ := hon.prefilled r (nextDecode_prefilled hnext)
  have hpos : 0 < t.backendLatencyMs := hms ▸ lat.decode_pos _ _ _
  have hprefill : r'.prefillCompleteMs = some p := by rw [hr', hp]
  have hlast' : r'.lastDecodeMs = some (s.cache.nowMs + t.backendLatencyMs) := by rw [hr']
  refine ⟨fun hnil => absurd hnil (by simp), fun hnil => absurd hnil (by simp), fun u hu => ?_,
    fun u hu => ?_⟩
  · rw [List.mem_append, List.mem_singleton] at hu
    cases hu with
    | inl hold => exact h.positive u hold
    | inr hnew => exact hnew ▸ hpos
  · cases traces with
    | nil =>
      obtain rfl : t = u := Option.some.inj hu
      have hfirst : r'.firstDecodeMs = some (s.cache.nowMs + t.backendLatencyMs) := by
        rw [hr', (h.fresh rfl).1]
        rfl
      refine ⟨p, _, _, hprefill, hfirst, hlast', hpnonneg, by linarith, ?_⟩
      simp [laterMs]
    | cons t₀ rest =>
      obtain rfl : t₀ = u := Option.some.inj hu
      obtain ⟨p', f, l, hp', hf, hl, -, hpf, hfl⟩ := h.steps t₀ rfl
      obtain rfl : p = p' := Option.some.inj (hp.symm.trans hp')
      have hfirst : r'.firstDecodeMs = some f := by rw [hr', hf]; rfl
      have hle := hlast l hl
      refine ⟨p, f, _, hprefill, hfirst, hlast', hpnonneg, hpf, ?_⟩
      simp only [laterMs, List.cons_append, List.tail_cons, List.map_append, List.map_singleton,
        List.sum_append, List.sum_singleton] at hfl ⊢
      linarith

theorem elapsed_run (hw : w.Lawful) {cache : κ} {requests : List (TimedRequest ρ)}
    (hids : (requests.map fun r => w.requestId r.request).Nodup)
    (hfresh : ∀ r ∈ requests, w.finished r.request = false)
    (huntimed : ∀ r ∈ requests, r.firstDecodeMs = none ∧ r.lastDecodeMs = none)
    (hs : Reaches (w.clocked lat).step
      ((w.clocked lat).start ⟨cache, 0, fun _ => {}, fun _ => {}⟩ requests) s) :
    Histories (w.clocked lat) (Elapsed w) s := by
  have hon {u} (hu : Reaches (w.clocked lat).step
      ((w.clocked lat).start ⟨cache, 0, fun _ => {}, fun _ => {}⟩ requests) u)
      (hn : ¬ Raised u) : OnTime w u := (onTime_run huntimed hu).resolve_right hn
  refine (clocked_lawful hw).histories hids (fun r hr => ⟨hfresh r hr, ?_⟩) ?_ ?_ hs
  · exact ⟨fun _ => huntimed r hr, fun _ => hfresh r hr, fun t ht => absurd ht List.not_mem_nil,
      fun t ht => by cases ht⟩
  · intro u i r r' c' traces hu hnext h hrun
    exact h.prefill hw (hon hu (not_raised_of_next (Or.inl hnext))) hnext hrun
  · intro u i r r' t c' traces hu hnext _ h hrun
    exact h.decode (hon hu (not_raised_of_next (Or.inr hnext))) hnext hrun

/-- The clock never goes back. -/
theorem nowMs_step (hs : (w.clocked lat).step s = some s') :
    s.cache.nowMs ≤ s'.cache.nowMs ∨ Raised s' := by
  cases step_handled hs with
  | same cache _ => exact Or.inl (by rw [cache])
  | joined i r r' _ run _ =>
    obtain ⟨-, -, hcache⟩ := clocked_prefill_ok run
    rw [hcache]
    exact Or.inl (le_add_of_nonneg_right (lat.prefill_nonneg _))
  | decoded i r r' trace rest _ _ run _ =>
    obtain ⟨-, hms, -, hcache⟩ := clocked_decode_ok run
    rw [hcache]
    exact Or.inl (le_add_of_nonneg_right (hms ▸ (lat.decode_pos _ _ _).le))
  | left r _ _ cache =>
    rw [cache]
    exact Or.inl le_rfl
  | failed control => exact Or.inr control

/-- The times of a result: it waited for its first step at least as long as that step took, its
tokens came at positive distances, and all its steps lie before `now`. -/
structure ResultTimes (b : TimedResult τ β) (now : ℚ) : Prop where
  first : ∃ t ∈ b.traces.head?, 0 < t.backendLatencyMs ∧ t.backendLatencyMs ≤ b.ttftMs
  distances : ∀ ms ∈ b.interTokenLatencyMs, 0 < ms
  within : b.ttftMs + laterMs b.traces ≤ now

/-- The result of a finished request whose steps are over by `now`. -/
theorem Elapsed.resultTimes {r : TimedRequest ρ} {traces : List (TimedTrace τ)}
    (h : Elapsed w r traces) (hdone : w.finished r.request = true) {now : ℚ}
    (hnow : ∀ l, r.lastDecodeMs = some l → l ≤ now) :
    ResultTimes ((w.clocked lat).buildResult r traces) now := by
  have hne : traces ≠ [] := by
    intro hnil
    have hopen := h.unfinished hnil
    rw [hdone] at hopen
    cases hopen
  obtain ⟨t, rest, rfl⟩ := List.exists_cons_of_ne_nil hne
  obtain ⟨p, f, l, hp, hf, hl, hpnonneg, hpf, hfl⟩ := h.steps t rfl
  have httft : ((w.clocked lat).buildResult r (t :: rest)).ttftMs = f - p := by
    simp only [clocked, hp, hf, Option.getD_some]
  have hlast := hnow l hl
  refine ⟨⟨t, rfl, h.positive t List.mem_cons_self, ?_⟩, fun ms hms => ?_, ?_⟩
  · rw [httft]
    linarith
  · obtain ⟨u, hu, rfl⟩ := List.mem_map.mp hms
    exact h.positive u (List.mem_of_mem_filter hu)
  · rw [httft]
    have hsame : laterMs ((w.clocked lat).buildResult r (t :: rest)).traces =
        laterMs (t :: rest) := rfl
    rw [hsame]
    linarith

theorem resultTimes_step (h : ∀ b ∈ s.finalResults, ResultTimes b s.cache.nowMs)
    (hon : OnTime w s) (hist : Histories (w.clocked lat) (Elapsed w) s)
    (hs : (w.clocked lat).step s = some s') :
    (∀ b ∈ s'.finalResults, ResultTimes b s'.cache.nowMs) ∨ Raised s' := by
  refine (nowMs_step hs).imp_left fun hle => ?_
  have hold : ∀ b ∈ s.finalResults, ResultTimes b s'.cache.nowMs := fun b hb =>
    ⟨(h b hb).first, (h b hb).distances, (h b hb).within.trans hle⟩
  cases step_files hs with
  | silent _ final _ _ => exact final ▸ hold
  | prefilled _ _ _ _ _ _ final _ _ => exact final ▸ hold
  | decoded _ _ _ _ _ _ _ final _ _ => exact final ▸ hold
  | collected r trace rest hc hcollect =>
    have hmem : (r, trace) ∈ s.control.stepped := by
      rw [hc]
      exact List.mem_cons_self
    have hself : Elapsed w r (((s.traces.set ((w.clocked lat).requestId r)
        (s.filed ((w.clocked lat).requestId r) ++ [trace])).get?
          ((w.clocked lat).requestId r)).getD []) := by
      rw [Dict.get?_set, if_pos rfl, Option.getD_some]
      exact hist.stepped (r, trace) hmem
    have hprefilled : r ∈ s.prefilled := by
      rw [PoolState.prefilled, hc]
      exact Multiset.mem_add.mpr (Or.inl (Multiset.mem_coe.mpr List.mem_cons_self))
    obtain ⟨p, -, -, -, hlast⟩ := hon.prefilled r hprefilled
    obtain ⟨⟨hnow, -⟩, -⟩ := collect_clock w lat s r trace rest
    intro b hb
    subst hcollect
    by_cases hf : w.finished r.request = true
    · have hfinal : ((w.clocked lat).collect s r trace rest).finalResults = s.finalResults ++
          [(w.clocked lat).buildResult r (((s.traces.set ((w.clocked lat).requestId r)
            (s.filed ((w.clocked lat).requestId r) ++ [trace])).get?
              ((w.clocked lat).requestId r)).getD [])] := by
        rw [collect, if_pos (show (w.clocked lat).finished r = true from hf)]
        rfl
      rw [hfinal, List.mem_append, List.mem_singleton] at hb
      cases hb with
      | inl hbefore => exact hold b hbefore
      | inr hnew =>
        rw [hnew]
        exact hself.resultTimes hf fun l hl => hnow ▸ hlast l hl
    · have hfinal : ((w.clocked lat).collect s r trace rest).finalResults = s.finalResults := by
        rw [collect, if_neg (show ¬ (w.clocked lat).finished r = true from hf)]
      exact hold b (hfinal ▸ hb)

end Workers
end ResidentInference

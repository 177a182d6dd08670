import ResidentInference.ClockedWorkers
import ResidentInference.RuntimeRuns

/-! The virtual time of the persistent runtime on the CPU stub backend: the clock, the figures of
the workers and the times of the results. -/
namespace ResidentInference
open StateTransition Workers

/-- The latencies of the CPU stub backend, which sleeps for none of them. -/
structure BackendLatencyConfig where
  prefillMs : ℚ := 1
  decodeMs : ℚ := 1 / 4
  verifyMs : ℚ := 3 / 20
  prefill_nonneg : 0 ≤ prefillMs := by norm_num
  decode_pos : 0 < decodeMs := by norm_num
  verify_nonneg : 0 ≤ verifyMs := by norm_num

namespace BackendLatencyConfig

/-- The latencies of a backend that is given none. -/
def standard : BackendLatencyConfig := {}

variable (g : BackendLatencyConfig)

def prefillLatency (tokens : Nat) : ℚ := g.prefillMs + 1 / 100 * tokens
def decodeLatency (kvPages : Nat) : ℚ := g.decodeMs + 1 / 100 * kvPages
def verifyLatency (kvPages : Nat) : ℚ := g.verifyMs + 1 / 200 * kvPages

theorem prefillLatency_nonneg (tokens : Nat) : 0 ≤ g.prefillLatency tokens :=
  add_nonneg g.prefill_nonneg (by positivity)

theorem decodeLatency_pos (kvPages : Nat) : 0 < g.decodeLatency kvPages :=
  add_pos_of_pos_of_nonneg g.decode_pos (by positivity)

theorem verifyLatency_nonneg (kvPages : Nat) : 0 ≤ g.verifyLatency kvPages :=
  add_nonneg g.verify_nonneg (by positivity)

/-- The time of a decode step: of the prefill that rehydrates a request without its pages, of the
decode and of the last verification. That one always reaches the backend: after a block that is
rejected outright it is that of the serial fallback. -/
def latencies : Latencies RequestState KVCache DecodeStepTrace where
  prefillMs r := g.prefillLatency r.promptTokens.length
  decodeMs c r t :=
    (if c.hasSnapshot r then 0 else g.prefillLatency r.fullSequence.length) +
      g.decodeLatency t.selectedKvPageIds.length + g.verifyLatency t.selectedKvPageIds.length
  accepts t := decide (t.acceptedTokens ≠ [])
  prefill_nonneg r := g.prefillLatency_nonneg _
  decode_pos c r t := by
    have hrehydrate : 0 ≤ if c.hasSnapshot r then 0 else g.prefillLatency r.fullSequence.length := by
      split
      · exact le_rfl
      · exact g.prefillLatency_nonneg _
    have hdecode := g.decodeLatency_pos t.selectedKvPageIds.length
    have hverify := g.verifyLatency_nonneg t.selectedKvPageIds.length
    linarith

end BackendLatencyConfig

abbrev TimedRuntimeState :=
  PoolState (TimedRequest RequestState) (TimedCache KVCache) (TimedTrace DecodeStepTrace)
    (TimedResult DecodeStepTrace DecodeResult) WorkerHandoff

namespace PersistentDecodeRuntime
variable (rt : PersistentDecodeRuntime) (g : BackendLatencyConfig)

def timedWorkers : Workers (TimedRequest RequestState) (TimedCache KVCache)
    (TimedTrace DecodeStepTrace) (TimedResult DecodeStepTrace DecodeResult) WorkerHandoff :=
  rt.workers.clocked g.latencies

def timedStart (requests : List RequestState) : TimedRuntimeState :=
  (rt.timedWorkers g).start
    ⟨KVCache.new rt.config.pageSize rt.config.maxPages (some rt.config), 0, fun _ => {}, fun _ => {}⟩
    (requests.map fun r => { request := rt.submit r })

/-- `run` with its virtual time. -/
def timedRun (requests : List RequestState) : Part TimedRuntimeState :=
  eval (rt.timedWorkers g).step (rt.timedStart g requests)

/-- The state of the runtime without its times. -/
def untimed : TimedRuntimeState → RuntimeState := (rt.workers.unclocked g.latencies).state

theorem untimed_start (requests : List RequestState) :
    rt.untimed g (rt.timedStart g requests) = rt.start requests := by
  have hstart := (rt.workers.unclocked g.latencies).start
    ⟨KVCache.new rt.config.pageSize rt.config.maxPages (some rt.config), 0, fun _ => {}, fun _ => {}⟩
    (requests.map fun r => { request := rt.submit r })
  rw [List.map_map] at hstart
  exact hstart

/-- The times steer nothing: without them a run is that of the runtime without a clock. -/
theorem run_eq_timedRun (requests : List RequestState) :
    rt.run requests = (rt.timedRun g requests).map (rt.untimed g) := by
  have heval := (rt.workers.unclocked g.latencies).eval_eq (rt.timedStart g requests)
  rw [run, ← rt.untimed_start g]
  exact heval

variable {rt g}

/-- In every state of a run that has not raised the clock is the time that all the workers have been
busy, the workers of each kind have had their turns in rotation, and the times of every result fit
into the clock: the first token comes no sooner after the prefill than its step takes, every later
distance is positive. -/
theorem clock_accounts {requests : List RequestState} (hf : FreshRequests requests)
    {s : TimedRuntimeState}
    (hs : Reaches (rt.timedWorkers g).step (rt.timedStart g requests) s) :
    (s.cache.nowMs = busyMs rt.config.numPrefillWorkers s.cache.prefillStats +
          busyMs rt.config.numDecodeWorkers s.cache.decodeStats ∧
        (∀ i < rt.config.numPrefillWorkers, (s.cache.prefillStats i).processedRequests =
          s.prefillRr / rt.config.numPrefillWorkers +
            if i < s.prefillRr % rt.config.numPrefillWorkers then 1 else 0) ∧
        (∀ i < rt.config.numDecodeWorkers, (s.cache.decodeStats i).processedRequests =
          s.decodeRr / rt.config.numDecodeWorkers +
            if i < s.decodeRr % rt.config.numDecodeWorkers then 1 else 0) ∧
        ∀ b ∈ s.finalResults, ResultTimes b s.cache.nowMs) ∨
      Raised s := by
  have huntimed : ∀ r ∈ requests.map fun r => ({ request := rt.submit r } : TimedRequest _),
      r.firstDecodeMs = none ∧ r.lastDecodeMs = none := by
    intro r hr
    obtain ⟨r₀, -, rfl⟩ := List.mem_map.mp hr
    exact ⟨rfl, rfl⟩
  have hids : ((requests.map fun r => ({ request := rt.submit r } : TimedRequest _)).map
      fun r => rt.workers.requestId r.request).Nodup := by
    rw [List.map_map]
    have hsubmit := rt.submit_ids requests
    rw [List.map_map] at hsubmit
    exact hsubmit ▸ hf.distinct
  have hopen : ∀ r ∈ requests.map fun r => ({ request := rt.submit r } : TimedRequest _),
      rt.workers.finished r.request = false := by
    intro r hr
    obtain ⟨r₀, hr₀, rfl⟩ := List.mem_map.mp hr
    exact submit_unfinished hf.fresh _ (List.mem_map_of_mem hr₀)
  have hon {u : TimedRuntimeState}
      (hu : Reaches (rt.timedWorkers g).step (rt.timedStart g requests) u) :
      OnTime rt.workers u ∨ Raised u := onTime_run huntimed hu
  have hresults : (∀ b ∈ s.finalResults, ResultTimes b s.cache.nowMs) ∨ Raised s := by
    refine invariant_or_raised
      (Q := fun u : TimedRuntimeState => ∀ b ∈ u.finalResults, ResultTimes b u.cache.nowMs) hs
      (fun b hb => absurd hb List.not_mem_nil) fun u v hu h hstep => ?_
    exact resultTimes_step h ((hon hu).resolve_right (not_raised_of_step hstep))
      (elapsed_run rt.workers_lawful hids hopen huntimed hu) hstep
  refine (hon hs).elim (fun h => hresults.imp_left fun hall => ?_) Or.inr
  exact ⟨h.now, fun i hi => (h.prefills i).trans (turnsOf_eq hi _),
    fun i hi => (h.decodes i).trans (turnsOf_eq hi _), hall⟩

/-- Three decode steps of two requests, taken in turn by two workers. -/
theorem two_workers_take_turns :
    let rt : PersistentDecodeRuntime := { config := { numDecodeWorkers := 2 } }
    ∃ s, Reaches (rt.timedWorkers .standard).step
        (rt.timedStart .standard [.ask 1 [5] [6, 7, 8, 9, 10], .ask 2 [5] [6, 7]]) s ∧
      (s.cache.decodeStats 0).processedRequests = 2 ∧
      (s.cache.decodeStats 1).processedRequests = 1 ∧
      s.cache.nowMs = busyMs 1 s.cache.prefillStats + busyMs 2 s.cache.decodeStats ∧
      s.finalResults.length = 2 ∧ ∀ b ∈ s.finalResults, ResultTimes b s.cache.nowMs := by
  intro rt
  let last := Runs.runFor (rt.timedWorkers .standard).step 40
    (rt.timedStart .standard [.ask 1 [5] [6, 7, 8, 9, 10], .ask 2 [5] [6, 7]])
  have hs : Reaches (rt.timedWorkers .standard).step
      (rt.timedStart .standard [.ask 1 [5] [6, 7, 8, 9, 10], .ask 2 [5] [6, 7]]) last :=
    Runs.reaches_runFor _ _ _
  have hreturned : last.control.returned?.isSome = true := by decide +kernel
  have hrr : last.decodeRr = 3 := by decide +kernel
  have hlen : last.finalResults.length = 2 := by decide +kernel
  have hn : ¬ Raised last := by
    rintro ⟨e, he⟩
    rw [he] at hreturned
    cases hreturned
  obtain ⟨hnow, -, hturns, hresults⟩ := (clock_accounts (by decide) hs).resolve_right hn
  have hzero := hturns 0 (by decide)
  have hone := hturns 1 (by decide)
  rw [hrr] at hzero hone
  exact ⟨last, hs, hzero.trans (by decide), hone.trans (by decide), hnow, hlen, hresults⟩

end PersistentDecodeRuntime
end ResidentInference

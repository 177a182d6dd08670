import ResidentInference.Device.Host
import ResidentInference.Ranked

/-! The resident scheduler: a selection sort of the live requests by priority, with a flag for each
request that has its slot. -/
namespace ResidentInference.Device
open Loops Ranked
variable {φ : Type}

structure SchedulerKernelMetrics where
  requestsExamined : Int := 0
  requestsScheduled : Int := 0
  deriving DecidableEq, Repr

/-- The locals and the outputs of the kernel. -/
structure ScheduleState where
  scheduledRequestIds : Int → Int
  scheduledPriorities : Int → Int
  scheduledFlags : Int → Bool
  scheduled : Int
  metric : SchedulerKernelMetrics

/-- The indices of the inner loop: the flags are an array of 256. -/
def scanIndices (numRequests : Int) : List Int := Int.range 0 (min numRequests 256)

/-- One request of the inner loop: the better of the request and the best so far. -/
def scanRequest (requests : Int → RequestDescriptor φ) (scheduledFlags : Int → Bool)
    (best : Int × Int) (i : Int) : Int × Int :=
  if scheduledFlags i then best
  else if (requests i).IsDone then best
  else if (requests i).priority > best.2 then (i, (requests i).priority)
  else best

/-- The inner loop; index `-1` when it has found none. -/
def bestRequest (requests : Int → RequestDescriptor φ) (numRequests : Int)
    (scheduledFlags : Int → Bool) : Int × Int :=
  (scanIndices numRequests).foldl (scanRequest requests scheduledFlags) (-1, -2147483647)

/-- The slots from `slot` on, `n` of them at most. -/
def scheduleSlots (requests : Int → RequestDescriptor φ) (numRequests : Int) :
    Nat → Int → ScheduleState → ScheduleState
  | 0, _, s => s
  | n+1, slot, s =>
    let best := bestRequest requests numRequests s.scheduledFlags
    let s := { s with metric := { s.metric with
      requestsExamined := s.metric.requestsExamined + (scanIndices numRequests).length } }
    if best.1 < 0 then s
    else scheduleSlots requests numRequests n (slot + 1)
      { s with
        scheduledFlags := Function.update s.scheduledFlags best.1 true
        scheduledRequestIds :=
          Function.update s.scheduledRequestIds slot (requests best.1).requestId
        scheduledPriorities :=
          Function.update s.scheduledPriorities slot (requests best.1).priority
        scheduled := s.scheduled + 1 }

/-- The two outputs and the metrics. -/
def residentScheduleRequestsKernel (requests : Int → RequestDescriptor φ) (numRequests : Int)
    (scheduledRequestIds scheduledPriorities : Int → Int) :
    (Int → Int) × (Int → Int) × SchedulerKernelMetrics :=
  let s := scheduleSlots requests numRequests numRequests.toNat 0
    { scheduledRequestIds := writeCells scheduledRequestIds 0 numRequests fun _ => -1
      scheduledPriorities := writeCells scheduledPriorities 0 numRequests fun _ => -1
      scheduledFlags := fun _ => false
      scheduled := 0
      metric := {} }
  (s.scheduledRequestIds, s.scheduledPriorities,
    { s.metric with requestsScheduled := s.scheduled })

/-! ## The schedule -/

/-- The requests among the first `n` that are not done. -/
def liveRequests (requests : Int → RequestDescriptor φ) (n : Int) : List Int :=
  (Int.range 0 n).filter fun i => decide (¬ (requests i).IsDone)

/-- The outputs list these requests by priority, equal priorities by index. -/
structure Schedules (requests : Int → RequestDescriptor φ) (numRequests : Int) (live : List Int)
    (out : (Int → Int) × (Int → Int) × SchedulerKernelMetrics) : Prop where
  ids : slice out.1 0 numRequests =
    (ranked (fun i => (requests i).priority) live).map (fun i => (requests i).requestId) ++
      List.replicate (numRequests.toNat - live.length) (-1)
  priorities : slice out.2.1 0 numRequests =
    (ranked (fun i => (requests i).priority) live).map (fun i => (requests i).priority) ++
      List.replicate (numRequests.toNat - live.length) (-1)
  scheduled : out.2.2.requestsScheduled = live.length

theorem nodup_liveRequests (requests : Int → RequestDescriptor φ) (n : Int) :
    (liveRequests requests n).Nodup :=
  (nodup_range 0 n).filter _

theorem mem_liveRequests {requests : Int → RequestDescriptor φ} {n i : Int} :
    i ∈ liveRequests requests n ↔ (0 ≤ i ∧ i < n) ∧ ¬ (requests i).IsDone := by
  rw [liveRequests, List.mem_filter, Int.mem_range_iff, decide_eq_true_iff]

theorem length_liveRequests_le (requests : Int → RequestDescriptor φ) (n : Int) :
    (liveRequests requests n).length ≤ n.toNat := by
  have hle := List.length_filter_le (fun i => decide (¬ (requests i).IsDone)) (Int.range 0 n)
  rwa [length_range, sub_zero] at hle

/-- What the slots so far have written: the first of the live requests by rank. -/
structure ScheduledSoFar (requests : Int → RequestDescriptor φ) (numRequests : Int)
    (live order : List Int) (s : ScheduleState) : Prop where
  leading : Leading (fun i => (requests i).priority) live order
  flags : ∀ i, s.scheduledFlags i = decide (i ∈ order)
  ids : slice s.scheduledRequestIds 0 numRequests =
    order.map (fun i => (requests i).requestId) ++
      List.replicate (numRequests.toNat - order.length) (-1)
  priorities : slice s.scheduledPriorities 0 numRequests =
    order.map (fun i => (requests i).priority) ++
      List.replicate (numRequests.toNat - order.length) (-1)
  scheduled : s.scheduled = order.length

section
variable {requests : Int → RequestDescriptor φ} {numRequests : Int}

/-- The inner loop scans for the live requests without a slot, if they are above its first
priority. -/
theorem scans_scanRequest (scheduledFlags : Int → Bool)
    (hpriority : ∀ i ∈ liveRequests requests (min numRequests 256),
      -2147483647 < (requests i).priority) :
    Scans (fun i => scheduledFlags i = false ∧ ¬ (requests i).IsDone)
      (fun i => (requests i).priority) (-1, -2147483647) (scanRequest requests scheduledFlags)
      (scanIndices numRequests) := by
  refine ⟨fun i _ hi best => ?_, fun i hi hopen => ?_, fun i _ hopen j _ _ => ?_⟩
  · simp only [scanRequest]
    grind
  · have habove := hpriority i (mem_liveRequests.mpr ⟨Int.mem_range_iff.mp hi, hopen.2⟩)
    simp [scanRequest, hopen.1, hopen.2, habove]
  · simp [scanRequest, hopen.1, hopen.2]

/-- A scan finds the next request by rank, or none is left. -/
theorem ScheduledSoFar.bestRequest
    (hpriority : ∀ i ∈ liveRequests requests (min numRequests 256),
      -2147483647 < (requests i).priority)
    {order : List Int} {s : ScheduleState}
    (h : ScheduledSoFar requests numRequests (liveRequests requests (min numRequests 256)) order
      s) :
    ((bestRequest requests numRequests s.scheduledFlags).1 < 0 ∧
        ∀ i ∈ liveRequests requests (min numRequests 256), i ∈ order) ∨
      ∃ b, (bestRequest requests numRequests s.scheduledFlags).1 = b ∧ 0 ≤ b ∧ b ∉ order ∧
        Leading (fun i => (requests i).priority) (liveRequests requests (min numRequests 256))
          (order ++ [b]) := by
  have hopen : ∀ i, s.scheduledFlags i = false ↔ i ∉ order := fun i => by
    rw [h.flags, decide_eq_false_iff_not]
  obtain ⟨heq, hnone⟩ | ⟨b, hb, ⟨hflag, hdone⟩, heq, hbest⟩ :=
    (scans_scanRequest s.scheduledFlags hpriority).foldl (pairwise_range 0 _)
  · refine Or.inl ⟨by rw [Device.bestRequest, heq]; decide, fun i hi => ?_⟩
    obtain ⟨hrange, hdone⟩ := mem_liveRequests.mp hi
    by_contra hnot
    exact hnone i (Int.mem_range_iff.mpr hrange) ⟨(hopen i).mpr hnot, hdone⟩
  · have hrange := Int.mem_range_iff.mp hb
    refine Or.inr ⟨b, by rw [Device.bestRequest, heq], hrange.1, (hopen b).mp hflag, ?_⟩
    refine h.leading.concat (mem_liveRequests.mpr ⟨hrange, hdone⟩) ((hopen b).mp hflag) ?_
    intro j hj hnot
    obtain ⟨hrange', hdone'⟩ := mem_liveRequests.mp hj
    exact hbest j (Int.mem_range_iff.mpr hrange') ⟨(hopen j).mpr hnot, hdone'⟩

/-- The request that a slot takes comes next in both outputs. -/
theorem ScheduledSoFar.assign {live order : List Int} {s : ScheduleState}
    (h : ScheduledSoFar requests numRequests live order s) {b : Int}
    (hlead : Leading (fun i => (requests i).priority) live (order ++ [b])) {n : Nat}
    (hn : order.length + (n + 1) = numRequests.toNat) (metric : SchedulerKernelMetrics) :
    ScheduledSoFar requests numRequests live (order ++ [b])
      { scheduledFlags := Function.update s.scheduledFlags b true
        scheduledRequestIds :=
          Function.update s.scheduledRequestIds order.length (requests b).requestId
        scheduledPriorities :=
          Function.update s.scheduledPriorities order.length (requests b).priority
        scheduled := s.scheduled + 1
        metric := metric } := by
  have hroom : numRequests.toNat - order.length = n + 1 := by omega
  have hroom' : numRequests.toNat - (order.length + 1) = n := by omega
  have hids := h.ids
  have hpriorities := h.priorities
  rw [hroom] at hids hpriorities
  refine ⟨hlead, fun i => ?_, ?_, ?_, ?_⟩
  · by_cases hi : i = b
    · simp [hi]
    · simp [hi, h.flags]
  · simpa [hroom'] using slice_update hids (requests b).requestId
  · simpa [hroom'] using slice_update hpriorities (requests b).priority
  · simp [h.scheduled]

/-- The slots fill the outputs until every live request has one. -/
theorem ScheduledSoFar.scheduleSlots
    (hpriority : ∀ i ∈ liveRequests requests (min numRequests 256),
      -2147483647 < (requests i).priority)
    (n : Nat) {order : List Int} {s : ScheduleState}
    (h : ScheduledSoFar requests numRequests (liveRequests requests (min numRequests 256)) order s)
    (hn : order.length + n = numRequests.toNat) :
    ∃ order', ScheduledSoFar requests numRequests (liveRequests requests (min numRequests 256))
        order' (scheduleSlots requests numRequests n order.length s) ∧
      ∀ i ∈ liveRequests requests (min numRequests 256), i ∈ order' := by
  induction n generalizing order s with
  | zero =>
    have hlive := length_liveRequests_le requests (min numRequests 256)
    have hperm := h.leading.nodup.subperm fun i hi => h.leading.mem i hi
    exact ⟨order, h, fun i hi => (hperm.perm_of_length_le (by omega)).mem_iff.mpr hi⟩
  | succ n ih =>
    rw [Device.scheduleSlots]
    obtain ⟨hneg, hall⟩ | ⟨b, hb, hpos, hnew, hlead⟩ := h.bestRequest hpriority
    · simp only [hneg, if_true]
      exact ⟨order, ⟨h.leading, h.flags, h.ids, h.priorities, h.scheduled⟩, hall⟩
    · simp only [hb, not_lt.mpr hpos, if_false]
      have hnext := ih (h.assign hlead hn { s.metric with
        requestsExamined := s.metric.requestsExamined + (scanIndices numRequests).length })
        (by rw [List.length_append, List.length_singleton]; omega)
      rw [List.length_append, List.length_singleton] at hnext
      exact_mod_cast hnext

end

/-- The schedule of the requests that the flags can mark, whatever their priorities above the one
that a scan starts with. -/
theorem residentScheduleRequestsKernel_schedules (requests : Int → RequestDescriptor φ)
    (numRequests : Int) (scheduledRequestIds scheduledPriorities : Int → Int)
    (hpriority : ∀ i ∈ liveRequests requests (min numRequests 256),
      -2147483647 < (requests i).priority) :
    Schedules requests numRequests (liveRequests requests (min numRequests 256))
      (residentScheduleRequestsKernel requests numRequests scheduledRequestIds
        scheduledPriorities) := by
  have hstart : ScheduledSoFar requests numRequests
      (liveRequests requests (min numRequests 256)) []
      { scheduledRequestIds := writeCells scheduledRequestIds 0 numRequests fun _ => -1
        scheduledPriorities := writeCells scheduledPriorities 0 numRequests fun _ => -1
        scheduledFlags := fun _ => false
        scheduled := 0
        metric := {} } :=
    ⟨Leading.nil _ _, fun i => by simp, by simp [slice_writeCells_const],
      by simp [slice_writeCells_const], rfl⟩
  obtain ⟨order, h, hall⟩ := hstart.scheduleSlots hpriority numRequests.toNat (Nat.zero_add _)
  have horder := h.leading.eq_ranked (nodup_liveRequests _ _) hall
  have hlen : order.length = (liveRequests requests (min numRequests 256)).length := by
    rw [horder, length_ranked]
  refine ⟨?_, ?_, ?_⟩
  · rw [← horder, ← hlen]
    exact h.ids
  · rw [← horder, ← hlen]
    exact h.priorities
  · rw [← hlen]
    exact h.scheduled

/-- Eight requests of the host. -/
theorem residentScheduleRequestsKernel_schedules_host :
    let requests : Int → RequestDescriptor ℚ := schedulerRequest 8 4
    Schedules requests 8 (liveRequests requests (min 8 256))
      (residentScheduleRequestsKernel requests 8 (fun _ => 0) fun _ => 0) :=
  residentScheduleRequestsKernel_schedules _ 8 _ _ (by decide +kernel)

/-- A live request that has no flag gets no slot, even with nothing else to schedule. -/
theorem late_request_unscheduled :
    let requests : Int → RequestDescriptor ℚ := fun i =>
      if i < 256 then (initRequest i 8 true 16).setState .complete else initRequest i 8 true 16
    ¬ Schedules requests 257 (liveRequests requests 257)
      (residentScheduleRequestsKernel requests 257 (fun _ => 0) fun _ => 0) := by
  intro requests h
  have hscheduled := h.scheduled
  revert hscheduled
  decide +kernel

end ResidentInference.Device

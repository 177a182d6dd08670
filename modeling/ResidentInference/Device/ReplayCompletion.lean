import ResidentInference.Device.TraceService
import Mathlib.Algebra.BigOperators.Intervals
import Mathlib.Algebra.Order.BigOperators.Group.Finset
import Mathlib.Algebra.Order.BigOperators.Group.List

/-! Whether the steps of a replay are enough for its trace. A turn leaves a request pending only
when all slots are busy, so the work of the trace bounds the turns that end with one pending. -/
namespace ResidentInference.Device
open Loops
variable {φ : Type}

theorem mem_arrivedRequests_iff {launch : TraceLaunch} {steps : Nat} {r : Int} :
    r ∈ arrivedRequests launch steps ↔ r ∈ Int.range 0 launch.numRequests ∧
      0 ≤ launch.arrivalSteps r ∧ launch.arrivalSteps r < steps := by
  simp only [arrivedRequests, List.mem_flatMap, List.mem_range, List.mem_filter,
    decide_eq_true_eq]
  constructor
  · rintro ⟨step, hstep, hr, heq⟩
    exact ⟨hr, by omega, by omega⟩
  · rintro ⟨hr, h0, hlt⟩
    exact ⟨(launch.arrivalSteps r).toNat, by omega, hr, by omega⟩

/-- The requests that arrive in step `t`. -/
def arrivingRequests (launch : TraceLaunch) (t : Nat) : List Int :=
  (Int.range 0 launch.numRequests).filter fun req => launch.arrivalSteps req = t

/-- The quanta that all requests of the trace take. -/
def traceWork (launch : TraceLaunch) : Int :=
  ((Int.range 0 launch.numRequests).map (serviceSpan launch)).sum

/-- Before the last arrival at least `b` requests arrive in every step. -/
def Steady (launch : TraceLaunch) (b : Nat) : Prop :=
  ∀ (t : Nat), ∀ r ∈ Int.range 0 launch.numRequests, t < launch.arrivalSteps r →
    b ≤ (arrivingRequests launch t).length

section
variable {launch : TraceLaunch} {mem : ReplayMemory φ} {n b : Nat} {r : Int}
  {admitted finished : List Int}

/-! ## The work of a run -/

theorem TurnStage.quanta_succ {new : List Int} {s : ReplayState φ}
    (h : TurnStage launch mem n admitted new finished s) :
    (replayRun launch mem (n + 1)).metric.totalServiceQuanta =
      (replayRun launch mem n).metric.totalServiceQuanta + (servedIn launch mem n).length := by
  rw [h.next, services_quanta, h.filled.quanta, h.served]

theorem Traced.quanta_le_span (h : Traced launch mem n admitted finished) (r : Int) :
    (quanta launch mem n r : Int) ≤ serviceSpan launch r := by
  have hspan := serviceSpan_pos launch r
  by_cases hr : r ∈ admitted
  · obtain ⟨a, hlife, -⟩ := h.lifetime r hr
    rw [hlife.quanta_eq]
    omega
  · have hnone : quanta launch mem n r = 0 := Nat.count_of_forall_not (h.unadmitted r hr).2
    omega

theorem Traced.total_le_work (h : Traced launch mem n admitted finished) :
    (replayRun launch mem n).metric.totalServiceQuanta ≤ traceWork launch := by
  rw [h.total, traceWork]
  exact List.sum_le_sum fun r _ => h.quanta_le_span r

/-- The hypotheses of the replay: a queue with a cell for every request, empty at the start. -/
structure Replayable (launch : TraceLaunch) (mem : ReplayMemory φ) : Prop where
  numRequests : 0 ≤ launch.numRequests
  capacity : launch.numRequests + 1 ≤ mem.pendingQueue.capacity
  bounds : mem.pendingQueue.InBounds
  empty : mem.pendingQueue.head = mem.pendingQueue.tail

theorem Replayable.traced (h : Replayable launch mem) (hturns : ∀ t < n, TakesTurn launch mem t) :
    ∃ admitted finished, Traced launch mem n admitted finished :=
  traced_replayRun h.numRequests h.capacity h.bounds h.empty hturns

theorem Replayable.total_eq_sum (h : Replayable launch mem)
    (hturns : ∀ t < n, TakesTurn launch mem t) :
    (replayRun launch mem n).metric.totalServiceQuanta =
      ∑ t ∈ Finset.range n, ((servedIn launch mem t).length : Int) := by
  induction n with
  | zero => rfl
  | succ n ih =>
    have hbefore : ∀ t < n, TakesTurn launch mem t := fun t ht => hturns t (Nat.lt_succ_of_lt ht)
    obtain ⟨admitted, finished, htraced⟩ := h.traced hbefore
    obtain ⟨new, s, hstage, -⟩ := htraced.stage h.numRequests h.capacity (hturns n n.lt_succ_self)
    rw [hstage.quanta_succ, ih hbefore, Finset.sum_range_succ]

/-- Turns that serve at least `b` requests each. -/
theorem Replayable.le_total (h : Replayable launch mem) (hturns : ∀ t < n, TakesTurn launch mem t)
    (hbusy : ∀ t < n, b ≤ (servedIn launch mem t).length) :
    (n : Int) * b ≤ (replayRun launch mem n).metric.totalServiceQuanta := by
  have hsum := Finset.card_nsmul_le_sum (Finset.range n)
    (fun t => ((servedIn launch mem t).length : Int)) b fun t ht => by
      exact_mod_cast hbusy t (Finset.mem_range.mp ht)
  rw [h.total_eq_sum hturns]
  simpa using hsum

theorem length_servedIn_le (launch : TraceLaunch) (mem : ReplayMemory φ) (t : Nat) :
    (servedIn launch mem t).length ≤ launch.maxActiveRequests.toNat := by
  rw [servedIn]
  split
  · exact length_activeRequests_le launch _
  · exact Nat.zero_le _

theorem Replayable.total_le (h : Replayable launch mem)
    (hturns : ∀ t < n, TakesTurn launch mem t) :
    (replayRun launch mem n).metric.totalServiceQuanta ≤ n * launch.maxActiveRequests.toNat := by
  have hsum := Finset.sum_le_card_nsmul (Finset.range n)
    (fun t => ((servedIn launch mem t).length : Int)) launch.maxActiveRequests.toNat fun t _ => by
      exact_mod_cast length_servedIn_le launch mem t
  rw [h.total_eq_sum hturns]
  simpa using hsum

/-! ## Busy turns -/

theorem Traced.finished_subset (h : Traced launch mem n admitted finished) {r : Int}
    (hr : r ∈ finished) : r ∈ arrivedRequests launch n := by
  rw [h.accounted.split]
  exact List.mem_append_left _ (h.mem_finished_iff.mp hr).1

/-- With nothing pending the arrivals of the turn are all in the slots. -/
theorem Traced.arriving_le_served (h : Traced launch mem n admitted finished) {new : List Int}
    {s : ReplayState φ} (hstage : TurnStage launch mem n admitted new finished s)
    (hempty : s.pendingQueue.contents = []) :
    (arrivingRequests launch n).length ≤ (servedIn launch mem n).length := by
  have hnodup : (arrivingRequests launch n).Nodup := (nodup_range 0 _).filter _
  refine (hnodup.subperm fun r hr => ?_).length_le
  obtain ⟨hrange, harrival⟩ := List.mem_filter.mp hr
  simp only [decide_eq_true_eq] at harrival
  have hadmitted : r ∈ admitted ++ new := by
    have harrived : r ∈ arrivedRequests launch (n + 1) :=
      mem_arrivedRequests_iff.mpr ⟨hrange, by omega, by omega⟩
    rwa [hstage.admitted.split, hempty, List.append_nil] at harrived
  have hactive := List.mem_append.mp (hstage.admitted.slots.mem_iff.mp hadmitted)
  rw [hstage.served]
  refine hactive.resolve_right fun hfinished => ?_
  have hbefore := (mem_arrivedRequests_iff.mp (h.finished_subset hfinished)).2.2
  omega

/-- A turn that leaves a request of a steady trace unadmitted is busy. -/
theorem Traced.busy_of_not_mem (h : Traced launch mem n admitted finished) {new : List Int}
    {s : ReplayState φ} (hstage : TurnStage launch mem n admitted new finished s)
    (hend : s.pendingQueue.contents = [] ∨
      ∀ i ∈ Int.range 0 launch.maxActiveRequests, 0 ≤ s.activeRequestIds i)
    (hsteady : Steady launch b) (hslots : b ≤ launch.maxActiveRequests)
    (hr : r ∈ Int.range 0 launch.numRequests) (h0 : 0 ≤ launch.arrivalSteps r)
    (hout : r ∉ admitted ++ new) : b ≤ (servedIn launch mem n).length := by
  obtain hempty | hfull := hend
  · by_cases harrived : launch.arrivalSteps r < (n + 1 : Nat)
    · have hmem := mem_arrivedRequests_iff.mpr ⟨hr, h0, harrived⟩
      rw [hstage.admitted.split, hempty, List.append_nil] at hmem
      exact absurd hmem hout
    · exact (hsteady n r hr (by omega)).trans (h.arriving_le_served hstage hempty)
  · have hall := (length_activeRequests_eq_iff launch _).mpr hfull
    rw [hstage.served, hall]
    omega

theorem Traced.busy_of_unadmitted (h : Traced launch mem n admitted finished)
    (hreplay : Replayable launch mem) (hturn : TakesTurn launch mem n)
    (hsteady : Steady launch b) (hslots : b ≤ launch.maxActiveRequests)
    (hr : r ∈ Int.range 0 launch.numRequests) (h0 : 0 ≤ launch.arrivalSteps r)
    (hun : ∀ a ≤ n, ¬ AdmittedIn launch mem a r) : b ≤ (servedIn launch mem n).length := by
  obtain ⟨new, s, hstage, hend⟩ := h.stage hreplay.numRequests hreplay.capacity hturn
  refine h.busy_of_not_mem hstage hend hsteady hslots hr h0 fun hin => ?_
  obtain ⟨a, hlife, -⟩ := hstage.lifetime h hin
  have hstarted := hlife.started
  exact hun a (by omega) ((hlife.admittedIn_iff hstarted).mpr rfl)

/-- No turn of a steady trace is idle. -/
theorem Traced.busy_of_turn (h : Traced launch mem n admitted finished)
    (hreplay : Replayable launch mem) (hturn : TakesTurn launch mem n)
    (hsteady : Steady launch 1) (hslots : 1 ≤ launch.maxActiveRequests)
    (h0 : ∀ r ∈ Int.range 0 launch.numRequests, 0 ≤ launch.arrivalSteps r) :
    1 ≤ (servedIn launch mem n).length := by
  obtain ⟨new, s, hstage, hend⟩ := h.stage hreplay.numRequests hreplay.capacity hturn
  by_cases hall : ∀ r ∈ Int.range 0 launch.numRequests, r ∈ admitted ++ new
  · -- all are admitted and some are not finished
    have hlength := ((nodup_range 0 launch.numRequests).subperm hall).length_le
    rw [hstage.admitted.slots.length_eq, List.length_append, length_range] at hlength
    have hcompleted := h.accounted.completed
    have hless := hturn.2
    rw [hstage.served]
    omega
  · obtain ⟨r, hr, hout⟩ : ∃ r ∈ Int.range 0 launch.numRequests, r ∉ admitted ++ new := by
      simpa using hall
    exact h.busy_of_not_mem hstage hend hsteady (by exact_mod_cast hslots) hr (h0 r hr) hout

/-! ## The end of a run -/

theorem Traced.completed_le (h : Traced launch mem n admitted finished) :
    (replayRun launch mem n).completed ≤ launch.numRequests := by
  have hlength := h.accounted.length
  have hadmitted := h.accounted.admitted_length_le
  have hfinished := h.accounted.finished_length_le
  rw [h.accounted.completed]
  omega

theorem Traced.completed_of_finished (h : Traced launch mem n admitted finished)
    (hall : ∀ r ∈ Int.range 0 launch.numRequests, r ∈ finished) :
    (replayRun launch mem n).completed = launch.numRequests := by
  have hlength := ((nodup_range 0 launch.numRequests).subperm hall).length_le
  have hle := h.completed_le
  rw [length_range] at hlength
  rw [h.accounted.completed] at hle ⊢
  omega

/-- A request that was admitted a span ago is finished. -/
theorem Traced.mem_finished_of_admittedIn (h : Traced launch mem n admitted finished) {a : Nat}
    (ha : a < n) (hr : AdmittedIn launch mem a r) (hspan : a + serviceSpan launch r ≤ n) :
    r ∈ finished := by
  have hadmitted := h.mem_admitted_iff.mpr ⟨a, ha, hr⟩
  obtain ⟨b, hlife, -⟩ := h.lifetime r hadmitted
  obtain rfl := (hlife.admittedIn_iff ha).mp hr
  refine h.mem_finished_iff.mpr ⟨hadmitted, fun hactive => ?_⟩
  have hlive := (hlife.active n le_rfl).mp hactive
  omega

/-- A replay that does not complete all requests takes all of its turns. -/
theorem Replayable.takesTurn (h : Replayable launch mem)
    (hne : (traceReplayAdmissionKernel launch mem).completed ≠ launch.numRequests) :
    ∀ t < launch.maxTraceSteps.toNat, TakesTurn launch mem t := by
  obtain ⟨m, hm, hturns, hsame, hstop⟩ := exists_turns launch mem launch.maxTraceSteps.toNat
  obtain ⟨admitted, finished, htraced⟩ := h.traced hturns
  have hle := htraced.completed_le
  have hlast : m = launch.maxTraceSteps.toNat := by
    by_contra hlt
    refine hstop m le_rfl (by omega) ⟨by omega, ?_⟩
    rw [traceReplayAdmissionKernel, hsame] at hne
    omega
  rwa [← hlast]

/-- Two bounds on the turns: those before the last admission are busy, and each request stays for
its span after it. -/
theorem Replayable.completed_of_slots (h : Replayable launch mem) (hsteady : Steady launch b)
    (hslots : b ≤ launch.maxActiveRequests)
    (h0 : ∀ r ∈ Int.range 0 launch.numRequests, 0 ≤ launch.arrivalSteps r) (last : Nat)
    (hwork : traceWork launch < (last + 1) * b) (hlast : last < launch.maxTraceSteps)
    (hspan : ∀ r, last + serviceSpan launch r ≤ launch.maxTraceSteps) :
    (traceReplayAdmissionKernel launch mem).completed = launch.numRequests := by
  by_contra hne
  have hturns := h.takesTurn hne
  obtain ⟨admitted, finished, htraced⟩ := h.traced hturns
  refine hne (htraced.completed_of_finished fun r hr => ?_)
  obtain ⟨a, ha, hadmitted⟩ : ∃ a ≤ last, AdmittedIn launch mem a r := by
    by_contra hnone
    push Not at hnone
    have hfirst : ∀ t < last + 1, TakesTurn launch mem t := fun t ht => hturns t (by omega)
    have hbusy : ∀ t < last + 1, b ≤ (servedIn launch mem t).length := by
      intro t ht
      obtain ⟨admitted, finished, htraced⟩ := h.traced fun u hu => hfirst u (hu.trans ht)
      exact htraced.busy_of_unadmitted h (hfirst t ht) hsteady hslots hr (h0 r hr)
        fun a ha => hnone a (by omega)
    obtain ⟨admitted, finished, htraced⟩ := h.traced hfirst
    have hlow := h.le_total hfirst hbusy
    have hhigh := htraced.total_le_work
    push_cast at hlow
    omega
  have hlive := hspan r
  exact htraced.mem_finished_of_admittedIn (by omega) hadmitted (by omega)

/-- Every turn serves a request, so the work bounds the turns. -/
theorem Replayable.completed_of_work (h : Replayable launch mem) (hsteady : Steady launch 1)
    (hslots : 1 ≤ launch.maxActiveRequests)
    (h0 : ∀ r ∈ Int.range 0 launch.numRequests, 0 ≤ launch.arrivalSteps r)
    (hwork : traceWork launch < launch.maxTraceSteps) :
    (traceReplayAdmissionKernel launch mem).completed = launch.numRequests := by
  by_contra hne
  have hturns := h.takesTurn hne
  have hbusy : ∀ t < launch.maxTraceSteps.toNat, 1 ≤ (servedIn launch mem t).length := by
    intro t ht
    obtain ⟨admitted, finished, htraced⟩ := h.traced fun u hu => hturns u (hu.trans ht)
    exact htraced.busy_of_turn h (hturns t ht) hsteady hslots h0
  obtain ⟨admitted, finished, htraced⟩ := h.traced hturns
  have hlow := h.le_total hturns hbusy
  have hhigh := htraced.total_le_work
  push_cast at hlow
  omega

/-- The slots cannot do more work than there are turns. -/
theorem Replayable.completed_ne (h : Replayable launch mem)
    (hwork : launch.maxTraceSteps.toNat * launch.maxActiveRequests.toNat < traceWork launch) :
    (traceReplayAdmissionKernel launch mem).completed ≠ launch.numRequests := by
  intro hall
  obtain ⟨m, hm, hturns, hsame, -⟩ := exists_turns launch mem launch.maxTraceSteps.toNat
  obtain ⟨admitted, finished, htraced⟩ := h.traced hturns
  have htotal := h.total_le hturns
  rw [traceReplayAdmissionKernel, hsame] at hall
  have hdone : (replayRun launch mem m).metric.totalServiceQuanta = traceWork launch :=
    htraced.total_of_completed hall
  have hmono : (m : Int) * launch.maxActiveRequests.toNat ≤
      launch.maxTraceSteps.toNat * launch.maxActiveRequests.toNat := by
    exact_mod_cast Nat.mul_le_mul_right _ hm
  omega

end

/-! ## The trace of the host -/

section
variable {n draftLen : Int}

theorem maxActiveRequests_traceReplayLaunch (hd : 1 ≤ draftLen) :
    (traceReplayLaunch n draftLen).maxActiveRequests = min draftLen n := by
  simp only [traceReplayLaunch]
  grind

theorem replayable_traceReplay [DeviceFloat φ] (hn : 0 ≤ n) (draftLen : Int)
    (cells : Int → Int) :
    Replayable (traceReplayLaunch n draftLen)
      (traceReplayMemory n draftLen cells : ReplayMemory φ) where
  numRequests := hn
  capacity := le_rfl
  bounds := ⟨le_rfl, Int.lt_add_one_of_le hn, le_rfl, Int.lt_add_one_of_le hn⟩
  empty := rfl

theorem arrivalSteps_nonneg {r : Int}
    (hr : r ∈ Int.range 0 (traceReplayLaunch n draftLen).numRequests) :
    0 ≤ (traceReplayLaunch n draftLen).arrivalSteps r :=
  Int.tdiv_nonneg (Int.mem_range_iff.mp hr).1 (by decide)

/-- The requests `2 t` and `2 t + 1` arrive in step `t`. -/
theorem steady_traceReplayLaunch (n draftLen : Int) : Steady (traceReplayLaunch n draftLen) 2 := by
  intro t r hr hlate
  have harrival (i : Int) : (traceReplayLaunch n draftLen).arrivalSteps i = i.tdiv 2 := rfl
  obtain ⟨h0, hlt⟩ := Int.mem_range_iff.mp hr
  rw [harrival, Int.tdiv_eq_ediv_of_nonneg h0] at hlate
  have hpair : [2 * (t : Int), 2 * t + 1].Nodup := by simp
  refine (hpair.subperm fun q hq => ?_).length_le
  have hq' : q = 2 * (t : Int) ∨ q = 2 * t + 1 := by simpa using hq
  refine List.mem_filter.mpr ⟨Int.mem_range_iff.mpr (by omega), ?_⟩
  rw [harrival, Int.tdiv_eq_ediv_of_nonneg (by omega)]
  simp only [decide_eq_true_eq]
  omega

theorem Steady.mono {launch : TraceLaunch} {b b' : Nat} (h : Steady launch b) (hb : b' ≤ b) :
    Steady launch b' := fun t r hr hlate => hb.trans (h t r hr hlate)

theorem serviceSpan_traceReplayLaunch (n draftLen r : Int) :
    serviceSpan (traceReplayLaunch n draftLen) r = max 1 (1 + r.tmod 3) := rfl

/-- The services are one, two and three steps in turn. -/
theorem traceWork_traceReplayLaunch (n : Nat) (draftLen : Int) :
    traceWork (traceReplayLaunch n draftLen) + (if n % 3 = 0 then 0 else 1) = 2 * n := by
  have hwork : traceWork (traceReplayLaunch n draftLen) =
      ((List.range n).map fun i : Nat => 1 + (i : Int) % 3).sum := by
    have hrange : Int.range 0 (traceReplayLaunch n draftLen).numRequests =
        (List.range n).map (Nat.cast : Nat → Int) := by
      simp [Int.range, traceReplayLaunch]
    rw [traceWork, hrange, List.map_map]
    refine congrArg List.sum (List.map_congr_left fun i _ => ?_)
    rw [Function.comp_apply, serviceSpan_traceReplayLaunch, Int.tmod_eq_emod_of_nonneg (by omega)]
    omega
  rw [hwork]
  clear hwork
  induction n with
  | zero => rfl
  | succ n ih =>
    rw [List.range_succ, List.map_append, List.sum_append, List.map_singleton,
      List.sum_singleton]
    split at ih <;> split <;> push_cast <;> omega

end

/-- Every request has completed and is in the completion order. -/
def Completes (n : Int) (s : ReplayState φ) : Prop :=
  s.metric.completionEvents = n ∧ ∀ i ∈ Int.range 0 n, s.completionOrder i ≠ -1

variable [DeviceFloat φ] {n draftLen : Int} {cells : Int → Int}

/-- The ids of the host are positive, so a completion that is recorded is not the mark -1. -/
theorem completes_iff (hn : 0 ≤ n) (draftLen : Int) (cells : Int → Int) :
    Completes n (traceReplayAdmissionKernel (traceReplayLaunch n draftLen)
        (traceReplayMemory n draftLen cells : ReplayMemory φ)) ↔
      (traceReplayAdmissionKernel (traceReplayLaunch n draftLen)
        (traceReplayMemory n draftLen cells : ReplayMemory φ)).completed = n := by
  have hreplay : Replayable (traceReplayLaunch n draftLen)
      (traceReplayMemory n draftLen cells : ReplayMemory φ) :=
    replayable_traceReplay hn draftLen cells
  obtain ⟨m, -, hturns, hsame, -⟩ := exists_turns (traceReplayLaunch n draftLen)
    (traceReplayMemory n draftLen cells : ReplayMemory φ)
    (traceReplayLaunch n draftLen).maxTraceSteps.toNat
  obtain ⟨admitted, finished, htraced⟩ := hreplay.traced hturns
  rw [traceReplayAdmissionKernel, hsame, Completes, htraced.accounted.completionEvents,
    htraced.accounted.completed]
  refine and_iff_left_of_imp fun hall i hi => ?_
  obtain ⟨h0, hlt⟩ := Int.mem_range_iff.mp hi
  have hk : i.toNat < finished.length := by omega
  have hrecorded := htraced.accounted.completionOrder.recorded i.toNat hk
  rw [Int.toNat_of_nonneg h0] at hrecorded
  have hfinished := htraced.finished_subset (List.get_mem finished ⟨i.toNat, hk⟩)
  have hpos := (Int.mem_range_iff.mp (mem_arrivedRequests_iff.mp hfinished).1).1
  have hid (r : Int) : ((traceReplayMemory n draftLen cells : ReplayMemory φ).requests r).requestId
      = r + 1 := rfl
  rw [hrecorded, hid]
  omega

/-- The `N + 8` steps of the host are enough for all requests exactly with two slots or more, or
for at most eight requests. -/
theorem traceReplay_completes_iff (hn : 1 ≤ n) (hd : 1 ≤ draftLen) (cells : Int → Int) :
    Completes n (traceReplayAdmissionKernel (traceReplayLaunch n draftLen)
        (traceReplayMemory n draftLen cells : ReplayMemory φ)) ↔
      2 ≤ draftLen ∨ n ≤ 8 := by
  have hreplay : Replayable (traceReplayLaunch n draftLen)
      (traceReplayMemory n draftLen cells : ReplayMemory φ) :=
    replayable_traceReplay (by omega) draftLen cells
  have hslots := maxActiveRequests_traceReplayLaunch (n := n) hd
  have hsteps : (traceReplayLaunch n draftLen).maxTraceSteps = n + 8 := rfl
  have hsteady := steady_traceReplayLaunch n draftLen
  have hwork := traceWork_traceReplayLaunch n.toNat draftLen
  rw [Int.toNat_of_nonneg (by omega)] at hwork
  rw [completes_iff (by omega)]
  constructor
  · intro hall
    by_contra hcond
    refine hreplay.completed_ne ?_ hall
    rw [hslots, hsteps, min_eq_left (by omega), Int.toNat_of_nonneg (by omega),
      Int.toNat_of_nonneg (by omega)]
    grind
  · intro hcond
    by_cases hsmall : n ≤ 8
    · refine hreplay.completed_of_work (hsteady.mono (by decide)) (by omega)
        (fun r hr => arrivalSteps_nonneg hr) ?_
      rw [hsteps]
      grind
    · refine hreplay.completed_of_slots hsteady (by omega)
        (fun r hr => arrivalSteps_nonneg hr) n.toNat ?_ (by omega) fun r => ?_
      · split at hwork <;> push_cast <;> omega
      · have hmod := Int.tmod_lt_of_pos r (by decide : (0 : Int) < 3)
        rw [serviceSpan_traceReplayLaunch]
        omega

/-- Nine requests in one slot: 17 steps for 18 quanta. -/
theorem traceReplay_leaves_request :
    ¬ ∀ (n draftLen : Int) (cells : Int → Int), 1 ≤ n → 1 ≤ draftLen →
      Completes n (traceReplayAdmissionKernel (traceReplayLaunch n draftLen)
        (traceReplayMemory n draftLen cells : ReplayMemory ℚ)) := by
  intro h
  have hcount : (traceReplayAdmissionKernel (traceReplayLaunch 9 1)
      (traceReplayMemory 9 1 fun _ => 7 : ReplayMemory ℚ)).metric.completionEvents = 8 := by
    decide +kernel
  have hall := (h 9 1 (fun _ => 7) (by decide) (by decide)).1
  rw [hcount] at hall
  exact absurd hall (by decide)

theorem traceReplay_completes_two_slots :
    Completes 9 (traceReplayAdmissionKernel (traceReplayLaunch 9 2)
      (traceReplayMemory 9 2 fun _ => 7 : ReplayMemory ℚ)) :=
  (traceReplay_completes_iff (by decide) (by decide) _).mpr (Or.inl (by decide))

end ResidentInference.Device

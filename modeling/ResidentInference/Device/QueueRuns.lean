import ResidentInference.Device.TraceAccounting

/-! Any sequence of calls on a device queue: the queue is a bounded list, first in and first out. -/
namespace ResidentInference.Device
open RingQueue

/-- A call on the device queue; a call that fails leaves it as it was. -/
def callQueue (queue : DeviceQueue) : Call Int → Event Int × DeviceQueue
  | .push value => match queueTryPush queue value with
    | none => (.full, queue)
    | some queue' => (.pushed value, queue')
  | .pop => match queueTryPop queue with
    | none => (.empty, queue)
    | some (value, queue') => (.popped value, queue')

def emptyQueue (entries : Int → Int) (capacity : Int) : DeviceQueue :=
  { entries := entries, capacity := capacity, head := 0, tail := 0 }

theorem DeviceQueue.InBounds.length_contents {queue : DeviceQueue} (h : queue.InBounds) :
    (queue.contents.length : Int) = depth queue.capacity queue.head queue.tail := by
  rw [DeviceQueue.contents, RingQueue.length_contents]
  exact Int.toNat_of_nonneg (depth_nonneg h)

/-- A full queue refuses every value. -/
theorem queueTryPush_of_full {queue : DeviceQueue} (h : queue.InBounds) (value : Int)
    (hfull : (queue.contents.length : Int) = queue.capacity - 1) :
    queueTryPush queue value = none := by
  have hnext : (queue.tail + 1).tmod queue.capacity = wrap queue.capacity (queue.tail + 1) := by
    obtain ⟨-, -, h3, h4⟩ := h
    exact tmod_eq_wrap (by omega) (by omega)
  refine if_pos (hnext.trans ((full_iff h).mpr ?_))
  rw [← h.length_contents, hfull]

/-- The queue holds the list in the cells of its buffer. -/
structure DeviceQueue.Holds (queue : DeviceQueue) (capacity : Int) (xs : List Int) : Prop where
  capacity_eq : queue.capacity = capacity
  inBounds : queue.InBounds
  contents : queue.contents = xs

theorem DeviceQueue.Holds.length_lt {queue : DeviceQueue} {capacity : Int} {xs : List Int}
    (h : queue.Holds capacity xs) : (xs.length : Int) < capacity := by
  rw [← h.contents, h.inBounds.length_contents, ← h.capacity_eq]
  exact depth_lt h.inBounds

/-- A call on the queue and the same call on its list. -/
theorem DeviceQueue.Holds.call {queue : DeviceQueue} {capacity : Int} {xs : List Int}
    (h : queue.Holds capacity xs) (c : Call Int) :
    (callQueue queue c).1 = (callFifo (capacity - 1).toNat xs c).1 ∧
      (callQueue queue c).2.Holds capacity (callFifo (capacity - 1).toNat xs c).2 := by
  have hlt := h.length_lt
  obtain ⟨rfl, hb, rfl⟩ := h
  cases c with
  | push value =>
    by_cases hfull : queue.contents.length = (queue.capacity - 1).toNat
    · simp only [callQueue, callFifo, if_pos hfull,
        queueTryPush_of_full hb value (by omega : _ = queue.capacity - 1)]
      exact ⟨trivial, rfl, hb, rfl⟩
    · obtain ⟨queue', hpush, hcontents, hb', hcapacity⟩ :=
        queueTryPush_spec hb value (by omega)
      simp only [callQueue, callFifo, if_neg hfull, hpush]
      exact ⟨trivial, hcapacity, hb', hcontents⟩
  | pop =>
    obtain ⟨hpop, hempty⟩ | ⟨value, queue', hpop, hcontents, hb', hcapacity⟩ := queueTryPop_spec hb
    · simp only [callQueue, callFifo, hpop, hempty]
      exact ⟨trivial, rfl, hb, hempty⟩
    · simp only [callQueue, callFifo, hpop, hcontents]
      exact ⟨trivial, hcapacity, hb', rfl⟩

/-- A queue that holds `xs` is a list of at most `capacity - 1` values. -/
structure DeviceQueue.IsFifo (queue : DeviceQueue) (capacity : Int) (xs : List Int) : Prop where
  length_le : (xs.length : Int) ≤ capacity - 1
  push_fails_iff : ∀ value, queueTryPush queue value = none ↔ (xs.length : Int) = capacity - 1
  pop_fails_iff : queueTryPop queue = none ↔ xs = []
  pop_eq : ∀ value queue', queueTryPop queue = some (value, queue') → xs.head? = some value
  head_bounds : 0 ≤ queue.head ∧ queue.head < capacity
  tail_bounds : 0 ≤ queue.tail ∧ queue.tail < capacity
  depth_eq : queueDepth queue = xs.length

theorem DeviceQueue.Holds.isFifo {queue : DeviceQueue} {capacity : Int} {xs : List Int}
    (h : queue.Holds capacity xs) : queue.IsFifo capacity xs := by
  have hlt := h.length_lt
  obtain ⟨rfl, hb, rfl⟩ := h
  refine ⟨by omega, fun value => ⟨fun hnone => ?_, queueTryPush_of_full hb value⟩, ⟨fun hnone => ?_,
    fun hempty => ?_⟩, fun value queue' hpop => ?_, ⟨hb.head_nonneg, hb.head_lt⟩,
    ⟨hb.tail_nonneg, hb.tail_lt⟩, ?_⟩
  · by_contra hne
    obtain ⟨queue', hpush, -⟩ := queueTryPush_spec hb value (by omega)
    rw [hnone] at hpush
    cases hpush
  · obtain ⟨-, hempty⟩ | ⟨value, queue', hpop, -⟩ := queueTryPop_spec hb
    · exact hempty
    · rw [hnone] at hpop
      cases hpop
  · obtain ⟨hnone, -⟩ | ⟨value, queue', -, hcontents, -⟩ := queueTryPop_spec hb
    · exact hnone
    · rw [hempty] at hcontents
      cases hcontents
  · obtain ⟨hnone, -⟩ | ⟨value', queue'', hpop', hcontents, -⟩ := queueTryPop_spec hb
    · rw [hnone] at hpop
      cases hpop
    · cases hpop.symm.trans hpop'
      rw [hcontents, List.head?_cons]
  · rw [hb.length_contents]
    exact tmod_eq_depth hb

/-- After any calls from the empty queue: every call was answered as on the list, the values came
out in the order in which they went in, and the indices and the depth fit the list. -/
theorem deviceQueue_isFifo (entries : Int → Int) {capacity : Int} (hcapacity : 1 ≤ capacity)
    (calls : List (Call Int)) :
    let run := runCalls callQueue calls (emptyQueue entries capacity)
    let fifo := runCalls (callFifo (capacity - 1).toNat) calls []
    run.1 = fifo.1 ∧ run.2.contents = fifo.2 ∧
      pushedValues run.1 = poppedValues run.1 ++ run.2.contents ∧
      run.2.IsFifo capacity run.2.contents := by
  intro run fifo
  have hempty : (emptyQueue entries capacity).Holds capacity [] := by
    have hb : (emptyQueue entries capacity).InBounds := ⟨le_rfl, hcapacity, le_rfl, hcapacity⟩
    exact ⟨rfl, hb, (contents_eq_nil_iff hb entries).mpr rfl⟩
  have hstep : ∀ (queue : DeviceQueue) xs c, queue.Holds capacity xs →
      (callQueue queue c).1 = (callFifo (capacity - 1).toNat xs c).1 ∧
        (callQueue queue c).2.Holds capacity (callFifo (capacity - 1).toNat xs c).2 :=
    fun _ _ c h => h.call c
  obtain ⟨hevents, hholds⟩ :=
    @runCalls_simulates _ _ _ _ _ (DeviceQueue.Holds · capacity ·) hstep calls _ _ hempty
  have hvalues : pushedValues fifo.1 = poppedValues fifo.1 ++ fifo.2 :=
    pushedValues_callFifo (capacity - 1).toNat calls []
  rw [← hevents, ← hholds.contents] at hvalues
  exact ⟨hevents, hholds.contents, hvalues, hholds.contents ▸ hholds.isFifo⟩

/-- A queue with three cells: the third value is refused, and the fourth wraps around. -/
theorem deviceQueue_isFifo_wraps :
    let calls : List (Call Int) := [.push 5, .push 6, .push 7, .pop, .push 8, .pop]
    let run := runCalls callQueue calls (emptyQueue (fun _ => 0) 3)
    run.1 = (runCalls (callFifo 2) calls []).1 ∧ run.2.contents = [8] ∧
      run.2.IsFifo 3 run.2.contents := by
  intro calls run
  obtain ⟨hevents, -, -, hfifo⟩ := deviceQueue_isFifo (fun _ => 0) (by decide : (1 : Int) ≤ 3) calls
  exact ⟨hevents, by decide, hfifo⟩

end ResidentInference.Device

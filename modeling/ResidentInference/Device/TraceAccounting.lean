import ResidentInference.Device.TraceReplay
import Mathlib.Data.List.Perm.Subperm

/-! Where the requests of a trace are: every request that has arrived is pending, active or
finished, and the two orders list what has been admitted and finished. -/
namespace ResidentInference.Device
open Loops
variable {φ : Type}

/-! ## The pending queue -/

/-- The pending values, the oldest first. -/
def DeviceQueue.contents (queue : DeviceQueue) : List Int :=
  RingQueue.contents queue.entries queue.capacity queue.head queue.tail

def DeviceQueue.InBounds (queue : DeviceQueue) : Prop :=
  RingQueue.InBounds queue.capacity queue.head queue.tail

theorem queueTryPop_spec {queue : DeviceQueue} (h : queue.InBounds) :
    queueTryPop queue = none ∧ queue.contents = [] ∨
      ∃ value queue', queueTryPop queue = some (value, queue') ∧
        queue.contents = value :: queue'.contents ∧ queue'.InBounds ∧
        queue'.capacity = queue.capacity := by
  by_cases hempty : queue.head = queue.tail
  · exact Or.inl ⟨if_pos hempty, (RingQueue.contents_eq_nil_iff h _).mpr hempty⟩
  · have hnext : (queue.head + 1).tmod queue.capacity =
        RingQueue.wrap queue.capacity (queue.head + 1) := by
      obtain ⟨h1, h2, -, -⟩ := h
      exact RingQueue.tmod_eq_wrap (by omega) (by omega)
    refine Or.inr ⟨_, _, if_neg hempty, ?_, ?_, rfl⟩
    · simp only [DeviceQueue.contents, hnext]
      exact RingQueue.contents_pop h _ hempty
    · simp only [DeviceQueue.InBounds, hnext]
      exact RingQueue.InBounds.pop h

/-- A queue with two free cells takes a value. -/
theorem queueTryPush_spec {queue : DeviceQueue} (h : queue.InBounds) (value : Int)
    (hroom : (queue.contents.length : Int) + 1 < queue.capacity) :
    ∃ queue', queueTryPush queue value = some queue' ∧
      queue'.contents = queue.contents ++ [value] ∧ queue'.InBounds ∧
      queue'.capacity = queue.capacity := by
  have hnext : (queue.tail + 1).tmod queue.capacity =
      RingQueue.wrap queue.capacity (queue.tail + 1) := by
    obtain ⟨-, -, h3, h4⟩ := h
    exact RingQueue.tmod_eq_wrap (by omega) (by omega)
  have hne : RingQueue.wrap queue.capacity (queue.tail + 1) ≠ queue.head := by
    intro hfull
    have hdepth := (RingQueue.full_iff h).mp hfull
    simp only [DeviceQueue.contents, RingQueue.length_contents] at hroom
    omega
  refine ⟨_, if_neg (by rw [hnext]; exact hne), ?_, ?_, rfl⟩
  · simp only [DeviceQueue.contents, hnext]
    exact RingQueue.contents_push h _ _ hne
  · simp only [DeviceQueue.InBounds, hnext]
    exact RingQueue.InBounds.push h

/-! ## The active slots -/

/-- The requests in the slots. -/
def activeRequests (launch : TraceLaunch) (ids : Int → Int) : List Int :=
  ((Int.range 0 launch.maxActiveRequests).map ids).filter fun r => 0 ≤ r

theorem length_activeRequests_le (launch : TraceLaunch) (ids : Int → Int) :
    (activeRequests launch ids).length ≤ launch.maxActiveRequests.toNat := by
  refine (List.length_filter_le _ _).trans ?_
  simp

theorem activeRequests_fill {launch : TraceLaunch} {ids : Int → Int} {slot r : Int}
    (hslot : slot ∈ Int.range 0 launch.maxActiveRequests) (hfree : ids slot < 0) (hr : 0 ≤ r) :
    (activeRequests launch (Function.update ids slot r)).Perm (r :: activeRequests launch ids) := by
  have hnew := filter_map_update_perm (nodup_range 0 _) hslot ids r fun r => 0 ≤ r
  have hold := filter_map_update_perm (nodup_range 0 _) hslot ids (ids slot) fun r => 0 ≤ r
  simp only [Function.update_eq_self, hr, not_le.mpr hfree, decide_true, decide_false, if_true,
    Bool.false_eq_true, if_false, List.nil_append, List.singleton_append] at hnew hold
  exact hnew.trans (hold.symm.cons r)

theorem activeRequests_clear {launch : TraceLaunch} {ids : Int → Int} {slot : Int}
    (hslot : slot ∈ Int.range 0 launch.maxActiveRequests) (htaken : 0 ≤ ids slot) :
    (activeRequests launch ids).Perm
      (ids slot :: activeRequests launch (Function.update ids slot (-1))) := by
  have hnew := filter_map_update_perm (nodup_range 0 _) hslot ids (-1) fun r => 0 ≤ r
  have hold := filter_map_update_perm (nodup_range 0 _) hslot ids (ids slot) fun r => 0 ≤ r
  simp only [Function.update_eq_self, htaken, decide_true, if_true, List.singleton_append]
    at hold
  have hnone : ¬ (0 : Int) ≤ -1 := by decide
  simp only [hnone, decide_false, Bool.false_eq_true, if_false, List.nil_append] at hnew
  exact hold.trans (hnew.symm.cons (ids slot))

theorem activeCount_eq (launch : TraceLaunch) (s : ReplayState φ) :
    activeCount launch s = (activeRequests launch s.activeRequestIds).length := by
  have hfold (is : List Int) (count : Int) :
      is.foldl (fun count i => if s.activeRequestIds i ≥ 0 then count + 1 else count) count =
        count + ((is.map s.activeRequestIds).filter fun r => 0 ≤ r).length := by
    induction is generalizing count with
    | nil => simp
    | cons i is ih =>
      rw [List.foldl_cons, ih]
      by_cases hi : 0 ≤ s.activeRequestIds i
      · simp [hi]
        omega
      · simp [hi]
  exact (hfold (Int.range 0 launch.maxActiveRequests) 0).trans (zero_add _)

/-- All slots are taken exactly when there are as many active requests. -/
theorem length_activeRequests_eq_iff (launch : TraceLaunch) (ids : Int → Int) :
    (activeRequests launch ids).length = launch.maxActiveRequests.toNat ↔
      ∀ i ∈ Int.range 0 launch.maxActiveRequests, 0 ≤ ids i := by
  have hlen : ((Int.range 0 launch.maxActiveRequests).map ids).length =
      launch.maxActiveRequests.toNat := by simp
  rw [activeRequests, ← hlen, List.length_filter_eq_length_iff]
  simp

/-- A slot is free while fewer requests are active than there are slots. -/
theorem freeSlot_spec {launch : TraceLaunch} {s : ReplayState φ}
    (h : (activeRequests launch s.activeRequestIds).length < launch.maxActiveRequests) :
    0 ≤ freeSlot launch s ∧ freeSlot launch s ∈ Int.range 0 launch.maxActiveRequests ∧
      s.activeRequestIds (freeSlot launch s) < 0 := by
  cases hfind : (Int.range 0 launch.maxActiveRequests).find? fun i => s.activeRequestIds i < 0 with
  | none =>
    have hall : ∀ i ∈ Int.range 0 launch.maxActiveRequests, 0 ≤ s.activeRequestIds i := by
      intro i hi
      simpa using List.find?_eq_none.mp hfind i hi
    have hfull := (length_activeRequests_eq_iff launch s.activeRequestIds).mpr hall
    omega
  | some i =>
    have hslot : freeSlot launch s = i := by simp only [freeSlot, hfind, Option.getD_some]
    have hmem := List.mem_of_find?_eq_some hfind
    rw [hslot]
    exact ⟨(Int.mem_range_iff.mp hmem).1, hmem, by simpa using List.find?_some hfind⟩

/-- The free slots of `s` that are taken in `s'` hold requests of `new` that nothing has served. -/
structure Filled (launch : TraceLaunch) (new : List Int) (s s' : ReplayState φ) : Prop where
  slot : ∀ i, s'.activeRequestIds i = s.activeRequestIds i ∧
      s'.activeRemainingSteps i = s.activeRemainingSteps i ∨
    s.activeRequestIds i < 0 ∧ s'.activeRequestIds i ∈ new ∧
      s'.activeRemainingSteps i = launch.serviceSteps (s'.activeRequestIds i)
  quanta : s'.metric.totalServiceQuanta = s.metric.totalServiceQuanta

theorem Filled.refl (launch : TraceLaunch) (s : ReplayState φ) : Filled launch [] s s :=
  ⟨fun _ => Or.inl ⟨rfl, rfl⟩, rfl⟩

theorem Filled.cons {launch : TraceLaunch} {new : List Int} {s s' : ReplayState φ} {slot r : Int}
    {queue : DeviceQueue} (hfree : s.activeRequestIds slot < 0) (hr : 0 ≤ r)
    (h : Filled launch new (admitToSlot launch { s with pendingQueue := queue } slot r) s') :
    Filled launch (r :: new) s s' := by
  refine ⟨fun i => ?_, h.quanta⟩
  have hslot := h.slot i
  simp only [admitToSlot] at hslot
  by_cases hi : i = slot
  · subst hi
    simp only [Function.update_self] at hslot
    obtain ⟨hid, hsteps⟩ | ⟨hneg, -, -⟩ := hslot
    · exact Or.inr ⟨hfree, by simp [hid], by rw [hsteps, hid]⟩
    · omega
  · simp only [Function.update_of_ne hi] at hslot
    exact hslot.imp id fun ⟨hneg, hnew, hsteps⟩ => ⟨hneg, List.mem_cons_of_mem r hnew, hsteps⟩

/-! ## The two orders -/

/-- The order array lists the ids of `reqs` from its start on, and is untouched from `n` on. -/
structure OrderLog (ids : Int → Int) (n : Int) (order₀ order : Int → Int) (reqs : List Int) :
    Prop where
  recorded : ∀ (k : Nat) (hk : k < reqs.length), order k = ids (reqs.get ⟨k, hk⟩)
  untouched : ∀ k, n ≤ k → order k = order₀ k

theorem OrderLog.push {ids : Int → Int} {n : Int} {order₀ order : Int → Int} {reqs : List Int}
    (h : OrderLog ids n order₀ order reqs) (hroom : (reqs.length : Int) < n) (r : Int) :
    OrderLog ids n order₀ (Function.update order reqs.length (ids r)) (reqs ++ [r]) := by
  refine ⟨fun k hk => ?_, fun k hk => ?_⟩
  · by_cases hlast : k = reqs.length
    · subst hlast
      simp
    · have hold : k < reqs.length := by
        rw [List.length_append, List.length_singleton] at hk
        omega
      rw [Function.update_of_ne (by exact_mod_cast hlast), h.recorded k hold]
      simp [List.getElem_append_left hold]
  · rw [Function.update_of_ne (by omega)]
    exact h.untouched k hk

/-! ## The invariant -/

/-- The requests that arrive in the first `steps` steps, by step and index. -/
def arrivedRequests (launch : TraceLaunch) (steps : Nat) : List Int :=
  (List.range steps).flatMap fun step : Nat =>
    (Int.range 0 launch.numRequests).filter fun req => launch.arrivalSteps req = step

/-- Where the requests that have arrived are after `steps` steps. -/
structure Accounted (launch : TraceLaunch) (mem : ReplayMemory φ) (steps : Int)
    (arrived admitted finished : List Int) (s : ReplayState φ) : Prop where
  steps : s.metric.replaySteps = steps
  ids : ∀ i, (s.requests i).requestId = (mem.requests i).requestId
  bounds : s.pendingQueue.InBounds
  capacity : s.pendingQueue.capacity = mem.pendingQueue.capacity
  length : (arrived.length : Int) ≤ launch.numRequests
  nonneg : ∀ r ∈ arrived, 0 ≤ r
  split : arrived = admitted ++ s.pendingQueue.contents
  slots : admitted.Perm (activeRequests launch s.activeRequestIds ++ finished)
  arrivalEvents : s.metric.arrivalEvents = arrived.length
  admissionEvents : s.metric.admissionEvents = admitted.length
  completionEvents : s.metric.completionEvents = finished.length
  completed : s.completed = finished.length
  nextAdmissionSlot : s.nextAdmissionSlot = admitted.length
  nextCompletionSlot : s.nextCompletionSlot = finished.length
  admissionOrder : OrderLog (fun r => (mem.requests r).requestId) launch.numRequests
    mem.admissionOrder s.admissionOrder admitted
  completionOrder : OrderLog (fun r => (mem.requests r).requestId) launch.numRequests
    mem.completionOrder s.completionOrder finished

/-- A change of state leaves the ids. -/
theorem requestId_update {requests : Int → RequestDescriptor φ} {ids : Int → Int}
    (h : ∀ i, (requests i).requestId = ids i) (r : Int) (state : RequestState) (i : Int) :
    (Function.update requests r ((requests r).setState state) i).requestId = ids i := by
  by_cases hi : i = r
  · subst hi
    simpa using h i
  · simpa [hi] using h i

section
variable {launch : TraceLaunch} {mem : ReplayMemory φ} {steps : Int}
  {arrived admitted finished : List Int} {s : ReplayState φ}

theorem accounted_replayStart (hn : 0 ≤ launch.numRequests) (hbounds : mem.pendingQueue.InBounds)
    (hempty : mem.pendingQueue.head = mem.pendingQueue.tail) :
    Accounted launch mem 0 [] [] [] (replayStart launch mem) := by
  have hactive : activeRequests launch (replayStart launch mem).activeRequestIds = [] := by
    refine List.filter_eq_nil_iff.mpr fun r hr => ?_
    obtain ⟨i, hi, rfl⟩ := List.mem_map.mp hr
    have hcell : (replayStart launch mem).activeRequestIds i = -1 := by
      simp only [replayStart, writeCells_apply]
      rw [if_pos (by simpa using Int.mem_range_iff.mp hi)]
    simp [hcell]
  have hcontents : (replayStart launch mem).pendingQueue.contents = [] :=
    (RingQueue.contents_eq_nil_iff hbounds _).mpr hempty
  refine ⟨rfl, fun _ => rfl, hbounds, rfl, hn, by simp, by rw [hcontents]; rfl,
    by rw [hactive]; simp, rfl, rfl, rfl, rfl, rfl, rfl, ⟨by simp, fun k hk => ?_⟩,
    ⟨by simp, fun k hk => ?_⟩⟩
  · exact writeCells_of_ge (by omega)
  · exact writeCells_of_ge (by omega)

theorem Accounted.admitted_length_le (h : Accounted launch mem steps arrived admitted finished s) :
    admitted.length + s.pendingQueue.contents.length = arrived.length := by
  rw [h.split, List.length_append]

theorem Accounted.finished_length_le (h : Accounted launch mem steps arrived admitted finished s) :
    (activeRequests launch s.activeRequestIds).length + finished.length = admitted.length := by
  rw [h.slots.length_eq, List.length_append]

theorem Accounted.nodup_admitted (h : Accounted launch mem steps arrived admitted finished s)
    (hnodup : arrived.Nodup) : admitted.Nodup := by
  rw [h.split] at hnodup
  exact hnodup.of_append_left

/-- A request that arrives is queued. -/
theorem Accounted.arrive (h : Accounted launch mem steps arrived admitted finished s)
    (hcap : launch.numRequests + 1 ≤ mem.pendingQueue.capacity) {step req : Int}
    (hstep : launch.arrivalSteps req = step) (hreq : 0 ≤ req)
    (hlen : ((arrived ++ [req]).length : Int) ≤ launch.numRequests) :
    Accounted launch mem steps (arrived ++ [req]) admitted finished
      (arrive launch step s req) := by
  have hcount := h.admitted_length_le
  have hlen' := hlen
  rw [List.length_append, List.length_singleton] at hlen'
  obtain ⟨queue, hpush, hcontents, hbounds, hcapacity⟩ :=
    queueTryPush_spec h.bounds req (by rw [h.capacity]; omega)
  simp only [Device.arrive, hstep, ne_eq, not_true, if_false, hpush]
  exact
    { h with
      ids := requestId_update h.ids req _
      bounds := hbounds
      capacity := hcapacity.trans h.capacity
      length := hlen
      nonneg := by
        intro r hr
        obtain hr | hr := List.mem_append.mp hr
        · exact h.nonneg r hr
        · rw [List.mem_singleton.mp hr]
          exact hreq
      split := by rw [hcontents, h.split, List.append_assoc]
      arrivalEvents := by simp [h.arrivalEvents] }

/-- The arrivals of one step are queued in the order of their indices. -/
theorem Accounted.foldl_arrive (hcap : launch.numRequests + 1 ≤ mem.pendingQueue.capacity)
    (step : Int) {is : List Int} (hpos : ∀ i ∈ is, 0 ≤ i)
    (h : Accounted launch mem steps arrived admitted finished s)
    (hlen : ((arrived ++ is.filter fun req => launch.arrivalSteps req = step).length : Int) ≤
      launch.numRequests) :
    Accounted launch mem steps (arrived ++ is.filter fun req => launch.arrivalSteps req = step)
      admitted finished (is.foldl (Device.arrive launch step) s) := by
  induction is generalizing arrived s with
  | nil => simpa using h
  | cons i is ih =>
    have hrest : ∀ j ∈ is, 0 ≤ j := fun j hj => hpos j (List.mem_cons_of_mem i hj)
    rw [List.foldl_cons]
    by_cases hi : launch.arrivalSteps i = step
    · simp only [List.filter_cons, hi, decide_true, if_true] at hlen ⊢
      rw [List.append_cons] at hlen ⊢
      refine ih hrest (h.arrive hcap hi (hpos i List.mem_cons_self) ?_) hlen
      rw [List.length_append] at hlen
      omega
    · have hsame : Device.arrive launch step s i = s := if_pos hi
      simp only [List.filter_cons, hi, decide_false, Bool.false_eq_true, if_false, hsame]
        at hlen ⊢
      exact ih hrest h hlen

/-- The head of the queue is admitted to a free slot. -/
theorem Accounted.admitToSlot (h : Accounted launch mem steps arrived admitted finished s)
    {slot r : Int} {queue : DeviceQueue} (hslot : slot ∈ Int.range 0 launch.maxActiveRequests)
    (hfree : s.activeRequestIds slot < 0)
    (hcontents : s.pendingQueue.contents = r :: queue.contents) (hbounds : queue.InBounds)
    (hcapacity : queue.capacity = s.pendingQueue.capacity) :
    Accounted launch mem steps arrived (admitted ++ [r]) finished
      (admitToSlot launch { s with pendingQueue := queue } slot r) := by
  have hr : 0 ≤ r := h.nonneg r (by rw [h.split, hcontents]; simp)
  have hlen := h.length
  have hcount := h.admitted_length_le
  rw [hcontents, List.length_cons] at hcount
  have hactive := activeRequests_fill hslot hfree hr
  have hperm : (admitted ++ [r]).Perm
      (activeRequests launch (Function.update s.activeRequestIds slot r) ++ finished) :=
    (List.perm_append_singleton r admitted).trans
      ((h.slots.cons r).trans (hactive.symm.append_right finished))
  exact
    { h with
      ids := requestId_update h.ids r _
      bounds := hbounds
      capacity := hcapacity.trans h.capacity
      split := by
        change arrived = admitted ++ [r] ++ queue.contents
        rw [h.split, hcontents, List.append_cons]
      slots := hperm
      admissionEvents := by simp [Device.admitToSlot, h.admissionEvents]
      nextAdmissionSlot := by simp [Device.admitToSlot, h.nextAdmissionSlot]
      admissionOrder := by
        simp only [Device.admitToSlot, h.nextAdmissionSlot, h.ids]
        exact h.admissionOrder.push (by omega) r }

/-- The admissions end with an empty queue or with all slots taken. -/
theorem Accounted.admissionLoop (n : Nat)
    (h : Accounted launch mem steps arrived admitted finished s)
    (hn : (launch.maxActiveRequests -
      (activeRequests launch s.activeRequestIds).length).toNat = n) :
    let s' := (admissionLoop launch n (activeRequests launch s.activeRequestIds).length s).2
    ∃ new, Accounted launch mem steps arrived (admitted ++ new) finished s' ∧
      Filled launch new s s' ∧
      (s'.pendingQueue.contents = [] ∨
        launch.maxActiveRequests ≤ (activeRequests launch s'.activeRequestIds).length) := by
  induction n generalizing admitted s with
  | zero =>
    refine ⟨[], by simpa [Device.admissionLoop] using h, Filled.refl launch s, Or.inr ?_⟩
    simp only [Device.admissionLoop]
    omega
  | succ n ih =>
    have hlt : (activeRequests launch s.activeRequestIds).length < launch.maxActiveRequests := by
      omega
    simp only [Device.admissionLoop, hlt, if_true]
    obtain ⟨hpop, hnil⟩ | ⟨r, queue, hpop, hcontents, hbounds, hcapacity⟩ :=
      queueTryPop_spec h.bounds
    · simp only [hpop]
      exact ⟨[], by simpa using h, Filled.refl launch s, Or.inl hnil⟩
    · simp only [hpop]
      obtain ⟨hpos, hslot, hfree⟩ := freeSlot_spec hlt
      have hsame : freeSlot launch { s with pendingQueue := queue } = freeSlot launch s := rfl
      have hnext := h.admitToSlot hslot hfree hcontents hbounds hcapacity
      have hr : 0 ≤ r := h.nonneg r (by rw [h.split, hcontents]; simp)
      have hcount : (activeRequests launch (Device.admitToSlot launch
          { s with pendingQueue := queue } (freeSlot launch s) r).activeRequestIds).length =
          (activeRequests launch s.activeRequestIds).length + 1 :=
        (activeRequests_fill hslot hfree hr).length_eq
      rw [hsame, if_neg (not_lt.mpr hpos)]
      have hrest := ih hnext (by omega)
      rw [hcount, Nat.cast_add, Nat.cast_one] at hrest
      obtain ⟨new, hrest, hfilled, hend⟩ := hrest
      rw [← List.append_cons] at hrest
      exact ⟨r :: new, hrest, hfilled.cons hfree hr, hend⟩

/-- One slot is served: its request stays active, or it is finished. -/
theorem Accounted.serve (h : Accounted launch mem steps arrived admitted finished s) {i : Int}
    (hi : i ∈ Int.range 0 launch.maxActiveRequests) :
    ∃ finished', Accounted launch mem steps arrived admitted finished' (serve s i) := by
  by_cases hfree : s.activeRequestIds i < 0
  · refine ⟨finished, ?_⟩
    simp only [Device.serve, hfree, if_true]
    exact h
  · simp only [Device.serve, hfree, if_false]
    split
    · exact ⟨finished, { h with }⟩
    · have hclear := activeRequests_clear hi (not_lt.mp hfree)
      have hlen := h.length
      have hcount := h.admitted_length_le
      have hcount' := h.finished_length_le
      rw [hclear.length_eq, List.length_cons] at hcount'
      have hperm : admitted.Perm
          (activeRequests launch (Function.update s.activeRequestIds i (-1)) ++
            (finished ++ [s.activeRequestIds i])) := by
        refine h.slots.trans ((hclear.append_right finished).trans ?_)
        rw [← List.append_assoc]
        exact (List.perm_append_singleton _ _).symm
      exact ⟨finished ++ [s.activeRequestIds i],
        { h with
          ids := requestId_update h.ids _ _
          slots := hperm
          completionEvents := by simp [h.completionEvents]
          completed := by simp [h.completed]
          nextCompletionSlot := by simp [h.nextCompletionSlot]
          completionOrder := by
            simp only [h.nextCompletionSlot, h.ids]
            exact h.completionOrder.push (by omega) _ }⟩

theorem Accounted.foldl_serve {is : List Int}
    (his : ∀ i ∈ is, i ∈ Int.range 0 launch.maxActiveRequests)
    (h : Accounted launch mem steps arrived admitted finished s) :
    ∃ finished',
      Accounted launch mem steps arrived admitted finished' (is.foldl Device.serve s) := by
  induction is generalizing s finished with
  | nil => exact ⟨finished, h⟩
  | cons i is ih =>
    obtain ⟨finished', h'⟩ := h.serve (his i List.mem_cons_self)
    exact ih (fun j hj => his j (List.mem_cons_of_mem i hj)) h'

/-! ## Whole steps -/

theorem nodup_arrivedRequests (launch : TraceLaunch) (steps : Nat) :
    (arrivedRequests launch steps).Nodup := by
  refine List.nodup_flatMap.mpr ⟨fun _ _ => (nodup_range 0 _).filter _, ?_⟩
  refine List.Pairwise.imp ?_ List.nodup_range
  intro step step' hne r hr hr'
  refine hne ?_
  have hfirst := (List.mem_filter.mp hr).2
  have hsecond := (List.mem_filter.mp hr').2
  simp only [decide_eq_true_eq] at hfirst hsecond
  omega

theorem mem_arrivedRequests {launch : TraceLaunch} {steps : Nat} {r : Int}
    (h : r ∈ arrivedRequests launch steps) : r ∈ Int.range 0 launch.numRequests := by
  obtain ⟨step, -, hr⟩ := List.mem_flatMap.mp h
  exact (List.mem_filter.mp hr).1

theorem length_arrivedRequests_le (hn : 0 ≤ launch.numRequests) (steps : Nat) :
    ((arrivedRequests launch steps).length : Int) ≤ launch.numRequests := by
  have hle := ((nodup_arrivedRequests launch steps).subperm fun r hr =>
    mem_arrivedRequests hr).length_le
  rw [length_range] at hle
  omega

theorem arrivedRequests_succ (launch : TraceLaunch) (steps : Nat) :
    arrivedRequests launch (steps + 1) = arrivedRequests launch steps ++
      (Int.range 0 launch.numRequests).filter fun req => launch.arrivalSteps req = steps := by
  simp [arrivedRequests, List.range_succ]

theorem Accounted.arrivals {steps : Nat} (hn : 0 ≤ launch.numRequests)
    (hcap : launch.numRequests + 1 ≤ mem.pendingQueue.capacity)
    (h : Accounted launch mem steps (arrivedRequests launch steps) admitted finished s) :
    Accounted launch mem (steps + 1 : Nat) (arrivedRequests launch (steps + 1)) admitted finished
      (arrivals launch steps s) := by
  have hstart : Accounted launch mem (steps + 1 : Nat) (arrivedRequests launch steps) admitted
      finished
      { s with metric := { s.metric with replaySteps := s.metric.replaySteps + 1 } } :=
    { h with steps := by simp [h.steps] }
  have hlen := length_arrivedRequests_le hn (steps + 1)
  rw [arrivedRequests_succ] at hlen ⊢
  have hqueued := hstart.foldl_arrive hcap steps
    (fun i hi => (Int.mem_range_iff.mp hi).1) hlen
  simp only [Device.arrivals]
  split
  · exact { hqueued with }
  · exact hqueued

theorem Accounted.admissions (h : Accounted launch mem steps arrived admitted finished s) :
    ∃ new, Accounted launch mem steps arrived (admitted ++ new) finished (admissions launch s) ∧
      Filled launch new s (admissions launch s) ∧
      ((admissions launch s).pendingQueue.contents = [] ∨
        ∀ i ∈ Int.range 0 launch.maxActiveRequests,
          0 ≤ (admissions launch s).activeRequestIds i) := by
  obtain ⟨new, h', hfilled, hend⟩ := h.admissionLoop _ rfl
  have htaken := hend.imp id fun hfull =>
    (length_activeRequests_eq_iff launch _).mp (le_antisymm
      (length_activeRequests_le launch _) (Int.toNat_le.mpr hfull))
  refine ⟨new, ?_⟩
  simp only [Device.admissions, activeCount_eq]
  split
  · exact ⟨{ h' with }, { hfilled with }, htaken⟩
  · exact ⟨h', hfilled, htaken⟩

theorem Accounted.services (h : Accounted launch mem steps arrived admitted finished s) :
    ∃ finished', Accounted launch mem steps arrived admitted finished' (services launch s) :=
  h.foldl_serve fun _ hi => hi

/-- The loop is in turn `n`, or it has ended. -/
theorem replayRun_accounted (hn : 0 ≤ launch.numRequests)
    (hcap : launch.numRequests + 1 ≤ mem.pendingQueue.capacity)
    (hbounds : mem.pendingQueue.InBounds)
    (hempty : mem.pendingQueue.head = mem.pendingQueue.tail) (n : Nat) :
    let s := replayRun launch mem n
    ∃ (steps : Nat) (admitted finished : List Int),
      Accounted launch mem steps (arrivedRequests launch steps) admitted finished s ∧
        (steps = n ∨ ¬ (n < launch.maxTraceSteps ∧ s.completed < launch.numRequests)) := by
  induction n with
  | zero => exact ⟨0, [], [], accounted_replayStart hn hbounds hempty, Or.inl rfl⟩
  | succ n ih =>
    obtain ⟨steps, admitted, finished, h, hturn⟩ := ih
    simp only [replayRun]
    split
    · next hguard =>
      obtain rfl := hturn.resolve_right (not_not.mpr hguard)
      obtain ⟨new, h', -, -⟩ := (h.arrivals hn hcap).admissions
      obtain ⟨finished', h''⟩ := h'.services
      exact ⟨steps + 1, admitted ++ new, finished', h'', Or.inl rfl⟩
    · next hguard =>
      refine ⟨steps, admitted, finished, h, Or.inr fun hnext => hguard ⟨?_, hnext.2⟩⟩
      have hlt := hnext.1
      push_cast at hlt
      omega

end

/-- After every step the requests that have arrived are the admitted ones, in the order of their
admission, and then the pending ones; an admitted request is in one slot or once in the completion
order, nothing else is; the counters count these lists, which fit into the order arrays; and the
admissions of the next step leave an empty queue or no free slot. -/
theorem replayRun_conserves_requests {launch : TraceLaunch} {mem : ReplayMemory φ}
    (hn : 0 ≤ launch.numRequests) (hactive : 1 ≤ launch.maxActiveRequests)
    (hcap : launch.numRequests + 1 ≤ mem.pendingQueue.capacity)
    (hbounds : mem.pendingQueue.InBounds)
    (hempty : mem.pendingQueue.head = mem.pendingQueue.tail) (n : Nat) :
    let s := replayRun launch mem n
    let arrived := arrivedRequests launch s.metric.replaySteps.toNat
    let active := activeRequests launch s.activeRequestIds
    ∃ admitted finished : List Int,
      arrived = admitted ++ s.pendingQueue.contents ∧
      (∀ (k : Nat) (hk : k < admitted.length),
        s.admissionOrder k = (mem.requests (admitted.get ⟨k, hk⟩)).requestId) ∧
      (∀ (k : Nat) (hk : k < finished.length),
        s.completionOrder k = (mem.requests (finished.get ⟨k, hk⟩)).requestId) ∧
      (∀ r, active.count r + finished.count r = if r ∈ admitted then 1 else 0) ∧
      (active.length : Int) ≤ launch.maxActiveRequests ∧
      (s.metric.arrivalEvents = arrived.length ∧ s.metric.admissionEvents = admitted.length ∧
        s.metric.completionEvents = finished.length) ∧
      (s.nextAdmissionSlot = admitted.length ∧ s.nextAdmissionSlot ≤ launch.numRequests ∧
        s.nextCompletionSlot = finished.length ∧ s.nextCompletionSlot ≤ launch.numRequests) ∧
      (∀ k, launch.numRequests ≤ k →
        s.admissionOrder k = mem.admissionOrder k ∧ s.completionOrder k = mem.completionOrder k) ∧
      (n < launch.maxTraceSteps ∧ s.completed < launch.numRequests →
        s.metric.replaySteps = n ∧
          let s' := admissions launch (arrivals launch n s)
          s'.pendingQueue.contents = [] ∨
            ∀ i ∈ Int.range 0 launch.maxActiveRequests, 0 ≤ s'.activeRequestIds i) := by
  intro s arrived active
  obtain ⟨steps, admitted, finished, h, hturn⟩ :=
    replayRun_accounted hn hcap hbounds hempty n
  have harrived : arrived = arrivedRequests launch steps := by
    simp only [arrived, s, h.steps, Int.toNat_natCast]
  have hnodup := h.nodup_admitted (nodup_arrivedRequests launch steps)
  have hlen := h.length
  have hadmitted := h.admitted_length_le
  have hfinished := h.finished_length_le
  rw [harrived]
  refine ⟨admitted, finished, h.split, h.admissionOrder.recorded, h.completionOrder.recorded,
    fun r => ?_, ?_, ⟨h.arrivalEvents, h.admissionEvents, h.completionEvents⟩,
    ⟨h.nextAdmissionSlot, ?_, h.nextCompletionSlot, ?_⟩, fun k hk =>
      ⟨h.admissionOrder.untouched k hk, h.completionOrder.untouched k hk⟩, fun hguard => ?_⟩
  · rw [← hnodup.count, h.slots.count_eq, List.count_append]
  · have hle := length_activeRequests_le launch s.activeRequestIds
    simp only [active]
    omega
  · rw [h.nextAdmissionSlot]
    omega
  · rw [h.nextCompletionSlot]
    omega
  · obtain rfl := hturn.resolve_right (not_not.mpr hguard)
    obtain ⟨-, -, -, hend⟩ := (h.arrivals hn hcap).admissions
    exact ⟨h.steps, hend⟩

/-- Three requests and two slots after two steps: all have been admitted, two are finished. -/
theorem replayRun_conserves_requests_host :
    ∃ s : ReplayState ℚ,
      s = replayRun (traceReplayLaunch 3 2) (traceReplayMemory 3 2 fun _ => 7) 2 ∧
      s.completed = 2 ∧ ∃ admitted finished : List Int,
        arrivedRequests (traceReplayLaunch 3 2) s.metric.replaySteps.toNat =
          admitted ++ s.pendingQueue.contents ∧
        s.metric.completionEvents = finished.length ∧
        ∀ r, (activeRequests (traceReplayLaunch 3 2) s.activeRequestIds).count r +
          finished.count r = if r ∈ admitted then 1 else 0 := by
  have hcompleted : (replayRun (traceReplayLaunch 3 2)
      (traceReplayMemory 3 2 fun _ => 7 : ReplayMemory ℚ) 2).completed = 2 := by decide +kernel
  obtain ⟨admitted, finished, hsplit, -, -, hplaces, -, hevents, -⟩ :=
    @replayRun_conserves_requests ℚ (traceReplayLaunch 3 2) (traceReplayMemory 3 2 fun _ => 7)
      (by decide) (by decide) (by decide) ⟨by decide, by decide, by decide, by decide⟩
      (by decide) 2
  exact ⟨_, rfl, hcompleted, admitted, finished, hsplit, hevents.2.2, hplaces⟩

end ResidentInference.Device

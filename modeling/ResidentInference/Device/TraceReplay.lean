import ResidentInference.Device.Host
import ResidentInference.RingQueue

/-! The replay of an arrival trace: requests arrive in a pending queue, are admitted from its head
into free slots, and are served until they complete. -/
namespace ResidentInference.Device
open Loops
variable {φ : Type}

/-! ## The queue -/

structure DeviceQueue where
  entries : Int → Int
  capacity : Int
  head : Int
  tail : Int

def queueTryPop (queue : DeviceQueue) : Option (Int × DeviceQueue) :=
  if queue.head = queue.tail then none
  else some (queue.entries queue.head,
    { queue with head := (queue.head + 1).tmod queue.capacity })

def queueTryPush (queue : DeviceQueue) (value : Int) : Option DeviceQueue :=
  let next := (queue.tail + 1).tmod queue.capacity
  if next = queue.head then none
  else some { queue with
    entries := Function.update queue.entries queue.tail value
    tail := next }

def queueDepth (queue : DeviceQueue) : Int :=
  (queue.tail - queue.head + queue.capacity).tmod queue.capacity

/-! ## The state of the kernel -/

structure TraceReplayMetrics where
  replaySteps : Int := 0
  arrivalEvents : Int := 0
  admissionEvents : Int := 0
  completionEvents : Int := 0
  queueHighWatermark : Int := 0
  activeHighWatermark : Int := 0
  totalServiceQuanta : Int := 0
  deriving DecidableEq, Repr

/-- The parameters that the kernel only reads. -/
structure TraceLaunch where
  numRequests : Int
  arrivalSteps : Int → Int
  serviceSteps : Int → Int
  maxTraceSteps : Int
  maxActiveRequests : Int

/-- The arrays that the kernel writes. -/
structure ReplayMemory (φ : Type) where
  requests : Int → RequestDescriptor φ
  pendingQueue : DeviceQueue
  activeRequestIds : Int → Int
  activeRemainingSteps : Int → Int
  admissionOrder : Int → Int
  completionOrder : Int → Int

structure ReplayState (φ : Type) extends ReplayMemory φ where
  completed : Int
  nextAdmissionSlot : Int
  nextCompletionSlot : Int
  metric : TraceReplayMetrics

/-- The state before the first step. -/
def replayStart (launch : TraceLaunch) (mem : ReplayMemory φ) : ReplayState φ :=
  { mem with
    activeRequestIds := writeCells mem.activeRequestIds 0 launch.maxActiveRequests fun _ => -1
    activeRemainingSteps :=
      writeCells mem.activeRemainingSteps 0 launch.maxActiveRequests fun _ => 0
    admissionOrder := writeCells mem.admissionOrder 0 launch.numRequests fun _ => -1
    completionOrder := writeCells mem.completionOrder 0 launch.numRequests fun _ => -1
    completed := 0
    nextAdmissionSlot := 0
    nextCompletionSlot := 0
    metric := {} }

/-! ## Arrivals -/

/-- The arrival test of one request. -/
def arrive (launch : TraceLaunch) (step : Int) (s : ReplayState φ) (req : Int) : ReplayState φ :=
  if launch.arrivalSteps req ≠ step then s
  else match queueTryPush s.pendingQueue req with
    | none => s
    | some queue =>
      { s with
        pendingQueue := queue
        requests := Function.update s.requests req ((s.requests req).setState .prefillReady)
        metric := { s.metric with arrivalEvents := s.metric.arrivalEvents + 1 } }

/-- The first part of a step, with the high watermark of the queue. -/
def arrivals (launch : TraceLaunch) (step : Int) (s : ReplayState φ) : ReplayState φ :=
  let s := { s with metric := { s.metric with replaySteps := s.metric.replaySteps + 1 } }
  let s := (Int.range 0 launch.numRequests).foldl (arrive launch step) s
  if queueDepth s.pendingQueue > s.metric.queueHighWatermark then
    { s with metric := { s.metric with queueHighWatermark := queueDepth s.pendingQueue } }
  else s

/-! ## Admissions -/

def activeCount (launch : TraceLaunch) (s : ReplayState φ) : Int :=
  (Int.range 0 launch.maxActiveRequests).foldl
    (fun count i => if s.activeRequestIds i ≥ 0 then count + 1 else count) 0

/-- The first free slot, or -1. -/
def freeSlot (launch : TraceLaunch) (s : ReplayState φ) : Int :=
  ((Int.range 0 launch.maxActiveRequests).find? fun i => s.activeRequestIds i < 0).getD (-1)

def admitToSlot (launch : TraceLaunch) (s : ReplayState φ) (slot reqIndex : Int) : ReplayState φ :=
  { s with
    activeRequestIds := Function.update s.activeRequestIds slot reqIndex
    activeRemainingSteps :=
      Function.update s.activeRemainingSteps slot (launch.serviceSteps reqIndex)
    requests :=
      Function.update s.requests reqIndex ((s.requests reqIndex).setState .decodeReady)
    admissionOrder :=
      Function.update s.admissionOrder s.nextAdmissionSlot (s.requests reqIndex).requestId
    nextAdmissionSlot := s.nextAdmissionSlot + 1
    metric := { s.metric with admissionEvents := s.metric.admissionEvents + 1 } }

/-- The `while` loop, which raises the count in every turn: it has at most
`max_active_requests - active_count` turns. A request that is popped when no slot is free is
dropped. -/
def admissionLoop (launch : TraceLaunch) : Nat → Int → ReplayState φ → Int × ReplayState φ
  | 0, count, s => (count, s)
  | n+1, count, s =>
    if count < launch.maxActiveRequests then
      match queueTryPop s.pendingQueue with
      | none => (count, s)
      | some (reqIndex, queue) =>
        let s := { s with pendingQueue := queue }
        let slot := freeSlot launch s
        if slot < 0 then (count, s)
        else admissionLoop launch n (count + 1) (admitToSlot launch s slot reqIndex)
    else (count, s)

/-- The second part of a step, with the high watermark of the slots. -/
def admissions (launch : TraceLaunch) (s : ReplayState φ) : ReplayState φ :=
  let count := activeCount launch s
  let (count, s) := admissionLoop launch (launch.maxActiveRequests - count).toNat count s
  if count > s.metric.activeHighWatermark then
    { s with metric := { s.metric with activeHighWatermark := count } }
  else s

/-! ## Service -/

/-- One slot is served for one step. -/
def serve (s : ReplayState φ) (i : Int) : ReplayState φ :=
  let reqIndex := s.activeRequestIds i
  if reqIndex < 0 then s
  else
    let remaining := s.activeRemainingSteps i - 1
    let s := { s with
      activeRemainingSteps := Function.update s.activeRemainingSteps i remaining
      metric := { s.metric with totalServiceQuanta := s.metric.totalServiceQuanta + 1 } }
    if remaining > 0 then s
    else { s with
      requests := Function.update s.requests reqIndex ((s.requests reqIndex).setState .complete)
      completionOrder :=
        Function.update s.completionOrder s.nextCompletionSlot (s.requests reqIndex).requestId
      nextCompletionSlot := s.nextCompletionSlot + 1
      activeRequestIds := Function.update s.activeRequestIds i (-1)
      activeRemainingSteps := Function.update s.activeRemainingSteps i 0
      metric := { s.metric with completionEvents := s.metric.completionEvents + 1 }
      completed := s.completed + 1 }

def services (launch : TraceLaunch) (s : ReplayState φ) : ReplayState φ :=
  (Int.range 0 launch.maxActiveRequests).foldl serve s

/-! ## The loop -/

def replayStep (launch : TraceLaunch) (step : Int) (s : ReplayState φ) : ReplayState φ :=
  services launch (admissions launch (arrivals launch step s))

/-- The state after `n` turns of the loop; when its condition fails the state stays. -/
def replayRun (launch : TraceLaunch) (mem : ReplayMemory φ) : Nat → ReplayState φ
  | 0 => replayStart launch mem
  | n+1 =>
    let s := replayRun launch mem n
    if n < launch.maxTraceSteps ∧ s.completed < launch.numRequests then replayStep launch n s
    else s

def traceReplayAdmissionKernel (launch : TraceLaunch) (mem : ReplayMemory φ) : ReplayState φ :=
  replayRun launch mem launch.maxTraceSteps.toNat

/-! ## `run_trace_replay_bench` -/

def traceReplayLaunch (n draftLen : Int) : TraceLaunch where
  numRequests := n
  arrivalSteps := fun i => i.tdiv 2
  serviceSteps := fun i => 1 + i.tmod 3
  maxTraceSteps := n + 8
  maxActiveRequests :=
    let maxActiveRequests := if draftLen > 0 then draftLen else 2
    if maxActiveRequests > n then n else maxActiveRequests

/-- The memory of the launch; only the requests and the indices of the queue are initialised. -/
def traceReplayMemory [DeviceFloat φ] (n draftLen : Int) (cells : Int → Int) : ReplayMemory φ where
  requests := fun i => { (initRequest i 8 true (draftLen * 4)).setState .empty with
    priority := (i * 5).tmod (n + 3) }
  pendingQueue := { entries := cells, capacity := n + 1, head := 0, tail := 0 }
  activeRequestIds := cells
  activeRemainingSteps := cells
  admissionOrder := cells
  completionOrder := cells

end ResidentInference.Device

import ResidentInference.State
import ResidentInference.Runs
import Mathlib.Data.List.Sort
import Mathlib.Algebra.Order.BigOperators.Group.Multiset

/-! The scheduling loop of the runtime over any workers: two priority queues, the round of
prefills, the hand-over, the round of decode steps and the collection of its results. Every
step of the transition function handles at most one request. -/
namespace ResidentInference

/-- `_PriorityRequestQueue`: the heap's items in the order in which they are popped. -/
structure RequestQueue (ρ : Type) where
  items : List ((Int × Nat) × ρ)
  counter : Nat

namespace RequestQueue
variable {ρ : Type}

def empty : RequestQueue ρ := ⟨[], 0⟩

/-- The order of the sort keys. -/
def Before (p q : (Int × Nat) × ρ) : Prop :=
  p.1.1 < q.1.1 ∨ (p.1.1 = q.1.1 ∧ p.1.2 ≤ q.1.2)

instance : DecidableRel (Before : (Int × Nat) × ρ → (Int × Nat) × ρ → Prop) :=
  fun _ _ => inferInstanceAs (Decidable (_ ∨ _))

def push (q : RequestQueue ρ) (priority : Int) (r : ρ) : RequestQueue ρ where
  items := q.items.orderedInsert Before ((-priority, q.counter), r)
  counter := q.counter + 1

def pop (q : RequestQueue ρ) : Option (ρ × RequestQueue ρ) :=
  match q.items with
  | [] => none
  | item :: items => some (item.2, { q with items := items })

def requests (q : RequestQueue ρ) : List ρ := q.items.map Prod.snd

theorem requests_push (q : RequestQueue ρ) (priority : Int) (r : ρ) :
    ((q.push priority r).requests : Multiset ρ) = r ::ₘ (q.requests : Multiset ρ) :=
  Multiset.coe_eq_coe.mpr ((List.perm_orderedInsert Before _ q.items).map Prod.snd)

theorem length_push (q : RequestQueue ρ) (priority : Int) (r : ρ) :
    (q.push priority r).items.length = q.items.length + 1 :=
  (List.perm_orderedInsert Before _ q.items).length_eq

theorem items_of_pop {q q' : RequestQueue ρ} {r : ρ} (h : q.pop = some (r, q')) :
    ∃ item, q.items = item :: q'.items ∧ r = item.2 ∧ q'.counter = q.counter := by
  unfold pop at h
  cases hi : q.items with
  | nil => simp [hi] at h
  | cons item items =>
    simp only [hi, Option.some.injEq, Prod.mk.injEq] at h
    obtain ⟨rfl, rfl⟩ := h
    exact ⟨item, rfl, rfl, rfl⟩

theorem pop_some {q q' : RequestQueue ρ} {r : ρ} (h : q.pop = some (r, q')) :
    q.requests = r :: q'.requests ∧ q.items.length = q'.items.length + 1 := by
  obtain ⟨item, hitems, rfl, _⟩ := items_of_pop h
  simp [requests, hitems]

theorem pop_none {q : RequestQueue ρ} (h : q.pop = none) : q.items = [] := by
  unfold pop at h
  cases hi : q.items with
  | nil => rfl
  | cons item items => simp [hi] at h

end RequestQueue

/-- Where the loop of `run` is: at its test, in the prefill round with what it completed, handing
these over to the decode queue, in the decode round with `n` turns to go, collecting the traces
of the round, or done. -/
inductive Control (ρ τ β : Type) where
  | loop
  | prefilling (completed : List ρ)
  | handingOver (completed : List ρ)
  | decoding (n : Nat) (stepped : List (ρ × τ))
  | collecting (stepped : List (ρ × τ))
  | returned (results : List β)
  | raised (e : Fault)

namespace Control
variable {ρ τ β : Type}

def requests : Control ρ τ β → List ρ
  | .prefilling completed => completed
  | .handingOver completed => completed
  | .decoding _ stepped => stepped.map Prod.fst
  | .collecting stepped => stepped.map Prod.fst
  | _ => []

/-- The requests in hand that wait for a decode step. -/
def waiting : Control ρ τ β → List ρ
  | .prefilling completed => completed
  | .handingOver completed => completed
  | _ => []

/-- The results, if the loop has returned. -/
def returned? : Control ρ τ β → Option (List β)
  | .returned results => some results
  | _ => none

theorem eq_of_returned? {c : Control ρ τ β} {results : List β} (h : c.returned? = some results) :
    c = .returned results := by
  cases c with
  | returned l =>
    cases h
    rfl
  | _ => cases h

theorem mem_requests_of_waiting {c : Control ρ τ β} {r : ρ} (h : r ∈ c.waiting) :
    r ∈ c.requests := by
  cases c with
  | prefilling completed => exact h
  | handingOver completed => exact h
  | _ => cases h

end Control

/-- The workers of a pool, by index, and what the loop reads off a request and a result. -/
structure Workers (ρ κ τ β η : Type) where
  numPrefill : Nat
  numDecode : Nat
  requestId : ρ → Int
  priority : ρ → Int
  finished : ρ → Bool
  prefill : Nat → κ → ρ → Except Fault ρ × κ
  decode : Nat → κ → ρ → Except Fault (ρ × τ) × κ
  handoff : Nat → Nat → ρ → η
  release : κ → Int → κ
  buildResult : ρ → List τ → β
  resultId : β → Int

structure PoolState (ρ κ τ β η : Type) where
  cache : κ
  prefillQueue : RequestQueue ρ
  decodeQueue : RequestQueue ρ
  prefillRr : Nat
  decodeRr : Nat
  handoffs : List η
  traces : Dict Int (List τ)
  finalResults : List β
  control : Control ρ τ β

variable {ρ κ τ β η : Type}

namespace Workers
variable (w : Workers ρ κ τ β η)

/-- `sorted(final_results, key=lambda result: result.request_id)` -/
def sortResults (results : List β) : List β :=
  results.insertionSort fun a b => w.resultId a ≤ w.resultId b

/-- One turn of `dispatch_prefill`, with the request already popped. -/
def prefillTurn (s : PoolState ρ κ τ β η) (completed : List ρ) (r : ρ) (queue : RequestQueue ρ) :
    PoolState ρ κ τ β η :=
  if w.numPrefill = 0 then { s with control := .raised .zeroDivision }
  else
    let idx := s.prefillRr % w.numPrefill
    let s' := { s with prefillQueue := queue, prefillRr := s.prefillRr + 1 }
    match w.prefill idx s.cache r with
    | (.error e, cache) => { s' with cache := cache, control := .raised e }
    | (.ok r', cache) =>
      if w.numDecode = 0 then { s' with cache := cache, control := .raised .zeroDivision }
      else
        { s' with
          cache := cache
          handoffs := s.handoffs ++ [w.handoff idx (s.decodeRr % w.numDecode) r']
          control := .prefilling (completed ++ [r']) }

/-- One turn of `dispatch_decode`, with the request already popped. -/
def decodeTurn (s : PoolState ρ κ τ β η) (n : Nat) (stepped : List (ρ × τ)) (r : ρ)
    (queue : RequestQueue ρ) : PoolState ρ κ τ β η :=
  if w.numDecode = 0 then { s with control := .raised .zeroDivision }
  else
    let s' := { s with decodeQueue := queue, decodeRr := s.decodeRr + 1 }
    match w.decode (s.decodeRr % w.numDecode) s.cache r with
    | (.error e, cache) => { s' with cache := cache, control := .raised e }
    | (.ok p, cache) => { s' with cache := cache, control := .decoding n (stepped ++ [p]) }

/-- One turn of the loop over the results of a decode round. -/
def collect (s : PoolState ρ κ τ β η) (r : ρ) (trace : τ) (rest : List (ρ × τ)) :
    PoolState ρ κ τ β η :=
  let rid := w.requestId r
  let traces := s.traces.set rid ((s.traces.get? rid).getD [] ++ [trace])
  if w.finished r then
    { s with
      traces := traces
      finalResults := s.finalResults ++ [w.buildResult r ((traces.get? rid).getD [])]
      cache := w.release s.cache rid
      control := .collecting rest }
  else
    { s with
      traces := traces
      decodeQueue := s.decodeQueue.push (w.priority r) r
      control := .collecting rest }

/-- The transition function of `run`. -/
def step (s : PoolState ρ κ τ β η) : Option (PoolState ρ κ τ β η) :=
  match s.control with
  | .loop =>
    if s.prefillQueue.items.isEmpty ∧ s.decodeQueue.items.isEmpty then
      some { s with control := .returned (w.sortResults s.finalResults) }
    else some { s with control := .prefilling [] }
  | .prefilling completed =>
    match s.prefillQueue.pop with
    | none => some { s with control := .handingOver completed }
    | some (r, queue) => some (w.prefillTurn s completed r queue)
  | .handingOver [] =>
    some { s with
      control := .decoding (min s.decodeQueue.items.length (max 1 w.numDecode)) [] }
  | .handingOver (r :: rest) =>
    some { s with
      decodeQueue := s.decodeQueue.push (w.priority r) r
      control := .handingOver rest }
  | .decoding 0 stepped => some { s with control := .collecting stepped }
  | .decoding (n+1) stepped =>
    match s.decodeQueue.pop with
    | none => some { s with control := .raised .emptyQueue }
    | some (r, queue) => some (w.decodeTurn s n stepped r queue)
  | .collecting [] => some { s with control := .loop }
  | .collecting ((r, trace) :: rest) => some (w.collect s r trace rest)
  | .returned _ => none
  | .raised _ => none

variable {w} in
theorem step_returned {s : PoolState ρ κ τ β η} {results : List β}
    (h : s.control = .returned results) : w.step s = none := by simp [step, h]

variable {w} in
theorem step_raised {s : PoolState ρ κ τ β η} {e : Fault} (h : s.control = .raised e) :
    w.step s = none := by simp [step, h]

/-- The pool after the requests have been enqueued, before `run` is called. -/
def start (cache : κ) (requests : List ρ) : PoolState ρ κ τ β η where
  cache := cache
  prefillQueue := requests.foldl (fun q r => q.push (w.priority r) r) RequestQueue.empty
  decodeQueue := RequestQueue.empty
  prefillRr := 0
  decodeRr := 0
  handoffs := []
  traces := Dict.empty
  finalResults := []
  control := .loop

end Workers

namespace PoolState

/-- Every request in flight, wherever it is. -/
def bag (s : PoolState ρ κ τ β η) : Multiset ρ :=
  (s.prefillQueue.requests : Multiset ρ) + (s.control.requests : Multiset ρ) +
    (s.decodeQueue.requests : Multiset ρ)

/-- The requests in flight that have been through their prefill. -/
def prefilled (s : PoolState ρ κ τ β η) : Multiset ρ :=
  (s.control.requests : Multiset ρ) + (s.decodeQueue.requests : Multiset ρ)

theorem bag_eq (s : PoolState ρ κ τ β η) :
    s.bag = (s.prefillQueue.requests : Multiset ρ) + s.prefilled := add_assoc _ _ _

/-- The requests in flight that are not between a decode step and the collection of its trace. -/
def waiting (s : PoolState ρ κ τ β η) : Multiset ρ :=
  (s.prefillQueue.requests : Multiset ρ) + (s.control.waiting : Multiset ρ) +
    (s.decodeQueue.requests : Multiset ρ)

/-- The request whose prefill is the next step, if a prefill is. -/
def nextPrefill (s : PoolState ρ κ τ β η) : Option ρ :=
  match s.control with
  | .prefilling _ => s.prefillQueue.requests.head?
  | _ => none

/-- The request whose decode step is the next step, if a decode step is. -/
def nextDecode (s : PoolState ρ κ τ β η) : Option ρ :=
  match s.control with
  | .decoding (_+1) _ => s.decodeQueue.requests.head?
  | _ => none

theorem mem_prefillQueue_of_nextPrefill {s : PoolState ρ κ τ β η} {r : ρ}
    (h : s.nextPrefill = some r) : r ∈ s.prefillQueue.requests := by
  unfold nextPrefill at h
  split at h
  · exact List.mem_of_mem_head? (Option.mem_def.mpr h)
  · cases h

theorem mem_decodeQueue_of_nextDecode {s : PoolState ρ κ τ β η} {r : ρ}
    (h : s.nextDecode = some r) : r ∈ s.decodeQueue.requests := by
  unfold nextDecode at h
  split at h
  · exact List.mem_of_mem_head? (Option.mem_def.mpr h)
  · cases h

theorem mem_bag_of_waiting {s : PoolState ρ κ τ β η} {r : ρ} (h : r ∈ s.waiting) : r ∈ s.bag := by
  simp only [waiting, bag, Multiset.mem_add, Multiset.mem_coe] at h ⊢
  exact h.imp (Or.imp id Control.mem_requests_of_waiting) id

end PoolState
end ResidentInference

import ResidentInference.SchedulerRuns

/-! Forgetting what does not steer the loop: when the workers of one pool act, on a part of each
request, as the workers of a pool without a cache do, the first pool's runs are those of the
second. -/
namespace ResidentInference
variable {ρ κ τ β η ρ' τ' β' : Type}

namespace RequestQueue

/-- The queue with each request mapped, under the same sort keys. -/
def map (f : ρ → ρ') (q : RequestQueue ρ) : RequestQueue ρ' where
  items := q.items.map fun item => (item.1, f item.2)
  counter := q.counter

theorem map_push (f : ρ → ρ') (q : RequestQueue ρ) (priority : Int) (r : ρ) :
    (q.push priority r).map f = (q.map f).push priority (f r) := by
  have h := List.map_orderedInsert (r := Before) Before (fun item => (item.1, f item.2)) q.items
    ((-priority, q.counter), r) (fun _ _ => Iff.rfl) (fun _ _ => Iff.rfl)
  unfold map push
  rw [h]

theorem map_pop_none {f : ρ → ρ'} {q : RequestQueue ρ} (h : q.pop = none) :
    (q.map f).pop = none := by
  simp [pop, map, pop_none h]

theorem map_pop_some {f : ρ → ρ'} {q q' : RequestQueue ρ} {r : ρ} (h : q.pop = some (r, q')) :
    (q.map f).pop = some (f r, q'.map f) := by
  obtain ⟨item, hitems, rfl, hcounter⟩ := items_of_pop h
  simp [pop, map, hitems, hcounter]

theorem length_map (f : ρ → ρ') (q : RequestQueue ρ) :
    (q.map f).items.length = q.items.length := List.length_map _

theorem isEmpty_map (f : ρ → ρ') (q : RequestQueue ρ) :
    (q.map f).items.isEmpty = q.items.isEmpty := List.isEmpty_map

end RequestQueue

def Control.map (f : ρ → ρ') (g : τ → τ') (h : β → β') : Control ρ τ β → Control ρ' τ' β'
  | .loop => .loop
  | .prefilling completed => .prefilling (completed.map f)
  | .handingOver completed => .handingOver (completed.map f)
  | .decoding n stepped => .decoding n (stepped.map fun p => (f p.1, g p.2))
  | .collecting stepped => .collecting (stepped.map fun p => (f p.1, g p.2))
  | .returned results => .returned (results.map h)
  | .raised e => .raised e

namespace Workers

/-- On the parts that the three maps keep, `w` acts as the workers `w'` without a cache do. -/
structure Erasure (w : Workers ρ κ τ β η) (w' : Workers ρ' Unit τ' β' Unit) where
  request : ρ → ρ'
  trace : τ → τ'
  result : β → β'
  numPrefill : w'.numPrefill = w.numPrefill
  numDecode : w'.numDecode = w.numDecode
  requestId : ∀ r, w'.requestId (request r) = w.requestId r
  priority : ∀ r, w'.priority (request r) = w.priority r
  finished : ∀ r, w'.finished (request r) = w.finished r
  prefill : ∀ {i c r r' c'}, w.prefill i c r = (.ok r', c') →
    w'.prefill i () (request r) = (.ok (request r'), ())
  decode : ∀ {i c r r' t c'}, w.decode i c r = (.ok (r', t), c') →
    w'.decode i () (request r) = (.ok (request r', trace t), ())
  buildResult : ∀ r traces,
    w'.buildResult (request r) (traces.map trace) = result (w.buildResult r traces)
  resultId : ∀ b, w'.resultId (result b) = w.resultId b

namespace Erasure
variable {w : Workers ρ κ τ β η} {w' : Workers ρ' Unit τ' β' Unit} (e : Erasure w w')

/-- What is left of a state. -/
def state (s : PoolState ρ κ τ β η) : PoolState ρ' Unit τ' β' Unit where
  cache := ()
  prefillQueue := s.prefillQueue.map e.request
  decodeQueue := s.decodeQueue.map e.request
  prefillRr := s.prefillRr
  decodeRr := s.decodeRr
  handoffs := s.handoffs.map fun _ => ()
  traces := s.traces.mapValues (List.map e.trace)
  finalResults := s.finalResults.map e.result
  control := s.control.map e.request e.trace e.result

theorem sortResults (results : List β) :
    w'.sortResults (results.map e.result) = (w.sortResults results).map e.result := by
  unfold Workers.sortResults
  refine (List.map_insertionSort _ _ e.result results ?_).symm
  intro a _ b _
  rw [e.resultId, e.resultId]

theorem prefillTurn {s : PoolState ρ κ τ β η} {completed : List ρ} {r r' : ρ}
    {queue : RequestQueue ρ} {cache : κ} (hpre : w.numPrefill ≠ 0) (hdec : w.numDecode ≠ 0)
    (hr : w.prefill (s.prefillRr % w.numPrefill) s.cache r = (.ok r', cache)) :
    w'.prefillTurn (e.state s) (completed.map e.request) (e.request r) (queue.map e.request) =
      e.state { s with
        cache := cache
        prefillQueue := queue
        prefillRr := s.prefillRr + 1
        handoffs := s.handoffs ++
          [w.handoff (s.prefillRr % w.numPrefill) (s.decodeRr % w.numDecode) r']
        control := .prefilling (completed ++ [r']) } := by
  have hr' : w'.prefill ((e.state s).prefillRr % w.numPrefill) (e.state s).cache (e.request r) =
      (.ok (e.request r'), ()) := e.prefill hr
  unfold Workers.prefillTurn
  rw [e.numPrefill, e.numDecode, if_neg hpre]
  dsimp only
  rw [hr']
  dsimp only
  rw [if_neg hdec]
  simp [state, Control.map]

theorem decodeTurn {s : PoolState ρ κ τ β η} {n : Nat} {stepped : List (ρ × τ)} {r r' : ρ}
    {trace : τ} {queue : RequestQueue ρ} {cache : κ} (hdec : w.numDecode ≠ 0)
    (hr : w.decode (s.decodeRr % w.numDecode) s.cache r = (.ok (r', trace), cache)) :
    w'.decodeTurn (e.state s) n (stepped.map fun p => (e.request p.1, e.trace p.2)) (e.request r)
        (queue.map e.request) =
      e.state { s with
        cache := cache
        decodeQueue := queue
        decodeRr := s.decodeRr + 1
        control := .decoding n (stepped ++ [(r', trace)]) } := by
  have hr' : w'.decode ((e.state s).decodeRr % w.numDecode) (e.state s).cache (e.request r) =
      (.ok (e.request r', e.trace trace), ()) := e.decode hr
  unfold Workers.decodeTurn
  rw [e.numDecode, if_neg hdec]
  dsimp only
  rw [hr']
  simp [state, Control.map]

theorem collect (s : PoolState ρ κ τ β η) (r : ρ) (t : τ) (rest : List (ρ × τ)) :
    w'.collect (e.state s) (e.request r) (e.trace t)
        (rest.map fun p => (e.request p.1, e.trace p.2)) = e.state (w.collect s r t rest) := by
  have htraces : ∀ rid, (e.state s).traces.set rid
        (((e.state s).traces.get? rid).getD [] ++ [e.trace t]) =
      (s.traces.set rid ((s.traces.get? rid).getD [] ++ [t])).mapValues (List.map e.trace) := by
    intro rid
    rw [Dict.mapValues_set, List.map_append, state, Dict.get?_mapValues]
    cases s.traces.get? rid <;> rfl
  unfold Workers.collect
  dsimp only
  rw [e.requestId, e.finished, htraces]
  cases w.finished r with
  | true =>
    rw [if_pos rfl, if_pos rfl]
    have hget : ∀ (d : Dict Int (List τ)) rid,
        ((d.mapValues (List.map e.trace)).get? rid).getD [] =
          ((d.get? rid).getD []).map e.trace := by
      intro d rid
      rw [Dict.get?_mapValues]
      cases d.get? rid <;> rfl
    simp only [hget, e.buildResult, state, Control.map, List.map_append, List.map_cons,
      List.map_nil]
  | false =>
    rw [if_neg Bool.false_ne_true, if_neg Bool.false_ne_true]
    simp only [state, Control.map, RequestQueue.map_push, e.priority]

/-- A step that does not fail is a step of the pool without a cache. -/
theorem step {s s' : PoolState ρ κ τ β η} (hs : w.step s = some s') (hn : ¬ Raised s') :
    w'.step (e.state s) = some (e.state s') := by
  have hcontrol : (e.state s).control = s.control.map e.request e.trace e.result := rfl
  unfold Workers.step
  rw [hcontrol]
  cases w.step_turn hs with
  | returns hc hidle =>
    simp only [hc, Control.map, state, RequestQueue.isEmpty_map, e.sortResults, List.isEmpty_iff]
    rw [if_pos hidle]
  | begins hc hwork =>
    simp only [hc, Control.map, state, RequestQueue.isEmpty_map, List.isEmpty_iff]
    rw [if_neg hwork]
    rfl
  | prefills completed r r' queue cache hc hp hpre hdec hr =>
    have hp' : (e.state s).prefillQueue.pop = some (e.request r, queue.map e.request) :=
      RequestQueue.map_pop_some hp
    simp only [hc, Control.map, hp']
    exact congrArg some (e.prefillTurn hpre hdec hr)
  | prefillsDone completed hc hp =>
    have hp' : (e.state s).prefillQueue.pop = none := RequestQueue.map_pop_none hp
    simp only [hc, Control.map, hp']
    rfl
  | handsOver r rest hc =>
    simp only [hc, Control.map, state, List.map_cons, RequestQueue.map_push, e.priority]
  | handoversDone hc =>
    simp only [hc, Control.map, state, List.map_nil, RequestQueue.length_map, e.numDecode]
  | decodes n stepped r r' trace queue cache hc hp hdec hr =>
    have hp' : (e.state s).decodeQueue.pop = some (e.request r, queue.map e.request) :=
      RequestQueue.map_pop_some hp
    simp only [hc, Control.map, hp']
    exact congrArg some (e.decodeTurn hdec hr)
  | decodesDone stepped hc =>
    simp only [hc]
    rfl
  | collects r trace rest hc =>
    simp only [hc]
    exact congrArg some (e.collect s r trace rest)
  | collectsDone hc =>
    simp only [hc]
    rfl
  | fails _ f hc _ _ _ => exact absurd ⟨f, hc⟩ hn

theorem start (cache : κ) (requests : List ρ) :
    e.state (w.start cache requests) = w'.start () (requests.map e.request) := by
  have hqueue : ∀ q : RequestQueue ρ,
      (requests.foldl (fun q r => q.push (w.priority r) r) q).map e.request =
        (requests.map e.request).foldl (fun q r => q.push (w'.priority r) r) (q.map e.request) := by
    induction requests with
    | nil => exact fun _ => rfl
    | cons r requests ih =>
      intro q
      rw [List.foldl_cons, ih, RequestQueue.map_push, List.map_cons, List.foldl_cons, e.priority]
  simp only [state, Workers.start, hqueue]
  rfl

open StateTransition in
theorem reaches {s t : PoolState ρ κ τ β η} (h : Reaches w.step s t) (hn : ¬ Raised t) :
    Reaches w'.step (e.state s) (e.state t) := by
  induction h with
  | refl => exact Relation.ReflTransGen.refl
  | tail _ hv ih => exact (ih (not_raised_of_step hv)).tail (e.step hv hn)

open StateTransition in
/-- A run that does not fail ends where the run of the pool without a cache ends. -/
theorem eval_eq {cache : κ} {requests : List ρ} {t : PoolState ρ κ τ β η}
    (ht : t ∈ eval w.step (w.start cache requests)) {results : List β}
    (hr : t.control = .returned results) :
    e.state t ∈ eval w'.step (w'.start () (requests.map e.request)) := by
  have hn : ¬ Raised t := by
    rintro ⟨f, hf⟩
    rw [hr] at hf
    cases hf
  rw [mem_eval, ← e.start cache]
  refine ⟨e.reaches (mem_eval.mp ht).1 hn, ?_⟩
  have hc : (e.state t).control = .returned (results.map e.result) := by
    simp only [state, hr, Control.map]
  exact step_returned hc

end Erasure
end Workers
end ResidentInference

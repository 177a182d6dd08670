import ResidentInference.SchedulerErasure

/-! Pools that carry more than another pool does: when a map of the requests, the caches, the traces
and the results takes the workers of one pool to those of the other, exceptions included, it takes
every run of the first to the run of the second. -/
namespace ResidentInference
open StateTransition
variable {ρ κ τ β η ρ' κ' τ' β' : Type}

namespace RequestQueue

theorem pop_map (f : ρ → ρ') (q : RequestQueue ρ) :
    (q.map f).pop = q.pop.map (Prod.map f (map f)) := by
  cases hp : q.pop with
  | none => exact map_pop_none hp
  | some p => exact map_pop_some hp

end RequestQueue

namespace Workers

/-- The four maps take the workers `v` to the workers `w`. -/
structure Projection (v : Workers ρ' κ' τ' β' η) (w : Workers ρ κ τ β η) where
  request : ρ' → ρ
  cache : κ' → κ
  trace : τ' → τ
  result : β' → β
  numPrefill : w.numPrefill = v.numPrefill
  numDecode : w.numDecode = v.numDecode
  requestId : ∀ r, w.requestId (request r) = v.requestId r
  priority : ∀ r, w.priority (request r) = v.priority r
  finished : ∀ r, w.finished (request r) = v.finished r
  prefill : ∀ i c r, w.prefill i (cache c) (request r) =
    ((v.prefill i c r).1.map request, cache (v.prefill i c r).2)
  decode : ∀ i c r, w.decode i (cache c) (request r) =
    ((v.decode i c r).1.map (Prod.map request trace), cache (v.decode i c r).2)
  handoff : ∀ i j r, w.handoff i j (request r) = v.handoff i j r
  release : ∀ c rid, w.release (cache c) rid = cache (v.release c rid)
  buildResult : ∀ r traces,
    w.buildResult (request r) (traces.map trace) = result (v.buildResult r traces)
  resultId : ∀ b, w.resultId (result b) = v.resultId b

namespace Projection
variable {v : Workers ρ' κ' τ' β' η} {w : Workers ρ κ τ β η} (e : Projection v w)

def state (s : PoolState ρ' κ' τ' β' η) : PoolState ρ κ τ β η where
  cache := e.cache s.cache
  prefillQueue := s.prefillQueue.map e.request
  decodeQueue := s.decodeQueue.map e.request
  prefillRr := s.prefillRr
  decodeRr := s.decodeRr
  handoffs := s.handoffs
  traces := s.traces.mapValues (List.map e.trace)
  finalResults := s.finalResults.map e.result
  control := s.control.map e.request e.trace e.result

theorem sortResults (results : List β') :
    w.sortResults (results.map e.result) = (v.sortResults results).map e.result := by
  unfold Workers.sortResults
  refine (List.map_insertionSort _ _ e.result results ?_).symm
  intro a _ b _
  rw [e.resultId, e.resultId]

theorem prefillTurn (s : PoolState ρ' κ' τ' β' η) (completed : List ρ') (r : ρ')
    (queue : RequestQueue ρ') :
    w.prefillTurn (e.state s) (completed.map e.request) (e.request r) (queue.map e.request) =
      e.state (v.prefillTurn s completed r queue) := by
  unfold Workers.prefillTurn
  rw [e.numPrefill, e.numDecode]
  by_cases hpre : v.numPrefill = 0
  · rw [if_pos hpre, if_pos hpre]
    rfl
  · rw [if_neg hpre, if_neg hpre]
    dsimp only [state]
    rw [e.prefill]
    obtain ⟨res, cache⟩ := v.prefill (s.prefillRr % v.numPrefill) s.cache r
    cases res with
    | error f => rfl
    | ok r' =>
      dsimp only [Except.map]
      by_cases hdec : v.numDecode = 0
      · rw [if_pos hdec, if_pos hdec]
        rfl
      · rw [if_neg hdec, if_neg hdec, e.handoff]
        simp [Control.map]

theorem decodeTurn (s : PoolState ρ' κ' τ' β' η) (n : Nat) (stepped : List (ρ' × τ')) (r : ρ')
    (queue : RequestQueue ρ') :
    w.decodeTurn (e.state s) n (stepped.map fun p => (e.request p.1, e.trace p.2)) (e.request r)
        (queue.map e.request) = e.state (v.decodeTurn s n stepped r queue) := by
  unfold Workers.decodeTurn
  rw [e.numDecode]
  by_cases hdec : v.numDecode = 0
  · rw [if_pos hdec, if_pos hdec]
    rfl
  · rw [if_neg hdec, if_neg hdec]
    dsimp only [state]
    rw [e.decode]
    obtain ⟨res, cache⟩ := v.decode (s.decodeRr % v.numDecode) s.cache r
    cases res with
    | error f => rfl
    | ok p => simp [Except.map, Control.map, Prod.map]

theorem filed (s : PoolState ρ' κ' τ' β' η) (rid : Int) (t : τ') :
    (e.state s).traces.set rid (((e.state s).traces.get? rid).getD [] ++ [e.trace t]) =
      (s.traces.set rid ((s.traces.get? rid).getD [] ++ [t])).mapValues (List.map e.trace) := by
  rw [Dict.mapValues_set, List.map_append, state, Dict.get?_mapValues]
  cases s.traces.get? rid <;> rfl

theorem collect (s : PoolState ρ' κ' τ' β' η) (r : ρ') (t : τ') (rest : List (ρ' × τ')) :
    w.collect (e.state s) (e.request r) (e.trace t)
        (rest.map fun p => (e.request p.1, e.trace p.2)) = e.state (v.collect s r t rest) := by
  have hget : ∀ (d : Dict Int (List τ')) rid,
      ((d.mapValues (List.map e.trace)).get? rid).getD [] =
        ((d.get? rid).getD []).map e.trace := by
    intro d rid
    rw [Dict.get?_mapValues]
    cases d.get? rid <;> rfl
  unfold Workers.collect
  dsimp only
  rw [e.requestId, e.finished, e.filed]
  cases v.finished r with
  | true =>
    rw [if_pos rfl, if_pos rfl]
    simp only [hget, e.buildResult, state, e.release, Control.map, List.map_append, List.map_cons,
      List.map_nil]
  | false =>
    rw [if_neg Bool.false_ne_true, if_neg Bool.false_ne_true]
    simp only [state, Control.map, RequestQueue.map_push, e.priority]

/-- A step of `v` is the step of `w` on what the maps keep. -/
theorem step (s : PoolState ρ' κ' τ' β' η) : w.step (e.state s) = (v.step s).map e.state := by
  have hcontrol : (e.state s).control = s.control.map e.request e.trace e.result := rfl
  have hprefill : (e.state s).prefillQueue = s.prefillQueue.map e.request := rfl
  have hdecode : (e.state s).decodeQueue = s.decodeQueue.map e.request := rfl
  unfold Workers.step
  rw [hcontrol, hprefill, hdecode]
  cases hc : s.control with
  | loop =>
    simp only [Control.map, RequestQueue.isEmpty_map]
    split
    · simp only [Option.map_some, state, e.sortResults, Control.map]
    · rfl
  | prefilling completed =>
    simp only [Control.map, RequestQueue.pop_map]
    cases s.prefillQueue.pop with
    | none => rfl
    | some p => exact congrArg some (e.prefillTurn s completed p.1 p.2)
  | handingOver completed =>
    cases completed with
    | nil => simp only [Control.map, List.map_nil, RequestQueue.length_map, e.numDecode]; rfl
    | cons r rest =>
      simp only [Control.map, List.map_cons, Option.map_some, state, RequestQueue.map_push,
        e.priority]
  | decoding n stepped =>
    cases n with
    | zero => rfl
    | succ n =>
      simp only [Control.map, RequestQueue.pop_map]
      cases s.decodeQueue.pop with
      | none => rfl
      | some p => exact congrArg some (e.decodeTurn s n stepped p.1 p.2)
  | collecting stepped =>
    cases stepped with
    | nil => rfl
    | cons p rest => exact congrArg some (e.collect s p.1 p.2 rest)
  | returned results => rfl
  | raised f => rfl

theorem start (cache : κ') (requests : List ρ') :
    e.state (v.start cache requests) = w.start (e.cache cache) (requests.map e.request) := by
  have hqueue : ∀ q : RequestQueue ρ',
      (requests.foldl (fun q r => q.push (v.priority r) r) q).map e.request =
        (requests.map e.request).foldl (fun q r => q.push (w.priority r) r) (q.map e.request) := by
    induction requests with
    | nil => exact fun _ => rfl
    | cons r requests ih =>
      intro q
      rw [List.foldl_cons, ih, RequestQueue.map_push, List.map_cons, List.foldl_cons, e.priority]
  simp only [state, Workers.start, hqueue]
  rfl

theorem respects : Respects v.step w.step fun s t => e.state s = t := by
  rw [fun_respects]
  intro s
  have hstep := e.step s
  cases hs : v.step s with
  | none => rwa [hs] at hstep
  | some s' =>
    rw [hs] at hstep
    exact Relation.TransGen.single hstep

theorem reaches {s t : PoolState ρ' κ' τ' β' η} (h : Reaches v.step s t) :
    Reaches w.step (e.state s) (e.state t) := by
  obtain ⟨t', heq, hreach⟩ := tr_reaches e.respects rfl h
  exact heq ▸ hreach

/-- The run of `w` ends if and only if the run of `v` does, in what the maps keep of its end. -/
theorem eval_eq (s : PoolState ρ' κ' τ' β' η) :
    eval w.step (e.state s) = (eval v.step s).map e.state :=
  tr_eval' v.step w.step e.state e.respects s

theorem nextDecode (s : PoolState ρ' κ' τ' β' η) :
    (e.state s).nextDecode = s.nextDecode.map e.request := by
  have hcontrol : (e.state s).control = s.control.map e.request e.trace e.result := rfl
  have hdecode : (e.state s).decodeQueue = s.decodeQueue.map e.request := rfl
  unfold PoolState.nextDecode
  rw [hcontrol, hdecode]
  cases s.control with
  | decoding n stepped =>
    cases n with
    | zero => rfl
    | succ n =>
      simp [Control.map, RequestQueue.map, RequestQueue.requests, Function.comp_def]
  | _ => rfl

end Projection
end Workers
end ResidentInference

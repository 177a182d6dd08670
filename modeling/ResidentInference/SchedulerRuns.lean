import ResidentInference.Scheduler

/-! What one step of the loop does to the requests in flight, and what follows for whole runs:
invariants, accounting of ids, and termination when every decode step makes progress. -/
namespace ResidentInference
variable {ρ κ τ β η : Type}

namespace Workers
variable (w : Workers ρ κ τ β η)

/-- Why a step can fail. -/
inductive Fails (s : PoolState ρ κ τ β η) (e : Fault) : Prop
  | prefill (i : Nat) (r : ρ) (cache : κ) (next : s.nextPrefill = some r)
      (run : w.prefill i s.cache r = (.error e, cache))
  | decode (i : Nat) (r : ρ) (cache : κ) (next : s.nextDecode = some r)
      (run : w.decode i s.cache r = (.error e, cache))
  | noWorker (fault : e = .zeroDivision) (none : w.numPrefill = 0 ∨ w.numDecode = 0)
  | emptyQueue (fault : e = .emptyQueue) (n : Nat) (stepped : List (ρ × τ))
      (control : s.control = .decoding (n+1) stepped) (empty : s.decodeQueue.items = [])

/-- The turns of the loop: what each of them finds and the state it leaves. -/
inductive Turn (s : PoolState ρ κ τ β η) : PoolState ρ κ τ β η → Prop
  | returns (control : s.control = .loop)
      (idle : s.prefillQueue.items = [] ∧ s.decodeQueue.items = []) :
      Turn s { s with control := .returned (w.sortResults s.finalResults) }
  | begins (control : s.control = .loop)
      (work : ¬ (s.prefillQueue.items = [] ∧ s.decodeQueue.items = [])) :
      Turn s { s with control := .prefilling [] }
  | prefills (completed : List ρ) (r r' : ρ) (queue : RequestQueue ρ) (cache : κ)
      (control : s.control = .prefilling completed) (pop : s.prefillQueue.pop = some (r, queue))
      (prefillers : w.numPrefill ≠ 0) (decoders : w.numDecode ≠ 0)
      (run : w.prefill (s.prefillRr % w.numPrefill) s.cache r = (.ok r', cache)) :
      Turn s { s with
        cache := cache
        prefillQueue := queue
        prefillRr := s.prefillRr + 1
        handoffs := s.handoffs ++
          [w.handoff (s.prefillRr % w.numPrefill) (s.decodeRr % w.numDecode) r']
        control := .prefilling (completed ++ [r']) }
  | prefillsDone (completed : List ρ) (control : s.control = .prefilling completed)
      (pop : s.prefillQueue.pop = none) :
      Turn s { s with control := .handingOver completed }
  | handsOver (r : ρ) (rest : List ρ) (control : s.control = .handingOver (r :: rest)) :
      Turn s { s with
        decodeQueue := s.decodeQueue.push (w.priority r) r
        control := .handingOver rest }
  | handoversDone (control : s.control = .handingOver []) :
      Turn s { s with
        control := .decoding (min s.decodeQueue.items.length (max 1 w.numDecode)) [] }
  | decodes (n : Nat) (stepped : List (ρ × τ)) (r r' : ρ) (trace : τ) (queue : RequestQueue ρ)
      (cache : κ) (control : s.control = .decoding (n+1) stepped)
      (pop : s.decodeQueue.pop = some (r, queue)) (decoders : w.numDecode ≠ 0)
      (run : w.decode (s.decodeRr % w.numDecode) s.cache r = (.ok (r', trace), cache)) :
      Turn s { s with
        cache := cache
        decodeQueue := queue
        decodeRr := s.decodeRr + 1
        control := .decoding n (stepped ++ [(r', trace)]) }
  | decodesDone (stepped : List (ρ × τ)) (control : s.control = .decoding 0 stepped) :
      Turn s { s with control := .collecting stepped }
  | collects (r : ρ) (trace : τ) (rest : List (ρ × τ))
      (control : s.control = .collecting ((r, trace) :: rest)) : Turn s (w.collect s r trace rest)
  | collectsDone (control : s.control = .collecting []) : Turn s { s with control := .loop }
  | fails (s' : PoolState ρ κ τ β η) (e : Fault) (control : s'.control = .raised e)
      (bag : s'.bag ≤ s.bag)
      (queue : s'.prefillQueue.items.length ≤ s.prefillQueue.items.length)
      (cause : w.Fails s e) : Turn s s'

/-- All that a step can do to the cache, to the requests in flight and to the results. -/
inductive Effect (s s' : PoolState ρ κ τ β η) : Prop
  | silent (cache : s'.cache = s.cache) (bag : s'.bag = s.bag)
      (final : s'.finalResults = s.finalResults) (rr : s'.decodeRr = s.decodeRr)
  | prefilled (i : Nat) (r r' : ρ) (rest : Multiset ρ) (next : s.nextPrefill = some r)
      (bag : s.bag = r ::ₘ rest) (run : w.prefill i s.cache r = (.ok r', s'.cache))
      (bag' : s'.bag = r' ::ₘ rest) (final : s'.finalResults = s.finalResults)
      (rr : s'.decodeRr = s.decodeRr)
  | decoded (i : Nat) (r r' : ρ) (trace : τ) (rest : Multiset ρ) (next : s.nextDecode = some r)
      (bag : s.bag = r ::ₘ rest) (run : w.decode i s.cache r = (.ok (r', trace), s'.cache))
      (bag' : s'.bag = r' ::ₘ rest) (final : s'.finalResults = s.finalResults)
      (rr : s'.decodeRr = s.decodeRr + 1)
  | finished (r : ρ) (traces : List τ) (bag : s.bag = r ::ₘ s'.bag)
      (done : w.finished r = true) (cache : s'.cache = w.release s.cache (w.requestId r))
      (final : s'.finalResults = s.finalResults ++ [w.buildResult r traces])
      (rr : s'.decodeRr = s.decodeRr)
  | failed (e : Fault) (control : s'.control = .raised e) (bag : s'.bag ≤ s.bag)
      (cause : w.Fails s e)

theorem head?_of_pop {q q' : RequestQueue ρ} {r : ρ} (h : q.pop = some (r, q')) :
    q.requests.head? = some r := by
  rw [(RequestQueue.pop_some h).1]
  rfl

theorem nextPrefill_of_pop {s : PoolState ρ κ τ β η} {completed : List ρ} {r : ρ}
    {queue : RequestQueue ρ} (hc : s.control = .prefilling completed)
    (hp : s.prefillQueue.pop = some (r, queue)) : s.nextPrefill = some r := by
  rw [PoolState.nextPrefill, hc]
  exact head?_of_pop hp

theorem nextDecode_of_pop {s : PoolState ρ κ τ β η} {n : Nat} {stepped : List (ρ × τ)} {r : ρ}
    {queue : RequestQueue ρ} (hc : s.control = .decoding (n+1) stepped)
    (hp : s.decodeQueue.pop = some (r, queue)) : s.nextDecode = some r := by
  rw [PoolState.nextDecode, hc]
  exact head?_of_pop hp

theorem requests_le_of_pop {q q' : RequestQueue ρ} {r : ρ} (hp : q.pop = some (r, q')) :
    (q'.requests : Multiset ρ) ≤ q.requests := by
  rw [(RequestQueue.pop_some hp).1, ← Multiset.cons_coe]
  exact Multiset.le_cons_self _ _

theorem prefillTurn_turn {s : PoolState ρ κ τ β η} {completed : List ρ} {r : ρ}
    {queue : RequestQueue ρ} (hc : s.control = .prefilling completed)
    (hp : s.prefillQueue.pop = some (r, queue)) : w.Turn s (w.prefillTurn s completed r queue) := by
  have hnext := nextPrefill_of_pop hc hp
  have hshorter : queue.items.length ≤ s.prefillQueue.items.length := by
    rw [(RequestQueue.pop_some hp).2]
    exact Nat.le_succ _
  -- a turn that fails keeps no request that was not there
  have hlost : ∀ (q : RequestQueue ρ) (e : Fault),
      (q.requests : Multiset ρ) ≤ s.prefillQueue.requests →
      (q.requests : Multiset ρ) + ((Control.raised e : Control ρ τ β).requests : Multiset ρ) +
        (s.decodeQueue.requests : Multiset ρ) ≤ s.bag :=
    fun _ _ hle => add_le_add (add_le_add hle (Multiset.zero_le _)) le_rfl
  have hqueue := requests_le_of_pop hp
  unfold prefillTurn
  by_cases hpre : w.numPrefill = 0
  · rw [if_pos hpre]
    exact .fails _ .zeroDivision rfl (hlost _ _ le_rfl) le_rfl (.noWorker rfl (Or.inl hpre))
  · rw [if_neg hpre]
    dsimp only
    cases hr : w.prefill (s.prefillRr % w.numPrefill) s.cache r with
    | mk res cache =>
      cases res with
      | error e =>
        exact .fails _ e rfl (hlost _ _ hqueue) hshorter (.prefill _ r cache hnext hr)
      | ok r' =>
        dsimp only
        by_cases hdec : w.numDecode = 0
        · rw [if_pos hdec]
          exact .fails _ .zeroDivision rfl (hlost _ _ hqueue) hshorter
            (.noWorker rfl (Or.inr hdec))
        · rw [if_neg hdec]
          exact .prefills completed r r' queue cache hc hp hpre hdec hr

theorem decodeTurn_turn {s : PoolState ρ κ τ β η} {n : Nat} {stepped : List (ρ × τ)} {r : ρ}
    {queue : RequestQueue ρ} (hc : s.control = .decoding (n+1) stepped)
    (hp : s.decodeQueue.pop = some (r, queue)) : w.Turn s (w.decodeTurn s n stepped r queue) := by
  have hnext := nextDecode_of_pop hc hp
  have hlost : ∀ (q : RequestQueue ρ) (e : Fault),
      (q.requests : Multiset ρ) ≤ s.decodeQueue.requests →
      (s.prefillQueue.requests : Multiset ρ) +
          ((Control.raised e : Control ρ τ β).requests : Multiset ρ) +
        (q.requests : Multiset ρ) ≤ s.bag :=
    fun _ _ hle => add_le_add (add_le_add le_rfl (Multiset.zero_le _)) hle
  unfold decodeTurn
  by_cases hdec : w.numDecode = 0
  · rw [if_pos hdec]
    exact .fails _ .zeroDivision rfl (hlost _ _ le_rfl) le_rfl (.noWorker rfl (Or.inr hdec))
  · rw [if_neg hdec]
    dsimp only
    cases hr : w.decode (s.decodeRr % w.numDecode) s.cache r with
    | mk res cache =>
      cases res with
      | error e =>
        exact .fails _ e rfl (hlost _ _ (requests_le_of_pop hp)) le_rfl
          (.decode _ r cache hnext hr)
      | ok p => exact .decodes n stepped r p.1 p.2 queue cache hc hp hdec hr

/-- Every step is one of the turns. -/
theorem step_turn {s s' : PoolState ρ κ τ β η} (h : w.step s = some s') : w.Turn s s' := by
  unfold step at h
  cases hc : s.control with
  | loop =>
    simp only [hc, List.isEmpty_iff] at h
    split at h
    · next hidle =>
      obtain rfl := Option.some.inj h
      exact .returns hc hidle
    · next hwork =>
      obtain rfl := Option.some.inj h
      exact .begins hc hwork
  | prefilling completed =>
    simp only [hc] at h
    cases hp : s.prefillQueue.pop with
    | none =>
      rw [hp] at h
      obtain rfl := Option.some.inj h
      exact .prefillsDone completed hc hp
    | some p =>
      rw [hp] at h
      obtain rfl := Option.some.inj h
      exact w.prefillTurn_turn hc hp
  | handingOver completed =>
    simp only [hc] at h
    cases completed with
    | nil =>
      obtain rfl := Option.some.inj h
      exact .handoversDone hc
    | cons r rest =>
      obtain rfl := Option.some.inj h
      exact .handsOver r rest hc
  | decoding n stepped =>
    simp only [hc] at h
    cases n with
    | zero =>
      obtain rfl := Option.some.inj h
      exact .decodesDone stepped hc
    | succ n =>
      cases hp : s.decodeQueue.pop with
      | none =>
        simp only [hp] at h
        obtain rfl := Option.some.inj h
        exact .fails _ .emptyQueue rfl (add_le_add (add_le_add le_rfl (Multiset.zero_le _)) le_rfl)
          le_rfl (.emptyQueue rfl n stepped hc (RequestQueue.pop_none hp))
      | some p =>
        simp only [hp] at h
        obtain rfl := Option.some.inj h
        exact w.decodeTurn_turn hc hp
  | collecting stepped =>
    simp only [hc] at h
    cases stepped with
    | nil =>
      obtain rfl := Option.some.inj h
      exact .collectsDone hc
    | cons p rest =>
      obtain rfl := Option.some.inj h
      exact .collects p.1 p.2 rest hc
  | returned results =>
    simp only [hc] at h
    cases h
  | raised e =>
    simp only [hc] at h
    cases h

theorem stopped {s : PoolState ρ κ τ β η} (h : w.step s = none) :
    (∃ results, s.control = .returned results) ∨ ∃ e, s.control = .raised e := by
  unfold step at h
  cases hc : s.control with
  | returned results => exact Or.inl ⟨results, rfl⟩
  | raised e => exact Or.inr ⟨e, rfl⟩
  | loop =>
    simp only [hc] at h
    split at h <;> cases h
  | prefilling completed =>
    simp only [hc] at h
    split at h <;> cases h
  | handingOver completed =>
    cases completed <;> simp [hc] at h
  | decoding n stepped =>
    cases n with
    | zero => simp [hc] at h
    | succ n =>
      simp only [hc] at h
      split at h <;> cases h
  | collecting stepped =>
    cases stepped <;> simp [hc] at h

/-! ### What a turn does to the requests in flight -/

theorem bag_setControl (s : PoolState ρ κ τ β η) {control : Control ρ τ β}
    (h : control.requests = s.control.requests) : { s with control := control }.bag = s.bag := by
  rw [PoolState.bag, h, PoolState.bag]

/-- A decode step exchanges its request; `rest` are the others. -/
theorem bag_decodes {s : PoolState ρ κ τ β η} {n : Nat} {stepped : List (ρ × τ)} {r : ρ}
    {queue : RequestQueue ρ} (hc : s.control = .decoding (n+1) stepped)
    (hp : s.decodeQueue.pop = some (r, queue)) :
    ∃ rest, s.bag = r ::ₘ rest ∧ ∀ r' trace,
      (s.prefillQueue.requests : Multiset ρ) +
          ((Control.decoding n (stepped ++ [(r', trace)]) : Control ρ τ β).requests : Multiset ρ) +
        (queue.requests : Multiset ρ) = r' ::ₘ rest := by
  refine ⟨(s.prefillQueue.requests : Multiset ρ) + (stepped.map Prod.fst : Multiset ρ) +
    (queue.requests : Multiset ρ), ?_, ?_⟩
  · simp only [PoolState.bag, hc, Control.requests, (RequestQueue.pop_some hp).1,
      ← Multiset.cons_coe, Multiset.add_cons]
  · intro r' trace
    simp only [Control.requests, List.map_append, List.map_cons, List.map_nil,
      ← Multiset.coe_add, Multiset.coe_singleton]
    rw [← Multiset.singleton_add]
    abel

theorem collect_effect {s : PoolState ρ κ τ β η} {r : ρ} {trace : τ} {rest : List (ρ × τ)}
    (hc : s.control = .collecting ((r, trace) :: rest)) :
    w.Effect s (w.collect s r trace rest) := by
  have hbag : s.bag = r ::ₘ ((s.prefillQueue.requests : Multiset ρ) +
      (rest.map Prod.fst : Multiset ρ) + (s.decodeQueue.requests : Multiset ρ)) := by
    simp only [PoolState.bag, hc, Control.requests, List.map_cons, ← Multiset.cons_coe,
      Multiset.add_cons, Multiset.cons_add]
  unfold collect
  dsimp only
  cases hf : w.finished r with
  | true =>
    rw [if_pos rfl]
    exact .finished r _ hbag hf rfl rfl rfl
  | false =>
    rw [if_neg Bool.false_ne_true]
    refine .silent rfl ?_ rfl rfl
    rw [hbag]
    simp only [PoolState.bag, Control.requests, RequestQueue.requests_push, Multiset.add_cons]

theorem step_effect {s s' : PoolState ρ κ τ β η} (h : w.step s = some s') : w.Effect s s' := by
  cases w.step_turn h with
  | returns hc _ => exact .silent rfl (bag_setControl s (by rw [hc]; rfl)) rfl rfl
  | begins hc _ => exact .silent rfl (bag_setControl s (by rw [hc]; rfl)) rfl rfl
  | prefills completed r r' queue cache hc hp _ _ hr =>
    refine .prefilled _ r r' ((queue.requests : Multiset ρ) + (completed : Multiset ρ) +
      (s.decodeQueue.requests : Multiset ρ)) (nextPrefill_of_pop hc hp) ?_ hr ?_ rfl rfl
    · simp only [PoolState.bag, hc, Control.requests, (RequestQueue.pop_some hp).1,
        ← Multiset.cons_coe, Multiset.cons_add]
    · simp only [PoolState.bag, Control.requests, ← Multiset.coe_add, Multiset.coe_singleton]
      rw [← Multiset.singleton_add]
      abel
  | prefillsDone completed hc _ => exact .silent rfl (bag_setControl s (by rw [hc]; rfl)) rfl rfl
  | handsOver r rest hc =>
    refine .silent rfl ?_ rfl rfl
    simp only [PoolState.bag, hc, Control.requests, RequestQueue.requests_push,
      ← Multiset.cons_coe, Multiset.add_cons, Multiset.cons_add]
  | handoversDone hc => exact .silent rfl (bag_setControl s (by rw [hc]; rfl)) rfl rfl
  | decodes n stepped r r' trace queue cache hc hp _ hr =>
    obtain ⟨rest, hbag, hbag'⟩ := bag_decodes hc hp
    exact .decoded _ r r' trace rest (nextDecode_of_pop hc hp) hbag hr (hbag' r' trace) rfl rfl
  | decodesDone stepped hc => exact .silent rfl (bag_setControl s (by rw [hc]; rfl)) rfl rfl
  | collects r trace rest hc => exact w.collect_effect hc
  | collectsDone hc => exact .silent rfl (bag_setControl s (by rw [hc]; rfl)) rfl rfl
  | fails _ e hc hbag _ hcause => exact .failed e hc hbag hcause

/-! ### Whole runs -/

theorem collect_control (s : PoolState ρ κ τ β η) (r : ρ) (trace : τ) (rest : List (ρ × τ)) :
    (w.collect s r trace rest).prefillQueue = s.prefillQueue ∧
      (w.collect s r trace rest).control = .collecting rest := by
  unfold collect
  dsimp only
  split <;> exact ⟨rfl, rfl⟩

/-- A step that ends in a failure has one of the causes. -/
theorem fails_of_step {s s' : PoolState ρ κ τ β η} {e : Fault} (hs : w.step s = some s')
    (hr : s'.control = .raised e) : w.Fails s e := by
  cases w.step_turn hs with
  | fails _ e' hc _ _ hcause =>
    rw [hr] at hc
    cases hc
    exact hcause
  | collects r trace rest _ =>
    rw [(w.collect_control s r trace rest).2] at hr
    cases hr
  | _ => cases hr

theorem control_of_nextDecode {s : PoolState ρ κ τ β η} {r : ρ} (h : s.nextDecode = some r) :
    ∃ n stepped, s.control = .decoding (n+1) stepped := by
  unfold PoolState.nextDecode at h
  split at h
  · next n stepped hc => exact ⟨n, stepped, hc⟩
  · cases h

/-- Where a decode step comes next, the loop takes it. -/
theorem step_nextDecode {s : PoolState ρ κ τ β η} {r : ρ} (h : s.nextDecode = some r) :
    ∃ s', w.step s = some s' ∧ ((∃ e, s'.control = .raised e) ∨
      ∃ i r' trace rest, s.bag = r ::ₘ rest ∧
        w.decode i s.cache r = (.ok (r', trace), s'.cache) ∧ s'.bag = r' ::ₘ rest) := by
  obtain ⟨n, stepped, hc⟩ := control_of_nextDecode h
  cases hs : w.step s with
  | none =>
    obtain ⟨results, hc'⟩ | ⟨e, hc'⟩ := w.stopped hs <;> simp [hc'] at hc
  | some s' =>
    refine ⟨s', rfl, ?_⟩
    cases w.step_turn hs with
    | fails _ e hc' _ _ _ => exact Or.inl ⟨e, hc'⟩
    | decodes n stepped r₀ r' trace queue cache hc hp _ hr =>
      obtain rfl : r₀ = r := Option.some.inj ((nextDecode_of_pop hc hp).symm.trans h)
      obtain ⟨rest, hbag, hbag'⟩ := bag_decodes hc hp
      exact Or.inr ⟨_, r', trace, rest, hbag, hr, hbag' r' trace⟩
    | _ => simp_all

def Raised (s : PoolState ρ κ τ β η) : Prop := ∃ e, s.control = .raised e

theorem not_raised_of_step {w : Workers ρ κ τ β η} {s s' : PoolState ρ κ τ β η}
    (h : w.step s = some s') : ¬ Raised s := by
  rintro ⟨e, he⟩
  rw [step_raised he] at h
  cases h

theorem not_raised_start (w : Workers ρ κ τ β η) (cache : κ) (requests : List ρ) :
    ¬ Raised (w.start cache requests) := by
  rintro ⟨e, he⟩
  cases he

open StateTransition in
/-- A run that has failed did so in its last step. -/
theorem fails_of_run {w : Workers ρ κ τ β η} {s t : PoolState ρ κ τ β η} {e : Fault}
    (h0 : ¬ Raised s) (ht : Reaches w.step s t) (he : t.control = .raised e) :
    ∃ u, Reaches w.step s u ∧ ¬ Raised u ∧ w.Fails u e := by
  obtain rfl | ⟨u, hu, hstep⟩ := Relation.ReflTransGen.cases_tail ht
  · exact absurd ⟨e, he⟩ h0
  · exact ⟨u, hu, not_raised_of_step hstep, w.fails_of_step hstep he⟩

open StateTransition in
/-- What holds at the start and is kept by every step that does not fail holds in every state
that is reached, unless it is the state in which the run failed. -/
theorem invariant_or_raised {w : Workers ρ κ τ β η} {Q : PoolState ρ κ τ β η → Prop}
    {s t : PoolState ρ κ τ β η} (h : Reaches w.step s t) (h0 : Q s)
    (hstep : ∀ u v, Reaches w.step s u → Q u → w.step u = some v → Q v ∨ Raised v) :
    Q t ∨ Raised t := by
  have h0' : Q s ∨ Raised s := Or.inl h0
  refine Runs.invariant (P := fun u => Q u ∨ Raised u) h h0' ?_
  intro u v hu hQ huv
  exact hstep u v hu (hQ.resolve_right (not_raised_of_step huv)) huv

theorem start_queue (requests : List ρ) (q : RequestQueue ρ) :
    ((requests.foldl (fun q r => q.push (w.priority r) r) q).requests : Multiset ρ) =
      (requests : Multiset ρ) + (q.requests : Multiset ρ) := by
  induction requests generalizing q with
  | nil => simp
  | cons r requests ih =>
    rw [List.foldl_cons, ih, RequestQueue.requests_push, ← Multiset.cons_coe, Multiset.add_cons,
      Multiset.cons_add]

theorem bag_start (cache : κ) (requests : List ρ) :
    (w.start cache requests).bag = (requests : Multiset ρ) := by
  have h := w.start_queue requests RequestQueue.empty
  simpa [PoolState.bag, start, Control.requests, RequestQueue.empty, RequestQueue.requests] using h

theorem waiting_start (cache : κ) (requests : List ρ) :
    (w.start cache requests).waiting = (requests : Multiset ρ) := w.bag_start cache requests

/-- What a request and its result must agree on. -/
structure Lawful : Prop where
  prefillId : ∀ {i c r r' c'}, w.prefill i c r = (.ok r', c') → w.requestId r' = w.requestId r
  prefillFinished : ∀ {i c r r' c'}, w.prefill i c r = (.ok r', c') →
    w.finished r' = w.finished r
  decodeId : ∀ {i c r r' t c'}, w.decode i c r = (.ok (r', t), c') →
    w.requestId r' = w.requestId r
  resultId : ∀ r traces, w.resultId (w.buildResult r traces) = w.requestId r

/-- What the queues hold where the loop stands: a round that has begun has work, and a run that
has returned has none left. -/
def InPhase (s : PoolState ρ κ τ β η) : Prop :=
  match s.control with
  | .prefilling l => 0 < s.prefillQueue.items.length + l.length + s.decodeQueue.items.length
  | .handingOver l => s.prefillQueue.items = [] ∧ 0 < l.length + s.decodeQueue.items.length
  | .decoding n l => n ≤ s.decodeQueue.items.length ∧ 0 < n + l.length
  | .returned l => l = w.sortResults s.finalResults ∧ s.bag = 0
  | _ => True

/-- What the loop itself maintains. -/
structure Orderly (s : PoolState ρ κ τ β η) : Prop where
  waiting : ∀ r ∈ s.waiting, w.finished r = false
  phase : w.InPhase s

theorem orderly_start (cache : κ) {requests : List ρ}
    (h : ∀ r ∈ requests, w.finished r = false) : w.Orderly (w.start cache requests) where
  waiting := by
    intro r hr
    rw [waiting_start] at hr
    exact h r hr
  phase := trivial

variable {w}

/-- The requests that wait afterwards waited before. -/
theorem Orderly.waiting_of_le {s s' : PoolState ρ κ τ β η} (h : w.Orderly s)
    (hle : s'.waiting ≤ s.waiting) : ∀ r ∈ s'.waiting, w.finished r = false :=
  fun r hr => h.waiting r (Multiset.mem_of_le hle hr)

theorem collect_orderly {s : PoolState ρ κ τ β η} {r : ρ} {trace : τ} {rest : List (ρ × τ)}
    (h : w.Orderly s) (hc : s.control = .collecting ((r, trace) :: rest)) :
    w.Orderly (w.collect s r trace rest) := by
  unfold collect
  dsimp only
  cases hf : w.finished r with
  | true =>
    rw [if_pos rfl]
    refine ⟨h.waiting_of_le ?_, trivial⟩
    simp [PoolState.waiting, hc, Control.waiting]
  | false =>
    rw [if_neg Bool.false_ne_true]
    refine ⟨?_, trivial⟩
    intro q hq
    simp only [PoolState.waiting, Control.waiting, RequestQueue.requests_push, Multiset.add_cons,
      Multiset.mem_cons] at hq
    obtain rfl | hq := hq
    · exact hf
    · exact h.waiting q (by simpa only [PoolState.waiting, hc, Control.waiting] using hq)

theorem waiting_setControl (s : PoolState ρ κ τ β η) {control : Control ρ τ β}
    (h : control.waiting = s.control.waiting) :
    { s with control := control }.waiting = s.waiting := by
  rw [PoolState.waiting, h, PoolState.waiting]

/-- Only the control changes, and the requests in hand do not. -/
theorem Orderly.setControl {s : PoolState ρ κ τ β η} (h : w.Orderly s) {control : Control ρ τ β}
    (hwaiting : control.waiting = s.control.waiting)
    (hphase : w.InPhase { s with control := control }) :
    w.Orderly { s with control := control } :=
  ⟨h.waiting_of_le (waiting_setControl s hwaiting).le, hphase⟩

theorem Lawful.orderly_step (hw : w.Lawful) {s s' : PoolState ρ κ τ β η} (h : w.Orderly s)
    (hs : w.step s = some s') : w.Orderly s' ∨ Raised s' := by
  have hphase := h.phase
  cases w.step_turn hs with
  | returns hc hidle =>
    refine Or.inl (h.setControl (by rw [hc]; rfl) ⟨rfl, ?_⟩)
    simp [PoolState.bag, Control.requests, RequestQueue.requests, hidle]
  | begins hc hwork =>
    refine Or.inl (h.setControl (by rw [hc]; rfl) ?_)
    simp only [← List.length_eq_zero_iff] at hwork
    simp only [InPhase, List.length_nil]
    omega
  | prefills completed r r' queue cache hc hp _ _ hr =>
    have hreq := (RequestQueue.pop_some hp).1
    refine Or.inl ⟨?_, ?_⟩
    · intro q hq
      have hold : ∀ q, q = r ∨ q ∈ queue.requests ∨ q ∈ completed ∨
          q ∈ s.decodeQueue.requests → w.finished q = false := by
        intro q hq
        apply h.waiting
        simp only [PoolState.waiting, hc, Control.waiting, hreq, Multiset.mem_add,
          Multiset.mem_coe, List.mem_cons]
        tauto
      simp only [PoolState.waiting, Control.waiting, Multiset.mem_add, Multiset.mem_coe,
        List.mem_append, List.mem_singleton] at hq
      obtain (hq | hq | rfl) | hq := hq
      · exact hold q (by tauto)
      · exact hold q (by tauto)
      · rw [hw.prefillFinished hr]
        exact hold r (Or.inl rfl)
      · exact hold q (by tauto)
    · simp only [InPhase, List.length_append, List.length_singleton]
      omega
  | prefillsDone completed hc hp =>
    have hempty := RequestQueue.pop_none hp
    refine Or.inl (h.setControl (by rw [hc]; rfl) ⟨hempty, ?_⟩)
    simpa [InPhase, hc, hempty] using hphase
  | handsOver r rest hc =>
    simp only [InPhase, hc] at hphase
    refine Or.inl ⟨h.waiting_of_le ?_, hphase.1, ?_⟩
    · simp only [PoolState.waiting, hc, Control.waiting, RequestQueue.requests_push,
        ← Multiset.cons_coe, Multiset.add_cons, Multiset.cons_add]
      exact le_rfl
    · dsimp only
      rw [RequestQueue.length_push]
      omega
  | handoversDone hc =>
    refine Or.inl (h.setControl (by rw [hc]; rfl) ?_)
    simp only [InPhase, hc, List.length_nil] at hphase ⊢
    omega
  | decodes n stepped r r' trace queue cache hc hp _ _ =>
    obtain ⟨hreq, hlen⟩ := RequestQueue.pop_some hp
    simp only [InPhase, hc] at hphase
    refine Or.inl ⟨h.waiting_of_le ?_, ?_⟩
    · simp only [PoolState.waiting, hc, Control.waiting, hreq, ← Multiset.cons_coe,
        Multiset.add_cons]
      exact Multiset.le_cons_self _ _
    · simp only [InPhase, List.length_append, List.length_singleton]
      omega
  | decodesDone stepped hc => exact Or.inl (h.setControl (by rw [hc]; rfl) trivial)
  | collects r trace rest hc => exact Or.inl (collect_orderly h hc)
  | collectsDone hc => exact Or.inl (h.setControl (by rw [hc]; rfl) trivial)
  | fails _ e hc _ _ _ => exact Or.inr ⟨e, hc⟩

/-! ### Accounting and termination -/

/-- The ids in flight and the ids of the results. -/
def ids (w : Workers ρ κ τ β η) (s : PoolState ρ κ τ β η) : Multiset Int :=
  s.bag.map w.requestId + (s.finalResults.map w.resultId : Multiset Int)

theorem Lawful.ids_step (hw : w.Lawful) {s s' : PoolState ρ κ τ β η}
    (hs : w.step s = some s') : w.ids s' = w.ids s ∨ Raised s' := by
  cases w.step_effect hs with
  | silent _ bag final _ => exact Or.inl (by rw [ids, ids, bag, final])
  | prefilled i r r' rest _ bag run bag' final _ =>
    refine Or.inl ?_
    rw [ids, ids, bag, bag', final, Multiset.map_cons, Multiset.map_cons, hw.prefillId run]
  | decoded i r r' trace rest _ bag run bag' final _ =>
    refine Or.inl ?_
    rw [ids, ids, bag, bag', final, Multiset.map_cons, Multiset.map_cons, hw.decodeId run]
  | finished r traces bag _ _ final _ =>
    refine Or.inl ?_
    rw [ids, ids, bag, final, List.map_append, ← Multiset.coe_add, List.map_cons, List.map_nil,
      hw.resultId, Multiset.map_cons, Multiset.coe_singleton, ← Multiset.singleton_add]
    abel
  | failed e control _ _ => exact Or.inr ⟨e, control⟩

theorem nextDecode_waiting {s : PoolState ρ κ τ β η} {r : ρ} (h : s.nextDecode = some r) :
    r ∈ s.waiting := by
  have hm := PoolState.mem_decodeQueue_of_nextDecode h
  exact Multiset.mem_add.mpr (Or.inr (Multiset.mem_coe.mpr hm))

theorem nextPrefill_waiting {s : PoolState ρ κ τ β η} {r : ρ} (h : s.nextPrefill = some r) :
    r ∈ s.waiting := by
  unfold PoolState.nextPrefill at h
  split at h
  · have hm := List.mem_of_mem_head? (Option.mem_def.mpr h)
    exact Multiset.mem_add.mpr (Or.inl (Multiset.mem_add.mpr (Or.inl (Multiset.mem_coe.mpr hm))))
  · cases h

/-- A decode step lowers the cost of its request; `G` is what the requests keep. -/
structure Progress (w : Workers ρ κ τ β η) (G : ρ → Prop) (cost : ρ → Nat) : Prop where
  prefill : ∀ {i c r r' c'}, G r → w.prefill i c r = (.ok r', c') → G r' ∧ cost r' = cost r
  decode : ∀ {i c r r' t c'}, G r → w.finished r = false →
    w.decode i c r = (.ok (r', t), c') → G r' ∧ cost r' < cost r

def totalCost (cost : ρ → Nat) (s : PoolState ρ κ τ β η) : Nat := (s.bag.map cost).sum

theorem totalCost_mono (cost : ρ → Nat) {s s' : PoolState ρ κ τ β η} (h : s'.bag ≤ s.bag) :
    totalCost cost s' ≤ totalCost cost s := by
  obtain ⟨rest, hrest⟩ := Multiset.le_iff_exists_add.mp h
  rw [totalCost, totalCost, hrest, Multiset.map_add, Multiset.sum_add]
  omega

/-- One step: the cost in flight never grows, and a decode step pays for itself. -/
structure CostStep (G : ρ → Prop) (cost : ρ → Nat) (s s' : PoolState ρ κ τ β η) : Prop where
  kept : ∀ r ∈ s'.bag, G r
  total : totalCost cost s' ≤ totalCost cost s
  spent : ¬ Raised s' → s'.decodeRr + totalCost cost s' ≤ s.decodeRr + totalCost cost s

variable {G : ρ → Prop} {cost : ρ → Nat}

theorem Progress.costStep (hp : w.Progress G cost) {s s' : PoolState ρ κ τ β η}
    (ho : w.Orderly s) (hG : ∀ r ∈ s.bag, G r) (hs : w.step s = some s') :
    CostStep G cost s s' := by
  cases w.step_effect hs with
  | silent _ bag final rr =>
    have he : totalCost cost s' = totalCost cost s := by rw [totalCost, totalCost, bag]
    exact ⟨bag ▸ hG, he.le, fun _ => by omega⟩
  | prefilled i r r' rest _ bag run bag' final rr =>
    rw [bag] at hG
    obtain ⟨hr, hcost⟩ := hp.prefill (hG r (Multiset.mem_cons_self r rest)) run
    have he : totalCost cost s' = totalCost cost s := by
      rw [totalCost, totalCost, bag, bag', Multiset.map_cons, Multiset.map_cons, hcost]
    refine ⟨?_, he.le, fun _ => by omega⟩
    rw [bag']
    exact Multiset.forall_mem_cons.mpr ⟨hr, fun q hq => hG q (Multiset.mem_cons_of_mem hq)⟩
  | decoded i r r' trace rest next bag run bag' final rr =>
    rw [bag] at hG
    have hf := ho.waiting r (nextDecode_waiting next)
    obtain ⟨hr, hcost⟩ := hp.decode (hG r (Multiset.mem_cons_self r rest)) hf run
    have he : totalCost cost s' < totalCost cost s := by
      rw [totalCost, totalCost, bag, bag', Multiset.map_cons, Multiset.map_cons,
        Multiset.sum_cons, Multiset.sum_cons]
      omega
    refine ⟨?_, he.le, fun _ => by omega⟩
    rw [bag']
    exact Multiset.forall_mem_cons.mpr ⟨hr, fun q hq => hG q (Multiset.mem_cons_of_mem hq)⟩
  | finished r traces bag _ _ _ rr =>
    have hle : s'.bag ≤ s.bag := bag ▸ Multiset.le_cons_self _ _
    have ht := totalCost_mono cost hle
    exact ⟨fun q hq => hG q (Multiset.mem_of_le hle hq), ht, fun _ => by omega⟩
  | failed e control bag _ =>
    exact ⟨fun q hq => hG q (Multiset.mem_of_le bag hq), totalCost_mono cost bag,
      fun hn => absurd ⟨e, control⟩ hn⟩

/-- How much work the loop has left where it stands, decode steps apart. -/
def load : Control ρ τ β → Nat
  | .loop => 4
  | .prefilling l => l.length + 3
  | .handingOver l => l.length + 2
  | .decoding _ [] => 1
  | .decoding _ (_ :: l) => l.length + 7
  | .collecting l => l.length + 5
  | .returned _ => 0
  | .raised _ => 0

def measure (cost : ρ → Nat) (s : PoolState ρ κ τ β η) : Nat :=
  7 * totalCost cost s + 2 * s.prefillQueue.items.length + load s.control

theorem load_decoding_append (n : Nat) (l : List (ρ × τ)) (p : ρ × τ) :
    load (.decoding n (l ++ [p]) : Control ρ τ β) = l.length + 7 := by
  cases l with
  | nil => rfl
  | cons q l => simp [load]

theorem load_decoding (n : Nat) (l : List (ρ × τ)) :
    l.length + 1 ≤ load (.decoding n l : Control ρ τ β) := by
  cases l with
  | nil => exact le_rfl
  | cons p l =>
    simp only [load, List.length_cons]
    omega

/-- The loop goes on only where it has work left. -/
theorem load_pos {s s' : PoolState ρ κ τ β η} (h : w.step s = some s') : 0 < load s.control := by
  cases hc : s.control with
  | decoding n l => exact Nat.lt_of_lt_of_le (Nat.succ_pos _) (load_decoding n l)
  | returned results =>
    rw [step_returned hc] at h
    cases h
  | raised e =>
    rw [step_raised hc] at h
    cases h
  | _ => exact Nat.succ_pos _

theorem Progress.measure_step (hp : w.Progress G cost) {s s' : PoolState ρ κ τ β η}
    (ho : w.Orderly s) (hG : ∀ r ∈ s.bag, G r) (hs : w.step s = some s') :
    measure cost s' < measure cost s := by
  have hcost := hp.costStep ho hG hs
  have htotal := hcost.total
  have hphase := ho.phase
  have hpos := load_pos hs
  unfold measure
  cases w.step_turn hs with
  | returns hc _ | begins hc _ =>
    simp only [hc, load, List.length_nil]
    omega
  | prefills completed r r' queue cache hc hpop _ _ _ =>
    have hlen := (RequestQueue.pop_some hpop).2
    simp only [hc, load, List.length_append, List.length_singleton]
    omega
  | prefillsDone completed hc _ =>
    simp only [hc, load]
    omega
  | handsOver r rest hc =>
    simp only [hc, load, List.length_cons]
    omega
  | handoversDone hc =>
    simp only [hc, load, List.length_nil]
    omega
  | decodes n stepped r r' trace queue cache hc _ _ _ =>
    have hspent := hcost.spent (by
      rintro ⟨e, he⟩
      cases he)
    have hload := load_decoding (β := β) (n+1) stepped
    rw [hc, load_decoding_append]
    dsimp only at hspent ⊢
    omega
  | decodesDone stepped hc =>
    simp only [InPhase, hc] at hphase
    cases stepped with
    | nil => simp at hphase
    | cons p stepped =>
      simp only [hc, load, List.length_cons]
      omega
  | collects r trace rest hc =>
    obtain ⟨hqueue, hrest⟩ := w.collect_control s r trace rest
    simp only [hqueue, hrest, hc, load, List.length_cons]
    omega
  | collectsDone hc =>
    simp only [hc, load, List.length_nil]
    omega
  | fails _ e hc _ hqueue _ =>
    have hnone : load s'.control = 0 := by
      rw [hc]
      rfl
    omega

/-- What a run over the requests maintains until it fails: no id is lost, and the decode steps
so far and the cost in flight stay within the cost of the requests. -/
structure Metered (w : Workers ρ κ τ β η) (G : ρ → Prop) (cost : ρ → Nat) (requests : List ρ)
    (s : PoolState ρ κ τ β η) : Prop where
  orderly : w.Orderly s
  kept : ∀ r ∈ s.bag, G r
  ids : w.ids s = requests.map w.requestId
  spent : s.decodeRr + totalCost cost s ≤ (requests.map cost).sum

theorem metered_start (cache : κ) {requests : List ρ}
    (hfresh : ∀ r ∈ requests, w.finished r = false ∧ G r) :
    Metered w G cost requests (w.start cache requests) where
  orderly := w.orderly_start cache fun r hr => (hfresh r hr).1
  kept := by
    rw [bag_start]
    exact fun r hr => (hfresh r hr).2
  ids := by
    rw [ids, bag_start]
    simp [start]
  spent := by
    rw [totalCost, bag_start]
    simp [start]

theorem Lawful.metered_step (hw : w.Lawful) (hp : w.Progress G cost) {requests : List ρ}
    {s s' : PoolState ρ κ τ β η} (h : Metered w G cost requests s) (hs : w.step s = some s') :
    Metered w G cost requests s' ∨ Raised s' := by
  by_cases hr : Raised s'
  · exact Or.inr hr
  · have hcost := hp.costStep h.orderly h.kept hs
    have hspent := hcost.spent hr
    have hbefore := h.spent
    refine Or.inl ⟨(hw.orderly_step h.orderly hs).resolve_right hr, hcost.kept, ?_, by omega⟩
    rw [(hw.ids_step hs).resolve_right hr, h.ids]

open StateTransition in
/-- Whatever the workers do to the cache, the loop stops: it fails, or it returns one result for
each request after at most as many decode steps as the requests cost. -/
theorem Lawful.run_stops (hw : w.Lawful) (hp : w.Progress G cost) (cache : κ) (requests : List ρ)
    (hfresh : ∀ r ∈ requests, w.finished r = false ∧ G r) :
    ∃ t, t ∈ eval w.step (w.start cache requests) ∧
      (Raised t ∨
        t.control = .returned (w.sortResults t.finalResults) ∧ t.bag = 0 ∧
          (t.finalResults.map w.resultId : Multiset Int) = requests.map w.requestId ∧
          t.decodeRr ≤ (requests.map cost).sum) := by
  have hstep : ∀ s s', Metered w G cost requests s ∨ Raised s → w.step s = some s' →
      (Metered w G cost requests s' ∨ Raised s') ∧ measure cost s' < measure cost s := by
    intro s s' hs hss
    have h := hs.resolve_right (not_raised_of_step hss)
    exact ⟨hw.metered_step hp h hss, hp.measure_step h.orderly h.kept hss⟩
  obtain ⟨t, ht, hend⟩ := Runs.exists_last (measure cost) hstep (w.start cache requests)
    (Or.inl (metered_start cache hfresh))
  refine ⟨t, ht, ?_⟩
  cases hend with
  | inr hr => exact Or.inl hr
  | inl h =>
    obtain ⟨results, hc⟩ | hr := w.stopped (mem_eval.mp ht).2
    · have hphase := h.orderly.phase
      simp only [InPhase, hc] at hphase
      obtain ⟨rfl, hb⟩ := hphase
      have hids := h.ids
      have hspent := h.spent
      refine Or.inr ⟨hc, hb, ?_, by omega⟩
      rw [ids, hb, Multiset.map_zero, zero_add] at hids
      exact hids
    · exact Or.inl hr

end Workers
end ResidentInference

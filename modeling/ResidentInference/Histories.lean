import ResidentInference.TraceLog

/-! What holds of a request and of the traces of all its steps so far, from its submission to the
result that is built from them. -/
namespace ResidentInference.Workers
open StateTransition
variable {ρ κ τ β η : Type} {w : Workers ρ κ τ β η}

/-! ### Where a step leaves the requests and their traces -/

/-- All that a step can do to the requests that wait, to those with a trace in hand and to the
traces that are filed. -/
inductive Files (w : Workers ρ κ τ β η) (s s' : PoolState ρ κ τ β η) : Prop
  | silent (traces : s'.traces = s.traces) (final : s'.finalResults = s.finalResults)
      (waiting : ∀ q ∈ s'.waiting, q ∈ s.waiting)
      (stepped : ∀ p ∈ s'.control.stepped, p ∈ s.control.stepped)
  | prefilled (i : Nat) (r r' : ρ) (next : s.nextPrefill = some r)
      (run : w.prefill i s.cache r = (.ok r', s'.cache)) (traces : s'.traces = s.traces)
      (final : s'.finalResults = s.finalResults)
      (waiting : ∀ q ∈ s'.waiting, q = r' ∨ q ∈ s.waiting) (stepped : s'.control.stepped = [])
  | decoded (i : Nat) (r r' : ρ) (trace : τ) (next : s.nextDecode = some r)
      (run : w.decode i s.cache r = (.ok (r', trace), s'.cache)) (traces : s'.traces = s.traces)
      (final : s'.finalResults = s.finalResults) (waiting : ∀ q ∈ s'.waiting, q ∈ s.waiting)
      (stepped : s'.control.stepped = s.control.stepped ++ [(r', trace)])
  | collected (r : ρ) (trace : τ) (rest : List (ρ × τ))
      (control : s.control = .collecting ((r, trace) :: rest))
      (collect : s' = w.collect s r trace rest)

theorem files_setControl {s : PoolState ρ κ τ β η} {control : Control ρ τ β}
    (hwaiting : control.waiting = s.control.waiting)
    (hstepped : control.stepped ⊆ s.control.stepped) :
    w.Files s { s with control := control } := by
  refine .silent rfl rfl (fun q hq => ?_) fun p hp => hstepped hp
  rwa [waiting_setControl s hwaiting] at hq

theorem step_files {s s' : PoolState ρ κ τ β η} (h : w.step s = some s') : w.Files s s' := by
  cases w.step_turn h with
  | returns hc _ => exact files_setControl (by rw [hc]; rfl) (List.nil_subset _)
  | begins hc _ => exact files_setControl (by rw [hc]; rfl) (List.nil_subset _)
  | prefills completed r r' queue cache hc hp _ _ hr =>
    refine .prefilled _ r r' (nextPrefill_of_pop hc hp) hr rfl rfl (fun q hq => ?_) rfl
    have hreq := (RequestQueue.pop_some hp).1
    simp only [PoolState.waiting, Control.waiting, Multiset.mem_add, Multiset.mem_coe,
      List.mem_append, List.mem_singleton] at hq
    simp only [PoolState.waiting, hc, Control.waiting, hreq, Multiset.mem_add, Multiset.mem_coe,
      List.mem_cons]
    tauto
  | prefillsDone completed hc _ => exact files_setControl (by rw [hc]; rfl) (List.nil_subset _)
  | handsOver r rest hc =>
    refine .silent rfl rfl (fun q hq => ?_) fun p hp => absurd hp List.not_mem_nil
    simp only [PoolState.waiting, Control.waiting, RequestQueue.requests_push, Multiset.add_cons,
      Multiset.mem_cons, Multiset.mem_add, Multiset.mem_coe] at hq
    simp only [PoolState.waiting, hc, Control.waiting, Multiset.mem_add, Multiset.mem_coe,
      List.mem_cons]
    tauto
  | handoversDone hc => exact files_setControl (by rw [hc]; rfl) (List.nil_subset _)
  | decodes n stepped r r' trace queue cache hc hp _ hr =>
    refine .decoded _ r r' trace (nextDecode_of_pop hc hp) hr rfl rfl (fun q hq => ?_) ?_
    · have hreq := (RequestQueue.pop_some hp).1
      simp only [PoolState.waiting, Control.waiting, Multiset.mem_add, Multiset.mem_coe,
        List.not_mem_nil, or_false] at hq
      simp only [PoolState.waiting, hc, Control.waiting, hreq, Multiset.mem_add,
        Multiset.mem_coe, List.mem_cons]
      tauto
    · rw [hc]
      rfl
  | decodesDone stepped hc =>
    refine files_setControl (by rw [hc]; rfl) fun p hp => ?_
    rw [hc]
    exact hp
  | collects r trace rest hc => exact .collected r trace rest hc rfl
  | collectsDone hc => exact files_setControl (by rw [hc]; rfl) (List.nil_subset _)
  | fails _ e hc _ _ _ =>
    obtain ⟨htraces, -, hle⟩ := failed_step h ⟨e, hc⟩
    refine .silent htraces (step_aborted h ⟨e, hc⟩).finalResults
      (fun q hq => Multiset.mem_of_le hle hq) fun p hp => ?_
    rw [hc] at hp
    exact absurd hp List.not_mem_nil

/-! ### Histories -/

/-- `P` holds of every request in flight with the traces of its steps so far, the one in hand
included, and of the request behind every result with the traces that the result was built from. -/
structure Histories (w : Workers ρ κ τ β η) (P : ρ → List τ → Prop) (s : PoolState ρ κ τ β η) :
    Prop where
  distinct : (w.ids s).Nodup
  waiting : ∀ r ∈ s.waiting, P r (s.filed (w.requestId r))
  stepped : ∀ p ∈ s.control.stepped, P p.1 (s.filed (w.requestId p.1) ++ [p.2])
  results : ∀ b ∈ s.finalResults,
    ∃ r traces, w.finished r = true ∧ P r traces ∧ b = w.buildResult r traces

variable {P : ρ → List τ → Prop}

theorem filed_congr {s s' : PoolState ρ κ τ β η} (h : s'.traces = s.traces) (rid : Int) :
    s'.filed rid = s.filed rid := by
  rw [PoolState.filed, PoolState.filed, h]

/-- The other requests keep what is filed for them when a trace is collected. -/
theorem filed_collect_of_ne {s : PoolState ρ κ τ β η} {r q : ρ} (trace : τ) (rest : List (ρ × τ))
    (hne : w.requestId q ≠ w.requestId r) :
    (w.collect s r trace rest).filed (w.requestId q) = s.filed (w.requestId q) := by
  rw [filed_collect, if_neg hne]

theorem Histories.collect {s : PoolState ρ κ τ β η} {r : ρ} {trace : τ} {rest : List (ρ × τ)}
    (h : Histories w P s) (hc : s.control = .collecting ((r, trace) :: rest))
    (hd : (w.ids (w.collect s r trace rest)).Nodup) :
    Histories w P (w.collect s r trace rest) := by
  have hbag : s.bag = r ::ₘ (s.waiting + (rest.map Prod.fst : Multiset ρ)) := by
    rw [PoolState.bag_eq_waiting, hc]
    simp only [Control.stepped, List.map_cons, ← Multiset.cons_coe, Multiset.add_cons]
  obtain ⟨hothers, -⟩ := ids_apart h.distinct hbag
  have hself : P r ((w.collect s r trace rest).filed (w.requestId r)) := by
    rw [filed_collect, if_pos rfl]
    refine h.stepped (r, trace) ?_
    rw [hc]
    exact List.mem_cons_self
  refine ⟨hd, fun q hq => ?_, fun p hp => ?_, fun b hb => ?_⟩
  · cases mem_waiting_collect hc hq with
    | inl heq => exact heq ▸ hself
    | inr hold =>
      rw [filed_collect_of_ne trace rest (hothers q (Multiset.mem_add.mpr (Or.inl hold)))]
      exact h.waiting q hold
  · rw [(w.collect_control s r trace rest).2] at hp
    have hne := hothers p.1 (Multiset.mem_add.mpr (Or.inr (Multiset.mem_coe.mpr
      (List.mem_map_of_mem hp))))
    rw [filed_collect_of_ne trace rest hne]
    refine h.stepped p ?_
    rw [hc]
    exact List.mem_cons_of_mem _ hp
  · unfold Workers.collect at hb hself
    dsimp only at hb hself
    split at hb
    · next hf =>
      rw [if_pos hf] at hself
      cases List.mem_append.mp hb with
      | inl hold => exact h.results b hold
      | inr hnew => exact ⟨r, _, hf, hself, List.mem_singleton.mp hnew⟩
    · exact h.results b hb

theorem Histories.step (hw : w.Lawful) {s s' : PoolState ρ κ τ β η} (h : Histories w P s)
    (ho : w.Orderly s) (hs : w.step s = some s')
    (hpre : ∀ i r r' traces, s.nextPrefill = some r → P r traces →
      w.prefill i s.cache r = (.ok r', s'.cache) → P r' traces)
    (hdec : ∀ i r r' t traces, s.nextDecode = some r → w.finished r = false → P r traces →
      w.decode i s.cache r = (.ok (r', t), s'.cache) → P r' (traces ++ [t])) :
    Histories w P s' := by
  have hd := hw.ids_nodup_step h.distinct hs
  cases step_files hs with
  | silent traces final waiting stepped =>
    refine ⟨hd, fun r hr => ?_, fun p hp => ?_, final ▸ h.results⟩
    · rw [filed_congr traces]
      exact h.waiting r (waiting r hr)
    · rw [filed_congr traces]
      exact h.stepped p (stepped p hp)
  | prefilled i r r' next run traces final waiting stepped =>
    refine ⟨hd, fun q hq => ?_, fun p hp => ?_, final ▸ h.results⟩
    · rw [filed_congr traces]
      cases waiting q hq with
      | inl heq =>
        rw [heq, hw.prefillId run]
        exact hpre i r r' _ next (h.waiting r (nextPrefill_waiting next)) run
      | inr hold => exact h.waiting q hold
    · rw [stepped] at hp
      cases hp
  | decoded i r r' trace next run traces final waiting stepped =>
    refine ⟨hd, fun q hq => ?_, fun p hp => ?_, final ▸ h.results⟩
    · rw [filed_congr traces]
      exact h.waiting q (waiting q hq)
    · rw [filed_congr traces]
      rw [stepped, List.mem_append, List.mem_singleton] at hp
      cases hp with
      | inl hold => exact h.stepped p hold
      | inr hnew =>
        have hr := nextDecode_waiting next
        rw [hnew]
        dsimp only
        rw [hw.decodeId run]
        exact hdec i r r' trace _ next (ho.waiting r hr) (h.waiting r hr) run
  | collected r trace rest control collect =>
    subst collect
    exact h.collect control hd

/-- What the submitted requests have without a trace, and what every prefill and every decode step
of a run keeps, holds of every history of the run. -/
theorem Lawful.histories (hw : w.Lawful) {cache : κ} {requests : List ρ}
    (hids : (requests.map w.requestId).Nodup)
    (hfresh : ∀ r ∈ requests, w.finished r = false ∧ P r [])
    (hpre : ∀ s i r r' c' traces, Reaches w.step (w.start cache requests) s →
      s.nextPrefill = some r → P r traces → w.prefill i s.cache r = (.ok r', c') → P r' traces)
    (hdec : ∀ s i r r' t c' traces, Reaches w.step (w.start cache requests) s →
      s.nextDecode = some r → w.finished r = false → P r traces →
      w.decode i s.cache r = (.ok (r', t), c') → P r' (traces ++ [t]))
    {t : PoolState ρ κ τ β η} (ht : Reaches w.step (w.start cache requests) t) :
    Histories w P t := by
  have hfinished : ∀ r ∈ requests, w.finished r = false := fun r hr => (hfresh r hr).1
  have hbag := w.bag_start cache requests
  refine Runs.invariant ht ⟨?_, fun r hr => ?_, fun p hp => absurd hp List.not_mem_nil,
    fun b hb => absurd hb List.not_mem_nil⟩ fun u v hu h hs => ?_
  · rw [ids, hbag]
    simpa [start] using hids
  · have hmem := PoolState.mem_bag_of_waiting hr
    rw [hbag] at hmem
    exact (hfresh r hmem).2
  · have ho := ((hw.reaches_orderly hfinished hu).resolve_right (not_raised_of_step hs)).1
    exact h.step hw ho hs (fun i r r' traces hn hP hrun => hpre u i r r' _ traces hu hn hP hrun)
      fun i r r' t traces hn hf hP hrun => hdec u i r r' t _ traces hu hn hf hP hrun

/-! ### Requests that are next -/

/-- A run that has raised steps no request. -/
theorem not_raised_of_next {s : PoolState ρ κ τ β η} {r : ρ}
    (h : s.nextPrefill = some r ∨ s.nextDecode = some r) : ¬ Raised s := by
  rintro ⟨e, he⟩
  cases h with
  | inl hpre => simp [PoolState.nextPrefill, he] at hpre
  | inr hdec => simp [PoolState.nextDecode, he] at hdec

theorem step_prefillQueue {s s' : PoolState ρ κ τ β η} (hs : w.step s = some s') :
    (s'.prefillQueue.requests : Multiset ρ) ≤ s.prefillQueue.requests := by
  cases w.step_turn hs with
  | returns | begins | prefillsDone | handsOver | handoversDone | decodes | decodesDone
    | collectsDone => exact le_rfl
  | prefills _ _ _ _ _ _ hp => exact requests_le_of_pop hp
  | collects r trace rest _ => exact (w.collect_control s r trace rest).1 ▸ le_rfl
  | fails _ e control _ _ _ => exact (step_aborted hs ⟨e, control⟩).prefillQueue

/-- A request that is next for its prefill is as it was submitted. -/
theorem nextPrefill_submitted {cache : κ} {requests : List ρ} {s : PoolState ρ κ τ β η}
    (hs : Reaches w.step (w.start cache requests) s) {r : ρ} (hr : s.nextPrefill = some r) :
    r ∈ requests := by
  have hle : (s.prefillQueue.requests : Multiset ρ) ≤ requests := by
    refine Runs.invariant (P := fun u : PoolState ρ κ τ β η =>
      (u.prefillQueue.requests : Multiset ρ) ≤ requests) hs ?_
      fun u v _ h hstep => (step_prefillQueue hstep).trans h
    have hqueue := w.start_queue requests RequestQueue.empty
    rw [show (RequestQueue.empty : RequestQueue ρ).requests = [] from rfl, Multiset.coe_nil,
      add_zero] at hqueue
    exact hqueue.le
  exact Multiset.mem_coe.mp (Multiset.mem_of_le hle
    (Multiset.mem_coe.mpr (PoolState.mem_prefillQueue_of_nextPrefill hr)))

end ResidentInference.Workers

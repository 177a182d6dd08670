import ResidentInference.SchedulerRuns

/-! Whole runs of the loop seen from the requests: what the workers keep of each of them, and
which results a run that returns holds. -/
namespace ResidentInference.Workers
open StateTransition
variable {ρ κ τ β η : Type} {w : Workers ρ κ τ β η}

/-! ### The results of a run -/

theorem Lawful.reaches_orderly (hw : w.Lawful) {cache : κ} {requests : List ρ}
    (hfresh : ∀ r ∈ requests, w.finished r = false) {t : PoolState ρ κ τ β η}
    (ht : Reaches w.step (w.start cache requests) t) :
    (w.Orderly t ∧ w.ids t = requests.map w.requestId) ∨ Raised t := by
  refine invariant_or_raised (Q := fun s => w.Orderly s ∧ w.ids s = requests.map w.requestId) ht
    ⟨w.orderly_start cache hfresh, ?_⟩ ?_
  · rw [ids, bag_start]
    simp [start]
  · intro u v _ hu hs
    by_cases hr : Raised v
    · exact Or.inr hr
    · refine Or.inl ⟨(hw.orderly_step hu.1 hs).resolve_right hr, ?_⟩
      rw [(hw.ids_step hs).resolve_right hr, hu.2]

theorem not_raised_of_returned {t : PoolState ρ κ τ β η} {results : List β}
    (hr : t.control = .returned results) : ¬ Raised t := by
  intro h
  obtain ⟨e, he⟩ := h
  rw [hr] at he
  cases he

/-- Sorting the results sorts their ids. -/
theorem map_sortResults (w : Workers ρ κ τ β η) (results : List β) :
    (w.sortResults results).map w.resultId =
      (results.map w.resultId).insertionSort (· ≤ ·) :=
  List.map_insertionSort _ _ _ _ fun _ _ _ _ => Iff.rfl

/-- A run that returns leaves no request behind, and its results are in ascending order of the
ids, one for each request. -/
theorem Lawful.returned (hw : w.Lawful) {cache : κ} {requests : List ρ}
    (hfresh : ∀ r ∈ requests, w.finished r = false) {t : PoolState ρ κ τ β η}
    (ht : Reaches w.step (w.start cache requests) t) {results : List β}
    (hr : t.control = .returned results) :
    results = w.sortResults t.finalResults ∧ t.bag = 0 ∧
      results.map w.resultId = (requests.map w.requestId).insertionSort (· ≤ ·) := by
  have hn := not_raised_of_returned hr
  obtain ⟨ho, hids⟩ := (hw.reaches_orderly hfresh ht).resolve_right hn
  have hphase := ho.phase
  simp only [InPhase, hr] at hphase
  obtain ⟨hres, hbag⟩ := hphase
  refine ⟨hres, hbag, ?_⟩
  rw [ids, hbag, Multiset.map_zero, zero_add, Multiset.coe_eq_coe] at hids
  rw [hres, map_sortResults]
  refine List.Perm.eq_of_pairwise' (List.pairwise_insertionSort (· ≤ ·) _)
    (List.pairwise_insertionSort (· ≤ ·) _) ?_
  calc (t.finalResults.map w.resultId).insertionSort (· ≤ ·)
      _ |>.Perm (t.finalResults.map w.resultId) := List.perm_insertionSort _ _
      _ |>.Perm (requests.map w.requestId) := hids
      _ |>.Perm ((requests.map w.requestId).insertionSort (· ≤ ·)) :=
        (List.perm_insertionSort _ _).symm

/-! ### What the workers keep of a request -/

/-- A property of the requests in flight and of the requests behind the results. -/
structure Holds (w : Workers ρ κ τ β η) (P : ρ → Prop) (s : PoolState ρ κ τ β η) : Prop where
  bag : ∀ r ∈ s.bag, P r
  results : ∀ b ∈ s.finalResults,
    ∃ r traces, P r ∧ w.finished r = true ∧ b = w.buildResult r traces

theorem Holds.step {P : ρ → Prop} {s s' : PoolState ρ κ τ β η} (h : w.Holds P s)
    (ho : w.Orderly s) (hs : w.step s = some s')
    (hpre : ∀ i r r', s.nextPrefill = some r → P r →
      w.prefill i s.cache r = (.ok r', s'.cache) → P r')
    (hdec : ∀ i r r' t, s.nextDecode = some r → w.finished r = false → P r →
      w.decode i s.cache r = (.ok (r', t), s'.cache) → P r') :
    w.Holds P s' ∨ Raised s' := by
  -- one request changes; the others are those of the bag before
  have hrest : ∀ {r r' : ρ} {rest : Multiset ρ}, s.bag = r ::ₘ rest → s'.bag = r' ::ₘ rest →
      (P r → P r') → ∀ q ∈ s'.bag, P q := by
    intro r r' rest hb hb' hr
    have hbag := h.bag
    rw [hb, Multiset.forall_mem_cons] at hbag
    rw [hb']
    exact Multiset.forall_mem_cons.mpr ⟨hr hbag.1, hbag.2⟩
  cases w.step_effect hs with
  | silent _ bag final _ => exact Or.inl ⟨bag ▸ h.bag, final ▸ h.results⟩
  | prefilled i r r' rest next bag run bag' final _ =>
    exact Or.inl ⟨hrest bag bag' fun hr => hpre i r r' next hr run, final ▸ h.results⟩
  | decoded i r r' trace rest next bag run bag' final _ =>
    have hf := ho.waiting r (nextDecode_waiting next)
    exact Or.inl ⟨hrest bag bag' fun hr => hdec i r r' trace next hf hr run, final ▸ h.results⟩
  | finished r traces bag done _ final _ =>
    refine Or.inl ⟨fun q hq => h.bag q (bag ▸ Multiset.mem_cons_of_mem hq), ?_⟩
    intro b hb
    rw [final, List.mem_append, List.mem_singleton] at hb
    cases hb with
    | inl hold => exact h.results b hold
    | inr hnew => exact ⟨r, traces, h.bag r (bag ▸ Multiset.mem_cons_self r _), done, hnew⟩
  | failed e control _ _ => exact Or.inr ⟨e, control⟩

/-- What every prefill and every decode step of a run keeps holds throughout the run. -/
theorem Lawful.holds (hw : w.Lawful) {P : ρ → Prop} {cache : κ} {requests : List ρ}
    (hfresh : ∀ r ∈ requests, w.finished r = false ∧ P r)
    (hpre : ∀ s i r r' c', Reaches w.step (w.start cache requests) s → s.nextPrefill = some r →
      P r → w.prefill i s.cache r = (.ok r', c') → P r')
    (hdec : ∀ s i r r' t c', Reaches w.step (w.start cache requests) s → s.nextDecode = some r →
      w.finished r = false → P r → w.decode i s.cache r = (.ok (r', t), c') → P r')
    {t : PoolState ρ κ τ β η} (ht : Reaches w.step (w.start cache requests) t) :
    w.Holds P t ∨ Raised t := by
  have hfinished : ∀ r ∈ requests, w.finished r = false := fun r hr => (hfresh r hr).1
  have h0 : w.Holds P (w.start cache requests) := by
    refine ⟨?_, fun b hb => absurd hb List.not_mem_nil⟩
    rw [bag_start]
    exact fun r hr => (hfresh r hr).2
  refine invariant_or_raised ht h0 ?_
  intro u v hu h hs
  have ho := ((hw.reaches_orderly hfinished hu).resolve_right (not_raised_of_step hs)).1
  exact h.step ho hs (fun i r r' hn hr hrun => hpre u i r r' _ hu hn hr hrun)
    fun i r r' t hn hf hr hrun => hdec u i r r' t _ hu hn hf hr hrun

/-! ### A step that fails -/

/-- What a step that failed leaves: the queues have lost requests at most, and what was handed over,
filed and returned is still there. -/
structure Aborted (s s' : PoolState ρ κ τ β η) : Prop where
  prefillQueue : (s'.prefillQueue.requests : Multiset ρ) ≤ s.prefillQueue.requests
  decodeQueue : (s'.decodeQueue.requests : Multiset ρ) ≤ s.decodeQueue.requests
  handoffs : s'.handoffs = s.handoffs
  traces : s'.traces = s.traces
  finalResults : s'.finalResults = s.finalResults

theorem prefillTurn_aborted {s : PoolState ρ κ τ β η} {completed : List ρ} {r : ρ}
    {queue : RequestQueue ρ} (hp : s.prefillQueue.pop = some (r, queue))
    (hr : Raised (w.prefillTurn s completed r queue)) :
    Aborted s (w.prefillTurn s completed r queue) := by
  have hpop := requests_le_of_pop hp
  revert hr
  unfold prefillTurn
  split
  · exact fun _ => ⟨le_rfl, le_rfl, rfl, rfl, rfl⟩
  · dsimp only
    split
    · exact fun _ => ⟨hpop, le_rfl, rfl, rfl, rfl⟩
    · split
      · exact fun _ => ⟨hpop, le_rfl, rfl, rfl, rfl⟩
      · rintro ⟨e, he⟩
        cases he

theorem decodeTurn_aborted {s : PoolState ρ κ τ β η} {n : Nat} {stepped : List (ρ × τ)} {r : ρ}
    {queue : RequestQueue ρ} (hp : s.decodeQueue.pop = some (r, queue))
    (hr : Raised (w.decodeTurn s n stepped r queue)) :
    Aborted s (w.decodeTurn s n stepped r queue) := by
  have hpop := requests_le_of_pop hp
  revert hr
  unfold decodeTurn
  split
  · exact fun _ => ⟨le_rfl, le_rfl, rfl, rfl, rfl⟩
  · dsimp only
    split
    · exact fun _ => ⟨le_rfl, hpop, rfl, rfl, rfl⟩
    · rintro ⟨e, he⟩
      cases he

theorem step_aborted {s s' : PoolState ρ κ τ β η} (hs : w.step s = some s') (hr : Raised s') :
    Aborted s s' := by
  obtain ⟨e, he⟩ := hr
  unfold step at hs
  split at hs
  · split at hs
    · cases hs
      cases he
    · cases hs
      cases he
  · split at hs
    · cases hs
      cases he
    · next hp =>
      cases hs
      exact prefillTurn_aborted hp ⟨e, he⟩
  · cases hs
    cases he
  · cases hs
    cases he
  · cases hs
    cases he
  · split at hs
    · cases hs
      exact ⟨le_rfl, le_rfl, rfl, rfl, rfl⟩
    · next hp =>
      cases hs
      exact decodeTurn_aborted hp ⟨e, he⟩
  · cases hs
    cases he
  · cases hs
    rw [(w.collect_control s _ _ _).2] at he
    cases he
  · cases hs
  · cases hs

theorem bag_of_raised {s s' : PoolState ρ κ τ β η} (hs : w.step s = some s') (hr : Raised s') :
    s'.bag ≤ s.bag := by
  have h := step_aborted hs hr
  obtain ⟨e, he⟩ := hr
  rw [PoolState.bag, he]
  exact add_le_add (add_le_add h.prefillQueue (Multiset.zero_le _)) h.decodeQueue

/-- A step that fails loses one request at most and adds no result. -/
theorem Holds.of_raised {P : ρ → Prop} {s s' : PoolState ρ κ τ β η} (h : w.Holds P s)
    (hs : w.step s = some s') (hr : Raised s') : w.Holds P s' :=
  ⟨fun r hr' => h.bag r (Multiset.mem_of_le (bag_of_raised hs hr) hr'),
    (step_aborted hs hr).finalResults ▸ h.results⟩

/-- What every prefill and every decode step of a run keeps holds in every state, also in the one
in which the run failed. -/
theorem Lawful.holds_throughout (hw : w.Lawful) {P : ρ → Prop} {cache : κ} {requests : List ρ}
    (hfresh : ∀ r ∈ requests, w.finished r = false ∧ P r)
    (hpre : ∀ s i r r' c', Reaches w.step (w.start cache requests) s → s.nextPrefill = some r →
      P r → w.prefill i s.cache r = (.ok r', c') → P r')
    (hdec : ∀ s i r r' t c', Reaches w.step (w.start cache requests) s → s.nextDecode = some r →
      w.finished r = false → P r → w.decode i s.cache r = (.ok (r', t), c') → P r')
    {t : PoolState ρ κ τ β η} (ht : Reaches w.step (w.start cache requests) t) : w.Holds P t := by
  obtain h | hr := hw.holds hfresh hpre hdec ht
  · exact h
  · cases ht with
    | refl =>
      obtain ⟨e, he⟩ := hr
      cases he
    | tail hu hs =>
      have h := (hw.holds hfresh hpre hdec hu).resolve_right (not_raised_of_step hs)
      exact h.of_raised hs hr

/-- A property that some request in flight, or some request behind a result, has. -/
def Occurs (w : Workers ρ κ τ β η) (Q : ρ → Prop) (s : PoolState ρ κ τ β η) : Prop :=
  (∃ r ∈ s.bag, Q r) ∨ ∃ b ∈ s.finalResults, ∃ r traces, Q r ∧ b = w.buildResult r traces

theorem Occurs.step {Q : ρ → Prop} {s s' : PoolState ρ κ τ β η} (h : w.Occurs Q s)
    (hs : w.step s = some s')
    (hpre : ∀ {i c r r' c'}, Q r → w.prefill i c r = (.ok r', c') → Q r')
    (hdec : ∀ {i c r r' t c'}, Q r → w.decode i c r = (.ok (r', t), c') → Q r') :
    w.Occurs Q s' ∨ Raised s' := by
  have hmove : ∀ {r r' : ρ} {rest : Multiset ρ}, s.bag = r ::ₘ rest → s'.bag = r' ::ₘ rest →
      s'.finalResults = s.finalResults → (Q r → Q r') → w.Occurs Q s' := by
    intro r r' rest hb hb' hfinal hr
    cases h with
    | inl hbag =>
      obtain ⟨q, hq, hQ⟩ := hbag
      rw [hb] at hq
      cases Multiset.mem_cons.mp hq with
      | inl heq => exact Or.inl ⟨r', hb' ▸ Multiset.mem_cons_self r' rest, hr (heq ▸ hQ)⟩
      | inr hmem => exact Or.inl ⟨q, hb' ▸ Multiset.mem_cons_of_mem hmem, hQ⟩
    | inr hres => exact Or.inr (hfinal ▸ hres)
  cases w.step_effect hs with
  | silent _ bag final _ => exact Or.inl (h.imp (bag ▸ id) (final ▸ id))
  | prefilled i r r' rest _ bag run bag' final _ =>
    exact Or.inl (hmove bag bag' final fun hr => hpre hr run)
  | decoded i r r' trace rest _ bag run bag' final _ =>
    exact Or.inl (hmove bag bag' final fun hr => hdec hr run)
  | finished r traces bag _ _ final _ =>
    refine Or.inl ?_
    cases h with
    | inl hbag =>
      obtain ⟨q, hq, hQ⟩ := hbag
      rw [bag] at hq
      cases Multiset.mem_cons.mp hq with
      | inl heq =>
        refine Or.inr ⟨w.buildResult r traces, ?_, r, traces, heq ▸ hQ, rfl⟩
        rw [final]
        exact List.mem_append_right _ (List.mem_singleton.mpr rfl)
      | inr hmem => exact Or.inl ⟨q, hmem, hQ⟩
    | inr hres =>
      obtain ⟨b, hb, hrest⟩ := hres
      refine Or.inr ⟨b, ?_, hrest⟩
      rw [final]
      exact List.mem_append_left _ hb
  | failed e control _ _ => exact Or.inr ⟨e, control⟩

/-- What every prefill and every decode step keeps is not lost on the way to the results. -/
theorem Occurs.run {Q : ρ → Prop} {s t : PoolState ρ κ τ β η} (h : w.Occurs Q s)
    (ht : Reaches w.step s t)
    (hpre : ∀ {i c r r' c'}, Q r → w.prefill i c r = (.ok r', c') → Q r')
    (hdec : ∀ {i c r r' t c'}, Q r → w.decode i c r = (.ok (r', t), c') → Q r') :
    w.Occurs Q t ∨ Raised t :=
  invariant_or_raised ht h fun _ _ _ hu hs => hu.step hs hpre hdec

/-! ### The requests that have been through their prefill -/

/-- All that a step can do to the requests that have been through their prefill. -/
inductive Handled (w : Workers ρ κ τ β η) (s s' : PoolState ρ κ τ β η) : Prop
  | same (cache : s'.cache = s.cache) (prefilled : s'.prefilled = s.prefilled)
  | joined (i : Nat) (r r' : ρ) (next : s.nextPrefill = some r)
      (run : w.prefill i s.cache r = (.ok r', s'.cache))
      (prefilled : s'.prefilled = r' ::ₘ s.prefilled)
  | decoded (i : Nat) (r r' : ρ) (trace : τ) (rest : Multiset ρ) (next : s.nextDecode = some r)
      (prefilled : s.prefilled = r ::ₘ rest)
      (run : w.decode i s.cache r = (.ok (r', trace), s'.cache))
      (prefilled' : s'.prefilled = r' ::ₘ rest)
  | left (r : ρ) (bag : s.bag = r ::ₘ s'.bag) (prefilled : s.prefilled = r ::ₘ s'.prefilled)
      (cache : s'.cache = w.release s.cache (w.requestId r))
  | failed (control : Raised s')

theorem prefilled_setControl (s : PoolState ρ κ τ β η) {control : Control ρ τ β}
    (h : control.requests = s.control.requests) :
    { s with control := control }.prefilled = s.prefilled := by
  rw [PoolState.prefilled, h, PoolState.prefilled]

/-- The request of a prefill joins those that have been through theirs. -/
theorem prefilled_prefills {s : PoolState ρ κ τ β η} {completed : List ρ}
    (hc : s.control = .prefilling completed) (r' : ρ) :
    ((Control.prefilling (completed ++ [r']) : Control ρ τ β).requests : Multiset ρ) +
      (s.decodeQueue.requests : Multiset ρ) = r' ::ₘ s.prefilled := by
  simp only [PoolState.prefilled, hc, Control.requests, ← Multiset.coe_add,
    Multiset.coe_singleton]
  rw [← Multiset.singleton_add]
  abel

theorem collect_handled {s : PoolState ρ κ τ β η} {r : ρ} {trace : τ} {rest : List (ρ × τ)}
    (hc : s.control = .collecting ((r, trace) :: rest)) :
    w.Handled s (w.collect s r trace rest) := by
  have hprefilled : s.prefilled =
      r ::ₘ ((rest.map Prod.fst : Multiset ρ) + (s.decodeQueue.requests : Multiset ρ)) := by
    simp only [PoolState.prefilled, hc, Control.requests, List.map_cons, ← Multiset.cons_coe,
      Multiset.cons_add]
  simp only [collect]
  split
  · refine .left r ?_ hprefilled rfl
    rw [PoolState.bag_eq, hprefilled, Multiset.add_cons, PoolState.bag_eq]
    rfl
  · refine .same rfl ?_
    rw [hprefilled]
    simp only [PoolState.prefilled, Control.requests, RequestQueue.requests_push,
      Multiset.add_cons]

theorem step_handled {s s' : PoolState ρ κ τ β η} (h : w.step s = some s') : w.Handled s s' := by
  cases w.step_turn h with
  | returns hc _ => exact .same rfl (prefilled_setControl s (by rw [hc]; rfl))
  | begins hc _ => exact .same rfl (prefilled_setControl s (by rw [hc]; rfl))
  | prefills completed r r' queue cache hc hp _ _ hr =>
    exact .joined _ r r' (nextPrefill_of_pop hc hp) hr (prefilled_prefills hc r')
  | prefillsDone completed hc _ => exact .same rfl (prefilled_setControl s (by rw [hc]; rfl))
  | handsOver r rest hc =>
    refine .same rfl ?_
    simp only [PoolState.prefilled, hc, Control.requests, RequestQueue.requests_push,
      ← Multiset.cons_coe, Multiset.add_cons, Multiset.cons_add]
  | handoversDone hc => exact .same rfl (prefilled_setControl s (by rw [hc]; rfl))
  | decodes n stepped r r' trace queue cache hc hp _ hr =>
    refine .decoded _ r r' trace ((stepped.map Prod.fst : Multiset ρ) +
      (queue.requests : Multiset ρ)) (nextDecode_of_pop hc hp) ?_ hr ?_
    · simp only [PoolState.prefilled, hc, Control.requests, (RequestQueue.pop_some hp).1,
        ← Multiset.cons_coe, Multiset.add_cons]
    · simp only [PoolState.prefilled, Control.requests, List.map_append, List.map_cons,
        List.map_nil, ← Multiset.coe_add, Multiset.coe_singleton]
      rw [← Multiset.singleton_add]
      abel
  | decodesDone stepped hc => exact .same rfl (prefilled_setControl s (by rw [hc]; rfl))
  | collects r trace rest hc => exact collect_handled hc
  | collectsDone hc => exact .same rfl (prefilled_setControl s (by rw [hc]; rfl))
  | fails _ e hc _ _ _ => exact .failed ⟨e, hc⟩

theorem nextDecode_prefilled {s : PoolState ρ κ τ β η} {r : ρ} (h : s.nextDecode = some r) :
    r ∈ s.prefilled := by
  have hm := PoolState.mem_decodeQueue_of_nextDecode h
  exact Multiset.mem_add.mpr (Or.inr (Multiset.mem_coe.mpr hm))

end ResidentInference.Workers

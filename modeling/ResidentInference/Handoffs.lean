import ResidentInference.TraceLog
import ResidentInference.RuntimeRuns

/-! The hand-offs of the prefill round and the workers that take the first decode steps: every
hand-off names the worker whose turn it is when the round ends. -/
namespace ResidentInference
open StateTransition

namespace Workers
variable {ρ κ τ β η ω : Type}

/-- How the steps and the hand-offs of a pool name its decode workers. -/
structure Names (w : Workers ρ κ τ β η) (name : Nat → ω) (worker : τ → ω) (taker : η → ω)
    (handoffId : η → Int) : Prop where
  worker : ∀ {i c r r' t c'}, w.decode i c r = (.ok (r', t), c') → worker t = name i
  taker : ∀ i j r, taker (w.handoff i j r) = name j
  handoffId : ∀ i j r, handoffId (w.handoff i j r) = w.requestId r

variable {w : Workers ρ κ τ β η} {name : Nat → ω} {worker : τ → ω} {taker : η → ω}
  {handoffId : η → Int}

/-! ### The steps of a request -/

/-- The steps of the requests with an id, the filed ones first. -/
def ownSteps (w : Workers ρ κ τ β η) (s : PoolState ρ κ τ β η) (rid : Int) : List τ :=
  s.filed rid ++ (s.control.stepped.filter fun p => w.requestId p.1 = rid).map Prod.snd

theorem ownSteps_of_stepped {s : PoolState ρ κ τ β η} (h : s.control.stepped = []) (rid : Int) :
    w.ownSteps s rid = s.filed rid := by
  rw [ownSteps, h, List.filter_nil, List.map_nil, List.append_nil]

/-- What a turn does to the steps, to the hand-offs and to the counter of the decode workers. -/
inductive Logged (w : Workers ρ κ τ β η) (s s' : PoolState ρ κ τ β η) : Prop
  | same (steps : ∀ rid, w.ownSteps s' rid = w.ownSteps s rid) (rr : s'.decodeRr = s.decodeRr)
  | decoded (r r' : ρ) (t : τ) (next : s.nextDecode = some r) (decoders : w.numDecode ≠ 0)
      (run : w.decode (s.decodeRr % w.numDecode) s.cache r = (.ok (r', t), s'.cache))
      (steps : ∀ rid, w.ownSteps s' rid =
        w.ownSteps s rid ++ if rid = w.requestId r' then [t] else [])
      (rr : s'.decodeRr = s.decodeRr + 1)
  | failed (control : Raised s')

theorem ownSteps_collect {s : PoolState ρ κ τ β η} {r : ρ} {trace : τ} {rest : List (ρ × τ)}
    (hc : s.control = .collecting ((r, trace) :: rest)) (rid : Int) :
    w.ownSteps (w.collect s r trace rest) rid = w.ownSteps s rid := by
  rw [ownSteps, ownSteps, (w.collect_control s r trace rest).2, hc, filed_collect]
  simp only [Control.stepped]
  by_cases hrid : rid = w.requestId r
  · subst hrid
    simp
  · have hne : ¬ w.requestId r = rid := fun heq => hrid heq.symm
    simp [hrid, hne]

theorem step_logged {s s' : PoolState ρ κ τ β η} (hs : w.step s = some s') : w.Logged s s' := by
  -- a turn that files nothing and empties no round keeps the steps
  have hsame : ∀ {control : Control ρ τ β}, control.stepped = s.control.stepped → ∀ rid,
      s.filed rid ++ (control.stepped.filter fun p => w.requestId p.1 = rid).map Prod.snd =
        w.ownSteps s rid := fun h rid => by rw [h, ownSteps]
  cases w.step_turn hs with
  | returns hc _ => exact .same (hsame (by rw [hc]; rfl)) rfl
  | begins hc _ => exact .same (hsame (by rw [hc]; rfl)) rfl
  | prefills completed r r' queue cache hc _ _ _ _ =>
    have hstepped : (Control.prefilling (completed ++ [r']) : Control ρ τ β).stepped =
        s.control.stepped := by rw [hc]; rfl
    exact .same (hsame hstepped) rfl
  | prefillsDone completed hc _ => exact .same (hsame (by rw [hc]; rfl)) rfl
  | handsOver r rest hc => exact .same (hsame (by rw [hc]; rfl)) rfl
  | handoversDone hc => exact .same (hsame (by rw [hc]; rfl)) rfl
  | decodes n stepped r r' t queue cache hc hp hd hr =>
    refine .decoded r r' t (nextDecode_of_pop hc hp) hd hr (fun rid => ?_) rfl
    have hold : s.control.stepped = stepped := by rw [hc]; rfl
    rw [ownSteps, ownSteps, hold]
    simp only [Control.stepped, List.filter_append, List.map_append, List.append_assoc]
    refine congrArg (s.filed rid ++ ·) (congrArg _ ?_)
    by_cases hrid : rid = w.requestId r'
    · simp [hrid]
    · have hne : ¬ w.requestId r' = rid := fun heq => hrid heq.symm
      simp [hrid, hne]
  | decodesDone stepped hc => exact .same (hsame (by rw [hc]; rfl)) rfl
  | collects r trace rest hc =>
    refine .same (ownSteps_collect hc) ?_
    simp only [collect]
    split <;> rfl
  | collectsDone hc => exact .same (hsame (by rw [hc]; rfl)) rfl
  | fails _ e hc _ _ _ => exact .failed ⟨e, hc⟩

/-! ### The hand-offs -/

/-- Before the first decode step of a run, or with no request left to prefill. -/
def PrefillsFirst (s : PoolState ρ κ τ β η) : Prop :=
  s.prefillQueue.items = [] ∨
    s.decodeRr = 0 ∧ (s.control = .loop ∨ ∃ completed, s.control = .prefilling completed)

theorem collect_frame (s : PoolState ρ κ τ β η) (r : ρ) (trace : τ) (rest : List (ρ × τ)) :
    (w.collect s r trace rest).handoffs = s.handoffs ∧
      (w.collect s r trace rest).decodeRr = s.decodeRr := by
  simp only [collect]
  split <;> exact ⟨rfl, rfl⟩

/-- Every hand-off names the first decode worker, and every request that has been through its
prefill has one. -/
structure Announced (w : Workers ρ κ τ β η) (name : Nat → ω) (taker : η → ω)
    (handoffId : η → Int) (s : PoolState ρ κ τ β η) : Prop where
  first : PrefillsFirst s
  takers : ∀ h ∈ s.handoffs, taker h = name 0
  announced : ∀ r ∈ s.prefilled, ∃ h ∈ s.handoffs, handoffId h = w.requestId r

theorem PrefillsFirst.decodeRr_eq {s : PoolState ρ κ τ β η} {r : ρ} (h : PrefillsFirst s)
    (hnext : s.nextPrefill = some r) : s.decodeRr = 0 := by
  obtain hempty | ⟨hrr, -⟩ := h
  · unfold PoolState.nextPrefill at hnext
    split at hnext
    · rw [RequestQueue.requests, hempty] at hnext
      cases hnext
    · cases hnext
  · exact hrr

theorem PrefillsFirst.step {s s' : PoolState ρ κ τ β η} (h : PrefillsFirst s)
    (hs : w.step s = some s') : PrefillsFirst s' ∨ Raised s' := by
  have hlate : ∀ {c : Control ρ τ β}, s.control = c → c ≠ .loop →
      (∀ completed, c ≠ .prefilling completed) → s.prefillQueue.items = [] := by
    intro c hc hloop hpre
    obtain hempty | ⟨-, hcontrol | ⟨completed, hcontrol⟩⟩ := h
    · exact hempty
    · exact absurd (hc.symm.trans hcontrol) hloop
    · exact absurd (hc.symm.trans hcontrol) (hpre completed)
  cases w.step_turn hs with
  | returns _ hidle => exact Or.inl (Or.inl hidle.1)
  | begins hc _ => exact Or.inl (h.imp id fun hearly => ⟨hearly.1, Or.inr ⟨[], rfl⟩⟩)
  | prefills completed r r' queue cache hc hp _ _ _ =>
    exact Or.inl (Or.inr ⟨h.decodeRr_eq (nextPrefill_of_pop hc hp), Or.inr ⟨_, rfl⟩⟩)
  | prefillsDone completed hc hp => exact Or.inl (Or.inl (RequestQueue.pop_none hp))
  | handsOver r rest hc => exact Or.inl (Or.inl (hlate hc (by simp) (by simp)))
  | handoversDone hc => exact Or.inl (Or.inl (hlate hc (by simp) (by simp)))
  | decodes n stepped r r' t queue cache hc _ _ _ =>
    exact Or.inl (Or.inl (hlate hc (by simp) (by simp)))
  | decodesDone stepped hc => exact Or.inl (Or.inl (hlate hc (by simp) (by simp)))
  | collects r trace rest hc =>
    refine Or.inl (Or.inl ?_)
    rw [(w.collect_control s r trace rest).1]
    exact hlate hc (by simp) (by simp)
  | collectsDone hc => exact Or.inl (Or.inl (hlate hc (by simp) (by simp)))
  | fails _ e hc _ _ _ => exact Or.inr ⟨e, hc⟩

/-- A hand-off is recorded for every prefill and for nothing else. -/
theorem handoffs_step {s s' : PoolState ρ κ τ β η} (hs : w.step s = some s') :
    s.nextPrefill = none ∧ s'.handoffs = s.handoffs ∨
      (∃ i r r' cache, s.nextPrefill = some r ∧ w.prefill i s.cache r = (.ok r', cache) ∧
        s'.handoffs = s.handoffs ++ [w.handoff i (s.decodeRr % w.numDecode) r']) ∨
      Raised s' := by
  cases w.step_turn hs with
  | prefills completed r r' queue cache hc hp _ _ hr =>
    exact Or.inr (Or.inl ⟨_, r, r', cache, nextPrefill_of_pop hc hp, hr, rfl⟩)
  | prefillsDone completed hc hp =>
    refine Or.inl ⟨?_, rfl⟩
    rw [PoolState.nextPrefill, hc]
    simp [RequestQueue.requests, RequestQueue.pop_none hp]
  | collects r trace rest hc =>
    exact Or.inl ⟨by rw [PoolState.nextPrefill, hc], (collect_frame s r trace rest).1⟩
  | fails _ e hc _ _ _ => exact Or.inr (Or.inr ⟨e, hc⟩)
  | returns hc _ | begins hc _ | handsOver _ _ hc | handoversDone hc | decodes _ _ _ _ _ _ _ hc _ _ _
  | decodesDone _ hc | collectsDone hc =>
    exact Or.inl ⟨by rw [PoolState.nextPrefill, hc], rfl⟩

theorem Lawful.prefilled_step (hw : w.Lawful) {s s' : PoolState ρ κ τ β η}
    (hs : w.step s = some s') (hr : ¬ Raised s') {q : ρ} (hq : q ∈ s'.prefilled) :
    (∃ r ∈ s.prefilled, w.requestId r = w.requestId q) ∨
      ∃ r, s.nextPrefill = some r ∧ w.requestId r = w.requestId q := by
  cases step_handled hs with
  | same _ hp => exact Or.inl ⟨q, hp ▸ hq, rfl⟩
  | joined i r r' hnext hrun hp =>
    rw [hp] at hq
    obtain rfl | hq := Multiset.mem_cons.mp hq
    · exact Or.inr ⟨r, hnext, (hw.prefillId hrun).symm⟩
    · exact Or.inl ⟨q, hq, rfl⟩
  | decoded i r r' t rest _ hp hrun hp' =>
    rw [hp'] at hq
    obtain rfl | hq := Multiset.mem_cons.mp hq
    · exact Or.inl ⟨r, hp ▸ Multiset.mem_cons_self r rest, (hw.decodeId hrun).symm⟩
    · exact Or.inl ⟨q, hp ▸ Multiset.mem_cons_of_mem hq, rfl⟩
  | left r _ hp => exact Or.inl ⟨q, hp ▸ Multiset.mem_cons_of_mem hq, rfl⟩
  | failed hr' => exact absurd hr' hr

theorem Names.announced_step (hn : w.Names name worker taker handoffId) (hw : w.Lawful)
    {s s' : PoolState ρ κ τ β η} (h : Announced w name taker handoffId s)
    (hs : w.step s = some s') : Announced w name taker handoffId s' ∨ Raised s' := by
  obtain hfirst | hr := h.first.step hs
  · by_cases hr : Raised s'
    · exact Or.inr hr
    · left
      obtain ⟨hnone, hsame⟩ | ⟨i, r, r', cache, hnext, hrun, hnew⟩ | hr' := handoffs_step hs
      · refine ⟨hfirst, fun o ho => h.takers o (hsame ▸ ho), fun q hq => ?_⟩
        obtain ⟨r, hr, hid⟩ | ⟨r, hnext, -⟩ := hw.prefilled_step hs hr hq
        · rw [hsame, ← hid]
          exact h.announced r hr
        · rw [hnone] at hnext
          cases hnext
      · refine ⟨hfirst, fun o ho => ?_, fun q hq => ?_⟩
        · rw [hnew] at ho
          obtain ho | ho := List.mem_append.mp ho
          · exact h.takers o ho
          · rw [List.mem_singleton.mp ho, hn.taker, h.first.decodeRr_eq hnext, Nat.zero_mod]
        · rw [hnew]
          obtain ⟨q', hq', hid⟩ | ⟨r₀, hnext', hid⟩ := hw.prefilled_step hs hr hq
          · obtain ⟨o, ho, hoid⟩ := h.announced q' hq'
            exact ⟨o, List.mem_append_left _ ho, hoid.trans hid⟩
          · obtain rfl := Option.some.inj (hnext.symm.trans hnext')
            refine ⟨_, List.mem_append_right _ (List.mem_singleton_self _), ?_⟩
            rw [hn.handoffId, hw.prefillId hrun, hid]
      · exact absurd hr' hr
  · exact Or.inr hr

theorem announced_start (cache : κ) (requests : List ρ) :
    Announced w name taker handoffId (w.start cache requests) where
  first := Or.inr ⟨rfl, Or.inl rfl⟩
  takers h hh := absurd hh List.not_mem_nil
  announced r hr := by
    have hnone : (w.start cache requests).prefilled = 0 := rfl
    rw [hnone] at hr
    exact absurd hr (Multiset.notMem_zero r)

theorem Names.announced (hn : w.Names name worker taker handoffId) (hw : w.Lawful) {cache : κ}
    {requests : List ρ} {s : PoolState ρ κ τ β η} (hs : Reaches w.step (w.start cache requests) s) :
    Announced w name taker handoffId s ∨ Raised s :=
  invariant_or_raised hs (announced_start cache requests) fun _ _ _ h huv =>
    hn.announced_step hw h huv

/-! ### One decode worker, or one request -/

/-- The first step of every id is the first worker's: there is no other worker, or all steps are
those of the one request. -/
structure FirstByZero (w : Workers ρ κ τ β η) (name : Nat → ω) (worker : τ → ω)
    (s : PoolState ρ κ τ β η) : Prop where
  first : ∀ rid t ts, w.ownSteps s rid = t :: ts → worker t = name 0
  single : w.numDecode = 1 ∨ (w.ids s).card ≤ 1 ∧
    (s.decodeRr ≠ 0 → ∀ rid ∈ w.ids s, w.ownSteps s rid ≠ [])

theorem mem_ids_of_nextDecode {s : PoolState ρ κ τ β η} {r : ρ} (h : s.nextDecode = some r) :
    w.requestId r ∈ w.ids s := by
  refine Multiset.mem_add.mpr (Or.inl (Multiset.mem_map_of_mem w.requestId ?_))
  exact PoolState.mem_bag_of_waiting (nextDecode_waiting h)

theorem Names.firstByZero_step (hn : w.Names name worker taker handoffId) (hw : w.Lawful)
    {s s' : PoolState ρ κ τ β η} (h : FirstByZero w name worker s) (hs : w.step s = some s') :
    FirstByZero w name worker s' ∨ Raised s' := by
  obtain hids | hr := hw.ids_step hs
  · cases step_logged hs with
    | same hsteps hrr =>
      refine Or.inl ⟨fun rid t ts ht => h.first rid t ts (hsteps rid ▸ ht), ?_⟩
      refine h.single.imp id fun ⟨hcard, hall⟩ => ⟨hids ▸ hcard, fun hne rid hrid => ?_⟩
      rw [hsteps]
      exact hall (hrr ▸ hne) rid (hids ▸ hrid)
    | decoded r r' t hnext hdecoders hrun hsteps hrr =>
      have hid := hw.decodeId hrun
      have hmem : w.requestId r' ∈ w.ids s := hid ▸ mem_ids_of_nextDecode hnext
      refine Or.inl ⟨fun rid u us hu => ?_, h.single.imp id fun ⟨hcard, hall⟩ =>
        ⟨hids ▸ hcard, fun _ rid hrid => ?_⟩⟩
      · rw [hsteps] at hu
        cases hown : w.ownSteps s rid with
        | cons v vs =>
          rw [hown, List.cons_append] at hu
          obtain ⟨rfl, -⟩ := List.cons.inj hu
          exact h.first rid v vs hown
        | nil =>
          rw [hown, List.nil_append] at hu
          split at hu
          · next hrid =>
            -- the first step of the id is this one, so the worker is the first one
            obtain ⟨rfl, -⟩ := List.cons.inj hu
            rw [hn.worker hrun]
            obtain hone | ⟨-, hall⟩ := h.single
            · rw [hone, Nat.mod_one]
            · have hzero : s.decodeRr = 0 := by
                by_contra hne
                exact hall hne rid (hrid ▸ hmem) hown
              rw [hzero, Nat.zero_mod]
          · cases hu
      · have heq : rid = w.requestId r' := by
          obtain ⟨rest, hrest⟩ := Multiset.exists_cons_of_mem hmem
          have hnone : rest = 0 := by
            rw [hrest, Multiset.card_cons] at hcard
            exact Multiset.card_eq_zero.mp (by omega)
          rw [hids, hrest, hnone] at hrid
          exact Multiset.mem_singleton.mp hrid
        rw [hsteps, if_pos heq]
        exact List.append_ne_nil_of_right_ne_nil _ (List.cons_ne_nil t [])
    | failed hr => exact Or.inr hr
  · exact Or.inr hr

theorem ids_start (cache : κ) (requests : List ρ) :
    w.ids (w.start cache requests) = (requests.map w.requestId : Multiset Int) := by
  have hfinal : (w.start cache requests).finalResults = [] := rfl
  rw [ids, bag_start, hfinal, List.map_nil, Multiset.coe_nil, add_zero, Multiset.map_coe]

theorem filed_start (cache : κ) (requests : List ρ) (rid : Int) :
    (w.start cache requests).filed rid = [] := rfl

theorem firstByZero_start (cache : κ) {requests : List ρ}
    (h : w.numDecode = 1 ∨ requests.length ≤ 1) :
    FirstByZero w name worker (w.start cache requests) where
  first rid t ts ht := by
    rw [ownSteps_of_stepped rfl, filed_start] at ht
    cases ht
  single := by
    refine h.imp id fun hlen => ⟨?_, fun hne => absurd rfl hne⟩
    rw [ids_start, Multiset.coe_card, List.length_map]
    exact hlen

/-- The first filed step of every request is the taker's that its hand-off names. -/
def TakersStep (worker : τ → ω) (taker : η → ω) (handoffId : η → Int) (s : PoolState ρ κ τ β η) :
    Prop :=
  ∀ h ∈ s.handoffs, ∀ t ts, s.filed (handoffId h) = t :: ts → worker t = taker h

theorem FirstByZero.takersStep {s : PoolState ρ κ τ β η} (h : FirstByZero w name worker s)
    (ha : Announced w name taker handoffId s) : TakersStep worker taker handoffId s := by
  intro o ho t ts ht
  rw [ha.takers o ho]
  exact h.first (handoffId o) t _ (by rw [ownSteps, ht]; rfl)

theorem Names.takersStep (hn : w.Names name worker taker handoffId) (hw : w.Lawful) (cache : κ)
    {requests : List ρ} (h : w.numDecode = 1 ∨ requests.length ≤ 1) {s : PoolState ρ κ τ β η}
    (hs : Reaches w.step (w.start cache requests) s) : TakersStep worker taker handoffId s := by
  have hboth : ∀ {u}, Reaches w.step (w.start cache requests) u →
      (Announced w name taker handoffId u ∧ FirstByZero w name worker u) ∨ Raised u := by
    intro u hu
    obtain ha | hr := hn.announced hw hu
    · have hstart : FirstByZero w name worker (w.start cache requests) := firstByZero_start cache h
      have hf := invariant_or_raised hu hstart fun _ _ _ hf huv => hn.firstByZero_step hw hf huv
      exact hf.imp (fun hf => ⟨ha, hf⟩) id
    · exact Or.inr hr
  obtain ⟨ha, hf⟩ | hr := hboth hs
  · exact hf.takersStep ha
  · cases hs with
    | refl =>
      obtain ⟨e, he⟩ := hr
      cases he
    | tail hu huv =>
      -- the run failed in its last step, which filed nothing and handed nothing over
      obtain ⟨ha, hf⟩ := (hboth hu).resolve_right (not_raised_of_step huv)
      obtain ⟨htraces, hhandoffs, -⟩ := failed_step huv hr
      intro o ho t ts ht
      rw [PoolState.filed, htraces] at ht
      exact hf.takersStep ha o (hhandoffs ▸ ho) t ts ht

/-! ### Two decode workers and two requests -/

/-- The first step of a request is another worker's than its hand-off names. -/
def Contested (w : Workers ρ κ τ β η) (worker : τ → ω) (taker : η → ω) (handoffId : η → Int)
    (s : PoolState ρ κ τ β η) : Prop :=
  ∃ h ∈ s.handoffs, ∃ t ts, w.ownSteps s (handoffId h) = t :: ts ∧ worker t ≠ taker h

theorem Contested.step {s s' : PoolState ρ κ τ β η} (h : Contested w worker taker handoffId s)
    (hs : w.step s = some s') : Contested w worker taker handoffId s' ∨ Raised s' := by
  obtain ⟨o, ho, t, ts, hsteps, hne⟩ := h
  have hkept : o ∈ s'.handoffs ∨ Raised s' := by
    obtain ⟨-, hsame⟩ | ⟨i, r, r', cache, -, -, hnew⟩ | hr := handoffs_step hs
    · exact Or.inl (hsame ▸ ho)
    · exact Or.inl (hnew ▸ List.mem_append_left _ ho)
    · exact Or.inr hr
  refine hkept.elim (fun ho' => ?_) Or.inr
  cases step_logged hs with
  | same hsame _ => exact Or.inl ⟨o, ho', t, ts, (hsame _).trans hsteps, hne⟩
  | decoded r r' u _ _ _ hnew _ =>
    refine Or.inl ⟨o, ho', t, ts ++ if handoffId o = w.requestId r' then [u] else [], ?_, hne⟩
    rw [hnew, hsteps, List.cons_append]
  | failed hr => exact Or.inr hr

/-- Where the loop stands before its first decode step, with at least two steps to take. -/
def Opens : Control ρ τ β → Prop
  | .loop | .prefilling _ | .handingOver _ | .decoding (_+2) [] => True
  | _ => False

/-- Before the second decode step. -/
inductive Opening (w : Workers ρ κ τ β η) (s : PoolState ρ κ τ β η) : Prop
  | waits (rr : s.decodeRr = 0) (filed : ∀ rid, s.filed rid = []) (final : s.finalResults = [])
      (ids : 2 ≤ (w.ids s).card) (control : Opens s.control)
  | turned (n : Nat) (r : ρ) (t : τ) (rr : s.decodeRr = 1) (filed : ∀ rid, s.filed rid = [])
      (control : s.control = .decoding (n+1) [(r, t)])

theorem card_ids (s : PoolState ρ κ τ β η) : (w.ids s).card =
    s.prefillQueue.items.length + s.control.requests.length + s.decodeQueue.items.length +
      s.finalResults.length := by
  simp only [ids, PoolState.bag, RequestQueue.requests, Multiset.card_add, Multiset.card_map,
    Multiset.coe_card, List.length_map]

/-- The second decode step takes a request whose hand-off names the first worker. -/
theorem Names.contested (hn : w.Names name worker taker handoffId) (hw : w.Lawful)
    (hname : name 0 ≠ name 1) (htwo : 2 ≤ w.numDecode) {s : PoolState ρ κ τ β η}
    (ha : Announced w name taker handoffId s) (hd : (w.ids s).Nodup) (hrr : s.decodeRr = 1)
    (hfiled : ∀ rid, s.filed rid = []) {n : Nat} {r q q' : ρ} {t u : τ} {queue : RequestQueue ρ}
    {cache : κ} (hc : s.control = .decoding (n+1) [(r, t)])
    (hp : s.decodeQueue.pop = some (q, queue))
    (hrun : w.decode (s.decodeRr % w.numDecode) s.cache q = (.ok (q', u), cache)) :
    Contested w worker taker handoffId
      { s with
        cache := cache
        decodeQueue := queue
        decodeRr := s.decodeRr + 1
        control := .decoding n ([(r, t)] ++ [(q', u)]) } := by
  have hbag : s.bag = q ::ₘ (s.prefillQueue.requests + ([r] : Multiset ρ) + queue.requests) := by
    simp only [PoolState.bag, hc, Control.requests, (RequestQueue.pop_some hp).1,
      ← Multiset.cons_coe, Multiset.add_cons, List.map_cons, List.map_nil]
  have hne : w.requestId r ≠ w.requestId q :=
    (ids_apart hd hbag).1 r (by simp)
  have hid := hw.decodeId hrun
  obtain ⟨o, ho, hoid⟩ := ha.announced q (nextDecode_prefilled (nextDecode_of_pop hc hp))
  refine ⟨o, ho, u, [], ?_, ?_⟩
  · have hfiled' := hfiled (w.requestId q)
    rw [hoid, ownSteps]
    refine (congrArg (· ++ _) hfiled').trans ?_
    simp [Control.stepped, hne, hid]
  · rw [ha.takers o ho, hn.worker hrun, hrr, Nat.mod_eq_of_lt (by omega)]
    exact hname.symm

theorem Names.opening_step (hn : w.Names name worker taker handoffId) (hw : w.Lawful)
    (hname : name 0 ≠ name 1) (htwo : 2 ≤ w.numDecode) {s s' : PoolState ρ κ τ β η}
    (ha : Announced w name taker handoffId s) (hd : (w.ids s).Nodup) (h : Opening w s)
    (hs : w.step s = some s') :
    Opening w s' ∨ Contested w worker taker handoffId s' ∨ Raised s' := by
  obtain hids | hr := hw.ids_step hs
  · cases h with
    | waits hrr hfiled hfinal hcard hopens =>
      have hcard' : 2 ≤ (w.ids s').card := hids ▸ hcard
      cases w.step_turn hs with
      | returns hc hidle =>
        rw [card_ids, hc, hidle.1, hidle.2, hfinal] at hcard
        simp [Control.requests] at hcard
      | begins _ _ => exact Or.inl (.waits hrr hfiled hfinal hcard' trivial)
      | prefills _ _ _ _ _ _ _ _ _ _ => exact Or.inl (.waits hrr hfiled hfinal hcard' trivial)
      | prefillsDone _ _ _ => exact Or.inl (.waits hrr hfiled hfinal hcard' trivial)
      | handsOver _ _ _ => exact Or.inl (.waits hrr hfiled hfinal hcard' trivial)
      | handoversDone hc =>
        -- every request is in the decode queue, so the round has two steps or more
        have hempty : s.prefillQueue.items = [] := by
          obtain hempty | ⟨-, hloop | ⟨completed, hpre⟩⟩ := ha.first
          · exact hempty
          · cases hc.symm.trans hloop
          · cases hc.symm.trans hpre
        rw [card_ids, hc, hempty, hfinal] at hcard
        simp only [Control.requests, List.length_nil] at hcard
        obtain ⟨k, hk⟩ : ∃ k, min s.decodeQueue.items.length (max 1 w.numDecode) = k + 2 :=
          ⟨min s.decodeQueue.items.length (max 1 w.numDecode) - 2, by omega⟩
        refine Or.inl (.waits hrr hfiled hfinal hcard' ?_)
        rw [hk]
        trivial
      | decodes n stepped r r' t queue cache hc _ _ _ =>
        rw [hc] at hopens
        cases n with
        | zero => cases stepped <;> exact hopens.elim
        | succ n =>
          cases stepped with
          | nil => exact Or.inl (.turned n r' t (congrArg (· + 1) hrr) hfiled rfl)
          | cons p stepped => exact hopens.elim
      | decodesDone stepped hc =>
        rw [hc] at hopens
        cases stepped <;> exact hopens.elim
      | collects r trace rest hc =>
        rw [hc] at hopens
        exact hopens.elim
      | collectsDone hc =>
        rw [hc] at hopens
        exact hopens.elim
      | fails _ e hc _ _ _ => exact Or.inr (Or.inr ⟨e, hc⟩)
    | turned n r t hrr hfiled hcontrol =>
      cases w.step_turn hs with
      | decodes n' stepped q q' u queue cache hc hp _ hrun =>
        cases hcontrol.symm.trans hc
        exact Or.inr (Or.inl (hn.contested hw hname htwo ha hd hrr hfiled hcontrol hp hrun))
      | fails _ e hc _ _ _ => exact Or.inr (Or.inr ⟨e, hc⟩)
      | returns hc _ | begins hc _ | prefills _ _ _ _ _ hc _ _ _ _ | prefillsDone _ hc _
      | handsOver _ _ hc | handoversDone hc | decodesDone _ hc | collects _ _ _ hc
      | collectsDone hc => cases hcontrol.symm.trans hc
  · exact Or.inr (Or.inr hr)

/-- With two decode workers and two requests a run that returns has a hand-off that names the
wrong worker. -/
theorem Names.not_takersStep (hn : w.Names name worker taker handoffId) (hw : w.Lawful)
    (hname : name 0 ≠ name 1) (htwo : 2 ≤ w.numDecode) (cache : κ) {requests : List ρ}
    (hd : (requests.map w.requestId).Nodup) (hlen : 2 ≤ requests.length) {s : PoolState ρ κ τ β η}
    (hs : Reaches w.step (w.start cache requests) s) {results : List β}
    (hr : s.control = .returned results) : ¬ TakersStep worker taker handoffId s := by
  have hcard : 2 ≤ (w.ids (w.start cache requests)).card := by
    rw [ids_start, Multiset.coe_card, List.length_map]
    exact hlen
  have hstart : Opening w (w.start cache requests) ∨
      Contested w worker taker handoffId (w.start cache requests) :=
    Or.inl (.waits rfl (filed_start cache requests) rfl hcard trivial)
  have hnd : (w.ids (w.start cache requests)).Nodup := by
    rw [ids_start]
    exact hd
  have hend : (Opening w s ∨ Contested w worker taker handoffId s) ∨ Raised s := by
    refine invariant_or_raised (Q := fun u => Opening w u ∨ Contested w worker taker handoffId u)
      hs hstart fun u v hu hQ huv => ?_
    obtain hopening | hcontested := hQ
    · have ha := (hn.announced hw hu).resolve_right (not_raised_of_step huv)
      have hids : (w.ids u).Nodup :=
        Runs.invariant (P := fun u => (w.ids u).Nodup) hu hnd fun _ _ _ h => hw.ids_nodup_step h
      rw [or_assoc]
      exact hn.opening_step hw hname htwo ha hids hopening huv
    · exact (hcontested.step huv).imp Or.inr id
  obtain (hopening | ⟨o, ho, t, ts, hsteps, hne⟩) | ⟨e, he⟩ := hend
  · cases hopening with
    | waits _ _ _ _ hopens =>
      rw [hr] at hopens
      exact hopens.elim
    | turned n r t _ _ hc => cases hr.symm.trans hc
  · intro htakers
    rw [ownSteps_of_stepped (by rw [hr]; rfl)] at hsteps
    exact hne (htakers o ho t ts hsteps)
  · cases hr.symm.trans he

end Workers

/-! ### The runtime -/

namespace PersistentDecodeRuntime

theorem workers_names (rt : PersistentDecodeRuntime) :
    rt.workers.Names WorkerId.decode DecodeStepTrace.workerId WorkerHandoff.decodeWorkerId
      WorkerHandoff.requestId where
  worker h := by
    obtain ⟨spec, -, -, htrace, -⟩ := decode_tokens h
    exact congrArg TokenTrace.workerId htrace
  taker _ _ _ := rfl
  handoffId _ _ _ := rfl

/-- Every hand-off names the worker of the first trace of its request. -/
def HandoffsNameTakers (s : RuntimeState) : Prop :=
  ∀ h ∈ s.handoffs, ∀ t ts, s.filed h.requestId = t :: ts → t.workerId = h.decodeWorkerId

/-- With one decode worker or one request the hand-offs name the takers throughout a run, and in
every other run that returns they do not. -/
theorem handoffsNameTakers_iff (rt : PersistentDecodeRuntime) {requests : List RequestState}
    (hfresh : FreshRequests requests) (hdec : 1 ≤ rt.config.numDecodeWorkers) :
    (rt.config.numDecodeWorkers = 1 ∨ requests.length ≤ 1 →
      ∀ s, Reaches rt.workers.step (rt.start requests) s → HandoffsNameTakers s) ∧
    ∀ s ∈ rt.run requests, ∀ results, s.control = .returned results →
      (HandoffsNameTakers s ↔ rt.config.numDecodeWorkers = 1 ∨ requests.length ≤ 1) := by
  have hsub : rt.config.numDecodeWorkers = 1 ∨ requests.length ≤ 1 →
      ∀ s, Reaches rt.workers.step (rt.start requests) s → HandoffsNameTakers s := by
    intro h s hs
    refine rt.workers_names.takersStep rt.workers_lawful _ (h.imp id fun hlen => ?_) hs
    rw [List.length_map]
    exact hlen
  refine ⟨hsub, fun s hs results hr => ⟨fun htakers => ?_, fun h => ?_⟩⟩
  · by_contra hnot
    obtain ⟨hone, hlen⟩ := not_or.mp hnot
    have htwo : 2 ≤ rt.workers.numDecode := Nat.lt_of_le_of_ne hdec (Ne.symm hone)
    have hdistinct : ((requests.map rt.submit).map rt.workers.requestId).Nodup := by
      rw [rt.submit_ids]
      exact hfresh.distinct
    have hlen' : 2 ≤ (requests.map rt.submit).length := by
      rw [List.length_map]
      omega
    exact rt.workers_names.not_takersStep rt.workers_lawful (by decide) htwo _ hdistinct hlen'
      (mem_eval.mp hs).1 hr htakers
  · exact hsub h s (mem_eval.mp hs).1

/-- Two requests on one decode worker. -/
theorem handoffsNameTakers_iff_one_worker :
    let rt : PersistentDecodeRuntime := { config := {} }
    let requests : List RequestState := [.ask 1 [5] [7], .ask 2 [5] [8]]
    let s : RuntimeState := Runs.runFor rt.workers.step 19 (rt.start requests)
    s.control.returned?.isSome = true ∧ s.handoffs.length = 2 ∧ HandoffsNameTakers s := by
  intro rt requests s
  have hfresh : FreshRequests requests := by decide
  refine ⟨by decide +kernel, by decide +kernel, ?_⟩
  exact (rt.handoffsNameTakers_iff hfresh le_rfl).1 (Or.inl rfl) s
    (Runs.reaches_runFor rt.workers.step 19 _)

/-- Two requests on two decode workers: the second worker decodes a request that was handed to
the first one. -/
theorem handoff_names_other_worker :
    let rt : PersistentDecodeRuntime := { config := { numDecodeWorkers := 2 } }
    let requests : List RequestState := [.ask 1 [5] [7], .ask 2 [5] [8]]
    let s : RuntimeState := Runs.runFor rt.workers.step 14 (rt.start requests)
    FreshRequests requests ∧ s ∈ rt.run requests ∧ s.control.returned?.isSome = true ∧
      (s.handoffs.map fun h => (h.requestId, h.decodeWorkerId)) =
        [(1, .decode 0), (2, .decode 0)] ∧
      (s.filed 2).map DecodeStepTrace.workerId = [.decode 1] ∧ ¬ HandoffsNameTakers s := by
  intro rt requests s
  have hstop : (rt.workers.step s).isNone = true := by decide +kernel
  have hhandoffs : (s.handoffs.map fun h => (h.requestId, h.decodeWorkerId)) =
      [(1, .decode 0), (2, .decode 0)] := by decide +kernel
  have hfiled : (s.filed 2).map DecodeStepTrace.workerId = [.decode 1] := by decide +kernel
  refine ⟨by decide, Runs.mem_eval_runFor (Option.isNone_iff_eq_none.mp hstop),
    by decide +kernel, hhandoffs, hfiled, fun htakers => ?_⟩
  have hmem : ((2 : Int), WorkerId.decode 0) ∈
      s.handoffs.map fun h => (h.requestId, h.decodeWorkerId) := by
    rw [hhandoffs]
    decide
  obtain ⟨h, hh, heq⟩ := List.mem_map.mp hmem
  obtain ⟨hid, htaker⟩ := Prod.mk.inj heq
  obtain ⟨t, ts, hts, ht, -⟩ := List.map_eq_cons_iff.mp hfiled
  have hnames := htakers h hh t ts (hid ▸ hts)
  rw [ht, htaker] at hnames
  exact absurd hnames (by decide)

end PersistentDecodeRuntime
end ResidentInference

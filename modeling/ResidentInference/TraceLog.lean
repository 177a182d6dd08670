import ResidentInference.SchedulerResults

/-! The traces that the loop files under the ids of the requests: what was filed under an id since
its request was enqueued are the steps of that request. -/
namespace ResidentInference
variable {ρ κ τ β η α : Type}

/-- The requests of a decode round with their traces, which are not filed yet. -/
def Control.stepped : Control ρ τ β → List (ρ × τ)
  | .decoding _ stepped => stepped
  | .collecting stepped => stepped
  | _ => []

namespace PoolState

/-- The traces under an id. -/
def filed (s : PoolState ρ κ τ β η) (rid : Int) : List τ := (s.traces.get? rid).getD []

theorem bag_eq_waiting (s : PoolState ρ κ τ β η) :
    s.bag = s.waiting + (s.control.stepped.map Prod.fst : Multiset ρ) := by
  unfold bag waiting
  cases s.control with
  | decoding n stepped =>
    simp only [Control.requests, Control.waiting, Control.stepped, Multiset.coe_nil]
    abel
  | collecting stepped =>
    simp only [Control.requests, Control.waiting, Control.stepped, Multiset.coe_nil]
    abel
  | _ => simp [Control.requests, Control.waiting, Control.stepped]

end PoolState

namespace Workers
variable {w : Workers ρ κ τ β η}

/-- A step that fails files nothing and may lose requests in hand. -/
theorem failed_step {s s' : PoolState ρ κ τ β η} (hs : w.step s = some s') (hr : Raised s') :
    s'.traces = s.traces ∧ s'.handoffs = s.handoffs ∧ s'.waiting ≤ s.waiting := by
  have h := step_aborted hs hr
  obtain ⟨e, he⟩ := hr
  refine ⟨h.traces, h.handoffs, ?_⟩
  rw [PoolState.waiting, he]
  exact add_le_add (add_le_add h.prefillQueue (Multiset.zero_le _)) h.decodeQueue

/-! ### The steps of a request -/

/-- A prefill leaves the tokens of its request, a decode step appends the accepted ones. -/
structure Appends (w : Workers ρ κ τ β η) (tokens : ρ → List α) (accepted : τ → List α) :
    Prop where
  prefill : ∀ {i c r r' c'}, w.prefill i c r = (.ok r', c') → tokens r' = tokens r
  decode : ∀ {i c r r' t c'}, w.decode i c r = (.ok (r', t), c') →
    tokens r' = tokens r ++ accepted t

/-- What is filed under the id are the traces in `kept` and then steps that accepted `toks`. -/
def FiledSince (kept : Int → List τ) (accepted : τ → List α) (s : PoolState ρ κ τ β η) (rid : Int)
    (toks : List α) : Prop :=
  ∃ own, s.filed rid = kept rid ++ own ∧ own.flatMap accepted = toks

/-- The request behind a result: the result was built from what is filed under its id. -/
def ResultOf (w : Workers ρ κ τ β η) (tokens : ρ → List α) (accepted : τ → List α)
    (kept : Int → List τ) (s : PoolState ρ κ τ β η) (b : β) : Prop :=
  ∃ r own, own ≠ [] ∧ s.filed (w.requestId r) = kept (w.requestId r) ++ own ∧
    own.flatMap accepted = tokens r ∧ b = w.buildResult r (s.filed (w.requestId r))

/-- Every request has its own steps filed behind `kept`, up to the one that is in hand. -/
structure Recorded (w : Workers ρ κ τ β η) (tokens : ρ → List α) (accepted : τ → List α)
    (kept : Int → List τ) (s : PoolState ρ κ τ β η) : Prop where
  distinct : (w.ids s).Nodup
  waiting : ∀ r ∈ s.waiting, FiledSince kept accepted s (w.requestId r) (tokens r)
  stepped : ∀ p ∈ s.control.stepped, ∃ toks, FiledSince kept accepted s (w.requestId p.1) toks ∧
    toks ++ accepted p.2 = tokens p.1
  results : ∀ b ∈ s.finalResults, ResultOf w tokens accepted kept s b

variable {tokens : ρ → List α} {accepted : τ → List α} {kept : Int → List τ}

/-- A request in flight shares its id with no other request and with no result. -/
theorem ids_apart {s : PoolState ρ κ τ β η} (h : (w.ids s).Nodup) {r : ρ} {rest : Multiset ρ}
    (hb : s.bag = r ::ₘ rest) : (∀ q ∈ rest, w.requestId q ≠ w.requestId r) ∧
      ∀ b ∈ s.finalResults, w.resultId b ≠ w.requestId r := by
  rw [ids, hb, Multiset.map_cons, Multiset.cons_add, Multiset.nodup_cons, Multiset.mem_add,
    not_or] at h
  refine ⟨fun q hq heq => h.1.1 ?_, fun b hb heq => h.1.2 ?_⟩
  · exact heq ▸ Multiset.mem_map_of_mem w.requestId hq
  · exact heq ▸ Multiset.mem_coe.mpr (List.mem_map_of_mem hb)

theorem Lawful.ids_nodup_step (hw : w.Lawful) {s s' : PoolState ρ κ τ β η} (h : (w.ids s).Nodup)
    (hs : w.step s = some s') : (w.ids s').Nodup := by
  obtain heq | hr := hw.ids_step hs
  · exact heq ▸ h
  · refine Multiset.nodup_of_le ?_ h
    rw [ids, ids, (step_aborted hs hr).finalResults]
    exact add_le_add (Multiset.map_le_map (bag_of_raised hs hr)) le_rfl

/-- Where nothing is filed, only the requests and their places have to be accounted for. -/
theorem Recorded.of_same {s s' : PoolState ρ κ τ β η} (h : Recorded w tokens accepted kept s)
    (hd : (w.ids s').Nodup) (ht : s'.traces = s.traces) (hf : s'.finalResults = s.finalResults)
    (hw : ∀ r' ∈ s'.waiting, ∃ r ∈ s.waiting, w.requestId r' = w.requestId r ∧
      tokens r' = tokens r)
    (hst : ∀ p ∈ s'.control.stepped, p ∈ s.control.stepped ∨
      ∃ r ∈ s.waiting, w.requestId p.1 = w.requestId r ∧ tokens p.1 = tokens r ++ accepted p.2) :
    Recorded w tokens accepted kept s' := by
  have hfiled : ∀ rid, s'.filed rid = s.filed rid := fun rid => by
    rw [PoolState.filed, PoolState.filed, ht]
  have hsince : ∀ rid toks, FiledSince kept accepted s rid toks →
      FiledSince kept accepted s' rid toks := by
    rintro rid toks ⟨own, hown, htoks⟩
    exact ⟨own, (hfiled rid).trans hown, htoks⟩
  refine ⟨hd, fun r' hr' => ?_, fun p hp => ?_, fun b hb => ?_⟩
  · obtain ⟨r, hr, hid, htok⟩ := hw r' hr'
    rw [hid, htok]
    exact hsince _ _ (h.waiting r hr)
  · obtain hold | ⟨r, hr, hid, htok⟩ := hst p hp
    · obtain ⟨toks, hfs, heq⟩ := h.stepped p hold
      exact ⟨toks, hsince _ _ hfs, heq⟩
    · rw [hid]
      exact ⟨tokens r, hsince _ _ (h.waiting r hr), htok.symm⟩
  · obtain ⟨r, own, hne, hown, htoks, hbuild⟩ := h.results b (hf ▸ hb)
    refine ⟨r, own, hne, (hfiled _).trans hown, htoks, ?_⟩
    rw [hfiled]
    exact hbuild

theorem Recorded.setControl {s : PoolState ρ κ τ β η} (h : Recorded w tokens accepted kept s)
    {control : Control ρ τ β} (hd : (w.ids { s with control := control }).Nodup)
    (hwaiting : control.waiting = s.control.waiting)
    (hstepped : control.stepped ⊆ s.control.stepped) :
    Recorded w tokens accepted kept { s with control := control } :=
  h.of_same hd rfl rfl (fun r hr => ⟨r, waiting_setControl s hwaiting ▸ hr, rfl, rfl⟩)
    fun _ hp => Or.inl (hstepped hp)

/-- A collected trace is filed behind the earlier ones of its request. -/
theorem filed_collect (s : PoolState ρ κ τ β η) (r : ρ) (trace : τ) (rest : List (ρ × τ))
    (rid : Int) : (w.collect s r trace rest).filed rid =
      if rid = w.requestId r then s.filed (w.requestId r) ++ [trace] else s.filed rid := by
  have htraces : (w.collect s r trace rest).traces =
      s.traces.set (w.requestId r) (s.filed (w.requestId r) ++ [trace]) := by
    simp only [Workers.collect]
    split <;> rfl
  rw [PoolState.filed, htraces, Dict.get?_set]
  split <;> rfl

theorem mem_waiting_collect {s : PoolState ρ κ τ β η} {r q : ρ} {trace : τ} {rest : List (ρ × τ)}
    (hc : s.control = .collecting ((r, trace) :: rest))
    (hq : q ∈ (w.collect s r trace rest).waiting) : q = r ∨ q ∈ s.waiting := by
  unfold Workers.collect at hq
  dsimp only at hq
  split at hq
  · simp only [PoolState.waiting, hc, Control.waiting] at hq ⊢
    exact Or.inr hq
  · simp only [PoolState.waiting, hc, Control.waiting, RequestQueue.requests_push,
      Multiset.add_cons, Multiset.mem_cons] at hq ⊢
    exact hq

theorem mem_finalResults_collect {s : PoolState ρ κ τ β η} {r : ρ} {trace : τ}
    {rest : List (ρ × τ)} {b : β} (hb : b ∈ (w.collect s r trace rest).finalResults) :
    b ∈ s.finalResults ∨
      b = w.buildResult r ((w.collect s r trace rest).filed (w.requestId r)) := by
  unfold Workers.collect at hb ⊢
  dsimp only at hb ⊢
  split at hb
  · next hf =>
    rw [if_pos hf]
    rw [List.mem_append, List.mem_singleton] at hb
    exact hb
  · exact Or.inl hb

theorem Recorded.collect (hw : w.Lawful) {s : PoolState ρ κ τ β η} {r : ρ} {trace : τ}
    {rest : List (ρ × τ)} (h : Recorded w tokens accepted kept s)
    (hc : s.control = .collecting ((r, trace) :: rest))
    (hd : (w.ids (w.collect s r trace rest)).Nodup) :
    Recorded w tokens accepted kept (w.collect s r trace rest) := by
  have hbag : s.bag = r ::ₘ (s.waiting + (rest.map Prod.fst : Multiset ρ)) := by
    rw [PoolState.bag_eq_waiting, hc]
    simp only [Control.stepped, List.map_cons, ← Multiset.cons_coe, Multiset.add_cons]
  obtain ⟨hothers, hresults⟩ := ids_apart h.distinct hbag
  obtain ⟨toks, ⟨own, hown, htoks⟩, hnow⟩ := h.stepped (r, trace) (by
    rw [hc]
    exact List.mem_cons_self)
  have hother : ∀ rid toks, rid ≠ w.requestId r → FiledSince kept accepted s rid toks →
      FiledSince kept accepted (w.collect s r trace rest) rid toks := by
    rintro rid toks hne ⟨own, hown, htoks⟩
    refine ⟨own, ?_, htoks⟩
    rw [filed_collect, if_neg hne]
    exact hown
  -- the trace of the request is filed behind its earlier ones
  have hself : (w.collect s r trace rest).filed (w.requestId r) =
      kept (w.requestId r) ++ (own ++ [trace]) := by
    rw [filed_collect, if_pos rfl, hown, List.append_assoc]
  have hselfToks : (own ++ [trace]).flatMap accepted = tokens r := by
    rw [List.flatMap_append, htoks, List.flatMap_singleton]
    exact hnow
  have hold : ∀ b ∈ s.finalResults,
      ResultOf w tokens accepted kept (w.collect s r trace rest) b := by
    intro b hb
    obtain ⟨q, own, hne, hown, htoks, hbuild⟩ := h.results b hb
    have hid : w.requestId q ≠ w.requestId r := by
      have hne' := hresults b hb
      rwa [hbuild, hw.resultId] at hne'
    refine ⟨q, own, hne, ?_, htoks, ?_⟩
    · rw [filed_collect, if_neg hid]
      exact hown
    · rw [filed_collect, if_neg hid]
      exact hbuild
  have hstepped : ∀ p ∈ (w.collect s r trace rest).control.stepped, ∃ toks,
      FiledSince kept accepted (w.collect s r trace rest) (w.requestId p.1) toks ∧
        toks ++ accepted p.2 = tokens p.1 := by
    intro p hp
    rw [(w.collect_control s r trace rest).2] at hp
    obtain ⟨toks, hfs, heq⟩ := h.stepped p (by
      rw [hc]
      exact List.mem_cons_of_mem _ hp)
    have hne : w.requestId p.1 ≠ w.requestId r := by
      refine hothers p.1 (Multiset.mem_add.mpr (Or.inr ?_))
      exact Multiset.mem_coe.mpr (List.mem_map_of_mem hp)
    exact ⟨toks, hother _ _ hne hfs, heq⟩
  refine ⟨hd, fun q hq => ?_, hstepped, fun b hb => ?_⟩
  · obtain rfl | hq := mem_waiting_collect hc hq
    · exact ⟨own ++ [trace], hself, hselfToks⟩
    · exact hother _ _ (hothers q (Multiset.mem_add.mpr (Or.inl hq))) (h.waiting q hq)
  · obtain hb | hb := mem_finalResults_collect hb
    · exact hold b hb
    · exact ⟨r, own ++ [trace], by simp, hself, hselfToks, hb⟩

theorem Recorded.step (hw : w.Lawful) (ha : w.Appends tokens accepted)
    {s s' : PoolState ρ κ τ β η} (h : Recorded w tokens accepted kept s)
    (hs : w.step s = some s') : Recorded w tokens accepted kept s' := by
  have hd := hw.ids_nodup_step h.distinct hs
  cases w.step_turn hs with
  | returns hc _ => exact h.setControl hd (by rw [hc]; rfl) (List.nil_subset _)
  | begins hc _ => exact h.setControl hd (by rw [hc]; rfl) (List.nil_subset _)
  | prefills completed r r' queue cache hc hp _ _ hr =>
    have hreq := (RequestQueue.pop_some hp).1
    refine h.of_same hd rfl rfl (fun q hq => ?_) (fun p hp => absurd hp List.not_mem_nil)
    have hin : ∀ q, q = r ∨ q ∈ queue.requests ∨ q ∈ completed ∨ q ∈ s.decodeQueue.requests →
        q ∈ s.waiting := by
      intro q hq
      simp only [PoolState.waiting, hc, Control.waiting, hreq, Multiset.mem_add, Multiset.mem_coe,
        List.mem_cons]
      tauto
    simp only [PoolState.waiting, Control.waiting, Multiset.mem_add, Multiset.mem_coe,
      List.mem_append, List.mem_singleton] at hq
    obtain (hq | hq | rfl) | hq := hq
    · exact ⟨q, hin q (by tauto), rfl, rfl⟩
    · exact ⟨q, hin q (by tauto), rfl, rfl⟩
    · exact ⟨r, hin r (Or.inl rfl), hw.prefillId hr, ha.prefill hr⟩
    · exact ⟨q, hin q (by tauto), rfl, rfl⟩
  | prefillsDone completed hc _ => exact h.setControl hd (by rw [hc]; rfl) (List.nil_subset _)
  | handsOver r rest hc =>
    refine h.of_same hd rfl rfl (fun q hq => ⟨q, ?_, rfl, rfl⟩)
      (fun p hp => absurd hp List.not_mem_nil)
    simp only [PoolState.waiting, Control.waiting, RequestQueue.requests_push, Multiset.add_cons,
      Multiset.mem_cons, Multiset.mem_add, Multiset.mem_coe] at hq
    simp only [PoolState.waiting, hc, Control.waiting, Multiset.mem_add, Multiset.mem_coe,
      List.mem_cons]
    tauto
  | handoversDone hc => exact h.setControl hd (by rw [hc]; rfl) (List.nil_subset _)
  | decodes n stepped r r' trace queue cache hc hp _ hr =>
    have hreq := (RequestQueue.pop_some hp).1
    have hin : ∀ q, q = r ∨ q ∈ s.prefillQueue.requests ∨ q ∈ queue.requests →
        q ∈ s.waiting := by
      intro q hq
      simp only [PoolState.waiting, hc, Control.waiting, hreq, Multiset.mem_add, Multiset.mem_coe,
        List.mem_cons]
      tauto
    refine h.of_same hd rfl rfl (fun q hq => ⟨q, hin q ?_, rfl, rfl⟩) (fun p hp => ?_)
    · simp only [PoolState.waiting, Control.waiting, Multiset.mem_add, Multiset.mem_coe,
        List.not_mem_nil, or_false] at hq
      exact Or.inr hq
    · cases List.mem_append.mp hp with
      | inl hold =>
        rw [hc]
        exact Or.inl hold
      | inr hnew =>
        obtain rfl := List.mem_singleton.mp hnew
        exact Or.inr ⟨r, hin r (Or.inl rfl), hw.decodeId hr, ha.decode hr⟩
  | decodesDone stepped hc =>
    refine h.setControl hd (by rw [hc]; rfl) fun p hp => ?_
    rw [hc]
    exact hp
  | collects r trace rest hc => exact h.collect hw hc hd
  | collectsDone hc => exact h.setControl hd (by rw [hc]; rfl) (List.nil_subset _)
  | fails _ e hc _ _ _ =>
    obtain ⟨htraces, -, hle⟩ := failed_step hs ⟨e, hc⟩
    refine h.of_same hd htraces (step_aborted hs ⟨e, hc⟩).finalResults
      (fun r hr => ⟨r, Multiset.mem_of_le hle hr, rfl, rfl⟩) (fun p hp => ?_)
    rw [hc] at hp
    exact absurd hp List.not_mem_nil

open StateTransition in
theorem Recorded.run (hw : w.Lawful) (ha : w.Appends tokens accepted)
    {s t : PoolState ρ κ τ β η} (h : Recorded w tokens accepted kept s)
    (ht : Reaches w.step s t) : Recorded w tokens accepted kept t :=
  Runs.invariant ht h fun _ _ _ hu hs => hu.step hw ha hs

/-! ### Between two runs -/

/-- A request joins the prefill queue. -/
def enqueue (w : Workers ρ κ τ β η) (s : PoolState ρ κ τ β η) (r : ρ) : PoolState ρ κ τ β η :=
  { s with prefillQueue := s.prefillQueue.push (w.priority r) r }

/-- What a run leaves behind when it ends: its list of results was its own. -/
def rest (s : PoolState ρ κ τ β η) : PoolState ρ κ τ β η :=
  { s with finalResults := [], control := .loop }

theorem waiting_enqueue (s : PoolState ρ κ τ β η) (r : ρ) :
    (w.enqueue s r).waiting = r ::ₘ s.waiting := by
  simp only [enqueue, PoolState.waiting, RequestQueue.requests_push, Multiset.cons_add]

theorem bag_enqueue (s : PoolState ρ κ τ β η) (r : ρ) :
    (w.enqueue s r).bag = r ::ₘ s.bag := by
  simp only [enqueue, PoolState.bag, RequestQueue.requests_push, Multiset.cons_add]

/-- A request without tokens starts from what is filed under its id. -/
theorem Recorded.enqueue {s : PoolState ρ κ τ β η} (h : Recorded w tokens accepted kept s) {r : ρ}
    (hr : tokens r = []) (hid : ∀ q ∈ s.bag, w.requestId q ≠ w.requestId r)
    (hfinal : s.finalResults = []) :
    Recorded w tokens accepted
      (Function.update kept (w.requestId r) (s.filed (w.requestId r))) (w.enqueue s r) := by
  have hother : ∀ q ∈ s.bag, ∀ toks, FiledSince kept accepted s (w.requestId q) toks →
      FiledSince (Function.update kept (w.requestId r) (s.filed (w.requestId r))) accepted
        (w.enqueue s r) (w.requestId q) toks := by
    rintro q hq toks ⟨own, hown, htoks⟩
    refine ⟨own, ?_, htoks⟩
    rw [Function.update_of_ne (hid q hq)]
    exact hown
  refine ⟨?_, fun q hq => ?_, fun p hp => ?_, fun b hb => ?_⟩
  · have hd := h.distinct
    rw [ids, hfinal, List.map_nil, Multiset.coe_nil, add_zero] at hd
    have hfinal' : (w.enqueue s r).finalResults = [] := hfinal
    rw [ids, hfinal', bag_enqueue, List.map_nil, Multiset.coe_nil, add_zero, Multiset.map_cons,
      Multiset.nodup_cons]
    refine ⟨fun hm => ?_, hd⟩
    obtain ⟨q, hq, heq⟩ := Multiset.mem_map.mp hm
    exact hid q hq heq
  · rw [waiting_enqueue] at hq
    cases Multiset.mem_cons.mp hq with
    | inl heq =>
      subst heq
      refine ⟨[], ?_, by rw [hr]; rfl⟩
      rw [Function.update_self, List.append_nil]
      rfl
    | inr hmem => exact hother q (PoolState.mem_bag_of_waiting hmem) _ (h.waiting q hmem)
  · obtain ⟨toks, hfs, heq⟩ := h.stepped p hp
    refine ⟨toks, hother p.1 ?_ toks hfs, heq⟩
    rw [PoolState.bag_eq_waiting]
    exact Multiset.mem_add.mpr (Or.inr (Multiset.mem_coe.mpr (List.mem_map_of_mem hp)))
  · have hnone : (w.enqueue s r).finalResults = [] := hfinal
    rw [hnone] at hb
    cases hb

open StateTransition in
theorem Recorded.rest {s t : PoolState ρ κ τ β η} (h : Recorded w tokens accepted kept t)
    (ht : t ∈ eval w.step s) : Recorded w tokens accepted kept (Workers.rest t) := by
  have hempty : t.control.waiting = [] ∧ t.control.requests = [] := by
    obtain ⟨results, hc⟩ | ⟨e, hc⟩ := w.stopped (mem_eval.mp ht).2 <;> rw [hc] <;>
      exact ⟨rfl, rfl⟩
  have hwaiting : (Workers.rest t).waiting = t.waiting := by
    rw [PoolState.waiting, PoolState.waiting, hempty.1]
    rfl
  have hbag : (Workers.rest t).bag = t.bag := by
    rw [PoolState.bag, PoolState.bag, hempty.2]
    rfl
  refine ⟨?_, fun r hr => h.waiting r (hwaiting ▸ hr), fun p hp => absurd hp List.not_mem_nil,
    fun b hb => absurd hb List.not_mem_nil⟩
  refine Multiset.nodup_of_le ?_ h.distinct
  rw [ids, ids, hbag]
  exact add_le_add le_rfl (Multiset.zero_le _)

end Workers
end ResidentInference

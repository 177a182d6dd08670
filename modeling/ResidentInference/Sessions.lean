import ResidentInference.TraceLog
import ResidentInference.RuntimeRuns

/-! Many runs of one runtime: what a result reports when the runtime has filed steps under the same
id before. -/
namespace ResidentInference
open StateTransition

namespace Workers
variable {ρ κ τ β η α : Type} {w : Workers ρ κ τ β η}

/-- Nothing is filed under an id that no request in flight has. -/
theorem Lawful.filed_of_absent (hw : w.Lawful) {s s' : PoolState ρ κ τ β η} {rid : Int}
    (h : ∀ q ∈ s.bag, w.requestId q ≠ rid) (hs : w.step s = some s') :
    (∀ q ∈ s'.bag, w.requestId q ≠ rid) ∧ s'.filed rid = s.filed rid := by
  constructor
  · have hrest : ∀ {r r' : ρ} {rest : Multiset ρ}, s.bag = r ::ₘ rest → s'.bag = r' ::ₘ rest →
        w.requestId r' = w.requestId r → ∀ q ∈ s'.bag, w.requestId q ≠ rid := by
      intro r r' rest hb hb' hid
      rw [hb, Multiset.forall_mem_cons] at h
      rw [hb', Multiset.forall_mem_cons, hid]
      exact h
    cases w.step_effect hs with
    | silent _ bag _ _ => exact bag ▸ h
    | prefilled i r r' rest _ bag run bag' _ _ => exact hrest bag bag' (hw.prefillId run)
    | decoded i r r' trace rest _ bag run bag' _ _ => exact hrest bag bag' (hw.decodeId run)
    | finished r _ bag _ _ _ _ => exact fun q hq => h q (bag ▸ Multiset.mem_cons_of_mem hq)
    | failed e _ bag _ => exact fun q hq => h q (Multiset.mem_of_le bag hq)
  · cases w.step_turn hs with
    | collects r trace rest hc =>
      have hne : rid ≠ w.requestId r := by
        refine fun heq => h r ?_ heq.symm
        rw [PoolState.bag_eq_waiting, hc]
        simp [Control.stepped]
      rw [filed_collect, if_neg hne]
    | fails _ e hc _ _ _ =>
      rw [PoolState.filed, (failed_step hs ⟨e, hc⟩).1]
      rfl
    | _ => rfl

theorem Lawful.filed_run (hw : w.Lawful) {s t : PoolState ρ κ τ β η} {rid : Int}
    (h : ∀ q ∈ s.bag, w.requestId q ≠ rid) (ht : Reaches w.step s t) :
    (∀ q ∈ t.bag, w.requestId q ≠ rid) ∧ t.filed rid = s.filed rid := by
  refine Runs.invariant (P := fun u => (∀ q ∈ u.bag, w.requestId q ≠ rid) ∧
    u.filed rid = s.filed rid) ht ⟨h, rfl⟩ ?_
  intro u v _ hu hs
  obtain ⟨hbag, hfiled⟩ := hw.filed_of_absent hu.1 hs
  exact ⟨hbag, hfiled.trans hu.2⟩

theorem returned_of_step {s s' : PoolState ρ κ τ β η} {results : List β}
    (hs : w.step s = some s') (hr : s'.control = .returned results) :
    results = w.sortResults s'.finalResults := by
  cases w.step_turn hs with
  | returns _ _ =>
    cases hr
    rfl
  | collects r trace rest _ =>
    rw [(w.collect_control s r trace rest).2] at hr
    cases hr
  | fails _ e hc _ _ _ =>
    rw [hc] at hr
    cases hr
  | _ => cases hr

end Workers

/-- The accepted tokens of some steps, in order. -/
def acceptedTokens (traces : List DecodeStepTrace) : List Int :=
  traces.flatMap DecodeStepTrace.acceptedTokens

namespace PersistentDecodeRuntime
variable {rt : PersistentDecodeRuntime}

/-- The rates and sums of a result are those of its traces. -/
structure SumsUp (rt : PersistentDecodeRuntime) (b : DecodeResult) : Prop where
  acceptanceRate : b.acceptanceRate =
    let totalAccepted : ℚ := (b.traces.map fun t => (t.acceptedTokens.length : ℚ)).sum
    let totalProposed : ℚ := (b.traces.map fun t => (t.proposedTokens.length : ℚ)).sum
    if totalProposed = 0 then 0 else rt.rnd (totalAccepted / totalProposed)
  kvBlocksTotal : b.kvBlocksTotal = (b.traces.map DecodeStepTrace.kvBlocksTotal).sum
  kvBlocksSelected : b.kvBlocksSelected = (b.traces.map DecodeStepTrace.kvBlocksSelected).sum
  bytesRead : b.estimatedKvBytesRead = (b.traces.map DecodeStepTrace.estimatedKvBytesRead).sum
  bytesSaved : b.estimatedKvBytesSaved = (b.traces.map DecodeStepTrace.estimatedKvBytesSaved).sum

theorem sumsUp_buildResult (rt : PersistentDecodeRuntime) (r : RequestState)
    (traces : List DecodeStepTrace) : rt.SumsUp (rt.buildResult r traces) :=
  ⟨rfl, rfl, rfl, rfl, rfl⟩

theorem workers_append (rt : PersistentDecodeRuntime) :
    rt.workers.Appends RequestState.committedTokens DecodeStepTrace.acceptedTokens where
  prefill h := RequestState.committed_eq (prefill_tokens h).1
  decode h := by
    obtain ⟨spec, _, htok, htrace, _⟩ := decode_tokens h
    have haccepted : _ = spec.accepted := congrArg TokenTrace.acceptedTokens htrace
    rw [RequestState.committed_eq htok]
    exact congrArg _ haccepted.symm

/-- The calls of `submit` and `run` on one runtime: the state between two calls, what was filed
under each id when a request was last submitted under it, and the results that were returned. A
submitted request is fresh, its id is none of a request in flight, and `ok` allows it. -/
inductive Session (rt : PersistentDecodeRuntime) (ok : RuntimeState → RequestState → Prop) :
    RuntimeState → (Int → List DecodeStepTrace) → List DecodeResult → Prop
  | new : Session rt ok (rt.start []) (fun _ => []) []
  | submit {s : RuntimeState} {kept : Int → List DecodeStepTrace} {past : List DecodeResult}
      {r : RequestState} (session : Session rt ok s kept past) (fresh : r.Fresh)
      (id : ∀ q ∈ s.bag, q.requestId ≠ r.requestId) (allowed : ok s r) :
      Session rt ok (rt.workers.enqueue s (rt.submit r))
        (Function.update kept r.requestId (s.filed r.requestId)) past
  | run {s t : RuntimeState} {kept : Int → List DecodeStepTrace} {past : List DecodeResult}
      (session : Session rt ok s kept past) (ends : t ∈ eval rt.workers.step s) :
      Session rt ok (Workers.rest t) kept (past ++ t.control.returned?.getD [])

/-- The result was built from the steps of its own request, behind what was filed before. -/
abbrev Built (rt : PersistentDecodeRuntime) (kept : Int → List DecodeStepTrace) (s : RuntimeState)
    (b : DecodeResult) : Prop :=
  rt.workers.ResultOf RequestState.committedTokens DecodeStepTrace.acceptedTokens kept s b

abbrev Recorded (rt : PersistentDecodeRuntime) (kept : Int → List DecodeStepTrace)
    (s : RuntimeState) : Prop :=
  rt.workers.Recorded RequestState.committedTokens DecodeStepTrace.acceptedTokens kept s

theorem submit_committed (rt : PersistentDecodeRuntime) {r : RequestState} (h : r.Fresh) :
    (rt.submit r).committedTokens = [] :=
  (RequestState.committed_eq (rt.submit_tokens r)).trans h.committed

theorem submit_requestId (rt : PersistentDecodeRuntime) (r : RequestState) :
    (rt.submit r).requestId = r.requestId := RequestState.requestId_eq (rt.submit_tokens r)

theorem Session.recorded {ok : RuntimeState → RequestState → Prop} {s : RuntimeState}
    {kept : Int → List DecodeStepTrace} {past : List DecodeResult}
    (h : Session rt ok s kept past) : rt.Recorded kept s ∧ s.finalResults = [] := by
  induction h with
  | new =>
    have hbag : (rt.start []).bag = 0 := rt.workers.bag_start _ _
    refine ⟨⟨?_, fun r hr => ?_, fun p hp => absurd hp List.not_mem_nil,
      fun b hb => absurd hb List.not_mem_nil⟩, rfl⟩
    · rw [Workers.ids, hbag]
      exact Multiset.nodup_zero
    · have hr' := PoolState.mem_bag_of_waiting hr
      rw [hbag] at hr'
      exact absurd hr' (Multiset.notMem_zero r)
  | @submit s kept past r _ hfresh hid _ ih =>
    obtain ⟨hrec, hfinal⟩ := ih
    have hsame : rt.workers.requestId (rt.submit r) = r.requestId := rt.submit_requestId r
    have henqueue := hrec.enqueue (rt.submit_committed hfresh) (hsame.symm ▸ hid) hfinal
    rw [hsame] at henqueue
    exact ⟨henqueue, hfinal⟩
  | run _ hends ih =>
    exact ⟨(ih.1.run rt.workers_lawful rt.workers_append (mem_eval.mp hends).1).rest hends, rfl⟩

theorem Session.control {ok : RuntimeState → RequestState → Prop} {s : RuntimeState}
    {kept : Int → List DecodeStepTrace} {past : List DecodeResult}
    (h : Session rt ok s kept past) : s.control = .loop := by
  induction h with
  | new => rfl
  | submit _ _ _ _ ih => exact ih
  | run _ _ _ => rfl

/-- What `run` returns are the results that it has collected, sorted. -/
theorem Session.returned {ok : RuntimeState → RequestState → Prop} {s t : RuntimeState}
    {kept : Int → List DecodeStepTrace} {past results : List DecodeResult}
    (h : Session rt ok s kept past) (ht : Reaches rt.workers.step s t)
    (hr : t.control = .returned results) : results = rt.workers.sortResults t.finalResults := by
  cases ht with
  | refl =>
    rw [h.control] at hr
    cases hr
  | tail _ hstep => exact Workers.returned_of_step hstep hr

theorem Session.recorded_run {ok : RuntimeState → RequestState → Prop} {s t : RuntimeState}
    {kept : Int → List DecodeStepTrace} {past : List DecodeResult}
    (h : Session rt ok s kept past) (ht : Reaches rt.workers.step s t) : rt.Recorded kept t :=
  h.recorded.1.run rt.workers_lawful rt.workers_append ht

/-- A result that was built from its own steps, behind those in `kept`. -/
theorem Built.accepted {kept : Int → List DecodeStepTrace} {s : RuntimeState} {b : DecodeResult}
    (h : rt.Built kept s b) : rt.SumsUp b ∧ s.filed b.requestId = b.traces ∧ b.traces ≠ [] ∧
      acceptedTokens b.traces = acceptedTokens (kept b.requestId) ++ b.committedTokens := by
  obtain ⟨r, own, hne, hfiled, htoks, rfl⟩ := h
  refine ⟨rt.sumsUp_buildResult r _, rfl, ?_, ?_⟩
  · change s.filed r.requestId ≠ []
    rw [show s.filed r.requestId = _ from hfiled]
    exact fun hnil => hne (List.append_eq_nil_iff.mp hnil).2
  · change acceptedTokens (s.filed r.requestId) = acceptedTokens (kept r.requestId) ++ _
    rw [show s.filed r.requestId = _ from hfiled, acceptedTokens, List.flatMap_append, htoks]
    rfl

/-! ### Ids that are used once -/

/-- No step is filed under the id of the request. -/
def Unfiled (s : RuntimeState) (r : RequestState) : Prop := s.filed r.requestId = []

instance (s : RuntimeState) (r : RequestState) : Decidable (Unfiled s r) :=
  inferInstanceAs (Decidable (_ = _))

/-- A result that was returned, with its steps still filed under its id and no request in flight
under it. -/
structure Settled (rt : PersistentDecodeRuntime) (s : RuntimeState) (b : DecodeResult) :
    Prop where
  built : rt.Built (fun _ => []) s b
  absent : ∀ q ∈ s.bag, q.requestId ≠ b.requestId

theorem Settled.of_filed {s t : RuntimeState} {b : DecodeResult} (h : rt.Settled s b)
    (hbag : ∀ q ∈ t.bag, q.requestId ≠ b.requestId)
    (hfiled : t.filed b.requestId = s.filed b.requestId) : rt.Settled t b := by
  obtain ⟨⟨r, own, hne, hown, htoks, rfl⟩, _⟩ := h
  have hfiled' : t.filed (rt.workers.requestId r) = s.filed (rt.workers.requestId r) := hfiled
  refine ⟨⟨r, own, hne, hfiled'.trans hown, htoks, ?_⟩, hbag⟩
  rw [hfiled']

theorem Settled.run {s t : RuntimeState} {b : DecodeResult} (h : rt.Settled s b)
    (ht : Reaches rt.workers.step s t) : rt.Settled t b := by
  obtain ⟨hbag, hfiled⟩ := rt.workers_lawful.filed_run h.absent ht
  exact h.of_filed hbag hfiled

/-- The results of the run itself. -/
theorem Recorded.settled {t : RuntimeState} (h : rt.Recorded (fun _ => []) t) {b : DecodeResult}
    (hb : b ∈ t.finalResults) : rt.Settled t b := by
  refine ⟨h.results b hb, fun q hq => ?_⟩
  obtain ⟨rest, hrest⟩ := Multiset.exists_cons_of_mem hq
  exact ((Workers.ids_apart h.distinct hrest).2 b hb).symm

theorem Session.settled {s : RuntimeState} {kept : Int → List DecodeStepTrace}
    {past : List DecodeResult} (h : Session rt Unfiled s kept past) :
    kept = (fun _ => []) ∧ ∀ b ∈ past, rt.Settled s b := by
  induction h with
  | new => exact ⟨rfl, fun b hb => absurd hb List.not_mem_nil⟩
  | @submit s kept past r hsession _ _ hallowed ih =>
    obtain ⟨hkept, hpast⟩ := ih
    have hfiled : s.filed r.requestId = [] := hallowed
    refine ⟨?_, fun b hb => ?_⟩
    · rw [hkept, hfiled]
      exact Function.update_eq_self _ _
    · have hb' := hpast b hb
      have hne : r.requestId ≠ b.requestId := by
        intro heq
        obtain ⟨_, htraces, hsome, _⟩ := hb'.built.accepted
        rw [← heq, hfiled] at htraces
        exact hsome htraces.symm
      refine hb'.of_filed ?_ rfl
      rw [Workers.bag_enqueue, Multiset.forall_mem_cons, rt.submit_requestId]
      exact ⟨hne, hb'.absent⟩
  | @run s t kept past hsession hends ih =>
    obtain ⟨rfl, hpast⟩ := ih
    have hreach := (mem_eval.mp hends).1
    have hbag : ∀ q ∈ (Workers.rest t).bag, q ∈ t.bag := by
      intro q hq
      simp only [Workers.rest, PoolState.bag, Control.requests, Multiset.mem_add] at hq ⊢
      tauto
    have hkeep : ∀ b, rt.Settled t b → rt.Settled (Workers.rest t) b := fun b hb =>
      hb.of_filed (fun q hq => hb.absent q (hbag q hq)) rfl
    refine ⟨rfl, fun b hb => ?_⟩
    cases List.mem_append.mp hb with
    | inl hold => exact hkeep b ((hpast b hold).run hreach)
    | inr hnew =>
      refine hkeep b ((hsession.recorded_run hreach).settled ?_)
      cases hreturned : t.control.returned? with
      | none =>
        rw [hreturned] at hnew
        cases hnew
      | some results =>
        rw [hreturned, Option.getD_some,
          hsession.returned hreach (Control.eq_of_returned? hreturned)] at hnew
        exact (List.mem_insertionSort _).mp hnew

/-- A result reports the accepted tokens of its request behind those that were filed under the id
before. If no id is used twice, each result reports its own steps and keeps doing so. -/
theorem results_report_steps (rt : PersistentDecodeRuntime) :
    (∀ s kept past t, Session rt (fun _ _ => True) s kept past → Reaches rt.workers.step s t →
      ∀ b ∈ t.finalResults, rt.SumsUp b ∧
        (acceptedTokens b.traces = b.committedTokens ↔
          acceptedTokens (kept b.requestId) = [])) ∧
    ∀ s kept past t, Session rt Unfiled s kept past → Reaches rt.workers.step s t →
      ∀ b ∈ past ++ t.finalResults, rt.SumsUp b ∧
        acceptedTokens b.traces = b.committedTokens ∧ t.filed b.requestId = b.traces := by
  constructor
  · intro s kept past t hs ht b hb
    obtain ⟨hsums, _, _, hacc⟩ := Built.accepted ((hs.recorded_run ht).results b hb)
    refine ⟨hsums, ?_⟩
    rw [hacc]
    exact List.append_left_eq_self
  · intro s kept past t hs ht b hb
    obtain ⟨rfl, hpast⟩ := hs.settled
    have hsettled : rt.Settled t b := by
      cases List.mem_append.mp hb with
      | inl hold => exact (hpast b hold).run ht
      | inr hnew => exact (hs.recorded_run ht).settled hnew
    obtain ⟨hsums, hfiled, _, hacc⟩ := hsettled.built.accepted
    exact ⟨hsums, hacc, hfiled⟩

/-- A run ends where its step function stops. -/
theorem Session.ran {ok : RuntimeState → RequestState → Prop} {s : RuntimeState}
    {kept : Int → List DecodeStepTrace} {past : List DecodeResult} (h : Session rt ok s kept past)
    (n : Nat) (hstop : (rt.workers.step (Runs.runFor rt.workers.step n s)).isNone = true) :
    Session rt ok (Workers.rest (Runs.runFor rt.workers.step n s)) kept
      (past ++ (Runs.runFor rt.workers.step n s).control.returned?.getD []) :=
  h.run (Runs.mem_eval_runFor (Option.isNone_iff_eq_none.mp hstop))

/-- The second request under an id is reported with the steps of the first. -/
theorem resubmitted_id_reports_earlier_steps :
    ¬ ∀ (rt : PersistentDecodeRuntime) s kept past t, Session rt (fun _ _ => True) s kept past →
      Reaches rt.workers.step s t → ∀ b ∈ t.finalResults,
        acceptedTokens b.traces = b.committedTokens := by
  intro hall
  let rt : PersistentDecodeRuntime := { config := {} }
  let r : RequestState := .ask 1 [1] [10]
  have hfresh : r.Fresh := by decide
  have hnew : Session rt (fun _ _ => True) _ _ _ := .new
  have hfirst := (hnew.submit (r := r) hfresh (by decide) trivial).ran 20 (by decide +kernel)
  have hsecond := hfirst.submit (r := r) hfresh (by decide +kernel) trivial
  have hbad := hall rt _ _ _ _ hsecond (Runs.reaches_runFor _ 20 _)
  exact absurd hbad (by decide +kernel)

/-- The same request under a second id. -/
theorem two_ids_report_own_steps :
    ∃ (rt : PersistentDecodeRuntime) (s t : RuntimeState) (past : List DecodeResult),
      past.length = 1 ∧ t.finalResults.length = 1 ∧ Reaches rt.workers.step s t ∧
        ∀ b ∈ past ++ t.finalResults, rt.SumsUp b ∧
          acceptedTokens b.traces = b.committedTokens ∧ t.filed b.requestId = b.traces := by
  let rt : PersistentDecodeRuntime := { config := {} }
  let first : RequestState := .ask 1 [1] [10]
  let second : RequestState := .ask 2 [1] [10]
  have hnew : Session rt Unfiled _ _ _ := .new
  have hfirst := (hnew.submit (r := first) (by decide) (by decide) (by decide)).ran 20
    (by decide +kernel)
  have hsecond := hfirst.submit (r := second) (by decide) (by decide +kernel) (by decide +kernel)
  have ht := Runs.reaches_runFor rt.workers.step 20
  refine ⟨rt, _, _, _, ?_, ?_, ht _, (results_report_steps rt).2 _ _ _ _ hsecond (ht _)⟩
  · decide +kernel
  · decide +kernel

end PersistentDecodeRuntime
end ResidentInference

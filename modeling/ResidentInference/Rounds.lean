import ResidentInference.RuntimeRuns
import ResidentInference.SchedulerErasure

/-! The rounds of decode steps: which requests a round serves, and how evenly the requests of one
priority are served. Each request carries its place in the list of submissions and the number of
its decode steps; forgetting both gives the runs of the loop itself. -/
namespace ResidentInference
variable {ρ κ τ β η : Type}

/-! ### The queue -/

namespace RequestQueue
variable {priority : ρ → Int} {q q' : RequestQueue ρ}

/-- The items stand in the order of their keys, and the next counter is beyond all of them. -/
structure Sound (priority : ρ → Int) (q : RequestQueue ρ) : Prop where
  sorted : q.items.Pairwise Before
  keys : ∀ item ∈ q.items, item.1.1 = -priority item.2
  counters : ∀ item ∈ q.items, item.1.2 < q.counter

theorem sound_empty (priority : ρ → Int) : Sound priority empty :=
  ⟨List.Pairwise.nil, fun _ h => absurd h List.not_mem_nil, fun _ h => absurd h List.not_mem_nil⟩

/-- A new item goes behind every item that does not come after it. -/
theorem orderedInsert_split (p : Int) (k : Nat) (r : ρ) {items : List ((Int × Nat) × ρ)}
    (hs : items.Pairwise Before) (hk : ∀ item ∈ items, item.1.2 < k) :
    ∃ l l', items = l ++ l' ∧ items.orderedInsert Before ((p, k), r) = l ++ ((p, k), r) :: l' ∧
      (∀ item ∈ l, item.1.1 ≤ p) ∧ ∀ item ∈ l', p < item.1.1 := by
  induction items with
  | nil =>
    exact ⟨[], [], rfl, rfl, fun _ h => absurd h List.not_mem_nil,
      fun _ h => absurd h List.not_mem_nil⟩
  | cons a items ih =>
    obtain ⟨ha, hs⟩ := List.pairwise_cons.mp hs
    have hka := hk a List.mem_cons_self
    by_cases hb : Before ((p, k), r) a
    · have hlt : p < a.1.1 := by
        obtain hlt | ⟨_, hle⟩ := hb
        · exact hlt
        · exact absurd hka (not_lt.mpr hle)
      refine ⟨[], a :: items, rfl, if_pos hb, fun _ h => absurd h List.not_mem_nil, ?_⟩
      intro item hitem
      cases List.mem_cons.mp hitem with
      | inl heq => exact heq ▸ hlt
      | inr hmem =>
        obtain h | ⟨h, _⟩ := ha item hmem
        · exact hlt.trans h
        · exact h ▸ hlt
    · obtain ⟨l, l', heq, hins, hl, hl'⟩ :=
        ih hs fun item hitem => hk item (List.mem_cons_of_mem _ hitem)
      refine ⟨a :: l, l', by rw [heq, List.cons_append], ?_, ?_, hl'⟩
      · rw [List.orderedInsert, if_neg hb, hins, List.cons_append]
      · intro item hitem
        cases List.mem_cons.mp hitem with
        | inl h =>
          rw [h]
          by_contra hlt
          exact hb (Or.inl (not_le.mp hlt))
        | inr h => exact hl item h

/-- A request that is pushed comes behind those of at least its priority. -/
theorem Sound.push_split (h : Sound priority q) (r : ρ) :
    ∃ l l', q.items = l ++ l' ∧
      (q.push (priority r) r).items = l ++ ((-priority r, q.counter), r) :: l' ∧
      (∀ item ∈ l, item.1.1 ≤ -priority r) ∧ ∀ item ∈ l', -priority r < item.1.1 :=
  orderedInsert_split (-priority r) q.counter r h.sorted h.counters

theorem Sound.push (h : Sound priority q) (r : ρ) : Sound priority (q.push (priority r) r) := by
  obtain ⟨l, l', hq, hpush, hl, hl'⟩ := h.push_split r
  have hs := h.sorted
  rw [hq, List.pairwise_append] at hs
  have hmem : ∀ item ∈ (q.push (priority r) r).items,
      item = ((-priority r, q.counter), r) ∨ item ∈ q.items := by
    intro item hitem
    rw [hpush] at hitem
    rw [hq]
    simp only [List.mem_append, List.mem_cons] at hitem ⊢
    tauto
  refine ⟨?_, fun item hitem => ?_, fun item hitem => ?_⟩
  · rw [hpush, List.pairwise_append, List.pairwise_cons]
    refine ⟨hs.1, ⟨fun item hitem => Or.inl (hl' item hitem), hs.2.1⟩,
      fun item hitem item' h' => ?_⟩
    cases List.mem_cons.mp h' with
    | inl heq =>
      subst heq
      have hk := h.counters item (hq ▸ List.mem_append_left _ hitem)
      obtain hlt | heq := (hl item hitem).lt_or_eq
      · exact Or.inl hlt
      · exact Or.inr ⟨heq, hk.le⟩
    | inr hmem => exact hs.2.2 item hitem item' hmem
  · obtain rfl | hold := hmem item hitem
    · rfl
    · exact h.keys item hold
  · obtain rfl | hold := hmem item hitem
    · exact Nat.lt_succ_self _
    · exact (h.counters item hold).trans (Nat.lt_succ_self _)

theorem Sound.pop (h : Sound priority q) {r : ρ} (hp : q.pop = some (r, q')) :
    Sound priority q' := by
  obtain ⟨item, hitems, rfl, hcounter⟩ := items_of_pop hp
  obtain ⟨hs, hkeys, hcounters⟩ := h
  rw [hitems] at hs hkeys hcounters
  exact ⟨(List.pairwise_cons.mp hs).2, fun x hx => hkeys x (List.mem_cons_of_mem _ hx),
    fun x hx => hcounter ▸ hcounters x (List.mem_cons_of_mem _ hx)⟩

/-- The requests stand in descending order of their priorities. -/
theorem Sound.descending (h : Sound priority q) :
    q.requests.Pairwise fun a b => priority b ≤ priority a := by
  rw [requests, List.pairwise_map]
  refine h.sorted.imp_of_mem fun {a b} ha hb hab => ?_
  have hle : a.1.1 ≤ b.1.1 := by
    obtain hlt | ⟨heq, _⟩ := hab
    · exact hlt.le
    · exact heq.le
  rw [h.keys a ha, h.keys b hb] at hle
  exact neg_le_neg_iff.mp hle

end RequestQueue

/-! ### Requests that are counted -/

/-- A request with its place among the submitted ones and the number of its decode steps. -/
structure Tagged (ρ : Type) where
  request : ρ
  index : Nat
  steps : Nat

namespace Workers

/-- The same workers over tagged requests. -/
def tagged (w : Workers ρ κ τ β η) : Workers (Tagged ρ) κ τ β η where
  numPrefill := w.numPrefill
  numDecode := w.numDecode
  requestId r := w.requestId r.request
  priority r := w.priority r.request
  finished r := w.finished r.request
  prefill i c r :=
    match w.prefill i c r.request with
    | (.error e, c) => (.error e, c)
    | (.ok r', c) => (.ok { r with request := r' }, c)
  decode i c r :=
    match w.decode i c r.request with
    | (.error e, c) => (.error e, c)
    | (.ok (r', t), c) => (.ok ({ r with request := r', steps := r.steps + 1 }, t), c)
  handoff i j r := w.handoff i j r.request
  release := w.release
  buildResult r := w.buildResult r.request
  resultId := w.resultId

/-- The submitted requests with their places. -/
def tag (requests : List ρ) : List (Tagged ρ) :=
  requests.zipIdx.map fun p => ⟨p.1, p.2, 0⟩

end Workers

/-- The state without the tags. -/
def PoolState.forget (s : PoolState (Tagged ρ) κ τ β η) : PoolState ρ κ τ β η where
  cache := s.cache
  prefillQueue := s.prefillQueue.map Tagged.request
  decodeQueue := s.decodeQueue.map Tagged.request
  prefillRr := s.prefillRr
  decodeRr := s.decodeRr
  handoffs := s.handoffs
  traces := s.traces
  finalResults := s.finalResults
  control := s.control.map Tagged.request id id

namespace Workers
variable (w : Workers ρ κ τ β η)

theorem forget_prefillTurn (s : PoolState (Tagged ρ) κ τ β η) (completed : List (Tagged ρ))
    (r : Tagged ρ) (queue : RequestQueue (Tagged ρ)) :
    w.prefillTurn s.forget (completed.map Tagged.request) r.request (queue.map Tagged.request) =
      (w.tagged.prefillTurn s completed r queue).forget := by
  have hn : w.tagged.numPrefill = w.numPrefill := rfl
  have hm : w.tagged.numDecode = w.numDecode := rfl
  unfold prefillTurn
  rw [hn, hm]
  by_cases hp : w.numPrefill = 0
  · rw [if_pos hp, if_pos hp]
    rfl
  · rw [if_neg hp, if_neg hp]
    simp only [tagged, PoolState.forget]
    obtain ⟨e | r', c⟩ := w.prefill (s.prefillRr % w.numPrefill) s.cache r.request
    · rfl
    · dsimp only
      by_cases hd : w.numDecode = 0
      · rw [if_pos hd, if_pos hd]
        rfl
      · rw [if_neg hd, if_neg hd]
        simp [Control.map]

theorem forget_decodeTurn (s : PoolState (Tagged ρ) κ τ β η) (n : Nat)
    (stepped : List (Tagged ρ × τ)) (r : Tagged ρ) (queue : RequestQueue (Tagged ρ)) :
    w.decodeTurn s.forget n (stepped.map fun p => (p.1.request, p.2)) r.request
        (queue.map Tagged.request) =
      (w.tagged.decodeTurn s n stepped r queue).forget := by
  have hm : w.tagged.numDecode = w.numDecode := rfl
  unfold decodeTurn
  rw [hm]
  by_cases hd : w.numDecode = 0
  · rw [if_pos hd, if_pos hd]
    rfl
  · rw [if_neg hd, if_neg hd]
    simp only [tagged, PoolState.forget]
    obtain ⟨e | p, c⟩ := w.decode (s.decodeRr % w.numDecode) s.cache r.request
    · rfl
    · simp [Control.map]

theorem forget_collect (s : PoolState (Tagged ρ) κ τ β η) (r : Tagged ρ) (trace : τ)
    (rest : List (Tagged ρ × τ)) :
    w.collect s.forget r.request trace (rest.map fun p => (p.1.request, p.2)) =
      (w.tagged.collect s r trace rest).forget := by
  have hf : w.tagged.finished r = w.finished r.request := rfl
  unfold collect
  dsimp only
  rw [hf]
  by_cases hfin : w.finished r.request = true
  · rw [if_pos hfin, if_pos hfin]
    rfl
  · rw [if_neg hfin, if_neg hfin]
    simp only [PoolState.forget, Control.map, RequestQueue.map_push, id]
    rfl

/-- The tags steer nothing. -/
theorem step_forget (s : PoolState (Tagged ρ) κ τ β η) :
    w.step s.forget = (w.tagged.step s).map PoolState.forget := by
  have hcontrol : s.forget.control = s.control.map Tagged.request id id := rfl
  unfold step
  rw [hcontrol]
  cases hc : s.control with
  | loop =>
    have hsort : w.tagged.sortResults s.finalResults = w.sortResults s.finalResults := rfl
    simp only [Control.map, PoolState.forget, RequestQueue.isEmpty_map, hsort]
    split
    · simp only [Option.map_some, PoolState.forget, Control.map, List.map_id]
    · simp only [Option.map_some, PoolState.forget, Control.map, List.map_nil]
  | prefilling completed =>
    simp only [Control.map]
    cases hp : s.prefillQueue.pop with
    | none =>
      have hp' : s.forget.prefillQueue.pop = none := RequestQueue.map_pop_none hp
      rw [hp']
      rfl
    | some p =>
      have hp' : s.forget.prefillQueue.pop = some (p.1.request, p.2.map Tagged.request) :=
        RequestQueue.map_pop_some hp
      rw [hp']
      exact congrArg some (w.forget_prefillTurn s completed p.1 p.2)
  | handingOver completed =>
    cases completed with
    | nil =>
      simp only [Control.map, List.map_nil, PoolState.forget, RequestQueue.length_map]
      rfl
    | cons r rest =>
      simp only [Control.map, List.map_cons, PoolState.forget, Option.map_some,
        RequestQueue.map_push]
      rfl
  | decoding n stepped =>
    cases n with
    | zero => rfl
    | succ n =>
      simp only [Control.map]
      cases hp : s.decodeQueue.pop with
      | none =>
        have hp' : s.forget.decodeQueue.pop = none := RequestQueue.map_pop_none hp
        rw [hp']
        rfl
      | some p =>
        have hp' : s.forget.decodeQueue.pop = some (p.1.request, p.2.map Tagged.request) :=
          RequestQueue.map_pop_some hp
        rw [hp']
        exact congrArg some (w.forget_decodeTurn s n stepped p.1 p.2)
  | collecting stepped =>
    cases stepped with
    | nil => rfl
    | cons p rest => exact congrArg some (w.forget_collect s p.1 p.2 rest)
  | returned results => rfl
  | raised e => rfl

theorem forget_start (cache : κ) (requests : List ρ) :
    (w.tagged.start cache (tag requests)).forget = w.start cache requests := by
  have hqueue : ∀ (l : List (Tagged ρ)) (q : RequestQueue (Tagged ρ)),
      (l.foldl (fun q r => q.push (w.tagged.priority r) r) q).map Tagged.request =
        (l.map Tagged.request).foldl (fun q r => q.push (w.priority r) r)
          (q.map Tagged.request) := by
    intro l
    induction l with
    | nil => exact fun _ => rfl
    | cons r l ih =>
      intro q
      rw [List.foldl_cons, ih, RequestQueue.map_push]
      rfl
  have htag : (tag requests).map Tagged.request = requests := by
    rw [tag, List.map_map]
    exact List.zipIdx_map_fst 0 requests
  simp only [start, PoolState.forget, hqueue, htag]
  rfl

open StateTransition in
/-- Every run of the loop is one with tags. -/
theorem exists_tagged {cache : κ} {requests : List ρ} {s : PoolState ρ κ τ β η}
    (hs : Reaches w.step (w.start cache requests) s) :
    ∃ t, Reaches w.tagged.step (w.tagged.start cache (tag requests)) t ∧ t.forget = s := by
  induction hs with
  | refl => exact ⟨_, Relation.ReflTransGen.refl, w.forget_start cache requests⟩
  | tail _ hstep ih =>
    obtain ⟨t, ht, rfl⟩ := ih
    rw [Option.mem_def, w.step_forget] at hstep
    obtain ⟨t', ht', rfl⟩ := Option.map_eq_some_iff.mp hstep
    exact ⟨t', ht.tail ht', rfl⟩

/-! ### The order of service -/

variable {w}

/-- The workers keep the priority of a request. -/
structure KeepsPriority (w : Workers ρ κ τ β η) : Prop where
  prefill : ∀ {i c r r' c'}, w.prefill i c r = (.ok r', c') → w.priority r' = w.priority r
  decode : ∀ {i c r r' t c'}, w.decode i c r = (.ok (r', t), c') → w.priority r' = w.priority r

theorem tagged_prefill {i : Nat} {c c' : κ} {r r' : Tagged ρ}
    (h : w.tagged.prefill i c r = (.ok r', c')) :
    w.prefill i c r.request = (.ok r'.request, c') ∧ r'.index = r.index ∧ r'.steps = r.steps := by
  simp only [tagged] at h
  split at h
  · cases h
  · next hrun =>
    cases h
    exact ⟨hrun, rfl, rfl⟩

theorem tagged_decode {i : Nat} {c c' : κ} {r r' : Tagged ρ} {t : τ}
    (h : w.tagged.decode i c r = (.ok (r', t), c')) :
    w.decode i c r.request = (.ok (r'.request, t), c') ∧ r'.index = r.index ∧
      r'.steps = r.steps + 1 := by
  simp only [tagged] at h
  split at h
  · cases h
  · next hrun =>
    cases h
    exact ⟨hrun, rfl, rfl⟩

theorem Lawful.tagged (hw : w.Lawful) : w.tagged.Lawful where
  prefillId h := hw.prefillId (tagged_prefill h).1
  prefillFinished h := hw.prefillFinished (tagged_prefill h).1
  decodeId h := hw.decodeId (tagged_decode h).1
  resultId r traces := hw.resultId r.request traces

/-- Of two requests of one priority, the one to be served later has had as many steps as the other,
or one more. -/
def Behind (w : Workers ρ κ τ β η) (a b : Tagged ρ) : Prop :=
  w.priority a.request = w.priority b.request → a.steps ≤ b.steps ∧ b.steps ≤ a.steps + 1

/-- The requests in flight, those of one priority in the order in which they will be served. -/
def order (s : PoolState (Tagged ρ) κ τ β η) : List (Tagged ρ) :=
  s.decodeQueue.requests ++ s.control.requests ++ s.prefillQueue.requests

theorem coe_order (s : PoolState (Tagged ρ) κ τ β η) : (order s : Multiset (Tagged ρ)) = s.bag := by
  simp only [order, PoolState.bag, ← Multiset.coe_add]
  abel

/-- The prefills of the iteration are over. -/
def PrefillsDone : Control ρ τ β → Prop
  | .handingOver _ => True
  | .decoding _ _ => True
  | .collecting _ => True
  | _ => False

structure InOrder (w : Workers ρ κ τ β η) (s : PoolState (Tagged ρ) κ τ β η) : Prop where
  queue : s.decodeQueue.Sound w.tagged.priority
  prefilled : PrefillsDone s.control → s.prefillQueue.items = []
  behind : (order s).Pairwise w.Behind

theorem behind_of_priority_ne {a b : Tagged ρ} (h : w.priority a.request ≠ w.priority b.request) :
    w.Behind a b := fun heq => absurd heq h

/-- A request that joins the decode queue keeps its place among those of its priority. -/
theorem InOrder.push {queue : RequestQueue (Tagged ρ)} {r : Tagged ρ} {rest : List (Tagged ρ)}
    (hq : queue.Sound w.tagged.priority) (h : (queue.requests ++ r :: rest).Pairwise w.Behind) :
    ((queue.push (w.tagged.priority r) r).requests ++ rest).Pairwise w.Behind := by
  obtain ⟨l, l', hitems, hpush, _, hl'⟩ := hq.push_split r
  have hlower : ∀ x ∈ l'.map Prod.snd, w.priority x.request ≠ w.priority r.request := by
    intro x hx
    obtain ⟨item, hitem, rfl⟩ := List.mem_map.mp hx
    have hkey := hq.keys item (hitems ▸ List.mem_append_right _ hitem)
    have hlt := hl' item hitem
    rw [hkey] at hlt
    exact (neg_lt_neg_iff.mp hlt).ne
  simp only [RequestQueue.requests, hitems, hpush, List.map_append, List.map_cons,
    List.append_assoc, List.cons_append, List.pairwise_append, List.pairwise_cons,
    List.mem_append, List.mem_cons] at h ⊢
  obtain ⟨hl, ⟨hm, ⟨hr, hrest⟩, hmr⟩, hcross⟩ := h
  refine ⟨hl, ⟨fun x hx => ?_, hm, hrest, fun x hx y hy => hmr x hx y (Or.inr hy)⟩, ?_⟩
  · cases hx with
    | inl hx => exact behind_of_priority_ne fun heq => hlower x hx heq.symm
    | inr hx => exact hr x hx
  · intro x hx y hy
    exact hcross x hx y (by tauto)

theorem InOrder.setControl {s : PoolState (Tagged ρ) κ τ β η} (h : w.InOrder s)
    {control : Control (Tagged ρ) τ β} (hreq : control.requests = s.control.requests)
    (hdone : PrefillsDone control → s.prefillQueue.items = []) :
    w.InOrder { s with control := control } := by
  refine ⟨h.queue, hdone, ?_⟩
  have hb := h.behind
  rw [order] at hb ⊢
  dsimp only
  rw [hreq]
  exact hb

theorem InOrder.collect {s : PoolState (Tagged ρ) κ τ β η} (h : w.InOrder s) {r : Tagged ρ}
    {trace : τ} {rest : List (Tagged ρ × τ)} (hc : s.control = .collecting ((r, trace) :: rest)) :
    w.InOrder (w.tagged.collect s r trace rest) := by
  have hempty := h.prefilled (by rw [hc]; trivial)
  have hb := h.behind
  simp only [order, hc, Control.requests, List.map_cons, RequestQueue.requests, hempty,
    List.map_nil, List.append_nil] at hb
  unfold Workers.collect
  dsimp only
  split
  · refine ⟨h.queue, fun _ => hempty, ?_⟩
    simp only [order, Control.requests, RequestQueue.requests, hempty, List.map_nil,
      List.append_nil]
    exact hb.sublist ((List.sublist_cons_self _ _).append_left _)
  · refine ⟨h.queue.push r, fun _ => hempty, ?_⟩
    have hpush := InOrder.push h.queue hb
    simp only [order, Control.requests, RequestQueue.requests, hempty, List.map_nil,
      List.append_nil] at hpush ⊢
    exact hpush

theorem InOrder.step (hk : w.KeepsPriority) {s s' : PoolState (Tagged ρ) κ τ β η}
    (h : w.InOrder s) (hs : w.tagged.step s = some s') : w.InOrder s' ∨ Raised s' := by
  have hb := h.behind
  cases w.tagged.step_turn hs with
  | returns hc _ => exact Or.inl (h.setControl (by rw [hc]; rfl) False.elim)
  | begins hc _ => exact Or.inl (h.setControl (by rw [hc]; rfl) False.elim)
  | prefills completed r r' queue cache hc hp _ _ hr =>
    obtain ⟨hrun, _, hsteps⟩ := tagged_prefill hr
    have hprio := hk.prefill hrun
    have hleft : ∀ x, w.Behind x r → w.Behind x r' := by
      intro x hx
      rw [Behind, hprio, hsteps]
      exact hx
    have hright : ∀ x, w.Behind r x → w.Behind r' x := by
      intro x hx
      rw [Behind, hprio, hsteps]
      exact hx
    refine Or.inl ⟨h.queue, False.elim, ?_⟩
    simp only [order, hc, Control.requests, (RequestQueue.pop_some hp).1, List.append_assoc,
      List.cons_append, List.nil_append] at hb ⊢
    rw [← List.append_assoc] at hb ⊢
    rw [List.pairwise_append, List.pairwise_cons] at hb ⊢
    obtain ⟨hbefore, ⟨hr, hafter⟩, hcross⟩ := hb
    refine ⟨hbefore, ⟨fun x hx => hright x (hr x hx), hafter⟩, fun x hx y hy => ?_⟩
    cases List.mem_cons.mp hy with
    | inl heq => exact heq ▸ hleft x (hcross x hx r List.mem_cons_self)
    | inr hmem => exact hcross x hx y (List.mem_cons_of_mem _ hmem)
  | prefillsDone completed hc hp =>
    exact Or.inl (h.setControl (by rw [hc]; rfl) fun _ => RequestQueue.pop_none hp)
  | handsOver r rest hc =>
    have hempty := h.prefilled (by rw [hc]; trivial)
    refine Or.inl ⟨h.queue.push r, fun _ => hempty, ?_⟩
    simp only [order, hc, Control.requests, List.append_assoc, List.cons_append] at hb
    have hpush := InOrder.push h.queue hb
    rw [← List.append_assoc] at hpush
    exact hpush
  | handoversDone hc =>
    exact Or.inl (h.setControl (by rw [hc]; rfl) fun _ => h.prefilled (by rw [hc]; trivial))
  | decodes n stepped r r' trace queue cache hc hp _ hr =>
    have hempty := h.prefilled (by rw [hc]; trivial)
    obtain ⟨hrun, _, hsteps⟩ := tagged_decode hr
    have hprio := hk.decode hrun
    refine Or.inl ⟨h.queue.pop hp, fun _ => hempty, ?_⟩
    have hnone : s.prefillQueue.requests = [] := by rw [RequestQueue.requests, hempty]; rfl
    simp only [order, hc, Control.requests, (RequestQueue.pop_some hp).1, hnone, List.append_nil,
      List.cons_append, List.pairwise_cons] at hb
    simp only [order, Control.requests, hnone, List.append_nil, List.map_append, List.map_cons,
      List.map_nil]
    rw [← List.append_assoc, List.pairwise_append]
    refine ⟨hb.2, List.pairwise_singleton _ _, fun x hx y hy => ?_⟩
    -- the request goes behind all of its priority, which it was ahead of
    obtain rfl := List.mem_singleton.mp hy
    intro heq
    obtain ⟨hle, hge⟩ := hb.1 x hx (hprio.symm.trans heq.symm)
    omega
  | decodesDone stepped hc =>
    exact Or.inl (h.setControl (by rw [hc]; rfl) fun _ => h.prefilled (by rw [hc]; trivial))
  | collects r trace rest hc => exact Or.inl (h.collect hc)
  | collectsDone hc => exact Or.inl (h.setControl (by rw [hc]; rfl) False.elim)
  | fails _ e hc _ _ _ => exact Or.inr ⟨e, hc⟩

theorem inOrder_start (w : Workers ρ κ τ β η) (cache : κ) (requests : List ρ) :
    w.InOrder (w.tagged.start cache (tag requests)) := by
  refine ⟨RequestQueue.sound_empty _, False.elim, ?_⟩
  have hzero : ∀ r ∈ order (w.tagged.start cache (tag requests)), r.steps = 0 := by
    intro r hr
    rw [← Multiset.mem_coe, coe_order, bag_start, Multiset.mem_coe] at hr
    obtain ⟨p, _, rfl⟩ := List.mem_map.mp hr
    rfl
  refine List.pairwise_of_forall_mem_list fun a ha b hb _ => ?_
  rw [hzero a ha, hzero b hb]
  exact ⟨le_rfl, Nat.zero_le _⟩

/-- Two requests of one priority differ by at most one decode step. -/
theorem InOrder.steps_le {s : PoolState (Tagged ρ) κ τ β η} (h : w.InOrder s) {a b : Tagged ρ}
    (ha : a ∈ s.bag) (hb : b ∈ s.bag) (hp : w.priority a.request = w.priority b.request) :
    a.steps ≤ b.steps + 1 := by
  rw [← coe_order, Multiset.mem_coe] at ha hb
  have hpair := List.pairwise_iff_getElem.mp h.behind
  obtain ⟨i, hi, rfl⟩ := List.getElem_of_mem ha
  obtain ⟨j, hj, rfl⟩ := List.getElem_of_mem hb
  obtain hlt | rfl | hgt := lt_trichotomy i j
  · exact (hpair i j hi hj hlt hp).1.trans (Nat.le_succ _)
  · exact Nat.le_succ _
  · exact (hpair j i hj hi hgt hp.symm).2

/-! ### One round -/

/-- No place is in flight twice. -/
theorem index_nodup_step {s s' : PoolState (Tagged ρ) κ τ β η}
    (h : (s.bag.map Tagged.index).Nodup) (hs : w.tagged.step s = some s') :
    (s'.bag.map Tagged.index).Nodup := by
  cases w.tagged.step_effect hs with
  | silent _ bag _ _ => exact bag ▸ h
  | prefilled i r r' rest _ bag run bag' _ _ =>
    rw [bag, Multiset.map_cons] at h
    rw [bag', Multiset.map_cons, (tagged_prefill run).2.1]
    exact h
  | decoded i r r' trace rest _ bag run bag' _ _ =>
    rw [bag, Multiset.map_cons] at h
    rw [bag', Multiset.map_cons, (tagged_decode run).2.1]
    exact h
  | finished r _ bag _ _ _ _ =>
    rw [bag, Multiset.map_cons] at h
    exact (Multiset.nodup_cons.mp h).2
  | failed e _ bag _ => exact Multiset.nodup_of_le (Multiset.map_le_map bag) h

theorem index_nodup_start (w : Workers ρ κ τ β η) (cache : κ) (requests : List ρ) :
    ((w.tagged.start cache (tag requests)).bag.map Tagged.index).Nodup := by
  have htag : (tag requests).map Tagged.index = List.range requests.length := by
    rw [tag, List.map_map, List.range_eq_range']
    exact List.zipIdx_map_snd 0 requests
  rw [bag_start, Multiset.map_coe, htag]
  exact Multiset.coe_nodup.mpr List.nodup_range

/-- The request after its decode step of the round. -/
structure Served (w : Workers ρ κ τ β η) (p : Tagged ρ × τ) (r : Tagged ρ) : Prop where
  index : p.1.index = r.index
  steps : p.1.steps = r.steps + 1
  priority : w.priority p.1.request = w.priority r.request

/-- A turn of a decode round takes the request at the head of the queue. -/
theorem decode_turn (hk : w.KeepsPriority) {n : Nat} {s s' : PoolState (Tagged ρ) κ τ β η}
    {stepped : List (Tagged ρ × τ)} (hc : s.control = .decoding (n+1) stepped)
    (hs : w.tagged.step s = some s') :
    (∃ e, s'.control = .raised e) ∨ ∃ p r, s'.control = .decoding n (stepped ++ [p]) ∧
      w.Served p r ∧ s.decodeQueue.requests = r :: s'.decodeQueue.requests := by
  cases w.tagged.step_turn hs with
  | decodes n' stepped' r r' trace queue cache hc' hp _ hr =>
    rw [hc] at hc'
    cases hc'
    obtain ⟨hrun, hindex, hsteps⟩ := tagged_decode hr
    exact Or.inr ⟨(r', trace), r, rfl, ⟨hindex, hsteps, hk.decode hrun⟩,
      (RequestQueue.pop_some hp).1⟩
  | fails _ e hc' _ _ _ => exact Or.inl ⟨e, hc'⟩
  | collects r trace rest hc' =>
    rw [hc] at hc'
    cases hc'
  | _ => simp_all

/-- The turns of a decode round take the requests at the head of the queue, one after another. -/
theorem decode_turns (hk : w.KeepsPriority) (n : Nat) {s : PoolState (Tagged ρ) κ τ β η}
    {stepped : List (Tagged ρ × τ)} (hc : s.control = .decoding n stepped)
    (hn : n ≤ s.decodeQueue.requests.length) :
    Raised (Runs.runFor w.tagged.step n s) ∨ ∃ served,
      (Runs.runFor w.tagged.step n s).control = .decoding 0 (stepped ++ served) ∧
        List.Forall₂ w.Served served (s.decodeQueue.requests.take n) ∧
        (Runs.runFor w.tagged.step n s).decodeQueue.requests = s.decodeQueue.requests.drop n := by
  induction n generalizing s stepped with
  | zero => exact Or.inr ⟨[], by rw [List.append_nil]; exact hc, List.Forall₂.nil, rfl⟩
  | succ n ih =>
    cases hs : w.tagged.step s with
    | none =>
      obtain ⟨results, hc'⟩ | ⟨e, hc'⟩ := w.tagged.stopped hs <;> rw [hc] at hc' <;> cases hc'
    | some s' =>
      have hrun : Runs.runFor w.tagged.step (n+1) s = Runs.runFor w.tagged.step n s' := by
        rw [Runs.runFor, hs]
      rw [hrun]
      obtain ⟨e, he⟩ | ⟨p, r, hc', hserved, hqueue⟩ := decode_turn hk hc hs
      · rw [Runs.runFor_of_stopped (step_raised he)]
        exact Or.inl ⟨e, he⟩
      · rw [hqueue, List.length_cons] at hn
        rw [hqueue]
        refine (ih hc' (Nat.le_of_succ_le_succ hn)).imp_right ?_
        rintro ⟨rest, hcontrol, hrest, hleft⟩
        refine ⟨p :: rest, ?_, ?_, hleft⟩
        · rw [hcontrol, List.append_assoc, List.singleton_append]
        · rw [List.take_succ_cons]
          exact List.Forall₂.cons hserved hrest

/-- What the call of `dispatch_decode` that comes next does: it serves as many requests as there
are workers, or all that are unfinished, each of them once, and leaves none of a higher priority. -/
def RoundServes (w : Workers ρ κ τ β η) (s : PoolState (Tagged ρ) κ τ β η) : Prop :=
  let n := min w.numDecode (s.bag.filter fun r => w.finished r.request = false).card
  let t := Runs.runFor w.tagged.step (n+1) s
  Raised t ∨ ∃ stepped, t.control = .decoding 0 stepped ∧ stepped.length = n ∧
    (stepped.map fun p => p.1.index).Nodup ∧ (∀ p ∈ stepped, ∃ r ∈ s.bag, w.Served p r) ∧
    ∀ p ∈ stepped, ∀ q ∈ t.decodeQueue.requests,
      w.priority q.request ≤ w.priority p.1.request

theorem round_serves (hk : w.KeepsPriority) (hd : 1 ≤ w.numDecode)
    {s : PoolState (Tagged ρ) κ τ β η} (h : w.InOrder s) (ho : w.tagged.Orderly s)
    (hindex : (s.bag.map Tagged.index).Nodup) (hc : s.control = .handingOver []) :
    w.RoundServes s := by
  have hempty := h.prefilled (by rw [hc]; trivial)
  have hnone : s.prefillQueue.requests = [] := by rw [RequestQueue.requests, hempty]; rfl
  have hbag : s.bag = s.decodeQueue.requests := by
    rw [← coe_order, order, hc, hnone, Control.requests, List.append_nil, List.append_nil]
  have hall : s.bag.filter (fun r => w.finished r.request = false) = s.bag := by
    refine Multiset.filter_eq_self.mpr fun r hr => ho.waiting r ?_
    rw [hbag] at hr
    exact Multiset.mem_add.mpr (Or.inr hr)
  unfold RoundServes
  rw [hall, hbag, Multiset.coe_card]
  generalize hn : min w.numDecode s.decodeQueue.requests.length = n
  have hle : n ≤ s.decodeQueue.requests.length := hn ▸ min_le_right _ _
  -- the call fixes the number of its turns first
  have hrun : Runs.runFor w.tagged.step (n+1) s =
      Runs.runFor w.tagged.step n { s with control := .decoding n [] } := by
    have hcount : min s.decodeQueue.items.length (max 1 w.tagged.numDecode) = n := by
      rw [← hn, RequestQueue.requests, List.length_map, min_comm]
      exact congrArg (min · _) (max_eq_right hd)
    have hstep : w.tagged.step s = some { s with control := .decoding n [] } := by
      simp only [Workers.step, hc, hcount]
    rw [Runs.runFor, hstep]
  dsimp only
  rw [hrun]
  refine (decode_turns hk n (s := { s with control := .decoding n [] }) rfl hle).imp_right ?_
  rintro ⟨served, hcontrol, hserved, hleft⟩
  have hlength : served.length = n := by
    rw [hserved.length_eq, List.length_take, min_eq_left hle]
  have hplaces : served.map (fun p => p.1.index) =
      (s.decodeQueue.requests.take n).map Tagged.index := by
    rw [← List.forall₂_eq_eq_eq, List.forall₂_map_left_iff, List.forall₂_map_right_iff]
    exact hserved.imp fun _ _ h => h.index
  have hsource : ∀ p ∈ served, ∃ r ∈ s.decodeQueue.requests.take n, w.Served p r := by
    intro p hp
    obtain ⟨i, hi, rfl⟩ := List.getElem_of_mem hp
    have hi' := hserved.length_eq ▸ hi
    exact ⟨_, List.getElem_mem hi', hserved.get hi hi'⟩
  refine ⟨served, hcontrol, hlength, ?_, fun p hp => ?_, fun p hp q hq => ?_⟩
  · rw [hbag, Multiset.map_coe, Multiset.coe_nodup] at hindex
    rw [hplaces]
    exact hindex.sublist ((List.take_sublist _ _).map _)
  · obtain ⟨r, hr, hpr⟩ := hsource p hp
    exact ⟨r, Multiset.mem_coe.mpr (List.mem_of_mem_take hr), hpr⟩
  · obtain ⟨r, hr, hpr⟩ := hsource p hp
    rw [hleft] at hq
    have hdescending := h.queue.descending
    rw [← List.take_append_drop n s.decodeQueue.requests, List.pairwise_append] at hdescending
    exact (hdescending.2.2 r hr q hq).trans hpr.priority.ge

open StateTransition in
/-- Every state of a run that has not failed is in order, and its rounds serve as they should. -/
theorem Lawful.serves_in_order (hw : w.Lawful) (hk : w.KeepsPriority) (hd : 1 ≤ w.numDecode)
    {cache : κ} {requests : List ρ} (hfresh : ∀ r ∈ requests, w.finished r = false)
    {s : PoolState (Tagged ρ) κ τ β η}
    (hs : Reaches w.tagged.step (w.tagged.start cache (tag requests)) s) (hn : ¬ Raised s) :
    w.InOrder s ∧ (s.control = .handingOver [] → w.RoundServes s) := by
  have hunfinished : ∀ r ∈ tag requests, w.tagged.finished r = false := by
    intro r hr
    obtain ⟨p, hp, rfl⟩ := List.mem_map.mp hr
    exact hfresh p.1 (List.fst_mem_of_mem_zipIdx hp)
  have horder := (invariant_or_raised hs (w.inOrder_start cache requests)
    fun _ _ _ hu hstep => hu.step hk hstep).resolve_right hn
  have ho := ((hw.tagged.reaches_orderly hunfinished hs).resolve_right hn).1
  have hindex := Runs.invariant hs (w.index_nodup_start cache requests)
    fun _ _ _ hu hstep => index_nodup_step hu hstep
  exact ⟨horder, round_serves hk hd horder ho hindex⟩

end Workers

/-! ### The runtime -/

namespace PersistentDecodeRuntime
open StateTransition
variable {rt : PersistentDecodeRuntime}

theorem keepsPriority (rt : PersistentDecodeRuntime) : rt.workers.KeepsPriority where
  prefill h := (congrArg RequestState.priority (prefill_tokens h).1 :)
  decode h := by
    obtain ⟨spec, _, htok, _⟩ := decode_tokens h
    exact (congrArg RequestState.priority htok :)

/-- The start of a run whose requests carry their places and count their decode steps. -/
def taggedStart (rt : PersistentDecodeRuntime) (requests : List RequestState) :
    PoolState (Tagged RequestState) KVCache DecodeStepTrace DecodeResult WorkerHandoff :=
  rt.workers.tagged.start (KVCache.new rt.config.pageSize rt.config.maxPages (some rt.config))
    (Workers.tag (requests.map rt.submit))

/-- Each round serves the requests of the highest priorities, as many as there are workers, and
requests of one priority are served evenly. -/
theorem rounds_fair (rt : PersistentDecodeRuntime) (hd : 1 ≤ rt.config.numDecodeWorkers)
    {requests : List RequestState} (hfresh : ∀ r ∈ requests, r.Fresh) :
    (∀ s, Reaches rt.workers.step (rt.start requests) s →
      ∃ t, Reaches rt.workers.tagged.step (rt.taggedStart requests) t ∧ t.forget = s) ∧
    ∀ t, Reaches rt.workers.tagged.step (rt.taggedStart requests) t → ¬ Workers.Raised t →
      (∀ a ∈ t.bag, ∀ b ∈ t.bag, a.request.priority = b.request.priority →
        a.steps ≤ b.steps + 1) ∧
      (t.control = .handingOver [] → rt.workers.RoundServes t) := by
  refine ⟨fun s hs => rt.workers.exists_tagged hs, fun t ht hn => ?_⟩
  obtain ⟨horder, hround⟩ := rt.workers_lawful.serves_in_order rt.keepsPriority hd
    (submit_unfinished hfresh) ht hn
  exact ⟨fun a ha b hb heq => horder.steps_le ha hb heq, hround⟩

theorem three_requests_served_evenly :
    let rt : PersistentDecodeRuntime := { config := { numDecodeWorkers := 2 } }
    let requests := [RequestState.ask 1 [1] [10, 11],
      { RequestState.ask 2 [1] [20] with priority := 1 }, RequestState.ask 3 [1] [30, 31]]
    (∀ s, Reaches rt.workers.step (rt.start requests) s →
      ∃ t, Reaches rt.workers.tagged.step (rt.taggedStart requests) t ∧ t.forget = s) ∧
    ∀ t, Reaches rt.workers.tagged.step (rt.taggedStart requests) t → ¬ Workers.Raised t →
      (∀ a ∈ t.bag, ∀ b ∈ t.bag, a.request.priority = b.request.priority →
        a.steps ≤ b.steps + 1) ∧
      (t.control = .handingOver [] → rt.workers.RoundServes t) :=
  rounds_fair _ (by decide) (by decide)

end PersistentDecodeRuntime
end ResidentInference

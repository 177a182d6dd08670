import Mathlib.Data.List.Infix
import Mathlib.Tactic.Common

/-! Sequences of calls, each of which may fail to return, and the properties that hold after every
call of a sequence: exactly when each call meets a condition on the state that it finds. -/
namespace ResidentInference.Calls
variable {σ ι : Type*}

/-- One call more of a sequence that always returns. -/
theorem foldl_take_succ (f : σ → ι → σ) (s : σ) {ops : List ι} {n : Nat} {op : ι}
    (h : ops[n]? = some op) : (ops.take (n+1)).foldl f s = f ((ops.take n).foldl f s) op := by
  rw [List.take_add_one, h, Option.toList_some, List.foldl_append]
  rfl

/-- The state `s` is left behind by the calls, made one after another from `s₀`. -/
inductive Run (returns : σ → ι → σ → Prop) (s₀ : σ) : List ι → σ → Prop
  | start : Run returns s₀ [] s₀
  | call {ops : List ι} {op : ι} {s s' : σ} (run : Run returns s₀ ops s)
      (step : returns s op s') : Run returns s₀ (ops ++ [op]) s'

variable {returns : σ → ι → σ → Prop} {s₀ s s' : σ} {op : ι} {ops : List ι}

theorem run_nil_iff : Run returns s₀ [] s ↔ s = s₀ := by
  constructor
  · intro h
    generalize hops : ([] : List ι) = ops at h
    cases h with
    | start => rfl
    | call _ _ => simp at hops
  · rintro rfl
    exact .start

theorem run_concat_iff :
    Run returns s₀ (ops ++ [op]) s' ↔ ∃ s, Run returns s₀ ops s ∧ returns s op s' := by
  constructor
  · intro h
    generalize hops : ops ++ [op] = ops' at h
    cases h with
    | start => simp at hops
    | call run step =>
      obtain ⟨rfl, hop⟩ := List.append_inj' hops rfl
      cases hop
      exact ⟨_, run, step⟩
  · rintro ⟨s, hrun, hstep⟩
    exact hrun.call hstep

theorem run_cons_iff :
    Run returns s₀ (op :: ops) s' ↔ ∃ s, returns s₀ op s ∧ Run returns s ops s' := by
  induction ops using List.reverseRecOn generalizing s' with
  | nil =>
    rw [← List.nil_append [op], run_concat_iff]
    simp only [run_nil_iff, exists_eq_left, exists_eq_right']
  | append_singleton ops op' ih =>
    rw [← List.cons_append, run_concat_iff]
    simp only [ih, run_concat_iff]
    constructor
    · rintro ⟨u, ⟨s, hs, hrun⟩, hstep⟩
      exact ⟨s, hs, u, hrun, hstep⟩
    · rintro ⟨s, hs, u, hrun, hstep⟩
      exact ⟨u, ⟨s, hs, hrun⟩, hstep⟩

/-- The property holds at the start and after every call of the sequence; it may speak of the calls
that have been made. -/
def Throughout (returns : σ → ι → σ → Prop) (P : List ι → σ → Prop) (s₀ : σ) (ops : List ι) :
    Prop :=
  ∀ made s, made <+: ops → Run returns s₀ made s → P made s

/-- Every call of the sequence that returns meets the condition in the state that it finds. -/
def EachCall (returns : σ → ι → σ → Prop) (C : σ → ι → Prop) (s₀ : σ) (ops : List ι) : Prop :=
  ∀ made op s s', made ++ [op] <+: ops → Run returns s₀ made s → returns s op s' → C s op

theorem prefix_of_concat {made : List ι} (h : made ++ [op] <+: ops) : made <+: ops :=
  (List.prefix_append made [op]).trans h

theorem mem_of_concat {made : List ι} (h : made ++ [op] <+: ops) : op ∈ ops :=
  h.subset (List.mem_append_right made (List.mem_singleton.mpr rfl))

theorem eachCall_nil (returns : σ → ι → σ → Prop) (C : σ → ι → Prop) (s₀ : σ) :
    EachCall returns C s₀ [] := by
  intro made op s s' hpre
  simp at hpre

/-- The condition on the first call, and on the others wherever the first one ends. -/
theorem eachCall_cons {C : σ → ι → Prop}
    (hfirst : ∀ s', returns s₀ op s' → C s₀ op ∧ EachCall returns C s' ops) :
    EachCall returns C s₀ (op :: ops) := by
  intro made op' s s' hpre hrun hs
  cases made with
  | nil =>
    obtain rfl : op' = op := (List.cons_prefix_cons.mp hpre).1
    obtain rfl := run_nil_iff.mp hrun
    exact (hfirst s' hs).1
  | cons op₁ made =>
    obtain ⟨rfl, hrest⟩ := List.cons_prefix_cons.mp hpre
    obtain ⟨u, hu, hrun'⟩ := run_cons_iff.mp hrun
    exact (hfirst u hu).2 made op' s s' hrest hrun' hs

/-- The calls have one outcome each, and meet the condition one after another. -/
def MetAlong (next : σ → ι → Option σ) (C : σ → ι → Prop) : List ι → σ → Prop
  | [], _ => True
  | op :: ops, s => match next s op with
    | none => True
    | some s' => C s op ∧ MetAlong next C ops s'

instance decidableMetAlong (next : σ → ι → Option σ) (C : σ → ι → Prop)
    [∀ s op, Decidable (C s op)] : ∀ ops s, Decidable (MetAlong next C ops s)
  | [], _ => inferInstanceAs (Decidable True)
  | op :: ops, s =>
    match h : next s op with
    | none => decidable_of_iff True (by rw [MetAlong, h])
    | some s' =>
      have := decidableMetAlong next C ops s'
      decidable_of_iff (C s op ∧ MetAlong next C ops s') (by rw [MetAlong, h])

theorem eachCall_of_metAlong {next : σ → ι → Option σ} {C : σ → ι → Prop} {ops : List ι} {s₀ : σ}
    (h : MetAlong next C ops s₀) : EachCall (fun s op s' => next s op = some s') C s₀ ops := by
  induction ops generalizing s₀ with
  | nil => exact eachCall_nil _ _ _
  | cons op ops ih =>
    refine eachCall_cons fun s' hs => ?_
    rw [MetAlong, hs] at h
    exact ⟨h.1, ih h.2⟩

/-- What each call that meets the condition keeps holds after every call. -/
theorem throughout_of_eachCall {P : List ι → σ → Prop} {C : σ → ι → Prop} (h0 : P [] s₀)
    (hstep : ∀ made op s s', op ∈ ops → P made s → returns s op s' → C s op →
      P (made ++ [op]) s')
    (hc : EachCall returns C s₀ ops) : Throughout returns P s₀ ops := by
  intro made s hpre hrun
  induction hrun with
  | start => exact h0
  | call run step ih =>
    have hbefore := ih (prefix_of_concat hpre)
    exact hstep _ _ _ _ (mem_of_concat hpre) hbefore step (hc _ _ _ _ hpre run step)

/-- What a call keeps exactly when it meets the condition holds after every call exactly when each
call meets it; the calls that meet it keep an invariant. -/
theorem throughout_iff_eachCall {I P : List ι → σ → Prop} {C : σ → ι → Prop} (hI : I [] s₀)
    (hP : P [] s₀)
    (hstep : ∀ made op s s', op ∈ ops → I made s → P made s → returns s op s' →
      (P (made ++ [op]) s' ↔ C s op) ∧ (C s op → I (made ++ [op]) s')) :
    Throughout returns P s₀ ops ↔ EachCall returns C s₀ ops := by
  constructor
  · intro h
    have hI : Throughout returns I s₀ ops := by
      intro made s hpre hrun
      induction hrun with
      | start => exact hI
      | call run step ih =>
        have hpre' := prefix_of_concat hpre
        obtain ⟨hiff, hkeep⟩ :=
          hstep _ _ _ _ (mem_of_concat hpre) (ih hpre') (h _ _ hpre' run) step
        exact hkeep (hiff.mp (h _ _ hpre (run.call step)))
    intro made op s s' hpre hrun hs
    have hpre' := prefix_of_concat hpre
    have hiff := (hstep made op s s' (mem_of_concat hpre) (hI _ _ hpre' hrun)
      (h _ _ hpre' hrun) hs).1
    exact hiff.mp (h _ s' hpre (hrun.call hs))
  · intro hc
    have hboth : Throughout returns (fun made s => I made s ∧ P made s) s₀ ops := by
      refine throughout_of_eachCall ⟨hI, hP⟩ (fun made op s s' hop h hs hmeets => ?_) hc
      obtain ⟨hiff, hkeep⟩ := hstep made op s s' hop h.1 h.2 hs
      exact ⟨hkeep hmeets, hiff.mpr hmeets⟩
    exact fun made s hpre hrun => (hboth made s hpre hrun).2

end ResidentInference.Calls

import Mathlib.Computability.StateTransition
import Mathlib.Tactic.Common

/-! Runs of a deterministic transition function `f : σ → Option σ`, where `none` means that
the run has stopped: invariants, stopping by a measure, and bounded evaluation. -/
namespace ResidentInference.Runs
open StateTransition
variable {σ τ : Type*} {f : σ → Option σ}

/-- What holds at the start and is kept by every step holds in every reachable state. -/
theorem invariant {P : σ → Prop} {s t : σ} (h : Reaches f s t) (h0 : P s)
    (hstep : ∀ u v, Reaches f s u → P u → f u = some v → P v) : P t := by
  induction h with
  | refl => exact h0
  | tail hu hv ih => exact hstep _ _ hu ih hv

/-- Every state on the way of a run that stops is on the way to its last state. -/
theorem reaches_last {s t u : σ} (hu : u ∈ eval f s) (ht : Reaches f s t) : Reaches f t u := by
  rw [reaches_eval ht] at hu
  exact (mem_eval.mp hu).1

/-- A measure that every step from a state of the invariant lowers makes the run stop. -/
theorem exists_last {P : σ → Prop} (μ : σ → Nat)
    (hstep : ∀ s t, P s → f s = some t → P t ∧ μ t < μ s) (s : σ) (h : P s) :
    ∃ t, t ∈ eval f s ∧ P t := by
  induction hn : μ s using Nat.strongRecOn generalizing s with
  | _ n ih =>
    cases ht : f s with
    | none => exact ⟨s, mem_eval.mpr ⟨Relation.ReflTransGen.refl, ht⟩, h⟩
    | some t =>
      obtain ⟨hP, hlt⟩ := hstep s t h ht
      obtain ⟨u, hu, hPu⟩ := ih (μ t) (hn ▸ hlt) t hP rfl
      refine ⟨u, ?_, hPu⟩
      rwa [reaches_eval (Relation.ReflTransGen.single (Option.mem_def.mpr ht))]

/-- A run never stops from a state of an invariant that always allows another step. -/
theorem not_dom {P : σ → Prop} (hstep : ∀ s, P s → ∃ t, f s = some t ∧ P t) {s : σ} (h : P s) :
    ¬ (eval f s).Dom := by
  intro hdom
  obtain ⟨hreach, hstop⟩ := mem_eval.mp (Part.get_mem hdom)
  have hlast : P ((eval f s).get hdom) := by
    refine invariant hreach h fun u v _ hu huv => ?_
    obtain ⟨t, ht, hPt⟩ := hstep u hu
    rwa [Option.some.inj (huv.symm.trans ht)]
  obtain ⟨t, ht, -⟩ := hstep _ hlast
  rw [ht] at hstop
  cases hstop

/-- A transition function that goes on where another one stops runs as that one does, and then on
from where it stopped. -/
theorem eval_of_extends {f g : σ → Option σ}
    (h : ∀ s t, f s = some t → g s = some t) (s : σ) : eval g s = (eval f s).bind (eval g) := by
  apply Part.ext
  intro last
  rw [Part.mem_bind_iff]
  constructor
  · intro hlast
    obtain ⟨hreach, hstop⟩ := mem_eval.mp hlast
    induction hreach using Relation.ReflTransGen.head_induction_on with
    | refl =>
      have hnone : f last = none := by
        cases hf : f last with
        | none => rfl
        | some t => rw [h last t hf] at hstop; cases hstop
      exact ⟨last, mem_eval.mpr ⟨Relation.ReflTransGen.refl, hnone⟩, hlast⟩
    | @head u v hstep _ ih =>
      cases hf : f u with
      | none => exact ⟨u, mem_eval.mpr ⟨Relation.ReflTransGen.refl, hf⟩, hlast⟩
      | some t =>
        obtain rfl : t = v := Option.some.inj ((h u t hf).symm.trans (Option.mem_def.mp hstep))
        rw [reaches_eval (Relation.ReflTransGen.single hstep)] at hlast
        obtain ⟨w, hw, hrest⟩ := ih hlast
        refine ⟨w, ?_, hrest⟩
        rwa [reaches_eval (Relation.ReflTransGen.single (Option.mem_def.mpr hf))]
  · rintro ⟨u, hu, hlast⟩
    have hreach : Reaches g s u :=
      invariant (P := Reaches g s) (mem_eval.mp hu).1 Relation.ReflTransGen.refl
        fun v w _ hv hstep => hv.tail (Option.mem_def.mpr (h v w hstep))
    rwa [reaches_eval hreach]

/-- At most `n` steps from `s`. -/
def runFor (f : σ → Option σ) : Nat → σ → σ
  | 0, s => s
  | n+1, s => match f s with
    | none => s
    | some t => runFor f n t

theorem runFor_of_stopped {n : Nat} {s : σ} (h : f s = none) : runFor f n s = s := by
  cases n with
  | zero => rfl
  | succ n => rw [runFor, h]

/-- One step more, made at the end. -/
theorem runFor_succ (f : σ → Option σ) (n : Nat) (s : σ) :
    runFor f (n+1) s = (f (runFor f n s)).getD (runFor f n s) := by
  induction n generalizing s with
  | zero =>
    cases h : f s with
    | none => simp [runFor, h]
    | some t => simp [runFor, h]
  | succ n ih =>
    cases h : f s with
    | none => rw [runFor_of_stopped h, runFor_of_stopped h, h, Option.getD_none]
    | some t =>
      have hunfold (m : Nat) : runFor f (m+1) s = runFor f m t := by rw [runFor, h]
      rw [hunfold, hunfold, ih]

/-- A run that has stopped makes no more steps. -/
theorem runFor_of_le {n m : Nat} {s : σ} (hstop : f (runFor f n s) = none) (h : n ≤ m) :
    runFor f m s = runFor f n s := by
  induction m, h using Nat.le_induction with
  | base => rfl
  | succ m _ ih => rw [runFor_succ, ih, hstop, Option.getD_none]

theorem reaches_runFor (f : σ → Option σ) (n : Nat) (s : σ) : Reaches f s (runFor f n s) := by
  induction n generalizing s with
  | zero => exact Relation.ReflTransGen.refl
  | succ n ih =>
    unfold runFor
    split
    · exact Relation.ReflTransGen.refl
    · next t ht => exact Relation.ReflTransGen.head ht (ih t)

theorem mem_eval_runFor {n : Nat} {s : σ} (h : f (runFor f n s) = none) :
    runFor f n s ∈ eval f s := mem_eval.mpr ⟨reaches_runFor f n s, h⟩

/-- The states of a run that has stopped after `n` steps are those of its first `n` steps. -/
theorem exists_runFor {n : Nat} {s t : σ} (hstop : f (runFor f n s) = none) (h : Reaches f s t) :
    ∃ k ≤ n, t = runFor f k s := by
  induction n generalizing s with
  | zero =>
    cases Relation.ReflTransGen.cases_head h with
    | inl heq => exact ⟨0, le_rfl, heq.symm⟩
    | inr hnext =>
      obtain ⟨u, hu, _⟩ := hnext
      rw [Option.mem_def, show f s = none from hstop] at hu
      cases hu
  | succ n ih =>
    cases Relation.ReflTransGen.cases_head h with
    | inl heq => exact ⟨0, Nat.zero_le _, heq.symm⟩
    | inr hnext =>
      obtain ⟨u, hu, hrest⟩ := hnext
      have hfs : f s = some u := Option.mem_def.mp hu
      have hunfold : ∀ m, runFor f (m+1) s = runFor f m u := by
        intro m
        rw [runFor, hfs]
      rw [hunfold] at hstop
      obtain ⟨k, hk, heq⟩ := ih hstop hrest
      exact ⟨k+1, Nat.succ_le_succ hk, heq.trans (hunfold k).symm⟩

end ResidentInference.Runs

import ResidentInference.Interleaving
import Mathlib.Algebra.BigOperators.Group.Finset.Basic
import Mathlib.Algebra.Order.BigOperators.Group.Finset

/-! Schedules of interleaved processes, and their length when every process has a measure that its
own steps lower: such processes stop whatever the schedule. -/
namespace ResidentInference.Interleaving
variable {ι Λ Γ : Type*} [DecidableEq ι]

/-- One step of each process of the schedule, in its order, when all of them can be taken. -/
def runSchedule (body : ι → Λ → Γ → Option (Λ × Γ)) :
    List ι → Config ι Λ Γ → Option (Config ι Λ Γ)
  | [], c => some c
  | i :: schedule, c => (step body i c).bind (runSchedule body schedule)

/-- No process can take a step. -/
def Stopped (body : ι → Λ → Γ → Option (Λ × Γ)) (c : Config ι Λ Γ) : Prop :=
  ∀ i, body i (c.locals i) c.shared = none

variable {body : ι → Λ → Γ → Option (Λ × Γ)}

theorem step_eq_none_iff {i : ι} {c : Config ι Λ Γ} :
    step body i c = none ↔ body i (c.locals i) c.shared = none := by
  rw [step, Option.map_eq_none_iff]

theorem reaches_runSchedule {schedule : List ι} {c c' : Config ι Λ Γ}
    (h : runSchedule body schedule c = some c') : Reaches body c c' := by
  induction schedule generalizing c with
  | nil =>
    cases h
    exact Reaches.refl _
  | cons i schedule ih =>
    obtain ⟨d, hd, hrest⟩ := Option.bind_eq_some_iff.mp h
    exact Relation.ReflTransGen.head ⟨i, hd⟩ (ih hrest)

section
variable [Fintype ι] {μ : Λ → Nat}
  (hμ : ∀ i l g l' g', body i l g = some (l', g') → μ l' < μ l)
include hμ

/-- A step lowers the sum of the measures. -/
theorem sum_measure_lt {i : ι} {c c' : Config ι Λ Γ} (h : step body i c = some c') :
    ∑ j, μ (c'.locals j) < ∑ j, μ (c.locals j) := by
  obtain ⟨l, g, hbody, rfl⟩ := step_eq_some h
  refine Finset.sum_lt_sum (fun j _ => ?_) ⟨i, Finset.mem_univ i, ?_⟩
  · by_cases hj : j = i
    · subst hj
      simpa using (hμ j _ _ l g hbody).le
    · simp [hj]
  · simpa using hμ i _ _ l g hbody

/-- A schedule is no longer than the measures allow. -/
theorem length_schedule_le {schedule : List ι} {c c' : Config ι Λ Γ}
    (h : runSchedule body schedule c = some c') :
    schedule.length + ∑ j, μ (c'.locals j) ≤ ∑ j, μ (c.locals j) := by
  induction schedule generalizing c with
  | nil =>
    cases h
    simp
  | cons i schedule ih =>
    obtain ⟨d, hd, hrest⟩ := Option.bind_eq_some_iff.mp h
    have hlt := sum_measure_lt hμ hd
    have hle := ih hrest
    rw [List.length_cons]
    omega

/-- Every run can be continued until all processes have stopped. -/
theorem exists_stopped (c : Config ι Λ Γ) : ∃ c', Reaches body c c' ∧ Stopped body c' := by
  induction hn : ∑ j, μ (c.locals j) using Nat.strongRecOn generalizing c with
  | _ n ih =>
    by_cases hstop : Stopped body c
    · exact ⟨c, Reaches.refl c, hstop⟩
    · obtain ⟨i, hi⟩ := not_forall.mp hstop
      obtain ⟨d, hd⟩ := Option.ne_none_iff_exists'.mp (mt step_eq_none_iff.mp hi)
      obtain ⟨c', hreach, hstopped⟩ := ih _ (hn ▸ sum_measure_lt hμ hd) d rfl
      exact ⟨c', Relation.ReflTransGen.head ⟨i, hd⟩ hreach, hstopped⟩

end
end ResidentInference.Interleaving

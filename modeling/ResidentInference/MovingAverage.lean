import Mathlib.Algebra.Order.Ring.Defs
import Mathlib.Order.Interval.Set.Basic
import Mathlib.Order.Lattice
import Mathlib.Tactic.GCongr
import Mathlib.Tactic.Ring

/-! Exponential moving averages over an ordered ring, and the choice between three levels by two
thresholds. -/
namespace ResidentInference.MovingAverage

section
variable {K : Type*} [CommRing K]

def average (α x e : K) : K := α * x + (1 - α) * e

theorem average_self (α e : K) : average α e e = e := by
  rw [average]
  ring

/-- The average after the samples `xs`. -/
def averages (α : K) (xs : List K) (e : K) : K := xs.foldl (fun e x => average α x e) e

variable [LinearOrder K] [IsStrictOrderedRing K] {α : K}

theorem average_mono (hα : α ∈ Set.Icc 0 1) {x x' e e' : K} (hx : x ≤ x') (he : e ≤ e') :
    average α x e ≤ average α x' e' := by
  have hnew := mul_le_mul_of_nonneg_left hx hα.1
  have hold := mul_le_mul_of_nonneg_left he (sub_nonneg.mpr hα.2)
  exact add_le_add hnew hold

/-- An average lies between the bounds of its two arguments. -/
theorem average_mem (hα : α ∈ Set.Icc 0 1) {a b x e : K} (hx : x ∈ Set.Icc a b)
    (he : e ∈ Set.Icc a b) : average α x e ∈ Set.Icc a b := by
  constructor
  · calc
      a = average α a a := (average_self α a).symm
      _ ≤ average α x e := average_mono hα hx.1 he.1
  · calc
      average α x e ≤ average α b b := average_mono hα hx.2 he.2
      _ = b := average_self α b

theorem averages_mem (hα : α ∈ Set.Icc 0 1) {a b : K} {xs : List K} (hx : ∀ x ∈ xs, x ∈ Set.Icc a b)
    {e : K} (he : e ∈ Set.Icc a b) : averages α xs e ∈ Set.Icc a b :=
  List.foldlRecOn xs _ he fun _ he x hm => average_mem hα (hx x hm) he

theorem averages_mono (hα : α ∈ Set.Icc 0 1) {xs xs' : List K} (hx : List.Forall₂ (· ≤ ·) xs xs')
    {e e' : K} (he : e ≤ e') : averages α xs e ≤ averages α xs' e' := by
  induction hx generalizing e e' with
  | nil => exact he
  | cons hx _ ih => exact ih (average_mono hα hx he)

end

section
variable {K β : Type*} [LinearOrder K] [LinearOrder β] {bottom middle top : β}

/-- The level of `x` for the thresholds `high` and `low`, the first of which is looked at first. -/
def level (high low : K) (bottom middle top : β) (x : K) : β :=
  if high ≤ x then top else if low ≤ x then middle else bottom

theorem level_mem (high low x : K) (hlow : bottom ≤ middle) (hhigh : middle ≤ top) :
    level high low bottom middle top x ∈ Set.Icc bottom top := by
  unfold level
  split
  · exact ⟨hlow.trans hhigh, le_rfl⟩
  · split
    · exact ⟨hlow, hhigh⟩
    · exact ⟨le_rfl, hlow.trans hhigh⟩

/-- The thresholds may be in either order. -/
theorem level_mono (high low : K) (hlow : bottom ≤ middle) (hhigh : middle ≤ top) :
    Monotone (level high low bottom middle top) := by
  intro x y hxy
  by_cases hy : high ≤ y
  · rw [level, level, if_pos hy]
    exact (level_mem high low x hlow hhigh).2
  · have hx : ¬ high ≤ x := fun h => hy (h.trans hxy)
    rw [level, level, if_neg hy, if_neg hx]
    by_cases hx' : low ≤ x
    · rw [if_pos hx', if_pos (hx'.trans hxy)]
    · rw [if_neg hx']
      split
      · exact hlow
      · exact le_rfl

/-- A level cut off at `cap`, but not below `bottom`. -/
def capped (cap : Option β) (bottom x : β) : β := max (cap.elim x (min x)) bottom

theorem capped_mem (cap : Option β) {x : β} (hx : x ∈ Set.Icc bottom top) :
    capped cap bottom x ∈ Set.Icc bottom top := by
  refine ⟨le_max_right _ _, max_le ?_ (hx.1.trans hx.2)⟩
  cases cap with
  | none => exact hx.2
  | some b => exact (min_le_left _ _).trans hx.2

theorem capped_le (cap bottom x : β) : capped (some cap) bottom x ≤ max cap bottom :=
  max_le_max_right _ (min_le_right _ _)

theorem capped_mono (cap : Option β) (bottom : β) : Monotone (capped cap bottom) := by
  intro x y hxy
  refine max_le_max_right _ ?_
  cases cap with
  | none => exact hxy
  | some b => exact min_le_min_right _ hxy

end
end ResidentInference.MovingAverage

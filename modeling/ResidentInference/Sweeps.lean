import Mathlib.Data.List.Nodup
import Mathlib.Logic.Function.Basic
import Mathlib.Tactic.Common

/-! Sweeps over cells `Int → α` under a budget: a loop that acts on the cells that qualify, one unit
of its budget for each, until the budget is gone. -/
namespace ResidentInference.Sweeps
variable {σ α : Type*}

/-- The cells that a sweep acts on: the first that qualify, as many as the budget allows. -/
def targets (p : Int → α → Bool) (cells : Int → α) (is : List Int) (budget : Int) : List Int :=
  (is.filter fun i => p i (cells i)).take budget.toNat

section
variable {p : Int → α → Bool} {cells cells' : Int → α} {is : List Int} {budget : Int}

theorem targets_congr (h : ∀ i ∈ is, cells i = cells' i) :
    targets p cells is budget = targets p cells' is budget := by
  simp only [targets]
  congr 1
  exact List.filter_congr fun i hi => by rw [h i hi]

theorem targets_of_nonpos (h : budget ≤ 0) : targets p cells is budget = [] := by
  simp [targets, Int.toNat_of_nonpos h]

theorem mem_of_mem_targets {i : Int} (h : i ∈ targets p cells is budget) :
    i ∈ is ∧ p i (cells i) = true :=
  List.mem_filter.mp (List.mem_of_mem_take h)

theorem length_targets (p : Int → α → Bool) (cells : Int → α) (is : List Int) (budget : Int) :
    (targets p cells is budget).length =
      min budget.toNat (is.filter fun i => p i (cells i)).length :=
  List.length_take

/-- A budget that is not used up reaches every cell that qualifies. -/
theorem mem_targets_of_lt (h : ((targets p cells is budget).length : Int) < budget) {i : Int}
    (hi : i ∈ is) (hp : p i (cells i) = true) : i ∈ targets p cells is budget := by
  rw [length_targets] at h
  have hall : (is.filter fun i => p i (cells i)).length ≤ budget.toNat := by omega
  rw [targets, List.take_of_length_le hall]
  exact List.mem_filter.mpr ⟨hi, hp⟩

end

/-- One step of a sweep. -/
structure IsSweep (cells : σ → Int → α) (budget : σ → Int) (p : Int → α → Bool) (f : α → α)
    (step : σ → Int → σ) : Prop where
  skip : ∀ s i, budget s ≤ 0 ∨ p i (cells s i) = false →
    cells (step s i) = cells s ∧ budget (step s i) = budget s
  act : ∀ s i, 0 < budget s → p i (cells s i) = true →
    cells (step s i) = Function.update (cells s) i (f (cells s i)) ∧
      budget (step s i) = budget s - 1

section
variable {cells : σ → Int → α} {budget : σ → Int} {p : Int → α → Bool} {f : α → α}
  {step : σ → Int → σ}

/-- A sweep over distinct cells acts on its targets and pays for each of them. -/
theorem IsSweep.foldl (h : IsSweep cells budget p f step) {is : List Int} (hnd : is.Nodup) (s : σ) :
    (∀ j, cells (is.foldl step s) j =
        if j ∈ targets p (cells s) is (budget s) then f (cells s j) else cells s j) ∧
      budget (is.foldl step s) =
        budget s - (targets p (cells s) is (budget s)).length := by
  induction is generalizing s with
  | nil => simp [targets]
  | cons i is ih =>
    obtain ⟨hi, hnd⟩ := List.nodup_cons.mp hnd
    obtain ⟨hcells, hbudget⟩ := ih hnd (step s i)
    rw [List.foldl_cons]
    by_cases hacts : 0 < budget s ∧ p i (cells s i) = true
    · obtain ⟨hpos, hp⟩ := hacts
      obtain ⟨hstep, hpay⟩ := h.act s i hpos hp
      have hrest : targets p (cells (step s i)) is (budget (step s i)) =
          targets p (cells s) is (budget s - 1) := by
        rw [hpay]
        refine targets_congr fun j hj => ?_
        have hne : j ≠ i := fun hji => hi (hji ▸ hj)
        rw [hstep, Function.update_of_ne hne]
      have hcons : targets p (cells s) (i :: is) (budget s) =
          i :: targets p (cells s) is (budget s - 1) := by
        have hunits : (budget s).toNat = (budget s - 1).toNat + 1 := by omega
        rw [targets, List.filter_cons, if_pos hp, hunits, List.take_succ_cons, targets]
      rw [hrest] at hcells hbudget
      rw [hcons]
      refine ⟨fun j => ?_, ?_⟩
      · rw [hcells j, hstep]
        by_cases hji : j = i
        · subst hji
          have hout : j ∉ targets p (cells s) is (budget s - 1) := fun hj =>
            hi (mem_of_mem_targets hj).1
          simp [hout]
        · simp [hji]
      · rw [hbudget, hpay, List.length_cons]
        omega
    · have hskip : budget s ≤ 0 ∨ p i (cells s i) = false := by
        by_cases hpos : 0 < budget s
        · exact Or.inr (eq_false_of_ne_true fun hp => hacts ⟨hpos, hp⟩)
        · exact Or.inl (Int.not_lt.mp hpos)
      obtain ⟨hstep, hpay⟩ := h.skip s i hskip
      have hcons : targets p (cells s) (i :: is) (budget s) =
          targets p (cells s) is (budget s) := by
        obtain hle | hp := hskip
        · rw [targets_of_nonpos hle, targets_of_nonpos hle]
        · rw [targets, List.filter_cons, if_neg (by simp [hp]), targets]
      rw [hstep, hpay] at hcells hbudget
      rw [hcons]
      exact ⟨hcells, hbudget⟩

/-- A sweep that ends with some of its budget has acted on every cell that qualified. -/
theorem IsSweep.mem_targets_of_left (h : IsSweep cells budget p f step) {is : List Int}
    (hnd : is.Nodup) {s : σ} (hleft : 0 < budget (is.foldl step s)) {i : Int} (hi : i ∈ is)
    (hp : p i (cells s i) = true) : i ∈ targets p (cells s) is (budget s) := by
  have hpaid := (h.foldl hnd s).2
  exact mem_targets_of_lt (by omega) hi hp

end
end ResidentInference.Sweeps

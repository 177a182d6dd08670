import Mathlib.Algebra.Order.Floor.Semiring
import Mathlib.Data.List.Sort
import Mathlib.Tactic.Linarith

/-! Linear interpolation between the values of a sequence, over an ordered ring with a floor, and
lists read as sequences that stay at their last element. -/
namespace ResidentInference.Interpolation

section
variable {K : Type*} [Ring K] [LinearOrder K] [FloorSemiring K]

/-- The sequence `s` at `x`, on the line from the value before to the value after it. -/
def interpolate (s : ℕ → K) (x : K) : K :=
  s ⌊x⌋₊ + (x - ⌊x⌋₊) * (s (⌊x⌋₊+1) - s ⌊x⌋₊)

variable [IsStrictOrderedRing K] {s : ℕ → K} {x y : K}

theorem interpolate_natCast (s : ℕ → K) (n : ℕ) : interpolate s n = s n := by
  rw [interpolate, Nat.floor_natCast, sub_self, zero_mul, add_zero]

theorem le_interpolate (hs : Monotone s) (hx : 0 ≤ x) : s ⌊x⌋₊ ≤ interpolate s x := by
  have hpart : 0 ≤ x - ⌊x⌋₊ := sub_nonneg.mpr (Nat.floor_le hx)
  have hrise : 0 ≤ s (⌊x⌋₊+1) - s ⌊x⌋₊ := sub_nonneg.mpr (hs (Nat.le_succ _))
  exact le_add_of_nonneg_right (mul_nonneg hpart hrise)

theorem interpolate_le (hs : Monotone s) (x : K) : interpolate s x ≤ s (⌊x⌋₊+1) := by
  have hpart : x - ⌊x⌋₊ ≤ 1 := sub_le_iff_le_add'.mpr (Nat.lt_floor_add_one x).le
  have hrise : 0 ≤ s (⌊x⌋₊+1) - s ⌊x⌋₊ := sub_nonneg.mpr (hs (Nat.le_succ _))
  calc
    interpolate s x ≤ s ⌊x⌋₊ + (s (⌊x⌋₊+1) - s ⌊x⌋₊) :=
      add_le_add_right (mul_le_of_le_one_left hrise hpart) _
    _ = s (⌊x⌋₊+1) := add_sub_cancel _ _

/-- Within one segment the lines rise; between two segments a value of the sequence lies between. -/
theorem interpolate_mono (hs : Monotone s) (hx : 0 ≤ x) (hxy : x ≤ y) :
    interpolate s x ≤ interpolate s y := by
  obtain hlt | hsame := (Nat.floor_le_floor hxy).lt_or_eq
  · calc
      interpolate s x ≤ s (⌊x⌋₊+1) := interpolate_le hs x
      _ ≤ s ⌊y⌋₊ := hs hlt
      _ ≤ interpolate s y := le_interpolate hs (hx.trans hxy)
  · have hrise : 0 ≤ s (⌊y⌋₊+1) - s ⌊y⌋₊ := sub_nonneg.mpr (hs (Nat.le_succ _))
    rw [interpolate, interpolate, hsame]
    exact add_le_add_right (mul_le_mul_of_nonneg_right (sub_le_sub_right hxy _) hrise) _

end

section
variable {α : Type*} {xs : List α}

/-- The elements of a list, and its last one from there on. -/
def held (xs : List α) (hne : xs ≠ []) (i : ℕ) : α :=
  xs.get ⟨min i (xs.length-1), by
    have hpos := List.length_pos_iff.mpr hne
    omega⟩

theorem getElem?_eq_held (hne : xs ≠ []) {i : ℕ} (hi : i < xs.length) :
    xs[i]? = some (held xs hne i) := by
  have hmin : min i (xs.length-1) = i := by omega
  simp only [held, List.get_eq_getElem, hmin, List.getElem?_eq_getElem hi]

theorem held_of_le (hne : xs ≠ []) {i : ℕ} (hi : xs.length ≤ i+1) :
    held xs hne (i+1) = held xs hne i := by
  have hmin : min (i+1) (xs.length-1) = min i (xs.length-1) := by omega
  simp only [held, hmin]

theorem held_mem (hne : xs ≠ []) (i : ℕ) : held xs hne i ∈ xs := List.get_mem _ _

theorem exists_held_eq (hne : xs ≠ []) {x : α} (hx : x ∈ xs) :
    ∃ i, i < xs.length ∧ held xs hne i = x := by
  obtain ⟨i, hi, rfl⟩ := List.getElem_of_mem hx
  have hmin : min i (xs.length-1) = i := by omega
  exact ⟨i, hi, by simp only [held, List.get_eq_getElem, hmin]⟩

theorem held_mono [Preorder α] (hne : xs ≠ []) (hsorted : xs.SortedLE) :
    Monotone (held xs hne) := by
  intro i j hij
  have hle : min i (xs.length-1) ≤ min j (xs.length-1) := min_le_min_right _ hij
  exact hsorted.monotone_get hle

end

section
variable {α : Type*} [LinearOrder α] {xs ys : List α}

/-- A list put in order starts with its least element. -/
theorem held_zero (hne : xs ≠ []) (hsorted : xs.SortedLE) (hperm : xs.Perm ys) (hne' : ys ≠ []) :
    held xs hne 0 = ys.min hne' := by
  symm
  rw [List.min_eq_iff]
  refine ⟨hperm.mem_iff.mp (held_mem hne 0), fun x hx => ?_⟩
  obtain ⟨i, -, rfl⟩ := exists_held_eq hne (hperm.mem_iff.mpr hx)
  exact held_mono hne hsorted (Nat.zero_le i)

theorem held_last (hne : xs ≠ []) (hsorted : xs.SortedLE) (hperm : xs.Perm ys) (hne' : ys ≠ []) :
    held xs hne (xs.length-1) = ys.max hne' := by
  symm
  rw [List.max_eq_iff]
  refine ⟨hperm.mem_iff.mp (held_mem hne _), fun x hx => ?_⟩
  obtain ⟨i, hi, rfl⟩ := exists_held_eq hne (hperm.mem_iff.mpr hx)
  exact held_mono hne hsorted (Nat.le_pred_of_lt hi)

end

end ResidentInference.Interpolation

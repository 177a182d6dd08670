import Mathlib.Data.List.Range
import Mathlib.Tactic.Linarith
import Mathlib.Tactic.Ring

/-! Integer ceiling division, half-open integer ranges, slices `xs[:k]` and elements `xs[i]`, with
the conventions for negative arguments that the source language has. -/
namespace ResidentInference

/-- The ceiling of `a / b`. The source divides as doubles before it rounds up; the two
agree for every `a` below 2^53. -/
def ceilDiv (a b : Int) : Int := -((-a).fdiv b)

theorem ceilDiv_le_iff {a b k : Int} (hb : 0 < b) : ceilDiv a b ≤ k ↔ a ≤ k * b := by
  rw [ceilDiv, Int.fdiv_eq_ediv_of_nonneg _ hb.le, neg_le, Int.le_ediv_iff_mul_le hb]
  constructor
  · intro h
    linarith [neg_mul k b]
  · intro h
    linarith [neg_mul k b]

theorem le_ceilDiv_mul {a b : Int} (hb : 0 < b) : a ≤ ceilDiv a b * b :=
  (ceilDiv_le_iff hb).mp le_rfl

theorem lt_ceilDiv_iff {a b k : Int} (hb : 0 < b) : k < ceilDiv a b ↔ k * b < a := by
  rw [← not_le, ceilDiv_le_iff hb, not_le]

theorem ceilDiv_pos {a b : Int} (hb : 0 < b) : 0 < ceilDiv a b ↔ 0 < a := by
  rw [lt_ceilDiv_iff hb, zero_mul]

theorem ceilDiv_mono {a a' b : Int} (hb : 0 < b) (h : a ≤ a') : ceilDiv a b ≤ ceilDiv a' b :=
  (ceilDiv_le_iff hb).mpr (h.trans (le_ceilDiv_mul hb))

theorem ceilDiv_sub_mul {a b k : Int} (hb : 0 < b) :
    ceilDiv (a - k * b) b = ceilDiv a b - k := by
  apply le_antisymm
  · rw [ceilDiv_le_iff hb, sub_mul]
    linarith [le_ceilDiv_mul (a := a) hb]
  · have h := le_ceilDiv_mul (a := a - k * b) hb
    have h' : ceilDiv a b ≤ ceilDiv (a - k * b) b + k := by
      rw [ceilDiv_le_iff hb, add_mul]
      linarith
    linarith

theorem ceilDiv_nonneg {a b : Int} (hb : 0 < b) (ha : 0 ≤ a) : 0 ≤ ceilDiv a b := by
  by_contra hneg
  have hle : a ≤ -1 * b := (ceilDiv_le_iff hb).mp (by omega)
  omega

/-- Whole pieces of size `b` make up `a` exactly if `b` divides it. -/
theorem ceilDiv_mul_eq_iff {a b : Int} (hb : 0 < b) : ceilDiv a b * b = a ↔ b ∣ a := by
  constructor
  · intro h
    exact ⟨ceilDiv a b, by rw [mul_comm, h]⟩
  · rintro ⟨k, rfl⟩
    rw [mul_comm b k]
    have hk : ceilDiv (k * b) b = k :=
      le_antisymm ((ceilDiv_le_iff hb).mpr le_rfl)
        (le_of_mul_le_mul_right (le_ceilDiv_mul hb) hb)
    rw [hk]

/-- A positive quantity divided by a non-positive size rounds up to at most zero. -/
theorem ceilDiv_nonpos {a b : Int} (ha : 0 < a) (hb : b ≤ 0) : ceilDiv a b ≤ 0 := by
  obtain hb | rfl := hb.lt_or_eq
  · rw [ceilDiv, Int.neg_le_zero_iff]
    exact Int.fdiv_nonneg_of_nonpos_of_nonpos (by omega) hb.le
  · simp [ceilDiv]

/-- The integers from `a` up to but not including `b`. -/
def intRange (a b : Int) : List Int := (List.range (b - a).toNat).map fun i : Nat => a + i

@[simp] theorem length_intRange (a b : Int) : (intRange a b).length = (b - a).toNat := by
  simp [intRange]

theorem intRange_of_le {a b : Int} (h : b ≤ a) : intRange a b = [] := by
  simp [intRange, Int.toNat_of_nonpos (by omega : b - a ≤ 0)]

theorem mem_intRange {a b x : Int} : x ∈ intRange a b ↔ a ≤ x ∧ x < b := by
  simp only [intRange, List.mem_map, List.mem_range]
  constructor
  · rintro ⟨i, hi, rfl⟩
    omega
  · rintro ⟨h1, h2⟩
    exact ⟨(x - a).toNat, by omega, by omega⟩

theorem intRange_append {a b c : Int} (hab : a ≤ b) (hbc : b ≤ c) :
    intRange a b ++ intRange b c = intRange a c := by
  have hn : (c - a).toNat = (b - a).toNat + (c - b).toNat := by omega
  simp only [intRange, hn, List.range_add, List.map_append, List.map_map]
  congr 1
  apply List.map_congr_left
  intro i _
  simp only [Function.comp_apply, Nat.cast_add]
  omega

/-- The slice `xs[:k]`; a negative `k` counts from the end. -/
def sliceTo {α : Type*} (xs : List α) (k : Int) : List α :=
  if 0 ≤ k then xs.take k.toNat else xs.take (xs.length + k).toNat

theorem sliceTo_of_nonneg {α : Type*} (xs : List α) {k : Int} (h : 0 ≤ k) :
    sliceTo xs k = xs.take k.toNat := if_pos h

/-- The element `xs[i]`; a negative `i` counts from the end. There is `none` where the index is out
of range. -/
def itemAt {α : Type*} (xs : List α) (i : Int) : Option α :=
  if 0 ≤ i then xs[i.toNat]?
  else if 0 ≤ xs.length + i then xs[(xs.length + i).toNat]? else none

theorem itemAt_natCast {α : Type*} (xs : List α) (i : Nat) : itemAt xs i = xs[i]? :=
  if_pos (Int.natCast_nonneg i)

end ResidentInference

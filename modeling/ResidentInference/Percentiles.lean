import ResidentInference.Arith
import ResidentInference.Interpolation
import Mathlib.Data.Rat.Floor
import Mathlib.Tactic.NormNum
import Mathlib.Tactic.Positivity

/-! The percentiles of the benchmark's latencies. In exact arithmetic they are the sorted values
with the lines between them, which never fall. -/
namespace ResidentInference
open Interpolation

/-- The number without its fraction. -/
def truncate (x : ℚ) : Int := if 0 ≤ x then ⌊x⌋ else ⌈x⌉

theorem truncate_of_nonneg {x : ℚ} (hx : 0 ≤ x) : truncate x = ⌊x⌋₊ := by
  rw [truncate, if_pos hx, Int.natCast_floor_eq_floor hx]

namespace BenchmarkRunner

def sortedVals (values : List ℚ) : List ℚ := values.insertionSort (· ≤ ·)

/-- `BenchmarkRunner._percentile`, `none` where an index is out of range. The source computes with
doubles; `rnd` rounds. -/
def percentile (rnd : ℚ → ℚ) (values : List ℚ) (pct : ℚ) : Option ℚ :=
  if values = [] then some 0
  else
    let sorted := sortedVals values
    let k := rnd (rnd ((sorted.length - 1) * pct) / 100)
    let f := truncate k
    let c := f + 1
    if c ≥ sorted.length then itemAt sorted f
    else do
      let lower ← itemAt sorted f
      let upper ← itemAt sorted c
      return rnd (lower + rnd (rnd (k - f) * rnd (upper - lower)))

variable {values values' : List ℚ} {p q : ℚ}

theorem sortedVals_perm (values : List ℚ) : (sortedVals values).Perm values :=
  List.perm_insertionSort _ values

theorem sortedVals_sorted (values : List ℚ) : (sortedVals values).SortedLE :=
  List.sortedLE_insertionSort

theorem length_sortedVals (values : List ℚ) : (sortedVals values).length = values.length :=
  (sortedVals_perm values).length_eq

theorem sortedVals_ne_nil (hne : values ≠ []) : sortedVals values ≠ [] := by
  have hpos := List.length_pos_iff.mpr hne
  rwa [← length_sortedVals, List.length_pos_iff] at hpos

/-- There is one way to sort. -/
theorem sortedVals_congr (h : values'.Perm values) : sortedVals values' = sortedVals values := by
  have hperm : (sortedVals values').Perm (sortedVals values) :=
    (sortedVals_perm values').trans (h.trans (sortedVals_perm values).symm)
  exact hperm.eq_of_pairwise' (sortedVals_sorted values').pairwise
    (sortedVals_sorted values).pairwise

theorem percentile_congr (rnd : ℚ → ℚ) (h : values'.Perm values) (pct : ℚ) :
    percentile rnd values' pct = percentile rnd values pct := by
  have hnil : values' = [] ↔ values = [] := by
    rw [← List.length_eq_zero_iff, ← List.length_eq_zero_iff, h.length_eq]
  simp only [percentile, sortedVals_congr h, hnil]

/-! ### The position in the sorted list -/

/-- Where the percentile lies in the sorted list. -/
def position (values : List ℚ) (pct : ℚ) : ℚ := (values.length - 1) * pct / 100

theorem cast_pred_length (hne : values ≠ []) :
    ((values.length - 1 : Nat) : ℚ) = values.length - 1 :=
  Nat.cast_pred (List.length_pos_iff.mpr hne)

theorem position_zero (values : List ℚ) : position values 0 = (0 : Nat) := by
  rw [position, mul_zero, zero_div, Nat.cast_zero]

theorem position_hundred (hne : values ≠ []) :
    position values 100 = (values.length - 1 : Nat) := by
  rw [position, cast_pred_length hne, mul_div_assoc, div_self (by norm_num), mul_one]

theorem position_mono (hne : values ≠ []) (hpq : p ≤ q) :
    position values p ≤ position values q := by
  have hlast : (0 : ℚ) ≤ values.length - 1 := cast_pred_length hne ▸ Nat.cast_nonneg _
  rw [position, position]
  gcongr

theorem position_nonneg (hne : values ≠ []) (hp : 0 ≤ p) : 0 ≤ position values p := by
  have h := position_mono hne hp
  rwa [position_zero, Nat.cast_zero] at h

theorem floor_position_lt (hne : values ≠ []) (hq : q ≤ 100) :
    ⌊position values q⌋₊ < values.length := by
  have hpos := List.length_pos_iff.mpr hne
  have h := position_mono hne hq
  rw [position_hundred hne] at h
  have hfloor := Nat.floor_le_of_le h
  omega

/-! ### The sorted values with the lines between them -/

def curve (values : List ℚ) (hne : values ≠ []) (pct : ℚ) : ℚ :=
  interpolate (held (sortedVals values) (sortedVals_ne_nil hne)) (position values pct)

theorem curve_zero (hne : values ≠ []) : curve values hne 0 = values.min hne := by
  rw [curve, position_zero, interpolate_natCast,
    held_zero _ (sortedVals_sorted values) (sortedVals_perm values) hne]

theorem curve_hundred (hne : values ≠ []) : curve values hne 100 = values.max hne := by
  rw [curve, position_hundred hne, interpolate_natCast, ← length_sortedVals,
    held_last _ (sortedVals_sorted values) (sortedVals_perm values) hne]

theorem curve_mono (hne : values ≠ []) (hp : 0 ≤ p) (hpq : p ≤ q) :
    curve values hne p ≤ curve values hne q :=
  interpolate_mono (held_mono _ (sortedVals_sorted values)) (position_nonneg hne hp)
    (position_mono hne hpq)

/-- The two reads of the source are the ends of the segment that the position lies in; past the
last element there is nothing to add. -/
theorem percentile_eq (hne : values ≠ []) (hp : 0 ≤ p) (hq : p ≤ 100) :
    percentile id values p = some (curve values hne p) := by
  have hf : truncate (position values p) = ⌊position values p⌋₊ :=
    truncate_of_nonneg (position_nonneg hne hp)
  have hlt : ⌊position values p⌋₊ < (sortedVals values).length :=
    (floor_position_lt hne hq).trans_eq (length_sortedVals values).symm
  have hk : ((sortedVals values).length - 1) * p / 100 = position values p := by
    rw [position, length_sortedVals]
  have hlower := getElem?_eq_held (sortedVals_ne_nil hne) hlt
  simp only [percentile, if_neg hne, id_eq, hk, hf]
  rw [itemAt_natCast, ← Nat.cast_succ, itemAt_natCast, hlower]
  split
  · next hlast =>
    rw [curve, interpolate, held_of_le _ (by omega), sub_self, mul_zero, add_zero]
  · next hinner =>
    have hupper := getElem?_eq_held (sortedVals_ne_nil hne) (not_le.mp (mt Int.ofNat_le.mpr hinner))
    rw [hupper, curve, interpolate]
    rfl

example : percentile id [3, 1, 1] 60 = some (7 / 5) := by decide +kernel

/-- The three percentiles of a record are in order, also when no latency was measured. -/
theorem percentile_columns (itls : List ℚ) :
    ∃ p50 p95 p99, percentile id itls 50 = some p50 ∧ percentile id itls 95 = some p95 ∧
      percentile id itls 99 = some p99 ∧ p50 ≤ p95 ∧ p95 ≤ p99 := by
  by_cases hne : itls = []
  · subst hne
    exact ⟨0, 0, 0, rfl, rfl, rfl, le_rfl, le_rfl⟩
  · have h50 := percentile_eq hne (p := 50) (by norm_num) (by norm_num)
    have h95 := percentile_eq hne (p := 95) (by norm_num) (by norm_num)
    have h99 := percentile_eq hne (p := 99) (by norm_num) (by norm_num)
    exact ⟨_, _, _, h50, h95, h99, curve_mono hne (by norm_num) (by norm_num),
      curve_mono hne (by norm_num) (by norm_num)⟩

/-- The percentiles of a non-empty list exist, lie between its least and its largest value, rise
with the percentage and do not depend on how the list is arranged. -/
theorem percentile_ordered (hne : values ≠ []) (hp : 0 ≤ p) (hpq : p ≤ q) (hq : q ≤ 100) :
    (∃ a b, percentile id values p = some a ∧ percentile id values q = some b ∧
        values.min hne ≤ a ∧ a ≤ b ∧ b ≤ values.max hne) ∧
      ∀ values', values'.Perm values →
        percentile id values' p = percentile id values p ∧
          percentile id values' q = percentile id values q := by
  have hleast : values.min hne ≤ curve values hne p := by
    rw [← curve_zero hne]
    exact curve_mono hne le_rfl hp
  have hmost : curve values hne q ≤ values.max hne := by
    rw [← curve_hundred hne]
    exact curve_mono hne (hp.trans hpq) hq
  constructor
  · exact ⟨_, _, percentile_eq hne hp (hpq.trans hq), percentile_eq hne (hp.trans hpq) hq, hleast,
      curve_mono hne hp hpq, hmost⟩
  · intro values' hperm
    exact ⟨percentile_congr id hperm p, percentile_congr id hperm q⟩

theorem percentile_ordered_ties :
    let values : List ℚ := [3, 1, 1]
    (∃ a b, percentile id values 40 = some a ∧ percentile id values 60 = some b ∧
        values.min (List.cons_ne_nil _ _) ≤ a ∧ a ≤ b ∧ b ≤ values.max (List.cons_ne_nil _ _)) ∧
      ∀ values', values'.Perm values →
        percentile id values' 40 = percentile id values 40 ∧
          percentile id values' 60 = percentile id values 60 :=
  percentile_ordered (List.cons_ne_nil _ _) (by norm_num) (by norm_num) (by norm_num)

end BenchmarkRunner
end ResidentInference

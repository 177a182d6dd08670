import Mathlib.Algebra.Order.Round
import Mathlib.Algebra.Order.AbsoluteValue.Basic
import Mathlib.Algebra.Ring.Int.Parity
import Mathlib.Tactic.Linarith
import Mathlib.Tactic.Positivity
import Mathlib.Tactic.Ring

/-! Symmetric quantisation of a row by its largest magnitude, over any ordered field with a floor:
the error of one round trip, and that a second one changes nothing. Rows whose largest magnitude
is under a threshold are flushed to zero. -/
namespace ResidentInference.Quantization
variable {K : Type*} [Field K] [LinearOrder K]

/-! ### The largest magnitude -/

/-- The largest magnitude of a row, zero for an empty one. -/
def maxAbs (row : List K) : K := row.foldr (fun x m => max |x| m) 0

theorem maxAbs_nonneg (row : List K) : 0 ≤ maxAbs row := by
  induction row with
  | nil => exact le_rfl
  | cons x row ih => exact le_max_of_le_right ih

theorem abs_le_maxAbs {row : List K} {x : K} (h : x ∈ row) : |x| ≤ maxAbs row := by
  induction row with
  | nil => cases h
  | cons y row ih =>
    obtain rfl | h := List.mem_cons.mp h
    · exact le_max_left _ _
    · exact le_max_of_le_right (ih h)

theorem maxAbs_le {row : List K} {m : K} (hm : 0 ≤ m) (h : ∀ x ∈ row, |x| ≤ m) :
    maxAbs row ≤ m := by
  induction row with
  | nil => exact hm
  | cons x row ih =>
    rw [List.forall_mem_cons] at h
    exact max_le h.1 (ih h.2)

theorem exists_abs_eq_maxAbs {row : List K} (h : 0 < maxAbs row) : ∃ x ∈ row, |x| = maxAbs row := by
  induction row with
  | nil => exact absurd h (lt_irrefl 0)
  | cons x row ih =>
    have hcons : maxAbs (x :: row) = max |x| (maxAbs row) := rfl
    obtain hle | hlt := le_or_gt (maxAbs row) |x|
    · exact ⟨x, List.mem_cons_self, by rw [hcons, max_eq_left hle]⟩
    · rw [hcons, max_eq_right hlt.le] at h ⊢
      obtain ⟨y, hy, heq⟩ := ih h
      exact ⟨y, List.mem_cons_of_mem x hy, heq⟩

/-! ### Definitions -/

/-- The step between two quantised values: `n` steps reach the largest magnitude of the row. -/
def scale (n : ℤ) (ε : K) (row : List K) : K := if maxAbs row < ε then 1 else maxAbs row / n

theorem scale_of_lt {n : ℤ} {ε : K} {row : List K} (hrow : maxAbs row < ε) : scale n ε row = 1 :=
  if_pos hrow

variable [FloorRing K]

/-- The nearest integer, the even one where there are two. -/
def roundHalfEven (x : K) : ℤ :=
  if Int.fract x < 1 / 2 ∨ Int.fract x = 1 / 2 ∧ Even ⌊x⌋ then ⌊x⌋ else ⌊x⌋ + 1

def clip (n k : ℤ) : ℤ := min (max k (-n)) n

theorem clip_of_abs_le {n k : ℤ} (h : |k| ≤ n) : clip n k = k := by
  obtain ⟨hlow, hhigh⟩ := abs_le.mp h
  rw [clip, max_eq_left hlow, min_eq_left hhigh]

def quantize (n : ℤ) (s x : K) : ℤ := clip n (roundHalfEven (x / s))

def quantizeRow (n : ℤ) (ε : K) (row : List K) : List ℤ := row.map (quantize n (scale n ε row))

def restoreRow (s : K) (qs : List ℤ) : List K := qs.map fun q : ℤ => (q : K) * s

/-- A row quantised and restored. -/
def roundTrip (n : ℤ) (ε : K) (row : List K) : List K :=
  restoreRow (scale n ε row) (quantizeRow n ε row)

theorem roundTrip_eq_map (n : ℤ) (ε : K) (row : List K) :
    roundTrip n ε row = row.map fun x => (quantize n (scale n ε row) x : K) * scale n ε row := by
  rw [roundTrip, restoreRow, quantizeRow, List.map_map]
  rfl

theorem abs_quantize_le {n : ℤ} (hn : 0 ≤ n) (s x : K) : |quantize n s x| ≤ n := by
  rw [quantize, clip, abs_le]
  exact ⟨le_min (le_max_right _ _) (by omega), min_le_right _ _⟩

/-! ### Rounding -/

variable [IsStrictOrderedRing K]

@[simp] theorem roundHalfEven_intCast (n : ℤ) : roundHalfEven (n : K) = n := by
  have hhalf : (0 : K) < 1 / 2 := by positivity
  rw [roundHalfEven, Int.fract_intCast, Int.floor_intCast, if_pos (Or.inl hhalf)]

theorem abs_roundHalfEven_sub_le (x : K) : |(roundHalfEven x : K) - x| ≤ 1 / 2 := by
  have hsplit : x = ⌊x⌋ + Int.fract x := (Int.floor_add_fract x).symm
  have hlow := Int.fract_nonneg x
  have hhigh := (Int.fract_lt_one x).le
  rw [abs_le]
  unfold roundHalfEven
  split
  · next hdown =>
    have hle : Int.fract x ≤ 1 / 2 := hdown.elim le_of_lt fun h => h.1.le
    constructor <;> linarith
  · next hup =>
    have hge : 1 / 2 ≤ Int.fract x := not_lt.mp fun h => hup (Or.inl h)
    push_cast
    constructor <;> linarith

/-- Rounding stays within integer bounds. -/
theorem abs_roundHalfEven_le {x : K} {n : ℤ} (h : |x| ≤ n) : |roundHalfEven x| ≤ n := by
  have hround := abs_roundHalfEven_sub_le x
  have hlt : ((|roundHalfEven x| : ℤ) : K) < (n + 1 : ℤ) := by
    push_cast
    calc
      |(roundHalfEven x : K)| = |(roundHalfEven x - x) + x| := by rw [sub_add_cancel]
      _ ≤ |(roundHalfEven x : K) - x| + |x| := abs_add_le _ _
      _ ≤ 1 / 2 + n := add_le_add hround h
      _ < n + 1 := by linarith [one_half_lt_one (α := K)]
  exact Int.lt_add_one_iff.mp (Int.cast_lt.mp hlt)

theorem roundHalfEven_of_abs_lt {x : K} (h : |x| < 1 / 2) : roundHalfEven x = 0 := by
  have hround := abs_roundHalfEven_sub_le x
  have hlt : ((|roundHalfEven x| : ℤ) : K) < (1 : ℤ) := by
    push_cast
    calc
      |(roundHalfEven x : K)| = |(roundHalfEven x - x) + x| := by rw [sub_add_cancel]
      _ ≤ |(roundHalfEven x : K) - x| + |x| := abs_add_le _ _
      _ < 1 / 2 + 1 / 2 := add_lt_add_of_le_of_lt hround h
      _ = 1 := add_halves 1
  exact Int.abs_lt_one_iff.mp (Int.cast_lt.mp hlt)

/-! ### One value -/

variable {n : ℤ} {ε s x : K} {row : List K}

/-- A value within `n` steps is at most half a step away from its quantised value. -/
theorem quantize_error (hs : 0 < s) (hx : |x| ≤ n * s) :
    |(quantize n s x : K) * s - x| ≤ s / 2 := by
  have hdiv : |x / s| ≤ n := by rwa [abs_div, abs_of_pos hs, div_le_iff₀ hs]
  rw [quantize, clip_of_abs_le (abs_roundHalfEven_le hdiv)]
  calc
    |(roundHalfEven (x / s) : K) * s - x| = |((roundHalfEven (x / s) : K) - x / s) * s| := by
      rw [sub_mul, div_mul_cancel₀ x hs.ne']
    _ = |(roundHalfEven (x / s) : K) - x / s| * s := by rw [abs_mul, abs_of_pos hs]
    _ ≤ 1 / 2 * s := mul_le_mul_of_nonneg_right (abs_roundHalfEven_sub_le _) hs.le
    _ = s / 2 := by ring

/-- A multiple of the step is its own quantised value. -/
theorem quantize_mul (hs : 0 < s) {q : ℤ} (hq : |q| ≤ n) : quantize n s ((q : K) * s) = q := by
  rw [quantize, mul_div_cancel_right₀ _ hs.ne', roundHalfEven_intCast, clip_of_abs_le hq]

/-- The bounds themselves are kept. -/
theorem abs_quantize_mul (hn : 0 ≤ n) (hs : 0 < s) (hx : |x| = n * s) :
    |(quantize n s x : K) * s| = n * s := by
  have hkeep {q : ℤ} (hq : |q| = n) (hxq : x = q * s) : |(quantize n s x : K) * s| = n * s := by
    rw [hxq, quantize_mul hs hq.le, abs_mul, abs_of_pos hs, ← Int.cast_abs, hq]
  obtain hpos | hneg := abs_choice x
  · exact hkeep (abs_of_nonneg hn) (by rw [← hx, hpos])
  · refine hkeep (q := -n) (by rw [abs_neg, abs_of_nonneg hn]) ?_
    rw [Int.cast_neg, neg_mul, ← hx, hneg, neg_neg]

/-! ### Rows from the threshold on -/

theorem scale_pos (hn : 0 < n) (hε : 0 < ε) (hrow : ε ≤ maxAbs row) : 0 < scale n ε row := by
  rw [scale, if_neg (not_lt.mpr hrow)]
  exact div_pos (hε.trans_le hrow) (Int.cast_pos.mpr hn)

theorem mul_scale (hn : 0 < n) (hrow : ε ≤ maxAbs row) : (n : K) * scale n ε row = maxAbs row := by
  rw [scale, if_neg (not_lt.mpr hrow), mul_div_cancel₀ _ (Int.cast_pos.mpr hn).ne']

theorem roundTrip_error (hn : 0 < n) (hε : 0 < ε) (hrow : ε ≤ maxAbs row) :
    List.Forall₂ (fun x y => |y - x| ≤ maxAbs row / (2 * n)) row (roundTrip n ε row) := by
  have hhalf : scale n ε row / 2 = maxAbs row / (2 * n) := by
    rw [← mul_scale hn hrow, mul_comm 2, mul_div_mul_left _ _ (Int.cast_pos.mpr hn).ne']
  rw [roundTrip_eq_map, List.forall₂_map_right_iff, List.forall₂_same]
  intro x hx
  rw [← hhalf]
  exact quantize_error (scale_pos hn hε hrow) ((abs_le_maxAbs hx).trans_eq (mul_scale hn hrow).symm)

/-- The largest magnitude is restored exactly. -/
theorem maxAbs_roundTrip (hn : 0 < n) (hε : 0 < ε) (hrow : ε ≤ maxAbs row) :
    maxAbs (roundTrip n ε row) = maxAbs row := by
  have hs := scale_pos hn hε hrow
  rw [roundTrip_eq_map]
  apply le_antisymm
  · refine maxAbs_le (maxAbs_nonneg row) fun y hy => ?_
    obtain ⟨x, -, rfl⟩ := List.mem_map.mp hy
    rw [abs_mul, abs_of_pos hs, ← mul_scale hn hrow, ← Int.cast_abs]
    exact mul_le_mul_of_nonneg_right (Int.cast_le.mpr (abs_quantize_le hn.le _ _)) hs.le
  · obtain ⟨x, hx, heq⟩ := exists_abs_eq_maxAbs (hε.trans_le hrow)
    have hkept := abs_quantize_mul hn.le hs (heq.trans (mul_scale hn hrow).symm)
    rw [mul_scale hn hrow] at hkept
    exact hkept ▸ abs_le_maxAbs (List.mem_map.mpr ⟨x, hx, rfl⟩)

/-! ### Rows under the threshold -/

theorem quantize_of_lt (hn : 0 ≤ n) (hε : ε ≤ 1 / 2) (hrow : maxAbs row < ε) (hx : x ∈ row) :
    quantize n (scale n ε row) x = 0 := by
  have hlt : |x| < 1 / 2 := (abs_le_maxAbs hx).trans_lt (hrow.trans_le hε)
  rw [scale_of_lt hrow, quantize, div_one, roundHalfEven_of_abs_lt hlt,
    clip_of_abs_le (by rwa [abs_zero])]

theorem roundTrip_of_lt (hn : 0 ≤ n) (hε : ε ≤ 1 / 2) (hrow : maxAbs row < ε) :
    ∀ y ∈ roundTrip n ε row, y = 0 := by
  intro y hy
  rw [roundTrip_eq_map] at hy
  obtain ⟨x, hx, rfl⟩ := List.mem_map.mp hy
  rw [quantize_of_lt hn hε hrow hx, Int.cast_zero, zero_mul]

/-! ### A second round trip -/

theorem scale_roundTrip (hn : 0 < n) (hε : 0 < ε) (hhalf : ε ≤ 1 / 2) (row : List K) :
    scale n ε (roundTrip n ε row) = scale n ε row := by
  obtain hrow | hrow := lt_or_ge (maxAbs row) ε
  · have hzero : maxAbs (roundTrip n ε row) ≤ 0 := by
      refine maxAbs_le le_rfl fun y hy => ?_
      rw [roundTrip_of_lt hn.le hhalf hrow y hy, abs_zero]
    rw [scale_of_lt hrow, scale_of_lt (hzero.trans_lt hε)]
  · rw [scale, scale, maxAbs_roundTrip hn hε hrow]

/-- The values restored from a row are quantised as the row was. -/
theorem quantizeRow_roundTrip (hn : 0 < n) (hε : 0 < ε) (hhalf : ε ≤ 1 / 2) (row : List K) :
    quantizeRow n ε (roundTrip n ε row) = quantizeRow n ε row := by
  rw [quantizeRow, scale_roundTrip hn hε hhalf, roundTrip_eq_map, List.map_map, quantizeRow]
  refine List.map_congr_left fun x hx => ?_
  rw [Function.comp_apply]
  obtain hrow | hrow := lt_or_ge (maxAbs row) ε
  · rw [quantize_of_lt hn.le hhalf hrow hx, Int.cast_zero, zero_mul, quantize, zero_div,
      roundHalfEven_of_abs_lt (by rw [abs_zero]; positivity), clip_of_abs_le (by simpa using hn.le)]
  · exact quantize_mul (scale_pos hn hε hrow) (abs_quantize_le hn.le _ _)

end ResidentInference.Quantization

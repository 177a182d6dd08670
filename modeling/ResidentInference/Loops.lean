import Mathlib.Data.List.Nodup
import Mathlib.Logic.Function.Basic
import Mathlib.Algebra.BigOperators.Group.List.Basic
import Mathlib.Algebra.Ring.Int.Defs
import Mathlib.Data.Int.Range
import Mathlib.Tactic.Common

/-! Counted loops over memories `Int → α`; the indices of `for (i = start; i < stop; i++)` are
`Int.range start stop`. -/
namespace ResidentInference.Loops
variable {α : Type*}

theorem nodup_range (start stop : Int) : (Int.range start stop).Nodup :=
  List.Nodup.map (fun m n (h : start + (m : Int) = start + n) => by omega) List.nodup_range

theorem pairwise_range (start stop : Int) : (Int.range start stop).Pairwise (· < ·) :=
  List.pairwise_map.mpr (List.pairwise_lt_range.imp fun h => by omega)

@[simp] theorem length_range (start stop : Int) :
    (Int.range start stop).length = (stop - start).toNat := by
  simp [Int.range]

theorem range_eq_nil {start stop : Int} (h : stop ≤ start) : Int.range start stop = [] := by
  simp [Int.range, Int.toNat_of_nonpos (by omega : stop - start ≤ 0)]

/-- The loop `cells[offset + i] = value i` over `0 <= i < count`. -/
def writeCells (cells : Int → α) (offset count : Int) (value : Int → α) : Int → α :=
  (Int.range 0 count).foldl (fun cells' i => Function.update cells' (offset + i) (value i)) cells

theorem foldl_update_apply (is : List Int) (cells value : Int → α) (offset j : Int) :
    is.foldl (fun cells' i => Function.update cells' (offset + i) (value i)) cells j =
      if j - offset ∈ is then value (j - offset) else cells j := by
  induction is generalizing cells with
  | nil => rfl
  | cons i is ih =>
    rw [List.foldl_cons, ih]
    by_cases hj : j - offset = i
    · have hji : j = offset + i := by omega
      simp [hji]
    · have hji : j ≠ offset + i := by omega
      simp [hj, hji]

theorem writeCells_apply (cells value : Int → α) (offset count j : Int) :
    writeCells cells offset count value j =
      if offset ≤ j ∧ j < offset + count then value (j - offset) else cells j := by
  rw [writeCells, foldl_update_apply]
  simp only [Int.mem_range_iff]
  grind

theorem writeCells_of_mem {cells value : Int → α} {offset count i : Int} (h0 : 0 ≤ i)
    (h : i < count) : writeCells cells offset count value (offset + i) = value i := by
  rw [writeCells_apply, if_pos (by omega)]
  congr
  omega

theorem writeCells_of_lt {cells value : Int → α} {offset count j : Int} (h : j < offset) :
    writeCells cells offset count value j = cells j := by
  rw [writeCells_apply, if_neg (by omega)]

theorem writeCells_of_ge {cells value : Int → α} {offset count j : Int} (h : offset + count ≤ j) :
    writeCells cells offset count value j = cells j := by
  rw [writeCells_apply, if_neg (by omega)]

/-- The cells from `offset` on, `count` of them. -/
def slice (cells : Int → α) (offset count : Int) : List α :=
  (Int.range 0 count).map fun i => cells (offset + i)

theorem slice_eq_range (cells : Int → α) (offset count : Int) :
    slice cells offset count = (List.range count.toNat).map fun k : Nat => cells (offset + k) := by
  simp [slice, Int.range, Function.comp_def]

@[simp] theorem length_slice (cells : Int → α) (offset count : Int) :
    (slice cells offset count).length = count.toNat := by
  simp [slice]

theorem getElem_slice (cells : Int → α) (offset count : Int) {k : Nat}
    (hk : k < (slice cells offset count).length) :
    (slice cells offset count)[k] = cells (offset + k) := by
  simp [slice_eq_range]

theorem slice_eq_slice_iff {cells cells' : Int → α} {offset count : Int} :
    slice cells offset count = slice cells' offset count ↔
      ∀ i, offset ≤ i → i < offset + count → cells i = cells' i := by
  refine List.map_inj_left.trans ⟨fun h i h0 hlt => ?_, fun h i hi => ?_⟩
  · have hi := h (i - offset) (Int.mem_range_iff.mpr (by omega))
    rwa [show offset + (i - offset) = i by omega] at hi
  · obtain ⟨h0, hlt⟩ := Int.mem_range_iff.mp hi
    exact h _ (by omega) (by omega)

theorem slice_writeCells_const (cells : Int → α) (offset count : Int) (v : α) :
    slice (writeCells cells offset count fun _ => v) offset count =
      List.replicate count.toNat v := by
  refine List.eq_replicate_iff.mpr ⟨length_slice _ _ _, fun w hw => ?_⟩
  obtain ⟨i, hi, rfl⟩ := List.mem_map.mp hw
  obtain ⟨h0, hlt⟩ := Int.mem_range_iff.mp hi
  exact writeCells_of_mem h0 hlt

/-- A value written behind the filled cells joins them. -/
theorem slice_update {cells : Int → α} {offset count : Int} {xs : List α} {n : Nat} {empty : α}
    (h : slice cells offset count = xs ++ List.replicate (n + 1) empty) (v : α) :
    slice (Function.update cells (offset + xs.length) v) offset count =
      (xs ++ [v]) ++ List.replicate n empty := by
  have hset : slice (Function.update cells (offset + xs.length) v) offset count =
      (slice cells offset count).set xs.length v := by
    refine List.ext_getElem (by simp) fun k hk _ => ?_
    rw [getElem_slice, List.getElem_set, getElem_slice]
    by_cases hkx : xs.length = k
    · simp [hkx]
    · have hne : offset + (k : Int) ≠ offset + (xs.length : Int) := by omega
      rw [if_neg hkx, Function.update_of_ne hne]
  rw [hset, h, List.set_append_right _ _ le_rfl]
  simp [List.replicate_succ]

theorem foldl_add_eq_sum (is : List α) (f : α → Int) (a : Int) :
    is.foldl (fun sum i => sum + f i) a = a + (is.map f).sum := by
  induction is generalizing a with
  | nil => simp
  | cons i is ih =>
    rw [List.foldl_cons, ih, List.map_cons, List.sum_cons]
    omega

/-- A sum over distinct indices after one term has changed. -/
theorem sum_map_of_eq_off {is : List Int} (hnd : is.Nodup) {f g : Int → Int} {i : Int} (hi : i ∈ is)
    (h : ∀ j ∈ is, j ≠ i → g j = f j) : (is.map g).sum = (is.map f).sum - f i + g i := by
  induction is with
  | nil => exact absurd hi List.not_mem_nil
  | cons k is ih =>
    obtain ⟨hk, hnd⟩ := List.nodup_cons.mp hnd
    simp only [List.map_cons, List.sum_cons]
    obtain rfl | hi' := List.mem_cons.mp hi
    · have hsame : is.map g = is.map f := List.map_congr_left fun j hj =>
        h j (List.mem_cons_of_mem _ hj) fun hji => hk (hji ▸ hj)
      rw [hsame]
      omega
    · have hne : k ≠ i := fun hki => hk (hki ▸ hi')
      rw [ih hnd hi' fun j hj hji => h j (List.mem_cons_of_mem _ hj) hji,
        h k List.mem_cons_self hne]
      omega

/-- The number of chosen values in distinct cells after one cell has changed. -/
theorem countP_update {is : List Int} (hnd : is.Nodup) {i : Int} (hi : i ∈ is) (cells : Int → α)
    (v : α) (p : α → Bool) :
    (is.countP fun j => p (Function.update cells i v j)) + (if p (cells i) then 1 else 0) =
      (is.countP fun j => p (cells j)) + if p v then 1 else 0 := by
  induction is with
  | nil => exact absurd hi List.not_mem_nil
  | cons k is ih =>
    obtain ⟨hk, hnd⟩ := List.nodup_cons.mp hnd
    simp only [List.countP_cons]
    obtain rfl | hi' := List.mem_cons.mp hi
    · have hrest : (is.countP fun j => p (Function.update cells i v j)) =
          is.countP fun j => p (cells j) := List.countP_congr fun j hj => by
        have hne : j ≠ i := fun hji => hk (hji ▸ hj)
        rw [Function.update_of_ne hne]
      rw [hrest, Function.update_self]
      omega
    · have hne : k ≠ i := fun hki => hk (hki ▸ hi')
      have hrest := ih hnd hi'
      rw [Function.update_of_ne hne]
      omega

/-- The chosen values in distinct cells after one cell has changed. -/
theorem filter_map_update_perm {is : List Int} (hnd : is.Nodup) {i : Int} (hi : i ∈ is)
    (cells : Int → α) (v : α) (p : α → Bool) :
    ((is.map (Function.update cells i v)).filter p).Perm
      ((if p v then [v] else []) ++ ((is.erase i).map cells).filter p) := by
  have hrest : (is.erase i).map (Function.update cells i v) = (is.erase i).map cells :=
    List.map_congr_left fun j hj => Function.update_of_ne (hnd.mem_erase_iff.mp hj).1 v cells
  have hperm := ((List.perm_cons_erase hi).map (Function.update cells i v)).filter p
  rw [List.map_cons, Function.update_self, hrest, List.filter_cons] at hperm
  cases hv : p v <;> simpa [hv] using hperm

end ResidentInference.Loops

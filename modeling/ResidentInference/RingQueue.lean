import Mathlib.Data.List.Range
import Mathlib.Logic.Function.Basic
import Mathlib.Tactic.Common

/-! Queues in a circular buffer `Int → α` with a head and a tail index, as lists. One cell stays
free, so that an empty queue is the one whose head is its tail. -/
namespace ResidentInference.RingQueue
variable {α : Type*}

/-- An index that may have run over the end once. -/
def wrap (capacity i : Int) : Int := if i < capacity then i else i - capacity

theorem tmod_eq_wrap {capacity i : Int} (h0 : 0 ≤ i) (h : i < 2 * capacity) :
    i.tmod capacity = wrap capacity i := by
  rw [Int.tmod_eq_emod_of_nonneg h0, wrap]
  split
  · next hlt => exact Int.emod_eq_of_lt h0 hlt
  · rw [← Int.sub_emod_right, Int.emod_eq_of_lt (by omega) (by omega)]

/-- The number of cells from the head to the tail. -/
def depth (capacity head tail : Int) : Int :=
  if head ≤ tail then tail - head else tail - head + capacity

/-- The queued values, the oldest first. -/
def contents (entries : Int → α) (capacity head tail : Int) : List α :=
  (List.range (depth capacity head tail).toNat).map fun i : Nat =>
    entries (wrap capacity (head + i))

@[simp] theorem length_contents (entries : Int → α) (capacity head tail : Int) :
    (contents entries capacity head tail).length = (depth capacity head tail).toNat := by
  simp [contents]

/-- Both indices point into the buffer. -/
structure InBounds (capacity head tail : Int) : Prop where
  head_nonneg : 0 ≤ head
  head_lt : head < capacity
  tail_nonneg : 0 ≤ tail
  tail_lt : tail < capacity

section
variable {capacity head tail : Int} (h : InBounds capacity head tail)
include h

theorem wrap_bounds {i : Int} (h0 : 0 ≤ i) (hlt : i < capacity) :
    0 ≤ wrap capacity (i + 1) ∧ wrap capacity (i + 1) < capacity := by
  obtain ⟨h1, h2, -, -⟩ := h
  simp only [wrap]
  omega

theorem InBounds.pop : InBounds capacity (wrap capacity (head + 1)) tail :=
  ⟨(wrap_bounds h h.head_nonneg h.head_lt).1, (wrap_bounds h h.head_nonneg h.head_lt).2,
    h.tail_nonneg, h.tail_lt⟩

theorem InBounds.push : InBounds capacity head (wrap capacity (tail + 1)) :=
  ⟨h.head_nonneg, h.head_lt, (wrap_bounds h h.tail_nonneg h.tail_lt).1,
    (wrap_bounds h h.tail_nonneg h.tail_lt).2⟩

theorem contents_eq_nil_iff (entries : Int → α) :
    contents entries capacity head tail = [] ↔ head = tail := by
  obtain ⟨h1, h2, h3, h4⟩ := h
  rw [← List.length_eq_zero_iff, length_contents]
  simp only [depth]
  omega

theorem contents_pop (entries : Int → α) (hne : head ≠ tail) :
    contents entries capacity head tail =
      entries head :: contents entries capacity (wrap capacity (head + 1)) tail := by
  obtain ⟨h1, h2, h3, h4⟩ := h
  obtain ⟨n, hn⟩ : ∃ n : Nat, (depth capacity head tail).toNat = n + 1 :=
    ⟨(depth capacity head tail).toNat - 1, by simp only [depth]; omega⟩
  have hrest : (depth capacity (wrap capacity (head + 1)) tail).toNat = n := by
    simp only [depth, wrap] at hn ⊢
    omega
  have hhead : wrap capacity (head + (0 : Nat)) = head := by
    simp only [wrap]
    omega
  simp only [contents, hn, hrest, List.range_succ_eq_map, List.map_cons, List.map_map, hhead]
  refine congrArg (entries head :: ·) (List.map_congr_left fun i hi => congrArg entries ?_)
  rw [List.mem_range] at hi
  simp only [depth, wrap] at hn ⊢
  push_cast
  omega

theorem contents_push (entries : Int → α) (v : α) (hne : wrap capacity (tail + 1) ≠ head) :
    contents (Function.update entries tail v) capacity head (wrap capacity (tail + 1)) =
      contents entries capacity head tail ++ [v] := by
  obtain ⟨h1, h2, h3, h4⟩ := h
  have hmore : (depth capacity head (wrap capacity (tail + 1))).toNat =
      (depth capacity head tail).toNat + 1 := by
    simp only [depth, wrap] at hne ⊢
    omega
  have hlast : wrap capacity (head + (depth capacity head tail).toNat) = tail := by
    simp only [depth, wrap]
    omega
  simp only [contents, hmore, List.range_succ, List.map_append, List.map_cons, List.map_nil, hlast,
    Function.update_self]
  refine congrArg (· ++ [v]) (List.map_congr_left fun i hi => ?_)
  rw [List.mem_range] at hi
  refine Function.update_of_ne (fun heq => ?_) v entries
  simp only [depth, wrap] at heq hi
  omega

/-- A queue that refuses a value holds one value less than it has cells. -/
theorem full_iff : wrap capacity (tail + 1) = head ↔ depth capacity head tail = capacity - 1 := by
  obtain ⟨h1, h2, h3, h4⟩ := h
  simp only [depth, wrap]
  omega

theorem depth_lt : depth capacity head tail < capacity := by
  obtain ⟨h1, h2, h3, h4⟩ := h
  simp only [depth]
  omega

theorem depth_nonneg : 0 ≤ depth capacity head tail := by
  obtain ⟨h1, h2, h3, h4⟩ := h
  simp only [depth]
  omega

/-- The depth by a remainder. -/
theorem tmod_eq_depth : (tail - head + capacity).tmod capacity = depth capacity head tail := by
  obtain ⟨h1, h2, h3, h4⟩ := h
  rw [tmod_eq_wrap (by omega) (by omega), wrap, depth]
  split_ifs <;> omega

end

/-! ## Bounded lists, first in and first out -/

inductive Call (α : Type*) where
  | push (value : α) | pop

/-- What a call reports. -/
inductive Event (α : Type*) where
  | pushed (value : α) | full | popped (value : α) | empty

/-- A call on a list that holds at most `bound` values. -/
def callFifo (bound : Nat) (xs : List α) : Call α → Event α × List α
  | .push v => if xs.length = bound then (.full, xs) else (.pushed v, xs ++ [v])
  | .pop => match xs with
    | [] => (.empty, [])
    | x :: xs => (.popped x, xs)

def runCalls {σ : Type*} (call : σ → Call α → Event α × σ) :
    List (Call α) → σ → List (Event α) × σ
  | [], s => ([], s)
  | c :: cs, s =>
    let out := runCalls call cs (call s c).2
    ((call s c).1 :: out.1, out.2)

/-- Two systems that answer every call alike from related states answer every run alike. -/
theorem runCalls_simulates {σ τ : Type*} {call : σ → Call α → Event α × σ}
    {call' : τ → Call α → Event α × τ} {R : σ → τ → Prop}
    (hstep : ∀ s t c, R s t → (call s c).1 = (call' t c).1 ∧ R (call s c).2 (call' t c).2)
    (calls : List (Call α)) {s : σ} {t : τ} (h : R s t) :
    (runCalls call calls s).1 = (runCalls call' calls t).1 ∧
      R (runCalls call calls s).2 (runCalls call' calls t).2 := by
  induction calls generalizing s t with
  | nil => exact ⟨rfl, h⟩
  | cons c calls ih =>
    obtain ⟨hevent, hnext⟩ := hstep s t c h
    obtain ⟨hevents, hlast⟩ := ih hnext
    exact ⟨congrArg₂ List.cons hevent hevents, hlast⟩

/-- The values that were taken in, in their order. -/
def pushedValues : List (Event α) → List α :=
  List.filterMap fun
    | .pushed v => some v
    | _ => none

/-- The values that were given out, in their order. -/
def poppedValues : List (Event α) → List α :=
  List.filterMap fun
    | .popped v => some v
    | _ => none

/-- The values come out in the order in which they went in. -/
theorem pushedValues_callFifo (bound : Nat) (calls : List (Call α)) (xs : List α) :
    let run := runCalls (callFifo bound) calls xs
    xs ++ pushedValues run.1 = poppedValues run.1 ++ run.2 := by
  induction calls generalizing xs with
  | nil => simp [runCalls, pushedValues, poppedValues]
  | cons c calls ih =>
    have hrest := ih (callFifo bound xs c).2
    cases c with
    | push v =>
      by_cases hfull : xs.length = bound
      · simpa [runCalls, callFifo, hfull, pushedValues, poppedValues] using hrest
      · simpa [runCalls, callFifo, hfull, pushedValues, poppedValues] using hrest
    | pop =>
      cases xs with
      | nil => simpa [runCalls, callFifo, pushedValues, poppedValues] using hrest
      | cons x xs => simpa [runCalls, callFifo, pushedValues, poppedValues] using hrest

end ResidentInference.RingQueue

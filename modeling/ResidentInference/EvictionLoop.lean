import ResidentInference.Runs
import Mathlib.Data.List.Rotate
import Mathlib.Logic.Function.Basic
import Mathlib.Algebra.BigOperators.Group.List.Basic
import Mathlib.Algebra.Order.BigOperators.Group.List
import Mathlib.Algebra.Ring.Int.Defs

/-! A loop that evicts the oldest key of a store until there is room. An evicted block goes back
to the end of the order when the store is within its budget, and leaves the store when it is over
budget; keys without a block are dropped. The loop ends exactly when no block comes to turn while
the store is within its budget and has no room. -/
namespace ResidentInference.EvictionLoop
open StateTransition
variable {κ : Type*}

/-- The order of the keys, the sizes of their blocks, and the bytes in use. -/
@[ext] structure View (κ : Type*) where
  order : List κ
  nodup : order.Nodup
  held : κ → Option Nat
  usage : Int

/-- The bytes of a key's block, zero when it has none. -/
def View.bytes (v : View κ) (k : κ) : Int := ((v.held k).getD 0 : Nat)

/-- The usage once the blocks of the keys `l` have left. -/
def View.left (v : View κ) (l : List κ) : Int := v.usage - (l.map v.bytes).sum

theorem View.left_nil (v : View κ) : v.left [] = v.usage := by
  simp [left]

theorem View.left_le (v : View κ) (l : List κ) : v.left l ≤ v.usage := by
  have hsum : 0 ≤ (l.map v.bytes).sum := by
    refine List.sum_nonneg fun n hn => ?_
    obtain ⟨k, -, rfl⟩ := List.mem_map.mp hn
    exact Int.natCast_nonneg _
  simp only [left]
  omega

/-- There is no room, and something to evict. -/
def Overfull (budget needed : Int) (v : View κ) : Prop :=
  budget < v.usage + needed ∧ v.order ≠ []

instance (budget needed : Int) (v : View κ) : Decidable (Overfull budget needed v) :=
  inferInstanceAs (Decidable (_ ∧ _))

/-- Without the blocks of some first keys the store is within its budget and has no room, while a
later key has a block. -/
def Stuck (budget needed : Int) (v : View κ) : Prop :=
  ∃ l r, v.order = l ++ r ∧ v.left l ≤ budget ∧ budget < v.left l + needed ∧
    ∃ k ∈ r, v.held k ≠ none

variable [DecidableEq κ]

/-- One eviction. -/
def turn (budget : Int) (v : View κ) : View κ :=
  match v.order.head? with
  | none => v
  | some k =>
    match v.held k with
    | none => { v with order := v.order.tail, nodup := v.nodup.tail }
    | some n =>
      if budget < v.usage then
        { order := v.order.tail
          nodup := v.nodup.tail
          held := Function.update v.held k none
          usage := v.usage - n }
      else { v with order := v.order.rotate 1, nodup := List.nodup_rotate.mpr v.nodup }

def loop (budget needed : Int) (v : View κ) : Option (View κ) :=
  if Overfull budget needed v then some (turn budget v) else none

section
variable {budget needed : Int} {v : View κ} {k : κ} {r : List κ}

theorem turn_of_not_held (budget : Int) (ho : v.order = k :: r) (hk : v.held k = none) :
    (turn budget v).order = r ∧ (turn budget v).held = v.held ∧
      (turn budget v).usage = v.usage := by
  simp [turn, ho, hk]

theorem turn_of_over (ho : v.order = k :: r) {n : Nat} (hk : v.held k = some n)
    (hover : budget < v.usage) : (turn budget v).order = r ∧
      (turn budget v).held = Function.update v.held k none ∧
      (turn budget v).usage = v.usage - n := by
  simp [turn, ho, hk, hover]

theorem turn_of_fits (ho : v.order = k :: r) {n : Nat} (hk : v.held k = some n)
    (hfits : v.usage ≤ budget) : (turn budget v).order = r ++ [k] ∧
      (turn budget v).held = v.held ∧ (turn budget v).usage = v.usage := by
  simp [turn, ho, hk, not_lt.mpr hfits]

/-- After an eviction that drops the head, the other first keys leave as much as with it. -/
theorem left_turn (ho : v.order = k :: r) (hgone : v.held k = none ∨ budget < v.usage)
    {l : List κ} (hl : l ⊆ r) : (turn budget v).left l = v.left (k :: l) := by
  have hk : k ∉ l := fun hkl => (List.nodup_cons.mp (ho ▸ v.nodup)).1 (hl hkl)
  cases hheld : v.held k with
  | none =>
    obtain ⟨-, hsame, husage⟩ := turn_of_not_held budget ho hheld
    have hbytes : (turn budget v).bytes = v.bytes := by
      funext j
      simp only [View.bytes, hsame]
    simp [View.left, husage, hbytes, View.bytes, hheld]
  | some n =>
    obtain ⟨-, hupdate, husage⟩ := turn_of_over ho hheld (hgone.resolve_left (by simp [hheld]))
    have hbytes : l.map (turn budget v).bytes = l.map v.bytes := by
      refine List.map_congr_left fun j hj => ?_
      have hne : j ≠ k := fun hjk => hk (hjk ▸ hj)
      simp only [View.bytes, hupdate, Function.update_of_ne hne]
    simp only [View.left, husage, hbytes, List.map_cons, List.sum_cons]
    simp only [View.bytes, hheld, Option.getD_some]
    omega

theorem order_turn (ho : v.order = k :: r) (hgone : v.held k = none ∨ budget < v.usage) :
    (turn budget v).order = r := by
  cases hheld : v.held k with
  | none => exact (turn_of_not_held _ ho hheld).1
  | some n => exact (turn_of_over ho hheld (hgone.resolve_left (by simp [hheld]))).1

theorem held_turn (ho : v.order = k :: r) {j : κ} (hj : j ∈ r) :
    (turn budget v).held j = v.held j := by
  have hne : j ≠ k := fun hjk => (List.nodup_cons.mp (ho ▸ v.nodup)).1 (hjk ▸ hj)
  cases hheld : v.held k with
  | none => rw [(turn_of_not_held _ ho hheld).2.1]
  | some n =>
    by_cases hover : budget < v.usage
    · rw [(turn_of_over ho hheld hover).2.1, Function.update_of_ne hne]
    · rw [(turn_of_fits ho hheld (not_lt.mp hover)).2.1]

/-- Dropping the head neither frees the loop nor makes it stuck, unless the head is a block that
fits. -/
theorem stuck_turn_iff (ho : v.order = k :: r) (hgone : v.held k = none ∨ budget < v.usage) :
    Stuck budget needed (turn budget v) ↔ Stuck budget needed v := by
  have horder := order_turn ho hgone
  constructor
  · rintro ⟨l, r', hsplit, hle, hlt, j, hj, hheld⟩
    rw [horder] at hsplit
    have hl : l ⊆ r := fun i hi => hsplit ▸ List.mem_append_left r' hi
    rw [left_turn ho hgone hl] at hle hlt
    have hjr : j ∈ r := hsplit ▸ List.mem_append_right l hj
    exact ⟨k :: l, r', by rw [ho, hsplit]; rfl, hle, hlt, j, hj, held_turn ho hjr ▸ hheld⟩
  · rintro ⟨l, r', hsplit, hle, hlt, j, hj, hheld⟩
    rw [ho] at hsplit
    cases l with
    | nil =>
      have hnone : v.held k = none := hgone.resolve_right (by
        rw [View.left_nil] at hle
        omega)
      have hjr : j ∈ r := by
        have hmem : j ∈ k :: r := hsplit ▸ hj
        exact (List.mem_cons.mp hmem).resolve_left fun hjk => hheld (hjk ▸ hnone)
      refine ⟨[], r, horder, ?_, ?_, j, hjr, (held_turn ho hjr).symm ▸ hheld⟩
      · rw [View.left_nil, (turn_of_not_held _ ho hnone).2.2]
        rwa [View.left_nil] at hle
      · rw [View.left_nil, (turn_of_not_held _ ho hnone).2.2]
        rwa [View.left_nil] at hlt
    | cons k' l =>
      rw [List.cons_append] at hsplit
      obtain ⟨rfl, htail⟩ := List.cons.inj hsplit
      have hl : l ⊆ r := fun i hi => htail ▸ List.mem_append_left r' hi
      have hjr : j ∈ r := htail ▸ List.mem_append_right l hj
      refine ⟨l, r', horder.trans htail, ?_, ?_, j, hj, (held_turn ho hjr).symm ▸ hheld⟩
      · rw [left_turn ho hgone hl]
        exact hle
      · rw [left_turn ho hgone hl]
        exact hlt

/-- A stuck loop goes on, and is stuck again. -/
theorem Stuck.next (h : Stuck budget needed v) :
    ∃ v', loop budget needed v = some v' ∧ Stuck budget needed v' := by
  obtain ⟨l, r', hsplit, hle, hlt, j, hj, hheld⟩ := h
  have hmem : j ∈ v.order := hsplit ▸ List.mem_append_right l hj
  have hover : Overfull budget needed v :=
    ⟨by have := v.left_le l; omega, List.ne_nil_of_mem hmem⟩
  refine ⟨turn budget v, if_pos hover, ?_⟩
  obtain ⟨k, r, ho⟩ := List.exists_cons_of_ne_nil hover.2
  by_cases hgone : v.held k = none ∨ budget < v.usage
  · exact (stuck_turn_iff ho hgone).mpr ⟨l, r', hsplit, hle, hlt, j, hj, hheld⟩
  · obtain ⟨hk, hfits⟩ := not_or.mp hgone
    obtain ⟨n, hn⟩ := Option.ne_none_iff_exists'.mp hk
    obtain ⟨horder, hsame, husage⟩ := turn_of_fits ho hn (not_lt.mp hfits)
    have hroom := hover.1
    refine ⟨[], r ++ [k], horder, ?_, ?_, k, by simp, by rw [hsame]; exact hk⟩
    · rw [View.left_nil, husage]
      omega
    · rw [View.left_nil, husage]
      exact hroom

/-- A loop that is not stuck drops the head, and is not stuck after it. -/
theorem turn_of_not_stuck (h : ¬ Stuck budget needed v) (hover : Overfull budget needed v) :
    ¬ Stuck budget needed (turn budget v) ∧ (turn budget v).order.length < v.order.length := by
  obtain ⟨k, r, ho⟩ := List.exists_cons_of_ne_nil hover.2
  have hgone : v.held k = none ∨ budget < v.usage := by
    by_contra hfits
    obtain ⟨hk, hle⟩ := not_or.mp hfits
    refine h ⟨[], v.order, rfl, ?_, ?_, k, by simp [ho], hk⟩
    · rw [View.left_nil]
      omega
    · rw [View.left_nil]
      exact hover.1
  rw [stuck_turn_iff ho hgone, order_turn ho hgone, ho]
  exact ⟨h, Nat.lt_succ_self _⟩

/-- The loop ends exactly when it is not stuck. -/
theorem loop_dom_iff (budget needed : Int) (v : View κ) :
    (eval (loop budget needed) v).Dom ↔ ¬ Stuck budget needed v := by
  constructor
  · intro hdom hstuck
    exact Runs.not_dom (fun _ h => h.next) hstuck hdom
  · intro h
    have hstep (v v' : View κ) (hv : ¬ Stuck budget needed v)
        (hv' : loop budget needed v = some v') :
        ¬ Stuck budget needed v' ∧ v'.order.length < v.order.length := by
      simp only [loop] at hv'
      split at hv'
      · next hover =>
        cases hv'
        exact turn_of_not_stuck hv hover
      · cases hv'
    obtain ⟨last, hlast, -⟩ := Runs.exists_last (fun v => v.order.length) hstep v h
    exact Part.dom_iff_mem.mpr ⟨last, hlast⟩

end
end ResidentInference.EvictionLoop

import Mathlib.Algebra.Order.Group.Multiset
import Mathlib.Data.List.Induction
import Mathlib.Data.List.Sort
import Mathlib.Tactic.Common

/-! A priority queue over a linear order, and the logs of its uses: what is pending after a log,
and the logs in which every pop takes the least of what is pending. -/
namespace ResidentInference
variable {α : Type*} [LinearOrder α]

/-- Items in order, the next one first. -/
structure PriorityQueue (α : Type*) [LinearOrder α] where
  items : List α
  sorted : items.Pairwise (· ≤ ·)

namespace PriorityQueue

def empty : PriorityQueue α where
  items := []
  sorted := List.Pairwise.nil

def push (q : PriorityQueue α) (x : α) : PriorityQueue α where
  items := q.items.orderedInsert (· ≤ ·) x
  sorted := q.sorted.orderedInsert x q.items

def pop (q : PriorityQueue α) : Option (α × PriorityQueue α) :=
  match q with
  | ⟨[], _⟩ => none
  | ⟨x :: items, h⟩ => some (x, ⟨items, h.of_cons⟩)

variable {q q' : PriorityQueue α} {x : α}

theorem coe_push (q : PriorityQueue α) (x : α) :
    ((q.push x).items : Multiset α) = x ::ₘ (q.items : Multiset α) :=
  Multiset.coe_eq_coe.mpr (List.perm_orderedInsert _ x q.items)

/-- All the items of a list. -/
def pushAll (q : PriorityQueue α) (l : List α) : PriorityQueue α := l.foldl push q

theorem coe_pushAll (q : PriorityQueue α) (l : List α) :
    ((q.pushAll l).items : Multiset α) = (q.items : Multiset α) + (l : Multiset α) := by
  induction l generalizing q with
  | nil => exact (add_zero _).symm
  | cons x l ih =>
    rw [pushAll, List.foldl_cons, ← pushAll, ih, coe_push, ← Multiset.cons_coe,
      Multiset.cons_add, Multiset.add_cons]

theorem items_of_pop (h : q.pop = some (x, q')) : q.items = x :: q'.items := by
  obtain ⟨items, hsorted⟩ := q
  cases items with
  | nil => cases h
  | cons y items =>
    cases h
    rfl

theorem least_of_pop (h : q.pop = some (x, q')) : ∀ y ∈ q.items, x ≤ y := by
  have hsorted := q.sorted
  rw [items_of_pop h] at hsorted ⊢
  intro y hy
  cases List.mem_cons.mp hy with
  | inl heq => exact heq ▸ le_rfl
  | inr hrest => exact List.rel_of_pairwise_cons hsorted hrest

/-! ### Logs -/

/-- One use of a queue. -/
inductive Use (α : Type*) where
  | push (x : α)
  | pop (x : α)

namespace Use

def pushed? : Use α → Option α
  | .push x => some x
  | .pop _ => none

def popped? : Use α → Option α
  | .push _ => none
  | .pop x => some x

/-- What the use makes of the pending items. -/
def record (pending : Multiset α) : Use α → Multiset α
  | .push x => x ::ₘ pending
  | .pop x => pending.erase x

end Use

variable {log : List (Use α)}

/-- What has been pushed and not popped. -/
def pending (log : List (Use α)) : Multiset α := log.foldl Use.record 0

theorem pending_concat (log : List (Use α)) (use : Use α) :
    pending (log ++ [use]) = use.record (pending log) := by
  rw [pending, List.foldl_append]
  rfl

/-- Every pop takes the least of the pending items. -/
def Orderly (log : List (Use α)) : Prop :=
  ∀ before x after, log = before ++ .pop x :: after →
    x ∈ pending before ∧ ∀ y ∈ pending before, x ≤ y

theorem orderly_nil : Orderly ([] : List (Use α)) := by
  intro before x after h
  exact absurd h.symm (List.append_ne_nil_of_right_ne_nil before (List.cons_ne_nil _ after))

/-- The last use of a log is the last use of a part of it, or the part ends before. -/
theorem Orderly.concat {use : Use α} (h : Orderly log)
    (hlast : ∀ x, use = .pop x → x ∈ pending log ∧ ∀ y ∈ pending log, x ≤ y) :
    Orderly (log ++ [use]) := by
  intro before x after heq
  cases after using List.reverseRecOn with
  | nil =>
    obtain ⟨rfl, hlist⟩ := List.append_inj' heq rfl
    exact hlast x (List.cons.inj hlist).1
  | append_singleton after last =>
    rw [← List.cons_append, ← List.append_assoc] at heq
    exact h before x after (List.append_inj' heq rfl).1

theorem Orderly.push (h : Orderly log) (x : α) : Orderly (log ++ [.push x]) :=
  h.concat fun _ hno => by cases hno

theorem Orderly.pop (h : Orderly log) (hmem : x ∈ pending log)
    (hleast : ∀ y ∈ pending log, x ≤ y) : Orderly (log ++ [.pop x]) := by
  refine h.concat fun y hy => ?_
  cases hy
  exact ⟨hmem, hleast⟩

theorem Orderly.pushes (h : Orderly log) (l : List α) : Orderly (log ++ l.map .push) := by
  induction l generalizing log with
  | nil => rwa [List.map_nil, List.append_nil]
  | cons x l ih =>
    rw [List.map_cons, List.append_cons]
    exact ih (h.push x)

theorem pending_pushes (log : List (Use α)) (l : List α) :
    pending (log ++ l.map .push) = pending log + (l : Multiset α) := by
  induction l generalizing log with
  | nil => rw [List.map_nil, List.append_nil, Multiset.coe_nil, add_zero]
  | cons x l ih =>
    rw [List.map_cons, List.append_cons, ih, pending_concat, Use.record, ← Multiset.cons_coe,
      Multiset.cons_add, Multiset.add_cons]

theorem Orderly.init {use : Use α} (h : Orderly (log ++ [use])) : Orderly log := by
  intro before x after heq
  refine h before x (after ++ [use]) ?_
  rw [heq, List.append_assoc, List.cons_append]

/-- Nothing is lost and nothing is popped twice. -/
theorem Orderly.conserved (h : Orderly log) :
    (log.filterMap Use.pushed? : Multiset α) = log.filterMap Use.popped? + pending log := by
  induction log using List.reverseRecOn with
  | nil => rfl
  | append_singleton log use ih =>
    rw [List.filterMap_append, List.filterMap_append, pending_concat, ← Multiset.coe_add,
      ← Multiset.coe_add, ih h.init]
    cases use with
    | push x =>
      show _ + pending log + {x} = _ + 0 + x ::ₘ pending log
      rw [add_zero, ← Multiset.singleton_add, add_assoc, add_comm (pending log)]
    | pop x =>
      have hmem := (h log x [] rfl).1
      show _ + pending log + 0 = _ + {x} + (pending log).erase x
      rw [add_zero, add_assoc, Multiset.singleton_add, Multiset.cons_erase hmem]

end PriorityQueue
end ResidentInference

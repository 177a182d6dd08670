import Mathlib.Data.List.Nodup
import Mathlib.Data.List.Perm.Subperm
import Mathlib.Algebra.BigOperators.Group.List.Basic
import Mathlib.Algebra.Order.BigOperators.Group.List
import Mathlib.Tactic.Abel
import Mathlib.Tactic.Linarith

/-! Insertion-ordered dictionaries: a list of key/value pairs whose keys are distinct.
Updating a key keeps its place, a new key goes to the end, and `moveToEnd` reorders. -/
namespace ResidentInference
variable {κ ν : Type*}

/-- Two lists of entries with the same distinct keys in the same order are equal when the entries
of the one occur in the other. -/
theorem eq_of_keys {α β : Type*} {l l' : List (α × β)} (h : l.map Prod.fst = l'.map Prod.fst)
    (hn : (l'.map Prod.fst).Nodup) (hmem : ∀ p ∈ l, p ∈ l') : l = l' := by
  have hkey : ∀ p ∈ l', ∀ q ∈ l', p.1 = q.1 → p = q := fun p hp q hq =>
    List.inj_on_of_nodup_map hn hp hq
  have hlen : l.length = l'.length := by simpa using congrArg List.length h
  refine List.ext_getElem hlen fun i hi hi' => ?_
  refine hkey _ (hmem _ (List.getElem_mem hi)) _ (List.getElem_mem hi') ?_
  have hget : (l.map Prod.fst)[i]? = (l'.map Prod.fst)[i]? := by rw [h]
  simpa [hi, hi'] using hget

/-- Two sublists of a list of distinct elements are equal when they have the same members. -/
theorem eq_of_sublists {α : Type*} {l l' m : List α} (hn : m.Nodup) (h : l.Sublist m)
    (h' : l'.Sublist m) (hmem : ∀ a, a ∈ l ↔ a ∈ l') : l = l' := by
  classical
  have hfilter : ∀ {k : List α}, k.Sublist m → k = m.filter fun a => decide (a ∈ k) := by
    intro k hk
    have hself : k.filter (fun a => decide (a ∈ k)) = k :=
      List.filter_eq_self.mpr fun a ha => decide_eq_true ha
    have hsub := hk.filter fun a => decide (a ∈ k)
    rw [hself] at hsub
    refine hsub.eq_of_length_le (List.Subperm.length_le ?_)
    refine List.subperm_of_subset (hn.filter _) fun a ha => ?_
    exact of_decide_eq_true (List.mem_filter.mp ha).2
  rw [hfilter h, hfilter h']
  exact List.filter_congr fun a _ => decide_eq_decide.mpr (hmem a)

structure Dict (κ ν : Type*) where
  items : List (κ × ν)
  nodup : (items.map Prod.fst).Nodup

namespace Dict

def empty : Dict κ ν := ⟨[], List.nodup_nil⟩

def keys (d : Dict κ ν) : List κ := d.items.map Prod.fst

def values (d : Dict κ ν) : List ν := d.items.map Prod.snd

def size (d : Dict κ ν) : Nat := d.items.length

theorem nodup_keys (d : Dict κ ν) : d.keys.Nodup := d.nodup

variable [DecidableEq κ]

def get? (d : Dict κ ν) (k : κ) : Option ν :=
  (d.items.find? fun p => decide (p.1 = k)).map Prod.snd

def contains (d : Dict κ ν) (k : κ) : Bool := (d.get? k).isSome

theorem modify_keys (f : ν → ν) (k : κ) (l : List (κ × ν)) :
    (l.map fun p => if p.1 = k then (p.1, f p.2) else p).map Prod.fst = l.map Prod.fst := by
  induction l with
  | nil => rfl
  | cons p l ih =>
    by_cases h : p.1 = k
    · simpa [h] using ih
    · simpa [h] using ih

/-- Replace the value stored under `k`, if any, in place. -/
def modify (d : Dict κ ν) (k : κ) (f : ν → ν) : Dict κ ν where
  items := d.items.map fun p => if p.1 = k then (p.1, f p.2) else p
  nodup := by rw [modify_keys]; exact d.nodup

def erase (d : Dict κ ν) (k : κ) : Dict κ ν where
  items := d.items.filter fun p => decide (p.1 ≠ k)
  nodup := d.nodup.sublist (List.filter_sublist.map Prod.fst)

/-- A pair whose key is new goes to the end. -/
def push (d : Dict κ ν) (k : κ) (v : ν) (h : k ∉ d.keys) : Dict κ ν where
  items := d.items ++ [(k, v)]
  nodup := by
    rw [List.map_append, List.nodup_append]
    refine ⟨d.nodup, by simp, ?_⟩
    intro a ha b hb hab
    simp only [List.map_cons, List.map_nil, List.mem_singleton] at hb
    exact h (by rw [← hb, ← hab]; exact ha)

def set (d : Dict κ ν) (k : κ) (v : ν) : Dict κ ν :=
  if h : k ∈ d.keys then d.modify k fun _ => v else d.push k v h

theorem not_mem_keys_erase (d : Dict κ ν) (k : κ) : k ∉ (d.erase k).keys := by
  simp [keys, erase]

def moveToEnd (d : Dict κ ν) (k : κ) : Dict κ ν :=
  match d.get? k with
  | none => d
  | some v => (d.erase k).push k v (d.not_mem_keys_erase k)

theorem get?_eq_some_iff (d : Dict κ ν) (k : κ) (v : ν) :
    d.get? k = some v ↔ (k, v) ∈ d.items := by
  obtain ⟨l, hl⟩ := d
  simp only [get?]
  induction l with
  | nil => simp
  | cons p l ih =>
    obtain ⟨a, b⟩ := p
    have hn : a ∉ l.map Prod.fst := (List.nodup_cons.mp hl).1
    by_cases h : a = k
    · subst h
      have hv : (a, v) ∉ l := fun hm => hn (List.mem_map.mpr ⟨_, hm, rfl⟩)
      simp [hv, eq_comm]
    · have hk : k ≠ a := Ne.symm h
      simpa [List.find?_cons, h, hk] using ih (List.nodup_cons.mp hl).2

theorem get?_eq_none_iff (d : Dict κ ν) (k : κ) : d.get? k = none ↔ k ∉ d.keys := by
  rw [Option.eq_none_iff_forall_ne_some]
  simp only [ne_eq, get?_eq_some_iff, keys, List.mem_map, Prod.exists, exists_and_right,
    exists_eq_right, not_exists]

theorem mem_keys_iff (d : Dict κ ν) (k : κ) : k ∈ d.keys ↔ ∃ v, d.get? k = some v := by
  rw [← not_iff_not, ← get?_eq_none_iff, Option.eq_none_iff_forall_ne_some]
  simp

theorem mem_keys_of_get? {d : Dict κ ν} {k : κ} {v : ν} (h : d.get? k = some v) :
    k ∈ d.keys := (d.mem_keys_iff k).mpr ⟨v, h⟩

@[simp] theorem get?_empty (k : κ) : (empty : Dict κ ν).get? k = none := rfl

@[simp] theorem keys_modify (d : Dict κ ν) (k : κ) (f : ν → ν) :
    (d.modify k f).keys = d.keys := modify_keys f k d.items

@[simp] theorem keys_erase (d : Dict κ ν) (k : κ) :
    (d.erase k).keys = d.keys.filter fun a => decide (a ≠ k) := by
  simp only [keys, erase, List.filter_map]
  rfl

theorem get?_modify (d : Dict κ ν) (k a : κ) (f : ν → ν) :
    (d.modify k f).get? a = if a = k then (d.get? a).map f else d.get? a := by
  apply Option.ext
  intro v
  rw [get?_eq_some_iff]
  simp only [modify, List.mem_map, Prod.exists]
  by_cases h : a = k
  · subst h
    simp only [if_true, Option.map_eq_some_iff, get?_eq_some_iff]
    constructor
    · rintro ⟨a', b, hm, he⟩
      by_cases ha : a' = a
      · subst ha
        rw [if_pos rfl] at he
        exact ⟨b, hm, (Prod.mk.inj he).2⟩
      · rw [if_neg ha] at he
        exact absurd (Prod.mk.inj he).1 ha
    · rintro ⟨b, hm, he⟩
      exact ⟨a, b, hm, by rw [if_pos rfl, he]⟩
  · simp only [if_neg h, get?_eq_some_iff]
    constructor
    · rintro ⟨a', b, hm, he⟩
      by_cases ha : a' = k
      · rw [if_pos ha] at he
        exact absurd ((Prod.mk.inj he).1.symm.trans ha) h
      · rw [if_neg ha] at he
        exact he ▸ hm
    · intro hm
      exact ⟨a, v, hm, by rw [if_neg h]⟩

theorem get?_erase (d : Dict κ ν) (k a : κ) :
    (d.erase k).get? a = if a = k then none else d.get? a := by
  apply Option.ext
  intro v
  rw [get?_eq_some_iff]
  simp only [erase, List.mem_filter, decide_eq_true_eq]
  by_cases h : a = k
  · simp [h]
  · simp [h, get?_eq_some_iff]

theorem get?_push (d : Dict κ ν) (k a : κ) (v : ν) (h : k ∉ d.keys) :
    (d.push k v h).get? a = if a = k then some v else d.get? a := by
  apply Option.ext
  intro w
  rw [get?_eq_some_iff]
  simp only [push, List.mem_append, List.mem_singleton, Prod.mk.injEq]
  by_cases ha : a = k
  · subst ha
    have hn : (a, w) ∉ d.items := fun hm => h (List.mem_map.mpr ⟨_, hm, rfl⟩)
    simp [hn, eq_comm]
  · simp [ha, get?_eq_some_iff]

theorem get?_set (d : Dict κ ν) (k a : κ) (v : ν) :
    (d.set k v).get? a = if a = k then some v else d.get? a := by
  unfold set
  by_cases h : k ∈ d.keys
  · rw [dif_pos h, get?_modify]
    by_cases ha : a = k
    · obtain ⟨w, hw⟩ := (d.mem_keys_iff k).mp h
      simp [ha, hw]
    · simp [ha]
  · rw [dif_neg h, get?_push]

theorem get?_moveToEnd (d : Dict κ ν) (k a : κ) : (d.moveToEnd k).get? a = d.get? a := by
  unfold moveToEnd
  cases h : d.get? k with
  | none => rfl
  | some v =>
    simp only [get?_push, get?_erase]
    by_cases ha : a = k
    · simp [ha, h]
    · simp [ha]

theorem keys_set_of_mem {d : Dict κ ν} {k : κ} (v : ν) (h : k ∈ d.keys) :
    (d.set k v).keys = d.keys := by simp [set, h]

theorem keys_set_of_not_mem {d : Dict κ ν} {k : κ} (v : ν) (h : k ∉ d.keys) :
    (d.set k v).keys = d.keys ++ [k] := by
  unfold set
  rw [dif_neg h]
  simp [push, keys]

theorem mem_keys_set (d : Dict κ ν) (k a : κ) (v : ν) :
    a ∈ (d.set k v).keys ↔ a = k ∨ a ∈ d.keys := by
  by_cases h : k ∈ d.keys
  · rw [keys_set_of_mem v h]
    constructor
    · exact Or.inr
    · rintro (rfl | ha)
      · exact h
      · exact ha
  · rw [keys_set_of_not_mem v h]
    simp [or_comm]

theorem mem_keys_moveToEnd (d : Dict κ ν) (k a : κ) :
    a ∈ (d.moveToEnd k).keys ↔ a ∈ d.keys := by
  simp only [mem_keys_iff, get?_moveToEnd]

theorem contains_iff (d : Dict κ ν) (k : κ) : d.contains k = true ↔ k ∈ d.keys := by
  simp only [contains, Option.isSome_iff_exists, mem_keys_iff]

/-- Duplicate-free lists stored under different keys, none of them sharing an element, make
one duplicate-free list. -/
theorem nodup_flatten_values {α : Type*} {d : Dict κ (List α)}
    (hn : ∀ k l, d.get? k = some l → l.Nodup)
    (hd : ∀ k k' l l', d.get? k = some l → d.get? k' = some l' → k ≠ k' → List.Disjoint l l') :
    d.values.flatten.Nodup := by
  have hget : ∀ p ∈ d.items, d.get? p.1 = some p.2 := fun p hp =>
    (d.get?_eq_some_iff p.1 p.2).mpr hp
  rw [List.nodup_flatten]
  constructor
  · intro l hl
    obtain ⟨p, hp, rfl⟩ := List.mem_map.mp hl
    exact hn p.1 p.2 (hget p hp)
  · rw [values, List.pairwise_map]
    refine (List.pairwise_map.mp d.nodup).imp_of_mem ?_
    intro p q hp hq hne
    exact hd p.1 q.1 p.2 q.2 (hget p hp) (hget q hq) hne

theorem mem_flatten_values {α : Type*} {d : Dict κ (List α)} {k : κ} {l : List α} {a : α}
    (h : d.get? k = some l) (ha : a ∈ l) : a ∈ d.values.flatten :=
  List.mem_flatten.mpr ⟨l, List.mem_map.mpr ⟨(k, l), (d.get?_eq_some_iff k l).mp h, rfl⟩, ha⟩

/-- A dictionary is what it stores under each key and the order of its keys. -/
theorem eq_of_get? {d d' : Dict κ ν} (hk : d.keys = d'.keys) (h : ∀ k, d.get? k = d'.get? k) :
    d = d' := by
  have hitems : d.items = d'.items := by
    refine eq_of_keys hk d'.nodup fun p hp => ?_
    rw [← get?_eq_some_iff, ← h, get?_eq_some_iff]
    exact hp
  cases d
  cases d'
  cases hitems
  rfl

/-- Two dictionaries that keep the order of a third are equal when they store the same. -/
theorem eq_of_sublists_keys {ν' : Type*} {d d' : Dict κ ν} {e : Dict κ ν'}
    (hd : d.keys.Sublist e.keys) (hd' : d'.keys.Sublist e.keys)
    (h : ∀ k, d.get? k = d'.get? k) : d = d' := by
  refine eq_of_get? (eq_of_sublists e.nodup_keys hd hd' fun k => ?_) h
  rw [mem_keys_iff, mem_keys_iff, h]

theorem keys_sublist_set (d : Dict κ ν) (k : κ) (v : ν) : d.keys.Sublist (d.set k v).keys := by
  by_cases h : k ∈ d.keys
  · rw [keys_set_of_mem v h]
  · rw [keys_set_of_not_mem v h]
    exact List.sublist_append_left _ _

theorem keys_erase_sublist (d : Dict κ ν) (k : κ) : (d.erase k).keys.Sublist d.keys := by
  rw [keys_erase]
  exact List.filter_sublist

theorem keys_moveToEnd {d : Dict κ ν} {k : κ} (h : k ∈ d.keys) :
    (d.moveToEnd k).keys = (d.erase k).keys ++ [k] := by
  obtain ⟨v, hv⟩ := (d.mem_keys_iff k).mp h
  simp only [moveToEnd, hv, push, keys, List.map_append, List.map_cons, List.map_nil]

theorem keys_set_moveToEnd (d : Dict κ ν) (k : κ) (v : ν) :
    ((d.set k v).moveToEnd k).keys = d.keys.filter (fun a => decide (a ≠ k)) ++ [k] := by
  rw [keys_moveToEnd ((mem_keys_set d k k v).mpr (Or.inl rfl)), keys_erase]
  by_cases h : k ∈ d.keys
  · rw [keys_set_of_mem v h]
  · rw [keys_set_of_not_mem v h, List.filter_append]
    simp

/-- A new key goes to the end, and moving it there changes nothing. -/
theorem keys_sublist_set_moveToEnd {d : Dict κ ν} {k : κ} (v : ν) (h : k ∉ d.keys) :
    d.keys.Sublist ((d.set k v).moveToEnd k).keys := by
  have hself : d.keys.filter (fun a => decide (a ≠ k)) = d.keys :=
    List.filter_eq_self.mpr fun a ha => decide_eq_true fun hak => h (hak ▸ ha)
  rw [keys_moveToEnd ((mem_keys_set d k k v).mpr (Or.inl rfl)), keys_erase,
    keys_set_of_not_mem v h, List.filter_append, hself]
  exact (List.sublist_append_left _ _).trans (List.sublist_append_left _ _)

/-! Mapping the stored values. -/
section Map
variable {ν' : Type*}

omit [DecidableEq κ] in
theorem eq_of_items {d d' : Dict κ ν} (h : d.items = d'.items) : d = d' := by
  cases d
  cases d'
  cases h
  rfl

/-- The same keys in the same order with each value mapped. -/
def mapValues (f : ν → ν') (d : Dict κ ν) : Dict κ ν' where
  items := d.items.map fun p => (p.1, f p.2)
  nodup := by
    rw [List.map_map]
    exact d.nodup

theorem get?_mapValues (f : ν → ν') (d : Dict κ ν) (k : κ) :
    (d.mapValues f).get? k = (d.get? k).map f := by
  simp only [get?, mapValues, List.find?_map, Option.map_map, Function.comp_def]

theorem mapValues_set (f : ν → ν') (d : Dict κ ν) (k : κ) (v : ν) :
    (d.set k v).mapValues f = (d.mapValues f).set k (f v) := by
  have hkeys : (d.mapValues f).keys = d.keys := by simp [keys, mapValues]
  apply eq_of_items
  unfold set
  by_cases hk : k ∈ d.keys
  · rw [dif_pos hk, dif_pos (hkeys.symm ▸ hk)]
    simp only [mapValues, modify, List.map_map]
    refine List.map_congr_left fun p _ => ?_
    by_cases hp : p.1 = k <;> simp [hp]
  · rw [dif_neg hk, dif_neg (hkeys.symm ▸ hk)]
    simp [mapValues, push]

end Map

/-! Sums over the stored values; a size or a count is such a sum. -/
section Sums
variable {M : Type*} [AddCommMonoid M] (f : ν → M)

def sumBy (f : ν → M) (d : Dict κ ν) : M := (d.items.map fun p => f p.2).sum

omit [DecidableEq κ] in
@[simp] theorem sumBy_empty : (empty : Dict κ ν).sumBy f = 0 := rfl

theorem items_eq_of_get? {d : Dict κ ν} {k : κ} {v : ν} (h : d.get? k = some v) :
    ∃ l r, d.items = l ++ (k, v) :: r ∧ (∀ p ∈ l, p.1 ≠ k) ∧ ∀ p ∈ r, p.1 ≠ k := by
  obtain ⟨l, r, hlr⟩ := List.append_of_mem ((d.get?_eq_some_iff k v).mp h)
  have hn := d.nodup
  rw [hlr, List.map_append, List.map_cons, List.nodup_append, List.nodup_cons] at hn
  obtain ⟨_, ⟨hr, _⟩, hd⟩ := hn
  refine ⟨l, r, hlr, ?_, ?_⟩
  · intro p hp he
    exact hd p.1 (List.mem_map_of_mem hp) k (by simp) he
  · intro p hp he
    exact hr (List.mem_map.mpr ⟨p, hp, he⟩)

theorem filter_ne_self {k : κ} {l : List (κ × ν)} (h : ∀ p ∈ l, p.1 ≠ k) :
    (l.filter fun p => decide (p.1 ≠ k)) = l := by
  rw [List.filter_eq_self]
  intro p hp
  simpa using h p hp

theorem map_modify_self {k : κ} {g : ν → ν} {l : List (κ × ν)} (h : ∀ p ∈ l, p.1 ≠ k) :
    (l.map fun p => if p.1 = k then (p.1, g p.2) else p) = l := by
  conv_rhs => rw [← List.map_id l]
  apply List.map_congr_left
  intro p hp
  simp [h p hp]

theorem sumBy_erase {d : Dict κ ν} {k : κ} {v : ν} (h : d.get? k = some v) :
    (d.erase k).sumBy f + f v = d.sumBy f := by
  obtain ⟨l, r, hlr, hl, hr⟩ := items_eq_of_get? h
  have he : (d.erase k).items = l ++ r := by
    simp only [erase, hlr, List.filter_append, List.filter_cons, filter_ne_self hl,
      filter_ne_self hr]
    simp
  simp only [sumBy, he, hlr, List.map_append, List.map_cons, List.sum_append, List.sum_cons]
  rw [add_assoc, add_comm _ (f v)]

theorem sumBy_modify {d : Dict κ ν} {k : κ} {v : ν} (g : ν → ν) (h : d.get? k = some v) :
    (d.modify k g).sumBy f + f v = d.sumBy f + f (g v) := by
  obtain ⟨l, r, hlr, hl, hr⟩ := items_eq_of_get? h
  have he : (d.modify k g).items = l ++ (k, g v) :: r := by
    simp only [modify, hlr, List.map_append, List.map_cons, map_modify_self hl,
      map_modify_self hr, if_true]
  simp only [sumBy, he, hlr, List.map_append, List.map_cons, List.sum_append, List.sum_cons]
  abel

/-- Changing a value into itself changes nothing. -/
theorem modify_eq_self {d : Dict κ ν} {k : κ} {g : ν → ν}
    (h : ∀ v, d.get? k = some v → g v = v) : d.modify k g = d := by
  refine eq_of_get? (keys_modify d k g) fun a => ?_
  rw [get?_modify]
  split
  · next ha =>
    subst ha
    exact (Option.map_congr h).trans Option.map_id'
  · rfl

theorem modify_of_get?_none {d : Dict κ ν} {k : κ} (g : ν → ν) (h : d.get? k = none) :
    d.modify k g = d :=
  modify_eq_self fun v hv => by
    rw [h] at hv
    cases hv

theorem sumBy_modify_same {d : Dict κ ν} {k : κ} (g : ν → ν)
    (h : ∀ v, d.get? k = some v → f (g v) = f v) : (d.modify k g).sumBy f = d.sumBy f := by
  cases hk : d.get? k with
  | none => rw [modify_of_get?_none g hk]
  | some v =>
    obtain ⟨l, r, hlr, hl, hr⟩ := items_eq_of_get? hk
    simp only [sumBy, modify, hlr, List.map_append, List.map_cons, map_modify_self hl,
      map_modify_self hr, if_true, h v hk]

theorem sumBy_set_new {d : Dict κ ν} {k : κ} (v : ν) (h : d.get? k = none) :
    (d.set k v).sumBy f = d.sumBy f + f v := by
  have hk := (d.get?_eq_none_iff k).mp h
  simp [sumBy, set, hk, push]

/-- A pair adds its value and takes that of the pair it replaces. -/
theorem sumBy_set (d : Dict κ ν) (k : κ) (v : ν) :
    (d.set k v).sumBy f + ((d.get? k).map f).getD 0 = d.sumBy f + f v := by
  cases h : d.get? k with
  | none => simpa using sumBy_set_new f v h
  | some w =>
    have hset : d.set k v = d.modify k fun _ => v := dif_pos (mem_keys_of_get? h)
    simpa [hset] using sumBy_modify f (fun _ => v) h

end Sums

theorem sumBy_nonneg {f : ν → Int} {d : Dict κ ν}
    (h : ∀ k v, d.get? k = some v → 0 ≤ f v) : 0 ≤ d.sumBy f := by
  apply List.sum_nonneg
  intro x hx
  obtain ⟨p, hp, rfl⟩ := List.mem_map.mp hx
  exact h p.1 p.2 ((d.get?_eq_some_iff p.1 p.2).mpr hp)

/-- A pair adds its value at most, whether or not its key is new. -/
theorem sumBy_set_le {f : ν → Int} (hf : ∀ v, 0 ≤ f v) (d : Dict κ ν) (k : κ) (v : ν) :
    (d.set k v).sumBy f ≤ d.sumBy f + f v := by
  cases h : d.get? k with
  | none => rw [sumBy_set_new f v h]
  | some w =>
    have hmodify := sumBy_modify f (fun _ => v) h
    have hset : d.set k v = d.modify k fun _ => v := dif_pos (mem_keys_of_get? h)
    have hw := hf w
    rw [hset]
    omega

theorem keys_erase_head {d : Dict κ ν} {k : κ} {r : List κ} (h : d.keys = k :: r) :
    (d.erase k).keys = r := by
  have hnd := h ▸ d.nodup_keys
  rw [keys_erase, h, List.filter_cons_of_neg (by simp), List.filter_eq_self]
  intro a ha
  simpa using fun hak : a = k => (List.nodup_cons.mp hnd).1 (hak ▸ ha)

omit [DecidableEq κ] in
theorem size_eq_sumBy (d : Dict κ ν) : d.size = d.sumBy fun _ => (1 : Nat) := by
  simp [sumBy, size]

theorem size_erase {d : Dict κ ν} {k : κ} {v : ν} (h : d.get? k = some v) :
    (d.erase k).size + 1 = d.size := by
  simpa only [size_eq_sumBy] using sumBy_erase (fun _ => 1) h

@[simp] theorem size_modify (d : Dict κ ν) (k : κ) (f : ν → ν) :
    (d.modify k f).size = d.size := by simp [size, modify]

theorem size_set_new {d : Dict κ ν} {k : κ} (v : ν) (h : d.get? k = none) :
    (d.set k v).size = d.size + 1 := by
  simpa only [size_eq_sumBy] using sumBy_set_new (fun _ => 1) v h

omit [DecidableEq κ] in
theorem size_le_of_subset {ν' : Type*} {d : Dict κ ν} {d' : Dict κ ν'}
    (h : ∀ k ∈ d.keys, k ∈ d'.keys) : d.size ≤ d'.size := by
  have hl := (List.subperm_of_subset d.nodup_keys h).length_le
  simpa only [keys, List.length_map, size] using hl

omit [DecidableEq κ] in
theorem countP_values (d : Dict κ ν) (p : ν → Bool) :
    d.values.countP p = ((d.items.filter fun x => p x.2).map Prod.fst).length := by
  rw [values, List.countP_map, List.countP_eq_length_filter, List.length_map]
  rfl

/-- Counting stored values when the ones counted in `d'` have counterparts in `d`. -/
theorem countP_values_le {ν' : Type*} {d : Dict κ ν} {d' : Dict κ ν'} {p : ν → Bool}
    {p' : ν' → Bool}
    (h : ∀ k v', d'.get? k = some v' → p' v' = true → ∃ v, d.get? k = some v ∧ p v = true) :
    d'.values.countP p' ≤ d.values.countP p := by
  rw [countP_values, countP_values]
  refine (List.subperm_of_subset (d'.nodup.sublist (List.filter_sublist.map Prod.fst)) ?_).length_le
  intro k hk
  obtain ⟨x, hx, rfl⟩ := List.mem_map.mp hk
  obtain ⟨hmem, hp⟩ := List.mem_filter.mp hx
  obtain ⟨v, hv, hpv⟩ := h x.1 x.2 ((get?_eq_some_iff _ _ _).mpr hmem) hp
  exact List.mem_map.mpr ⟨(x.1, v), List.mem_filter.mpr ⟨(get?_eq_some_iff _ _ _).mp hv, hpv⟩, rfl⟩

end Dict

/-- An idempotent update, made to the values of several keys one after another, reaches each of
them once. -/
theorem foldl_update_get? {σ : Type*} [DecidableEq κ] (get? : σ → κ → Option ν)
    {update : σ → κ → σ} (f : ν → ν) (hf : ∀ v, f (f v) = f v)
    (hstep : ∀ s k q, get? (update s k) q = if q = k then (get? s q).map f else get? s q)
    (ks : List κ) (s : σ) (q : κ) :
    get? (ks.foldl update s) q = if q ∈ ks then (get? s q).map f else get? s q := by
  induction ks generalizing s with
  | nil => simp
  | cons k ks ih =>
    have htwice : f ∘ f = f := funext hf
    rw [List.foldl_cons, ih, hstep]
    by_cases hq : q = k
    · by_cases hm : q ∈ ks
      · rw [if_pos hm, if_pos hq, if_pos (List.mem_cons_of_mem _ hm), Option.map_map, htwice]
      · rw [if_neg hm, if_pos hq, if_pos (hq ▸ List.mem_cons_self)]
    · by_cases hm : q ∈ ks
      · rw [if_pos hm, if_neg hq, if_pos (List.mem_cons_of_mem _ hm)]
      · rw [if_neg hm, if_neg hq, if_neg (by simp [hq, hm])]

end ResidentInference

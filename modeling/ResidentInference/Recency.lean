import Mathlib.Data.List.Basic
import Mathlib.Tactic.SplitIfs

/-! Lists kept in the order of the last use of their elements. -/
namespace ResidentInference
variable {α : Type*} [DecidableEq α] {uses l l' : List α}

/-- The position of the last use, counted from one; zero for an element that was never used. -/
def lastUse (uses : List α) (a : α) : Nat := uses.length - uses.reverse.idxOf a

theorem lastUse_le (uses : List α) (a : α) : lastUse uses a ≤ uses.length := Nat.sub_le _ _

theorem lastUse_concat (uses : List α) (a b : α) :
    lastUse (uses ++ [a]) b = if b = a then uses.length + 1 else lastUse uses b := by
  unfold lastUse
  rw [List.reverse_concat, List.length_append, List.length_singleton]
  by_cases hb : b = a
  · rw [if_pos hb, hb, List.idxOf_cons_self, Nat.sub_zero]
  · rw [if_neg hb, List.idxOf_cons_ne _ (Ne.symm hb)]
    omega

/-- The elements have been used, and the least recently used one stands first. -/
structure Recent (uses l : List α) : Prop where
  order : l.Pairwise fun a b => lastUse uses a < lastUse uses b
  used : ∀ a ∈ l, a ∈ uses

theorem Recent.nil (uses : List α) : Recent uses [] := ⟨List.Pairwise.nil, by simp⟩

theorem Recent.sublist (h : Recent uses l) (hs : l'.Sublist l) : Recent uses l' :=
  ⟨h.order.sublist hs, fun a ha => h.used a (hs.subset ha)⟩

/-- An element that is used moves to the end. -/
theorem Recent.use (h : Recent uses l) (a : α) :
    Recent (uses ++ [a]) (l.filter (· ≠ a) ++ [a]) where
  order := by
    have hne : ∀ b ∈ l.filter (· ≠ a), b ≠ a := fun b hb => by
      simpa using (List.mem_filter.mp hb).2
    rw [List.pairwise_append]
    refine ⟨?_, List.pairwise_singleton _ a, ?_⟩
    · refine (h.order.sublist List.filter_sublist).imp_of_mem ?_
      intro b b' hb hb' hlt
      rwa [lastUse_concat, if_neg (hne b hb), lastUse_concat, if_neg (hne b' hb')]
    · intro b hb b' hb'
      rw [List.mem_singleton.mp hb', lastUse_concat, if_neg (hne b hb), lastUse_concat, if_pos rfl]
      exact Nat.lt_succ_of_le (lastUse_le uses b)
  used := by
    intro b hb
    obtain hb | hb := List.mem_append.mp hb
    · exact List.mem_append_left _ (h.used b (List.mem_of_mem_filter hb))
    · exact List.mem_append_right _ hb

end ResidentInference

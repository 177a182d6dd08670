import Mathlib.Logic.Relation
import Mathlib.Logic.Function.Basic
import Mathlib.Data.Fintype.Card
import Mathlib.Tactic.Common

/-! Processes with local states over a shared state, whose atomic steps interleave in any order:
reachability, the invariant rule, and the rule of Owicki and Gries for local invariants. -/
namespace ResidentInference.Interleaving
variable {ι Λ Γ : Type*}

/-- The local state of every process and the shared state. -/
structure Config (ι Λ Γ : Type*) where
  locals : ι → Λ
  shared : Γ

section
variable [DecidableEq ι]

/-- A step of process `i`, when it can take one. -/
def step (body : ι → Λ → Γ → Option (Λ × Γ)) (i : ι) (c : Config ι Λ Γ) :
    Option (Config ι Λ Γ) :=
  (body i (c.locals i) c.shared).map fun next =>
    { locals := Function.update c.locals i next.1, shared := next.2 }

/-- A step of some process. -/
def Steps (body : ι → Λ → Γ → Option (Λ × Γ)) (c c' : Config ι Λ Γ) : Prop :=
  ∃ i, step body i c = some c'

/-- A run of any length in any order. -/
def Reaches (body : ι → Λ → Γ → Option (Λ × Γ)) (c c' : Config ι Λ Γ) : Prop :=
  Relation.ReflTransGen (Steps body) c c'

variable {body : ι → Λ → Γ → Option (Λ × Γ)}

theorem step_eq_some {i : ι} {c c' : Config ι Λ Γ} (h : step body i c = some c') :
    ∃ l g, body i (c.locals i) c.shared = some (l, g) ∧
      c' = { locals := Function.update c.locals i l, shared := g } := by
  obtain ⟨⟨l, g⟩, hbody, rfl⟩ := Option.map_eq_some_iff.mp h
  exact ⟨l, g, hbody, rfl⟩

theorem Reaches.refl (c : Config ι Λ Γ) : Reaches body c c := Relation.ReflTransGen.refl

theorem Reaches.trans {c c' c'' : Config ι Λ Γ} (h : Reaches body c c')
    (h' : Reaches body c' c'') : Reaches body c c'' :=
  Relation.ReflTransGen.trans h h'

/-- What holds at the start and is kept by the steps of every process holds in every state. -/
theorem invariant {P : Config ι Λ Γ → Prop} {c c' : Config ι Λ Γ} (h : Reaches body c c')
    (h0 : P c) (hstep : ∀ i (d : Config ι Λ Γ) l g, P d →
      body i (d.locals i) d.shared = some (l, g) →
      P { locals := Function.update d.locals i l, shared := g }) : P c' := by
  induction h with
  | refl => exact h0
  | tail _ hs ih =>
    obtain ⟨i, hi⟩ := hs
    obtain ⟨l, g, hbody, rfl⟩ := step_eq_some hi
    exact hstep i _ l g ih hbody

/-- Local invariants that each process keeps for itself and that no process breaks for another
hold in every state. -/
theorem local_invariant {I : ι → Λ → Γ → Prop} {c c' : Config ι Λ Γ} (h : Reaches body c c')
    (h0 : ∀ i, I i (c.locals i) c.shared)
    (hown : ∀ i l g l' g', I i l g → body i l g = some (l', g') → I i l' g')
    (hothers : ∀ i j l m g l' g', i ≠ j → I i l g → I j m g → body i l g = some (l', g') →
      I j m g') (i : ι) : I i (c'.locals i) c'.shared := by
  refine invariant (P := fun d => ∀ j, I j (d.locals j) d.shared) h h0 ?_ i
  intro i d l g hd hbody j
  by_cases hij : j = i
  · subst hij
    simpa using hown j _ _ l g (hd j) hbody
  · simpa [hij] using hothers i j _ _ _ l g (Ne.symm hij) (hd i) (hd j) hbody

/-- Process `i` takes `n` steps alone, or stops earlier. -/
def runAlone (body : ι → Λ → Γ → Option (Λ × Γ)) (i : ι) : Nat → Config ι Λ Γ → Config ι Λ Γ
  | 0, c => c
  | n+1, c => runAlone body i n ((step body i c).getD c)

/-- A process that runs alone is one of the interleavings. -/
theorem reaches_runAlone (i : ι) (n : Nat) (c : Config ι Λ Γ) :
    Reaches body c (runAlone body i n c) := by
  induction n generalizing c with
  | zero => exact Reaches.refl c
  | succ n ih =>
    simp only [runAlone]
    cases h : step body i c with
    | none => exact ih c
    | some next => exact Relation.ReflTransGen.head ⟨i, h⟩ (ih next)

end

/-! ## Counting processes -/

section
variable [Fintype ι] (p : Λ → Prop) [DecidablePred p]

/-- The number of processes whose local state has a property. -/
def count (locals : ι → Λ) : Nat := (Finset.univ.filter fun i => p (locals i)).card

/-- When the count reaches the number of processes, it has counted all of them. -/
theorem forall_of_card_le_count {locals : ι → Λ} (h : Fintype.card ι ≤ count p locals) (i : ι) :
    p (locals i) := by
  have huniv : (Finset.univ.filter fun j => p (locals j)) = Finset.univ :=
    Finset.eq_univ_of_card _ (le_antisymm (Finset.card_le_univ _) h)
  simpa using Finset.ext_iff.mp huniv i

variable [DecidableEq ι]

theorem count_update_of_iff {locals : ι → Λ} {i : ι} {l : Λ} (h : p l ↔ p (locals i)) :
    count p (Function.update locals i l) = count p locals := by
  refine congrArg Finset.card (Finset.filter_congr fun j _ => ?_)
  by_cases hj : j = i
  · subst hj
    simpa using h
  · simp [hj]

theorem count_update_of_new {locals : ι → Λ} {i : ι} {l : Λ} (hl : p l) (h : ¬ p (locals i)) :
    count p (Function.update locals i l) = count p locals + 1 := by
  have hinsert : (Finset.univ.filter fun j => p (Function.update locals i l j)) =
      insert i (Finset.univ.filter fun j => p (locals j)) := by
    ext j
    by_cases hj : j = i
    · subst hj
      simp [hl]
    · simp [hj]
  rw [count, hinsert, Finset.card_insert_of_notMem (by simpa using h), count]

end
end ResidentInference.Interleaving

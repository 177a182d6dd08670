import ResidentInference.Schedules

/-! Processes that keep to their own parts of the shared state: whatever the interleaving, each of
them does what it does when it runs alone. -/
namespace ResidentInference.Interleaving
variable {ι Λ Γ : Type*}

/-- Under the invariants `I` process `i` reads and writes only what `Same i` compares. -/
structure Isolated (body : ι → Λ → Γ → Option (Λ × Γ)) (Same : ι → Γ → Γ → Prop)
    (I : ι → Λ → Γ → Prop) : Prop where
  equiv : ∀ i, Equivalence (Same i)
  inv : ∀ {i l g l' g'}, I i l g → body i l g = some (l', g') → I i l' g'
  stable : ∀ {i l g h}, I i l g → Same i g h → I i l h
  congr : ∀ {i l g h l' g'}, I i l g → Same i g h → body i l g = some (l', g') →
    ∃ h', body i l h = some (l', h') ∧ Same i g' h'
  frame : ∀ {i j l g l' g'}, I i l g → j ≠ i → body i l g = some (l', g') → Same j g g'

variable {body : ι → Λ → Γ → Option (Λ × Γ)}

theorem Isolated.none_congr {Same : ι → Γ → Γ → Prop} {I : ι → Λ → Γ → Prop}
    (h : Isolated body Same I) {i : ι} {l : Λ} {g g' : Γ} (hl : I i l g) (hsame : Same i g g')
    (hnone : body i l g' = none) : body i l g = none := by
  refine Option.eq_none_iff_forall_ne_some.mpr fun next hnext => ?_
  obtain ⟨h', hnext', -⟩ := h.congr hl hsame hnext
  rw [hnone] at hnext'
  cases hnext'

variable [DecidableEq ι]

/-! ## Running alone -/

theorem runAlone_add (i : ι) (m n : Nat) (c : Config ι Λ Γ) :
    runAlone body i (m+n) c = runAlone body i n (runAlone body i m c) := by
  induction m generalizing c with
  | zero => rw [Nat.zero_add, runAlone]
  | succ m ih => rw [Nat.add_right_comm, runAlone, runAlone, ih]

theorem runAlone_succ (i : ι) (n : Nat) (c : Config ι Λ Γ) :
    runAlone body i (n+1) c =
      (step body i (runAlone body i n c)).getD (runAlone body i n c) := by
  rw [runAlone_add, runAlone, runAlone]

theorem runAlone_of_none {i : ι} {c : Config ι Λ Γ} (h : body i (c.locals i) c.shared = none)
    (n : Nat) : runAlone body i n c = c := by
  induction n with
  | zero => rfl
  | succ n ih => rw [runAlone, step_eq_none_iff.mpr h, Option.getD_none, ih]

/-- A process that has stopped twice has stopped at the same place. -/
theorem runAlone_unique {i : ι} {m n : Nat} {c : Config ι Λ Γ}
    (hm : body i ((runAlone body i m c).locals i) (runAlone body i m c).shared = none)
    (hn : body i ((runAlone body i n c).locals i) (runAlone body i n c).shared = none) :
    runAlone body i m c = runAlone body i n c := by
  wlog hle : m ≤ n generalizing m n
  · exact (this hn hm (Nat.le_of_not_le hle)).symm
  · rw [← Nat.add_sub_cancel' hle, runAlone_add, runAlone_of_none hm]

/-! ## Interleavings -/

namespace Isolated
variable {Same : ι → Γ → Γ → Prop} {I : ι → Λ → Γ → Prop} (h : Isolated body Same I)
  {c c' : Config ι Λ Γ} (h0 : ∀ i, I i (c.locals i) c.shared)
include h h0

theorem reaches (hreach : Reaches body c c') (i : ι) : I i (c'.locals i) c'.shared :=
  local_invariant hreach h0 (fun _ _ _ _ _ hl hbody => h.inv hl hbody)
    (fun _ _ _ _ _ _ _ hij hl hm hbody => h.stable hm (h.frame hl hij.symm hbody)) i

/-- What a run has done to a process and to its part of the state, it does in a run of its own. -/
theorem exists_runAlone (hreach : Reaches body c c') (i : ι) :
    ∃ n, (runAlone body i n c).locals i = c'.locals i ∧
      Same i (runAlone body i n c).shared c'.shared := by
  induction hreach with
  | refl => exact ⟨0, rfl, (h.equiv i).refl _⟩
  | @tail d d' hd hs ih =>
    obtain ⟨n, hlocal, hsame⟩ := ih
    obtain ⟨j, hj⟩ := hs
    obtain ⟨l', g', hbody, rfl⟩ := step_eq_some hj
    have hinv := h.reaches h0 hd j
    by_cases hij : i = j
    · subst hij
      obtain ⟨h', halone, hsame'⟩ := h.congr hinv ((h.equiv i).symm hsame) hbody
      have hstep : runAlone body i (n+1) c =
          { locals := Function.update (runAlone body i n c).locals i l', shared := h' } := by
        rw [runAlone_succ, step, hlocal, halone]
        rfl
      refine ⟨n + 1, ?_, ?_⟩
      · simp [hstep]
      · simpa [hstep] using (h.equiv i).symm hsame'
    · refine ⟨n, ?_, ?_⟩
      · simpa [hij] using hlocal
      · exact (h.equiv i).trans hsame (h.frame hinv hij hbody)

/-- Where a complete run leaves a process, the process alone comes to as well. -/
theorem eq_runAlone (hreach : Reaches body c c') (hstopped : Stopped body c') {i : ι} {m : Nat}
    (hm : body i ((runAlone body i m c).locals i) (runAlone body i m c).shared = none) :
    c'.locals i = (runAlone body i m c).locals i ∧
      Same i c'.shared (runAlone body i m c).shared := by
  obtain ⟨n, hlocal, hsame⟩ := h.exists_runAlone h0 hreach i
  have hinv := h.reaches h0 (reaches_runAlone i n c) i
  have hn : body i ((runAlone body i n c).locals i) (runAlone body i n c).shared = none := by
    refine h.none_congr hinv hsame ?_
    rw [hlocal]
    exact hstopped i
  rw [runAlone_unique hm hn]
  exact ⟨hlocal.symm, (h.equiv i).symm hsame⟩

end Isolated
end ResidentInference.Interleaving

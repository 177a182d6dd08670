import ResidentInference.Device.TraceAccounting
import Mathlib.Algebra.BigOperators.Group.List.Basic
import Mathlib.Data.Nat.Count
import Mathlib.Order.Interval.Finset.Nat

/-! How long the requests of a trace are served: a request is active from its admission on for as
many turns as its service takes, one at least. -/
namespace ResidentInference.Device
open Loops
variable {φ : Type}

/-! ## The turns of the loop -/

/-- The condition of the loop. -/
def TakesTurn (launch : TraceLaunch) (mem : ReplayMemory φ) (t : Nat) : Prop :=
  t < launch.maxTraceSteps ∧ (replayRun launch mem t).completed < launch.numRequests

instance (launch : TraceLaunch) (mem : ReplayMemory φ) (t : Nat) :
    Decidable (TakesTurn launch mem t) :=
  inferInstanceAs (Decidable (_ ∧ _))

/-- The requests that are active before turn `t`. -/
def activeAt (launch : TraceLaunch) (mem : ReplayMemory φ) (t : Nat) : List Int :=
  activeRequests launch (replayRun launch mem t).activeRequestIds

/-- The requests that turn `t` serves: the active ones once it has made its admissions. -/
def servedIn (launch : TraceLaunch) (mem : ReplayMemory φ) (t : Nat) : List Int :=
  if TakesTurn launch mem t then
    activeRequests launch
      (admissions launch (arrivals launch t (replayRun launch mem t))).activeRequestIds
  else []

/-- Turn `t` admits the request. -/
def AdmittedIn (launch : TraceLaunch) (mem : ReplayMemory φ) (t : Nat) (r : Int) : Prop :=
  r ∉ activeAt launch mem t ∧ r ∈ servedIn launch mem t

/-- Turn `t` completes the request. -/
def CompletesIn (launch : TraceLaunch) (mem : ReplayMemory φ) (t : Nat) (r : Int) : Prop :=
  r ∈ servedIn launch mem t ∧ r ∉ activeAt launch mem (t + 1)

/-- The quanta that the request has received before turn `n`. -/
def quanta (launch : TraceLaunch) (mem : ReplayMemory φ) (n : Nat) (r : Int) : Nat :=
  Nat.count (fun t => r ∈ servedIn launch mem t) n

/-- The turns that the service of a request takes. -/
def serviceSpan (launch : TraceLaunch) (r : Int) : Int :=
  max 1 (launch.serviceSteps r)

theorem replayRun_succ {launch : TraceLaunch} {mem : ReplayMemory φ} {t : Nat}
    (h : TakesTurn launch mem t) :
    replayRun launch mem (t + 1) = replayStep launch t (replayRun launch mem t) :=
  if_pos h

theorem replayRun_stay {launch : TraceLaunch} {mem : ReplayMemory φ} {t : Nat}
    (h : ¬ TakesTurn launch mem t) : replayRun launch mem (t + 1) = replayRun launch mem t :=
  if_neg h

theorem servedIn_of_stay {launch : TraceLaunch} {mem : ReplayMemory φ} {t : Nat}
    (h : ¬ TakesTurn launch mem t) : servedIn launch mem t = [] :=
  if_neg h

/-- A run is a number of turns and then nothing. -/
theorem exists_turns (launch : TraceLaunch) (mem : ReplayMemory φ) (n : Nat) :
    ∃ m ≤ n, (∀ t < m, TakesTurn launch mem t) ∧
      replayRun launch mem n = replayRun launch mem m ∧
      ∀ t, m ≤ t → t < n → ¬ TakesTurn launch mem t := by
  induction n with
  | zero => exact ⟨0, le_rfl, by simp, rfl, by simp⟩
  | succ n ih =>
    obtain ⟨m, hm, hturns, hsame, hstop⟩ := ih
    by_cases hn : TakesTurn launch mem n
    · have hmn : m = n := by
        by_contra hne
        refine hstop m le_rfl (by omega) ⟨?_, ?_⟩
        · have hlt := hn.1
          omega
        · rw [← hsame]
          exact hn.2
      subst hmn
      refine ⟨m + 1, le_rfl, fun t ht => ?_, rfl, fun t h1 h2 => by omega⟩
      obtain ht | rfl := Nat.lt_succ_iff_lt_or_eq.mp ht
      · exact hturns t ht
      · exact hn
    · refine ⟨m, by omega, hturns, (replayRun_stay hn).trans hsame, fun t h1 h2 => ?_⟩
      obtain h2 | rfl := Nat.lt_succ_iff_lt_or_eq.mp h2
      · exact hstop t h1 h2
      · exact hn

/-! ## The slots in one turn -/

/-- The request is in a slot with `k` turns to go. -/
def Holds (launch : TraceLaunch) (s : ReplayState φ) (r k : Int) : Prop :=
  0 ≤ r ∧ ∃ i ∈ Int.range 0 launch.maxActiveRequests,
    s.activeRequestIds i = r ∧ s.activeRemainingSteps i = k

theorem mem_activeRequests_iff {launch : TraceLaunch} {ids : Int → Int} {r : Int} :
    r ∈ activeRequests launch ids ↔
      0 ≤ r ∧ ∃ i ∈ Int.range 0 launch.maxActiveRequests, ids i = r := by
  simp only [activeRequests, List.mem_filter, List.mem_map, decide_eq_true_eq]
  exact and_comm

theorem mem_activeRequests_iff_holds {launch : TraceLaunch} {s : ReplayState φ} {r : Int} :
    r ∈ activeRequests launch s.activeRequestIds ↔ ∃ k, Holds launch s r k := by
  rw [mem_activeRequests_iff]
  constructor
  · rintro ⟨hr, i, hi, hid⟩
    exact ⟨_, hr, i, hi, hid, rfl⟩
  · rintro ⟨k, hr, i, hi, hid, -⟩
    exact ⟨hr, i, hi, hid⟩

/-- Arrivals leave the slots alone. -/
theorem arrivals_slots (launch : TraceLaunch) (step : Int) (s : ReplayState φ) :
    (arrivals launch step s).activeRequestIds = s.activeRequestIds ∧
      (arrivals launch step s).activeRemainingSteps = s.activeRemainingSteps ∧
      (arrivals launch step s).metric.totalServiceQuanta = s.metric.totalServiceQuanta := by
  have hfold (is : List Int) (s : ReplayState φ) :
      (is.foldl (arrive launch step) s).activeRequestIds = s.activeRequestIds ∧
        (is.foldl (arrive launch step) s).activeRemainingSteps = s.activeRemainingSteps ∧
        (is.foldl (arrive launch step) s).metric.totalServiceQuanta =
          s.metric.totalServiceQuanta := by
    induction is generalizing s with
    | nil => exact ⟨rfl, rfl, rfl⟩
    | cons i is ih =>
      obtain ⟨h1, h2, h3⟩ := ih (arrive launch step s i)
      have harrive : (arrive launch step s i).activeRequestIds = s.activeRequestIds ∧
          (arrive launch step s i).activeRemainingSteps = s.activeRemainingSteps ∧
          (arrive launch step s i).metric.totalServiceQuanta = s.metric.totalServiceQuanta := by
        rw [arrive]
        split
        · exact ⟨rfl, rfl, rfl⟩
        · split <;> exact ⟨rfl, rfl, rfl⟩
      exact ⟨h1.trans harrive.1, h2.trans harrive.2.1, h3.trans harrive.2.2⟩
  simp only [arrivals]
  split <;> exact hfold _ _

/-- An admitted request has its whole service to go, the other slots stay. -/
theorem Filled.holds_iff {launch : TraceLaunch} {new : List Int} {s s' : ReplayState φ} {r : Int}
    (h : Filled launch new s s') (hr : r ∉ new) (k : Int) :
    Holds launch s' r k ↔ Holds launch s r k := by
  refine and_congr_right fun hpos => exists_congr fun i => and_congr_right fun _ => ?_
  obtain ⟨hid, hsteps⟩ | ⟨hneg, hnew, -⟩ := h.slot i
  · rw [hid, hsteps]
  · constructor
    · rintro ⟨rfl, -⟩
      exact absurd hnew hr
    · rintro ⟨rfl, -⟩
      omega

theorem Filled.holds_new_iff {launch : TraceLaunch} {new : List Int} {s s' : ReplayState φ}
    {r : Int} (h : Filled launch new s s') (hold : r ∉ activeRequests launch s.activeRequestIds)
    (hnew : r ∈ activeRequests launch s'.activeRequestIds) (k : Int) :
    Holds launch s' r k ↔ k = launch.serviceSteps r := by
  have hfresh : ∀ i ∈ Int.range 0 launch.maxActiveRequests, s'.activeRequestIds i = r →
      s'.activeRemainingSteps i = launch.serviceSteps r := by
    intro i hi hid
    obtain ⟨hsame, -⟩ | ⟨-, -, hsteps⟩ := h.slot i
    · refine absurd (mem_activeRequests_iff.mpr ⟨?_, i, hi, hsame.symm.trans hid⟩) hold
      exact (mem_activeRequests_iff.mp hnew).1
    · rw [hsteps, hid]
  constructor
  · rintro ⟨-, i, hi, hid, rfl⟩
    exact hfresh i hi hid
  · rintro rfl
    obtain ⟨hpos, i, hi, hid⟩ := mem_activeRequests_iff.mp hnew
    exact ⟨hpos, i, hi, hid, hfresh i hi hid⟩

/-- What the service of one slot leaves in it. -/
theorem serve_self (s : ReplayState φ) (i : Int) :
    (serve s i).activeRequestIds i =
        (if s.activeRequestIds i < 0 ∨ 1 < s.activeRemainingSteps i then s.activeRequestIds i
          else -1) ∧
      (0 ≤ (serve s i).activeRequestIds i →
        (serve s i).activeRemainingSteps i = s.activeRemainingSteps i - 1) ∧
      (serve s i).metric.totalServiceQuanta =
        s.metric.totalServiceQuanta + if 0 ≤ s.activeRequestIds i then 1 else 0 := by
  by_cases hneg : s.activeRequestIds i < 0
  · simp [serve, hneg, not_le.mpr hneg]
  · by_cases hleft : s.activeRemainingSteps i - 1 > 0
    · have hlong : 1 < s.activeRemainingSteps i := by omega
      simp [serve, hneg, hlong, not_lt.mp hneg]
    · have hshort : ¬ 1 < s.activeRemainingSteps i := by omega
      simp [serve, hneg, hshort, not_lt.mp hneg]

theorem serve_of_ne {i j : Int} (h : j ≠ i) (s : ReplayState φ) :
    (serve s i).activeRequestIds j = s.activeRequestIds j ∧
      (serve s i).activeRemainingSteps j = s.activeRemainingSteps j := by
  simp only [serve]
  split
  · exact ⟨rfl, rfl⟩
  · split <;> simp [h]

theorem foldl_serve_of_not_mem {is : List Int} {i : Int} (hi : i ∉ is) (s : ReplayState φ) :
    (is.foldl serve s).activeRequestIds i = s.activeRequestIds i ∧
      (is.foldl serve s).activeRemainingSteps i = s.activeRemainingSteps i := by
  induction is generalizing s with
  | nil => exact ⟨rfl, rfl⟩
  | cons j is ih =>
    obtain ⟨hij, hi⟩ := not_or.mp (mt List.mem_cons.mpr hi)
    obtain ⟨hids, hsteps⟩ := ih hi (serve s j)
    obtain ⟨hid, hstep⟩ := serve_of_ne hij s
    exact ⟨hids.trans hid, hsteps.trans hstep⟩

/-- Every slot is served once. -/
theorem foldl_serve_of_mem {is : List Int} (hnd : is.Nodup) {i : Int} (hi : i ∈ is)
    (s : ReplayState φ) :
    (is.foldl serve s).activeRequestIds i =
        (if s.activeRequestIds i < 0 ∨ 1 < s.activeRemainingSteps i then s.activeRequestIds i
          else -1) ∧
      (0 ≤ (is.foldl serve s).activeRequestIds i →
        (is.foldl serve s).activeRemainingSteps i = s.activeRemainingSteps i - 1) := by
  obtain ⟨before, after, rfl⟩ := List.append_of_mem hi
  obtain ⟨-, hafter, hbefore⟩ := List.nodup_append.mp hnd
  have hnot : i ∉ before := fun hmem => hbefore i hmem i List.mem_cons_self rfl
  obtain ⟨hid, hsteps⟩ := foldl_serve_of_not_mem hnot s
  obtain ⟨hid', hsteps'⟩ := foldl_serve_of_not_mem (List.nodup_cons.mp hafter).1
    (serve (before.foldl serve s) i)
  obtain ⟨hself, hleft, -⟩ := serve_self (before.foldl serve s) i
  rw [List.foldl_append, List.foldl_cons, hid', hsteps', ← hsteps, ← hid]
  exact ⟨hself, hleft⟩

theorem foldl_serve_quanta {is : List Int} (hnd : is.Nodup) (s : ReplayState φ) :
    (is.foldl serve s).metric.totalServiceQuanta =
      s.metric.totalServiceQuanta +
        ((is.map s.activeRequestIds).filter fun r => 0 ≤ r).length := by
  induction is generalizing s with
  | nil => simp
  | cons i is ih =>
    obtain ⟨hi, hnd⟩ := List.nodup_cons.mp hnd
    have hrest : is.map (serve s i).activeRequestIds = is.map s.activeRequestIds :=
      List.map_congr_left fun j hj => (serve_of_ne (fun hji : j = i => hi (hji ▸ hj)) s).1
    rw [List.foldl_cons, ih hnd, hrest, (serve_self s i).2.2, List.map_cons, List.filter_cons]
    by_cases hpos : 0 ≤ s.activeRequestIds i
    · simp only [hpos, if_true, decide_true, List.length_cons]
      push_cast
      omega
    · simp [hpos]

theorem services_quanta (launch : TraceLaunch) (s : ReplayState φ) :
    (services launch s).metric.totalServiceQuanta =
      s.metric.totalServiceQuanta + (activeRequests launch s.activeRequestIds).length :=
  foldl_serve_quanta (nodup_range 0 _) s

/-- The requests with more than one turn to go stay, with one turn less. -/
theorem services_holds_iff (launch : TraceLaunch) (s : ReplayState φ) (r k : Int) :
    Holds launch (services launch s) r k ↔ Holds launch s r (k + 1) ∧ 0 < k := by
  have hslot (i : Int) (hi : i ∈ Int.range 0 launch.maxActiveRequests) :=
    foldl_serve_of_mem (nodup_range 0 launch.maxActiveRequests) hi s
  constructor
  · rintro ⟨hr, i, hi, hid, hsteps⟩
    obtain ⟨hids, hleft⟩ := hslot i hi
    have hid' := hids.symm.trans hid
    have hsteps' := (hleft (by rw [services] at hid; omega)).symm.trans hsteps
    split at hid'
    · exact ⟨⟨hr, i, hi, hid', by omega⟩, by omega⟩
    · omega
  · rintro ⟨⟨hr, i, hi, hid, hsteps⟩, hk⟩
    obtain ⟨hids, hleft⟩ := hslot i hi
    rw [if_pos (by omega), hid] at hids
    exact ⟨hr, i, hi, hids, (hleft (by omega)).trans (by omega)⟩

/-! ## The time of a request in the slots -/

theorem serviceSpan_pos (launch : TraceLaunch) (r : Int) : 1 ≤ serviceSpan launch r :=
  le_max_left 1 _

/-- Turn `a` has admitted the request, which stays for its span. -/
structure Lifetime (launch : TraceLaunch) (mem : ReplayMemory φ) (n a : Nat) (r : Int) : Prop where
  started : a < n
  active : ∀ t ≤ n, r ∈ activeAt launch mem t ↔ a < t ∧ t < a + serviceSpan launch r
  served : ∀ t < n, r ∈ servedIn launch mem t ↔ a ≤ t ∧ t < a + serviceSpan launch r

section
variable {launch : TraceLaunch} {mem : ReplayMemory φ} {n a : Nat} {r : Int}

theorem Lifetime.succ (h : Lifetime launch mem n a r)
    (hserved : r ∈ servedIn launch mem n ↔ n < a + serviceSpan launch r)
    (hactive : r ∈ activeAt launch mem (n + 1) ↔ n + 1 < a + serviceSpan launch r) :
    Lifetime launch mem (n + 1) a r := by
  have hstarted := h.started
  refine ⟨hstarted.le.trans_lt n.lt_succ_self, fun t ht => ?_, fun t ht => ?_⟩
  · obtain ht | rfl := Nat.lt_succ_iff_lt_or_eq.mp (Nat.lt_succ_of_le ht)
    · exact h.active t (Nat.le_of_lt_succ ht)
    · rw [hactive]
      push_cast
      omega
  · obtain ht | rfl := Nat.lt_succ_iff_lt_or_eq.mp ht
    · exact h.served t ht
    · rw [hserved]
      omega

/-- A request that has not been active before turn `n` and is admitted there. -/
theorem Lifetime.start (hnone : ∀ t ≤ n, r ∉ activeAt launch mem t)
    (hunserved : ∀ t < n, r ∉ servedIn launch mem t) (hserved : r ∈ servedIn launch mem n)
    (hactive : r ∈ activeAt launch mem (n + 1) ↔ n + 1 < n + serviceSpan launch r) :
    Lifetime launch mem (n + 1) n r := by
  have hspan := serviceSpan_pos launch r
  refine ⟨n.lt_succ_self, fun t ht => ?_, fun t ht => ?_⟩
  · obtain ht | rfl := Nat.lt_succ_iff_lt_or_eq.mp (Nat.lt_succ_of_le ht)
    · have hnot := hnone t (Nat.le_of_lt_succ ht)
      refine iff_of_false hnot ?_
      omega
    · rw [hactive]
      push_cast
      omega
  · obtain ht | rfl := Nat.lt_succ_iff_lt_or_eq.mp ht
    · refine iff_of_false (hunserved t ht) ?_
      omega
    · refine iff_of_true hserved ?_
      omega

theorem Lifetime.admittedIn_iff (h : Lifetime launch mem n a r) {t : Nat} (ht : t < n) :
    AdmittedIn launch mem t r ↔ t = a := by
  have hspan := serviceSpan_pos launch r
  rw [AdmittedIn, h.active t ht.le, h.served t ht]
  omega

theorem Lifetime.completesIn_iff (h : Lifetime launch mem n a r) {t : Nat} (ht : t < n) :
    CompletesIn launch mem t r ↔ (t : Int) = a + serviceSpan launch r - 1 := by
  have hspan := serviceSpan_pos launch r
  rw [CompletesIn, h.active (t + 1) ht, h.served t ht]
  push_cast
  omega

/-- The quanta of a request count the turns of its life. -/
theorem Lifetime.quanta_eq (h : Lifetime launch mem n a r) :
    (quanta launch mem n r : Int) = min (n : Int) (a + serviceSpan launch r) - a := by
  have hcount (m : Nat) (hm : m ≤ n) : (quanta launch mem m r : Int) =
      if m ≤ a then 0 else min (m : Int) (a + serviceSpan launch r) - a := by
    have hspan := serviceSpan_pos launch r
    induction m with
    | zero => simp [quanta]
    | succ m ih =>
      have hserved := h.served m hm
      rw [quanta, Nat.count_succ, ← quanta, Nat.cast_add, ih (by omega)]
      by_cases hmem : r ∈ servedIn launch mem m
      · have hlife := hserved.mp hmem
        simp only [hmem, if_true, Nat.cast_one]
        split <;> omega
      · have hlife := mt hserved.mpr hmem
        simp only [hmem, if_false, Nat.cast_zero]
        split <;> split <;> omega
  have hstarted := h.started
  rw [hcount n le_rfl, if_neg (not_le.mpr hstarted)]

/-! ## The run -/

/-- The run after `n` turns, with what is known of every request. -/
structure Traced (launch : TraceLaunch) (mem : ReplayMemory φ) (n : Nat)
    (admitted finished : List Int) : Prop where
  accounted : Accounted launch mem n (arrivedRequests launch n) admitted finished
    (replayRun launch mem n)
  unadmitted : ∀ r ∉ admitted, (∀ t ≤ n, r ∉ activeAt launch mem t) ∧
    ∀ t < n, r ∉ servedIn launch mem t
  lifetime : ∀ r ∈ admitted, ∃ a, Lifetime launch mem n a r ∧
    ∀ k, Holds launch (replayRun launch mem n) r k ↔
      0 < k ∧ k = a + launch.serviceSteps r - n
  total : (replayRun launch mem n).metric.totalServiceQuanta =
    ((Int.range 0 launch.numRequests).map fun r => (quanta launch mem n r : Int)).sum

theorem Accounted.mem_admitted {steps : Int} {arrived admitted finished : List Int}
    {s : ReplayState φ} (h : Accounted launch mem steps arrived admitted finished s)
    (hr : r ∈ activeRequests launch s.activeRequestIds) : r ∈ admitted :=
  h.slots.mem_iff.mpr (List.mem_append_left finished hr)

/-- The sum of the quanta grows by the number of the requests served. -/
theorem sum_quanta_succ (hnd : (servedIn launch mem n).Nodup)
    (hrange : ∀ r ∈ servedIn launch mem n, r ∈ Int.range 0 launch.numRequests) :
    ((Int.range 0 launch.numRequests).map fun r => (quanta launch mem (n + 1) r : Int)).sum =
      ((Int.range 0 launch.numRequests).map fun r => (quanta launch mem n r : Int)).sum +
        (servedIn launch mem n).length := by
  have hperm : ((Int.range 0 launch.numRequests).filter
      fun r => r ∈ servedIn launch mem n).Perm (servedIn launch mem n) := by
    refine (List.perm_ext_iff_of_nodup ((nodup_range 0 _).filter _) hnd).mpr fun r => ?_
    simpa using hrange r
  have hsum (is : List Int) :
      (is.map fun r => (quanta launch mem (n + 1) r : Int)).sum =
        (is.map fun r => (quanta launch mem n r : Int)).sum +
          (is.filter fun r => r ∈ servedIn launch mem n).length := by
    induction is with
    | nil => rfl
    | cons r is ih =>
      rw [List.map_cons, List.map_cons, List.sum_cons, List.sum_cons, ih, List.filter_cons]
      by_cases hr : r ∈ servedIn launch mem n
      · simp [quanta, Nat.count_succ, hr]
        omega
      · simp [quanta, Nat.count_succ, hr]
        omega
  rw [hsum, hperm.length_eq]

/-- A turn that keeps the request in its slot, or takes it out of it at the end of its span. -/
theorem Lifetime.turn {s : ReplayState φ} (h : Lifetime launch mem n a r)
    (hbefore : ∀ k, Holds launch s r k ↔ 0 < k ∧ k = a + launch.serviceSteps r - n)
    (hserved : r ∈ servedIn launch mem n ↔ ∃ k, Holds launch s r k)
    (hafter : ∀ k, Holds launch (replayRun launch mem (n + 1)) r k ↔
      Holds launch s r (k + 1) ∧ 0 < k) :
    Lifetime launch mem (n + 1) a r ∧ ∀ k, Holds launch (replayRun launch mem (n + 1)) r k ↔
      0 < k ∧ k = a + launch.serviceSteps r - (n + 1 : Nat) := by
  have hstarted := h.started
  have hholds (k : Int) : Holds launch (replayRun launch mem (n + 1)) r k ↔
      0 < k ∧ k = a + launch.serviceSteps r - (n + 1 : Nat) := by
    rw [hafter, hbefore]
    push_cast
    omega
  refine ⟨h.succ ?_ ?_, hholds⟩
  · simp only [hserved, hbefore, serviceSpan, exists_eq_right]
    omega
  · simp only [activeAt, mem_activeRequests_iff_holds, hholds, serviceSpan, exists_eq_right]
    push_cast
    omega

/-- The turn that admits the request. -/
theorem Lifetime.enter {s : ReplayState φ} (hnone : ∀ t ≤ n, r ∉ activeAt launch mem t)
    (hunserved : ∀ t < n, r ∉ servedIn launch mem t) (hserved : r ∈ servedIn launch mem n)
    (hbefore : ∀ k, Holds launch s r k ↔ k = launch.serviceSteps r)
    (hafter : ∀ k, Holds launch (replayRun launch mem (n + 1)) r k ↔
      Holds launch s r (k + 1) ∧ 0 < k) :
    Lifetime launch mem (n + 1) n r ∧ ∀ k, Holds launch (replayRun launch mem (n + 1)) r k ↔
      0 < k ∧ k = n + launch.serviceSteps r - (n + 1 : Nat) := by
  have hholds (k : Int) : Holds launch (replayRun launch mem (n + 1)) r k ↔
      0 < k ∧ k = n + launch.serviceSteps r - (n + 1 : Nat) := by
    rw [hafter, hbefore]
    push_cast
    omega
  refine ⟨Lifetime.start hnone hunserved hserved ?_, hholds⟩
  simp only [activeAt, mem_activeRequests_iff_holds, hholds, serviceSpan, exists_eq_right]
  push_cast
  omega

/-- Turn `n` with its admissions made (`s`) and its services to come. -/
structure TurnStage (launch : TraceLaunch) (mem : ReplayMemory φ) (n : Nat)
    (admitted new finished : List Int) (s : ReplayState φ) : Prop where
  filled : Filled launch new (replayRun launch mem n) s
  admitted : Accounted launch mem (n + 1 : Nat) (arrivedRequests launch (n + 1)) (admitted ++ new)
    finished s
  served : servedIn launch mem n = activeRequests launch s.activeRequestIds
  next : replayRun launch mem (n + 1) = services launch s

/-- A turn leaves requests pending only when all slots are taken. -/
theorem Traced.stage {admitted finished : List Int} (hn : 0 ≤ launch.numRequests)
    (hcap : launch.numRequests + 1 ≤ mem.pendingQueue.capacity)
    (h : Traced launch mem n admitted finished) (hturn : TakesTurn launch mem n) :
    ∃ new s, TurnStage launch mem n admitted new finished s ∧
      (s.pendingQueue.contents = [] ∨
        ∀ i ∈ Int.range 0 launch.maxActiveRequests, 0 ≤ s.activeRequestIds i) := by
  obtain ⟨hids, hsteps, hquanta⟩ := arrivals_slots launch n (replayRun launch mem n)
  obtain ⟨new, hadmitted, hfilled, hend⟩ := (h.accounted.arrivals hn hcap).admissions
  refine ⟨new, _, ⟨⟨?_, hfilled.quanta.trans hquanta⟩, hadmitted, if_pos hturn,
    replayRun_succ hturn⟩, hend⟩
  simpa only [hids, hsteps] using hfilled.slot

section Stage
variable {admitted new finished finished' : List Int} {s : ReplayState φ}

theorem TurnStage.nodup (h : TurnStage launch mem n admitted new finished s) :
    (admitted ++ new).Nodup := h.admitted.nodup_admitted (nodup_arrivedRequests launch _)

theorem TurnStage.holds_iff (h : TurnStage launch mem n admitted new finished s) (r k : Int) :
    Holds launch (replayRun launch mem (n + 1)) r k ↔ Holds launch s r (k + 1) ∧ 0 < k := by
  rw [h.next]
  exact services_holds_iff launch s r k

theorem TurnStage.unadmitted (h : TurnStage launch mem n admitted new finished s)
    (htraced : Traced launch mem n admitted finished)
    (hnext : Accounted launch mem (n + 1 : Nat) (arrivedRequests launch (n + 1)) (admitted ++ new)
      finished' (replayRun launch mem (n + 1))) (hr : r ∉ admitted ++ new) :
    (∀ t ≤ n + 1, r ∉ activeAt launch mem t) ∧ ∀ t < n + 1, r ∉ servedIn launch mem t := by
  obtain ⟨hnone, hunserved⟩ := htraced.unadmitted r fun hold => hr (List.mem_append_left new hold)
  refine ⟨fun t ht => ?_, fun t ht => ?_⟩
  · obtain ht | rfl := Nat.lt_succ_iff_lt_or_eq.mp (Nat.lt_succ_of_le ht)
    · exact hnone t (Nat.le_of_lt_succ ht)
    · exact fun hmem => hr (hnext.mem_admitted hmem)
  · obtain ht | rfl := Nat.lt_succ_iff_lt_or_eq.mp ht
    · exact hunserved t ht
    · rw [h.served]
      exact fun hmem => hr (h.admitted.mem_admitted hmem)

theorem TurnStage.lifetime (h : TurnStage launch mem n admitted new finished s)
    (htraced : Traced launch mem n admitted finished) (hr : r ∈ admitted ++ new) :
    ∃ a, Lifetime launch mem (n + 1) a r ∧
      ∀ k, Holds launch (replayRun launch mem (n + 1)) r k ↔
        0 < k ∧ k = a + launch.serviceSteps r - (n + 1 : Nat) := by
  by_cases hold : r ∈ admitted
  · obtain ⟨a, hlife, hholds⟩ := htraced.lifetime r hold
    have hnew : r ∉ new := List.disjoint_of_nodup_append h.nodup hold
    refine ⟨a, hlife.turn (fun k => (h.filled.holds_iff hnew k).trans (hholds k)) ?_
      (h.holds_iff r)⟩
    rw [h.served, mem_activeRequests_iff_holds]
  · obtain ⟨hnone, hunserved⟩ := htraced.unadmitted r hold
    have hactive : r ∈ activeRequests launch s.activeRequestIds := by
      refine (List.mem_append.mp (h.admitted.slots.mem_iff.mp hr)).resolve_right fun hfin => ?_
      exact hold (htraced.accounted.slots.mem_iff.mpr (List.mem_append_right _ hfin))
    exact ⟨n, Lifetime.enter hnone hunserved (h.served ▸ hactive)
      (h.filled.holds_new_iff (hnone n le_rfl) hactive) (h.holds_iff r)⟩

theorem TurnStage.total (h : TurnStage launch mem n admitted new finished s)
    (htraced : Traced launch mem n admitted finished) :
    (replayRun launch mem (n + 1)).metric.totalServiceQuanta =
      ((Int.range 0 launch.numRequests).map fun r => (quanta launch mem (n + 1) r : Int)).sum := by
  have hactive : (activeRequests launch s.activeRequestIds).Nodup :=
    (h.admitted.slots.nodup_iff.mp h.nodup).of_append_left
  rw [sum_quanta_succ (h.served ▸ hactive) ?_, h.next, services_quanta, h.filled.quanta,
    htraced.total, h.served]
  intro r hr
  rw [h.served] at hr
  exact mem_arrivedRequests
    (h.admitted.split ▸ List.mem_append_left _ (h.admitted.mem_admitted hr))

end Stage

theorem Traced.turn {admitted finished : List Int} (hn : 0 ≤ launch.numRequests)
    (hcap : launch.numRequests + 1 ≤ mem.pendingQueue.capacity)
    (h : Traced launch mem n admitted finished) (hturn : TakesTurn launch mem n) :
    ∃ admitted' finished', Traced launch mem (n + 1) admitted' finished' := by
  obtain ⟨new, s, hstage, -⟩ := h.stage hn hcap hturn
  obtain ⟨finished', hnext⟩ := hstage.admitted.services
  rw [← hstage.next] at hnext
  exact ⟨admitted ++ new, finished', hnext, fun r hr => hstage.unadmitted h hnext hr,
    fun r hr => hstage.lifetime h hr, hstage.total h⟩

theorem traced_replayStart (hn : 0 ≤ launch.numRequests) (hbounds : mem.pendingQueue.InBounds)
    (hempty : mem.pendingQueue.head = mem.pendingQueue.tail) : Traced launch mem 0 [] [] := by
  have hstart := @accounted_replayStart φ launch mem hn hbounds hempty
  refine ⟨hstart, fun r hr => ⟨fun t ht hmem => hr ?_, by simp⟩, by simp, ?_⟩
  · obtain rfl := Nat.le_zero.mp ht
    exact hstart.mem_admitted hmem
  · simp [quanta, replayRun, replayStart]

/-- After every run of turns the requests have had their time. -/
theorem traced_replayRun (hn : 0 ≤ launch.numRequests)
    (hcap : launch.numRequests + 1 ≤ mem.pendingQueue.capacity)
    (hbounds : mem.pendingQueue.InBounds)
    (hempty : mem.pendingQueue.head = mem.pendingQueue.tail)
    (hturns : ∀ t < n, TakesTurn launch mem t) :
    ∃ admitted finished, Traced launch mem n admitted finished := by
  induction n with
  | zero => exact ⟨[], [], traced_replayStart hn hbounds hempty⟩
  | succ n ih =>
    obtain ⟨admitted, finished, h⟩ := ih fun t ht => hturns t (Nat.lt_succ_of_lt ht)
    exact h.turn hn hcap (hturns n n.lt_succ_self)

theorem Traced.mem_admitted_iff {admitted finished : List Int}
    (h : Traced launch mem n admitted finished) :
    r ∈ admitted ↔ ∃ a < n, AdmittedIn launch mem a r := by
  constructor
  · intro hr
    obtain ⟨a, hlife, -⟩ := h.lifetime r hr
    exact ⟨a, hlife.started, (hlife.admittedIn_iff hlife.started).mpr rfl⟩
  · rintro ⟨a, ha, -, hserved⟩
    by_contra hr
    exact (h.unadmitted r hr).2 a ha hserved

theorem Traced.mem_finished_iff {admitted finished : List Int}
    (h : Traced launch mem n admitted finished) :
    r ∈ finished ↔ r ∈ admitted ∧ r ∉ activeAt launch mem n := by
  have hslots := h.accounted.slots
  have hnodup := h.accounted.nodup_admitted (nodup_arrivedRequests launch n)
  have hdisjoint := List.disjoint_of_nodup_append (hslots.nodup_iff.mp hnodup)
  rw [hslots.mem_iff, List.mem_append]
  exact ⟨fun hr => ⟨Or.inr hr, fun hactive => hdisjoint hactive hr⟩,
    fun ⟨hr, hactive⟩ => hr.resolve_left hactive⟩

/-- The finished requests are those that some turn has completed. -/
theorem Traced.finished_iff_completesIn {admitted finished : List Int}
    (h : Traced launch mem n admitted finished) :
    r ∈ finished ↔ ∃ t < n, CompletesIn launch mem t r := by
  have hspan := serviceSpan_pos launch r
  rw [h.mem_finished_iff]
  constructor
  · rintro ⟨hr, hactive⟩
    obtain ⟨a, hlife, -⟩ := h.lifetime r hr
    have hstarted := hlife.started
    rw [hlife.active n le_rfl] at hactive
    have hlast : (a + serviceSpan launch r - 1).toNat < n := by omega
    refine ⟨_, hlast, (hlife.completesIn_iff hlast).mpr ?_⟩
    omega
  · rintro ⟨t, ht, hcompletes⟩
    have hr : r ∈ admitted := by
      by_contra hr
      exact (h.unadmitted r hr).2 t ht hcompletes.1
    obtain ⟨a, hlife, -⟩ := h.lifetime r hr
    have hlast := (hlife.completesIn_iff ht).mp hcompletes
    refine ⟨hr, ?_⟩
    rw [hlife.active n le_rfl]
    omega

/-- A finished request has received its span, an active one a quantum in each turn. -/
theorem Traced.quanta_eq {admitted finished : List Int}
    (h : Traced launch mem n admitted finished) (ha : a < n) (hr : AdmittedIn launch mem a r) :
    (quanta launch mem n r : Int) =
      if r ∈ finished then max 1 (launch.serviceSteps r) else (n : Int) - a := by
  have hadmitted := h.mem_admitted_iff.mpr ⟨a, ha, hr⟩
  obtain ⟨b, hlife, -⟩ := h.lifetime r hadmitted
  obtain rfl := (hlife.admittedIn_iff ha).mp hr
  have hactive := hlife.active n le_rfl
  have hspan : serviceSpan launch r = max 1 (launch.serviceSteps r) := rfl
  rw [hlife.quanta_eq]
  split
  · next hfinished =>
    have hend := mt hactive.mpr (h.mem_finished_iff.mp hfinished).2
    omega
  · next hfinished =>
    have hlive : r ∈ activeAt launch mem n := by
      by_contra hnot
      exact hfinished (h.mem_finished_iff.mpr ⟨hadmitted, hnot⟩)
    have hend := hactive.mp hlive
    omega

/-- When all requests are finished the quanta are the whole work. -/
theorem Traced.total_of_completed {admitted finished : List Int}
    (h : Traced launch mem n admitted finished)
    (hall : (replayRun launch mem n).completed = launch.numRequests) :
    (replayRun launch mem n).metric.totalServiceQuanta =
      ((Int.range 0 launch.numRequests).map fun r => max 1 (launch.serviceSteps r)).sum := by
  have hnodup := h.accounted.nodup_admitted (nodup_arrivedRequests launch n)
  have hfinished : finished.Nodup :=
    (h.accounted.slots.nodup_iff.mp hnodup).of_append_right
  have hsub : finished ⊆ Int.range 0 launch.numRequests := by
    intro r hr
    have hadmitted := (h.mem_finished_iff.mp hr).1
    exact mem_arrivedRequests (h.accounted.split ▸ List.mem_append_left _ hadmitted)
  have hperm : finished.Perm (Int.range 0 launch.numRequests) := by
    refine (hfinished.subperm hsub).perm_of_length_le ?_
    have hcompleted := h.accounted.completed
    rw [length_range]
    omega
  rw [h.total]
  refine congrArg List.sum (List.map_congr_left fun r hr => ?_)
  have hr' := hperm.mem_iff.mpr hr
  obtain ⟨a, ha, hentry⟩ := h.mem_admitted_iff.mp (h.mem_finished_iff.mp hr').1
  rw [h.quanta_eq ha hentry, if_pos hr']

theorem quanta_of_stay {m : Nat} (hm : m ≤ n)
    (hstop : ∀ t, m ≤ t → t < n → ¬ TakesTurn launch mem t) (r : Int) :
    quanta launch mem n r = quanta launch mem m r := by
  induction n, hm using Nat.le_induction with
  | base => rfl
  | succ n hmn ih =>
    have hserved := servedIn_of_stay (hstop n hmn n.lt_succ_self)
    rw [quanta, Nat.count_succ, hserved, if_neg List.not_mem_nil, add_zero, ← quanta]
    exact ih fun t h1 h2 => hstop t h1 (Nat.lt_succ_of_lt h2)

end

/-- After every number of turns: the orders list the requests that have been admitted and
completed; a request that turn `a` has admitted is completed, if it is, in turn
`a + max 1 service - 1`, and until then it has been served in every turn since `a`; the quanta are
counted exactly, and they are the whole work once all requests are completed. -/
theorem replayRun_serves_exactly {launch : TraceLaunch} {mem : ReplayMemory φ}
    (hn : 0 ≤ launch.numRequests)
    (hcap : launch.numRequests + 1 ≤ mem.pendingQueue.capacity)
    (hbounds : mem.pendingQueue.InBounds)
    (hempty : mem.pendingQueue.head = mem.pendingQueue.tail) (n : Nat) :
    let s := replayRun launch mem n
    ∃ admitted finished : List Int,
      (∀ (k : Nat) (hk : k < admitted.length),
        s.admissionOrder k = (mem.requests (admitted.get ⟨k, hk⟩)).requestId) ∧
      (∀ (k : Nat) (hk : k < finished.length),
        s.completionOrder k = (mem.requests (finished.get ⟨k, hk⟩)).requestId) ∧
      (s.metric.admissionEvents = admitted.length ∧ s.metric.completionEvents = finished.length ∧
        s.completed = finished.length) ∧
      (∀ r, r ∈ admitted ↔ ∃ a < n, AdmittedIn launch mem a r) ∧
      (∀ r, r ∈ finished ↔ ∃ t < n, CompletesIn launch mem t r) ∧
      (∀ r, ∀ a < n, ∀ t < n, AdmittedIn launch mem a r → CompletesIn launch mem t r →
        (t : Int) = a + max 1 (launch.serviceSteps r) - 1 ∧
          (quanta launch mem n r : Int) = max 1 (launch.serviceSteps r)) ∧
      (∀ r ∈ admitted, r ∉ finished → ∀ a < n, AdmittedIn launch mem a r →
        (∀ t : Nat, a ≤ t → t < s.metric.replaySteps → r ∈ servedIn launch mem t) ∧
          (quanta launch mem n r : Int) = s.metric.replaySteps - a) ∧
      s.metric.totalServiceQuanta =
        ((Int.range 0 launch.numRequests).map fun r => (quanta launch mem n r : Int)).sum ∧
      (s.completed = launch.numRequests → s.metric.totalServiceQuanta =
        ((Int.range 0 launch.numRequests).map fun r => max 1 (launch.serviceSteps r)).sum) := by
  intro s
  obtain ⟨m, hm, hturns, hsame, hstop⟩ := exists_turns launch mem n
  obtain ⟨admitted, finished, h⟩ := traced_replayRun hn hcap hbounds hempty hturns
  -- the turns from `m` on serve nobody
  have hlt {t : Nat} {r : Int} (ht : t < n) (hserved : r ∈ servedIn launch mem t) : t < m := by
    by_contra hge
    rw [servedIn_of_stay (hstop t (not_lt.mp hge) ht)] at hserved
    exact List.not_mem_nil hserved
  have hs : s = replayRun launch mem m := hsame
  simp only [hs, h.accounted.steps, quanta_of_stay hm hstop]
  refine ⟨admitted, finished, h.accounted.admissionOrder.recorded,
    h.accounted.completionOrder.recorded, ⟨h.accounted.admissionEvents,
      h.accounted.completionEvents, h.accounted.completed⟩, fun r => ?_, fun r => ?_,
    fun r a ha t ht hentry hcompletes => ?_, fun r hr hlive a ha hentry => ?_, h.total,
    h.total_of_completed⟩
  · rw [h.mem_admitted_iff]
    exact ⟨fun ⟨a, ha, hentry⟩ => ⟨a, ha.trans_le hm, hentry⟩,
      fun ⟨a, ha, hentry⟩ => ⟨a, hlt ha hentry.2, hentry⟩⟩
  · rw [h.finished_iff_completesIn]
    exact ⟨fun ⟨t, ht, hcompletes⟩ => ⟨t, ht.trans_le hm, hcompletes⟩,
      fun ⟨t, ht, hcompletes⟩ => ⟨t, hlt ht hcompletes.1, hcompletes⟩⟩
  · have ham := hlt ha hentry.2
    have htm := hlt ht hcompletes.1
    have hfinished := h.finished_iff_completesIn.mpr ⟨t, htm, hcompletes⟩
    obtain ⟨b, hlife, -⟩ := h.lifetime r (h.mem_finished_iff.mp hfinished).1
    obtain rfl := (hlife.admittedIn_iff ham).mp hentry
    exact ⟨(hlife.completesIn_iff htm).mp hcompletes, by
      rw [h.quanta_eq ham hentry, if_pos hfinished]⟩
  · have ham := hlt ha hentry.2
    obtain ⟨b, hlife, -⟩ := h.lifetime r hr
    obtain rfl := (hlife.admittedIn_iff ham).mp hentry
    refine ⟨fun t h1 h2 => ?_, by rw [h.quanta_eq ham hentry, if_neg hlive]⟩
    have hactive : r ∈ activeAt launch mem m := by
      by_contra hnot
      exact hlive (h.mem_finished_iff.mpr ⟨hr, hnot⟩)
    have hend := (hlife.active m le_rfl).mp hactive
    refine (hlife.served t (by omega)).mpr ?_
    omega

/-- Three requests in two slots: the services take one, two and three turns, and all are
completed after four. -/
theorem replayRun_serves_exactly_host :
    ∃ s : ReplayState ℚ,
      s = replayRun (traceReplayLaunch 3 2) (traceReplayMemory 3 2 fun _ => 7) 4 ∧
      s.completed = 3 ∧ s.metric.totalServiceQuanta =
        ((Int.range 0 3).map fun r => max 1 ((traceReplayLaunch 3 2).serviceSteps r)).sum := by
  have hcompleted : (replayRun (traceReplayLaunch 3 2)
      (traceReplayMemory 3 2 fun _ => 7 : ReplayMemory ℚ) 4).completed = 3 := by decide +kernel
  obtain ⟨admitted, finished, -, -, -, -, -, -, -, -, htotal⟩ :=
    @replayRun_serves_exactly ℚ (traceReplayLaunch 3 2) (traceReplayMemory 3 2 fun _ => 7)
      (by decide) (by decide) ⟨by decide, by decide, by decide, by decide⟩ (by decide) 4
  exact ⟨_, rfl, hcompleted, htotal hcompleted⟩

end ResidentInference.Device

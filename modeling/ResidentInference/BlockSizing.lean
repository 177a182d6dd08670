import ResidentInference.Calls
import ResidentInference.MovingAverage
import ResidentInference.SpecDecode
import Mathlib.Algebra.Order.Field.Rat
import Mathlib.Tactic.Linarith
import Mathlib.Tactic.NormNum

/-! The adaptive block size over whole histories, in exact arithmetic: its range, and that more
acceptance never makes it smaller. -/
namespace ResidentInference
open MovingAverage

/-- The fraction of the proposed tokens that a mask accepts. -/
def AcceptanceMask.observed (mask : AcceptanceMask) : ℚ :=
  mask.acceptedCount / (max mask.accepted.length 1 : Nat)

theorem AcceptanceMask.observed_mem (mask : AcceptanceMask) : mask.observed ∈ Set.Icc 0 1 := by
  have hcount : mask.acceptedCount ≤ max mask.accepted.length 1 :=
    (List.takeWhile_sublist id).length_le.trans (le_max_left _ _)
  have hpos : (0 : ℚ) < (max mask.accepted.length 1 : Nat) := by
    exact_mod_cast Nat.lt_of_lt_of_le Nat.one_pos (le_max_right _ _)
  refine ⟨div_nonneg (Nat.cast_nonneg _) (Nat.cast_nonneg _), ?_⟩
  rw [observed, div_le_one₀ hpos]
  exact_mod_cast hcount

namespace AdaptiveBlockPolicy
variable (policy : AdaptiveBlockPolicy)

/-- The block size that the policy chooses for an average. -/
def sizeAt (rate : ℚ) (kvPressure : Bool) : Int :=
  capped (if kvPressure then some policy.pressureCap else none) policy.minBlock
    (level policy.highAcceptThreshold policy.lowAcceptThreshold policy.minBlock
      ((policy.minBlock + policy.maxBlock) / 2) policy.maxBlock rate)

theorem cap_eq (kvPressure : Bool) (cap n : Int) :
    (if kvPressure ∧ cap < n then cap else n) =
      (if kvPressure then some cap else none).elim n (min n) := by
  cases kvPressure with
  | false => simp
  | true =>
    simp only [true_and, if_true, Option.elim_some]
    split <;> omega

/-- A call in terms of the average and of the size that is chosen for it. -/
theorem updateBlockSize_eq (r : RequestState) (mask : AcceptanceMask) (kvPressure : Bool) :
    updateBlockSize id r mask policy kvPressure =
      let rate := average policy.alpha mask.observed r.emaAcceptanceRate
      { r with
        emaAcceptanceRate := rate
        currentBlockSize := policy.sizeAt rate kvPressure
        blockSizeHistory := r.blockSizeHistory ++ [policy.sizeAt rate kvPressure] } := by
  simp only [updateBlockSize, id_eq, cap_eq]
  rfl

/-- What makes the sizes of the policy lie between its bounds. -/
structure Sound : Prop where
  bounds : policy.minBlock ≤ policy.maxBlock
  alpha : policy.alpha ∈ Set.Icc 0 1

variable {policy : AdaptiveBlockPolicy}

theorem Sound.le_middle (h : policy.Sound) :
    policy.minBlock ≤ (policy.minBlock + policy.maxBlock) / 2 := by
  have := h.bounds
  omega

theorem Sound.middle_le (h : policy.Sound) :
    (policy.minBlock + policy.maxBlock) / 2 ≤ policy.maxBlock := by
  have := h.bounds
  omega

theorem Sound.sizeAt_bounds (h : policy.Sound) (rate : ℚ) (kvPressure : Bool) :
    policy.minBlock ≤ policy.sizeAt rate kvPressure ∧
      policy.sizeAt rate kvPressure ≤ policy.maxBlock :=
  capped_mem _ (level_mem _ _ rate h.le_middle h.middle_le)

theorem Sound.sizeAt_mono (h : policy.Sound) (kvPressure : Bool) {rate rate' : ℚ}
    (hrate : rate ≤ rate') : policy.sizeAt rate kvPressure ≤ policy.sizeAt rate' kvPressure :=
  capped_mono _ _ (level_mono _ _ h.le_middle h.middle_le hrate)

theorem sizeAt_pressure_le (policy : AdaptiveBlockPolicy) (rate : ℚ) :
    policy.sizeAt rate true ≤ max policy.pressureCap policy.minBlock :=
  capped_le _ _ _

end AdaptiveBlockPolicy

/-! ### Histories of calls -/

/-- A call of `updateBlockSize`: the mask and the pressure flag. -/
abbrev SizingCall := AcceptanceMask × Bool

def updateBlockSizes (policy : AdaptiveBlockPolicy) (calls : List SizingCall) (r : RequestState) :
    RequestState :=
  calls.foldl (fun r call => updateBlockSize id r call.1 policy call.2) r

variable {policy : AdaptiveBlockPolicy} {r r' : RequestState} {calls calls' : List SizingCall}

theorem updateBlockSizes_take_succ (policy : AdaptiveBlockPolicy) (r : RequestState) {n : Nat}
    {call : SizingCall} (h : calls[n]? = some call) :
    updateBlockSizes policy (calls.take (n+1)) r =
      updateBlockSize id (updateBlockSizes policy (calls.take n) r) call.1 policy call.2 :=
  Calls.foldl_take_succ _ r h

theorem updateBlockSizes_rate (policy : AdaptiveBlockPolicy) (calls : List SizingCall)
    (r : RequestState) : (updateBlockSizes policy calls r).emaAcceptanceRate =
      averages policy.alpha (calls.map fun call => call.1.observed) r.emaAcceptanceRate := by
  induction calls generalizing r with
  | nil => rfl
  | cons call calls ih =>
    rw [updateBlockSizes, List.foldl_cons, ← updateBlockSizes, ih,
      AdaptiveBlockPolicy.updateBlockSize_eq]
    rfl

/-- What a call that finds `r` leaves in `r'`. -/
structure Resized (policy : AdaptiveBlockPolicy) (kvPressure : Bool) (r r' : RequestState) :
    Prop where
  rate : r'.emaAcceptanceRate ∈ Set.Icc 0 1
  least : policy.minBlock ≤ r'.currentBlockSize
  most : r'.currentBlockSize ≤ policy.maxBlock
  capped : kvPressure = true → r'.currentBlockSize ≤ max policy.pressureCap policy.minBlock
  history : r'.blockSizeHistory = r.blockSizeHistory ++ [r'.currentBlockSize]

theorem AdaptiveBlockPolicy.Sound.resized (h : policy.Sound)
    (hr : r.emaAcceptanceRate ∈ Set.Icc 0 1) (call : SizingCall) :
    Resized policy call.2 r (updateBlockSize id r call.1 policy call.2) := by
  rw [AdaptiveBlockPolicy.updateBlockSize_eq]
  exact
    { rate := average_mem h.alpha call.1.observed_mem hr
      least := (h.sizeAt_bounds _ _).1
      most := (h.sizeAt_bounds _ _).2
      capped := fun hp => hp ▸ policy.sizeAt_pressure_le _
      history := rfl }

theorem AdaptiveBlockPolicy.Sound.rate_mem (h : policy.Sound)
    (hr : r.emaAcceptanceRate ∈ Set.Icc 0 1) (calls : List SizingCall) :
    (updateBlockSizes policy calls r).emaAcceptanceRate ∈ Set.Icc 0 1 := by
  rw [updateBlockSizes_rate]
  refine averages_mem h.alpha (fun x hx => ?_) hr
  obtain ⟨call, -, rfl⟩ := List.mem_map.mp hx
  exact call.1.observed_mem

/-- Every call of every history keeps the average and the block size in range. -/
theorem updateBlockSizes_resized (hmax : policy.minBlock ≤ policy.maxBlock)
    (hα : policy.alpha ∈ Set.Icc 0 1) (hr : r.emaAcceptanceRate ∈ Set.Icc 0 1)
    (calls : List SizingCall) {n : Nat} {call : SizingCall} (hn : calls[n]? = some call) :
    Resized policy call.2 (updateBlockSizes policy (calls.take n) r)
      (updateBlockSizes policy (calls.take (n+1)) r) := by
  have hsound : policy.Sound := ⟨hmax, hα⟩
  rw [updateBlockSizes_take_succ policy r hn]
  exact hsound.resized (hsound.rate_mem hr _) call

/-- A rejected block and then one under pressure, with a cap below the least size. -/
theorem updateBlockSizes_resized_crossed :
    let policy : AdaptiveBlockPolicy := { minBlock := 3, pressureCap := 2 }
    let r : RequestState :=
      { requestId := 1, promptTokens := [5], targetTokens := [7, 8], maxNewTokens := 2
        eosTokenId := 0 }
    let calls : List SizingCall := [(⟨[false, false]⟩, false), (⟨[true]⟩, true)]
    Resized policy false (updateBlockSizes policy (calls.take 0) r)
      (updateBlockSizes policy (calls.take 1) r) ∧
    Resized policy true (updateBlockSizes policy (calls.take 1) r)
      (updateBlockSizes policy (calls.take 2) r) := by
  intro policy r calls
  have hmax : policy.minBlock ≤ policy.maxBlock := by decide
  have hα : policy.alpha ∈ Set.Icc 0 1 := by norm_num [policy]
  have hr : r.emaAcceptanceRate ∈ Set.Icc 0 1 := by norm_num [r]
  exact ⟨updateBlockSizes_resized hmax hα hr calls (n := 0) rfl,
    updateBlockSizes_resized hmax hα hr calls (n := 1) rfl⟩

/-- Of two histories under the same pressure, the one that starts from the larger average and
accepts the larger fraction each time has the larger block size after every step. -/
theorem updateBlockSizes_mono (hmax : policy.minBlock ≤ policy.maxBlock)
    (hα : policy.alpha ∈ Set.Icc 0 1)
    (hcalls : List.Forall₂ (fun call call' => call.2 = call'.2 ∧
      call.1.observed ≤ call'.1.observed) calls calls')
    (hr : r.emaAcceptanceRate ≤ r'.emaAcceptanceRate) {n : Nat} (hn : n < calls.length) :
    (updateBlockSizes policy (calls.take (n+1)) r).currentBlockSize ≤
      (updateBlockSizes policy (calls'.take (n+1)) r').currentBlockSize := by
  have hsound : policy.Sound := ⟨hmax, hα⟩
  have hn' : n < calls'.length := hcalls.length_eq ▸ hn
  obtain ⟨hflag, hobserved⟩ : calls[n].2 = calls'[n].2 ∧
      calls[n].1.observed ≤ calls'[n].1.observed := hcalls.get hn hn'
  have hrate : (updateBlockSizes policy (calls.take n) r).emaAcceptanceRate ≤
      (updateBlockSizes policy (calls'.take n) r').emaAcceptanceRate := by
    rw [updateBlockSizes_rate, updateBlockSizes_rate]
    refine averages_mono hα ?_ hr
    rw [List.forall₂_map_left_iff, List.forall₂_map_right_iff]
    exact (List.forall₂_take n hcalls).imp fun _ _ h => h.2
  rw [updateBlockSizes_take_succ policy r (List.getElem?_eq_getElem hn),
    updateBlockSizes_take_succ policy r' (List.getElem?_eq_getElem hn'),
    AdaptiveBlockPolicy.updateBlockSize_eq, AdaptiveBlockPolicy.updateBlockSize_eq, hflag]
  exact hsound.sizeAt_mono _ (average_mono hα hobserved hrate)

/-- Two histories of two calls, the second one under pressure. -/
theorem updateBlockSizes_mono_rejected :
    let policy : AdaptiveBlockPolicy := {}
    let r : RequestState :=
      { requestId := 1, promptTokens := [5], targetTokens := [7, 8], maxNewTokens := 2
        eosTokenId := 0 }
    let calls : List SizingCall := [(⟨[false]⟩, false), (⟨[true, false]⟩, true)]
    let calls' : List SizingCall := [(⟨[true, false]⟩, false), (⟨[true, true]⟩, true)]
    (updateBlockSizes policy (calls.take 1) r).currentBlockSize ≤
      (updateBlockSizes policy (calls'.take 1) r).currentBlockSize ∧
    (updateBlockSizes policy (calls.take 2) r).currentBlockSize ≤
      (updateBlockSizes policy (calls'.take 2) r).currentBlockSize := by
  intro policy r calls calls'
  have hmax : policy.minBlock ≤ policy.maxBlock := by decide
  have hα : policy.alpha ∈ Set.Icc 0 1 := by norm_num [policy]
  have hfirst : AcceptanceMask.observed ⟨[false]⟩ ≤ AcceptanceMask.observed ⟨[true, false]⟩ := by
    norm_num [AcceptanceMask.observed, AcceptanceMask.acceptedCount]
  have hsecond : AcceptanceMask.observed ⟨[true, false]⟩ ≤
      AcceptanceMask.observed ⟨[true, true]⟩ := by
    norm_num [AcceptanceMask.observed, AcceptanceMask.acceptedCount]
  have hcalls : List.Forall₂ (fun call call' : SizingCall => call.2 = call'.2 ∧
      call.1.observed ≤ call'.1.observed) calls calls' :=
    .cons ⟨rfl, hfirst⟩ (.cons ⟨rfl, hsecond⟩ .nil)
  exact ⟨updateBlockSizes_mono hmax hα hcalls le_rfl (by decide),
    updateBlockSizes_mono hmax hα hcalls le_rfl (by decide)⟩

end ResidentInference

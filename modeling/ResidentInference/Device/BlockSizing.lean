import ResidentInference.BlockSizing
import ResidentInference.Device.Acceptance

/-! The adaptive block size of the kernels against that of the Python simulator, call by call. -/
namespace ResidentInference.Device
open MovingAverage

/-- The arguments of a call of `updateBlockSizeDevice`. -/
structure DeviceSizingCall where
  acceptedCount : Int
  proposedCount : Int
  kvPressure : Int
  nonneg : 0 ≤ acceptedCount
  le : acceptedCount ≤ proposedCount

/-- A Python call with a mask of that length and that accepted count, under the same pressure. -/
structure DeviceSizingCall.Same (call : DeviceSizingCall) (python : SizingCall) : Prop where
  proposed : (python.1.accepted.length : Int) = call.proposedCount
  accepted : (python.1.acceptedCount : Int) = call.acceptedCount
  pressure : python.2 = decide (call.kvPressure ≠ 0)

/-- Every call of the kernel has such a Python call. -/
def DeviceSizingCall.python (call : DeviceSizingCall) : SizingCall :=
  (⟨List.replicate call.acceptedCount.toNat true ++
      List.replicate (call.proposedCount - call.acceptedCount).toNat false⟩,
    decide (call.kvPressure ≠ 0))

theorem DeviceSizingCall.same_python (call : DeviceSizingCall) : call.Same call.python where
  proposed := by
    have h := call.nonneg
    have h' := call.le
    simp only [python, List.length_append, List.length_replicate]
    omega
  accepted := by
    have h := call.nonneg
    rw [python, AcceptancePolicy.acceptedCount_replicate]
    omega
  pressure := rfl

/-- An empty draft counts as a rejected one on both sides. -/
theorem DeviceSizingCall.Same.nextAcceptanceRate_eq {call : DeviceSizingCall} {python : SizingCall}
    (h : call.Same python) (rate : ℚ) :
    nextAcceptanceRate rate call.acceptedCount call.proposedCount =
      average ({} : AdaptiveBlockPolicy).alpha python.1.observed rate := by
  have haccepted : (call.acceptedCount : ℚ) = (python.1.acceptedCount : ℚ) := by
    rw [← h.accepted, Int.cast_natCast]
  obtain hzero | hpos := (call.nonneg.trans call.le).eq_or_lt
  · have hcount : python.1.acceptedCount = 0 := by
      have hle := call.le
      have hsame := h.accepted
      have hnonneg := call.nonneg
      omega
    simp only [nextAcceptanceRate, ← hzero, gt_iff_lt, lt_irrefl, if_false, average,
      AcceptanceMask.observed, hcount, Nat.cast_zero, zero_div]
    rfl
  · have hlen : ((max python.1.accepted.length 1 : Nat) : ℚ) = (call.proposedCount : ℚ) := by
      have hmax : ((max python.1.accepted.length 1 : Nat) : Int) = call.proposedCount := by
        have hsame := h.proposed
        omega
      rw [← hmax, Int.cast_natCast]
    rw [nextAcceptanceRate_rat rate hpos, AcceptanceMask.observed, hlen, haccepted]
    rfl

/-- The thresholds, the midpoint and the clamps of the kernel are those of the default policy. -/
theorem blockSizeFor_eq_sizeAt (rate : ℚ) (kvPressure : Int) :
    blockSizeFor rate kvPressure =
      ({} : AdaptiveBlockPolicy).sizeAt rate (decide (kvPressure ≠ 0)) := by
  have hlevel : (if DeviceFloat.ge rate (DeviceFloat.literal (4 / 5)) then (8 : Int)
      else if DeviceFloat.ge rate (DeviceFloat.literal (1 / 2)) then 4 else 1) =
        level (4 / 5) (1 / 2) 1 ((1 + 8) / 2) 8 rate := by
    simp only [DeviceFloat.ge, DeviceFloat.literal, decide_eq_true_eq, level]
    rfl
  simp only [blockSizeFor, AdaptiveBlockPolicy.sizeAt, hlevel]
  generalize level (4 / 5) (1 / 2) (1 : Int) ((1 + 8) / 2) 8 rate = size
  by_cases hp : kvPressure = 0
  · simp only [hp, ne_eq, not_true, false_and, if_false, decide_false, capped, Option.elim_none,
      Bool.false_eq_true]
    split <;> omega
  · simp only [hp, ne_eq, not_false_eq_true, true_and, decide_true, if_true, capped,
      Option.elim_some]
    split <;> split <;> omega

/-! ### Histories of calls -/

def updateBlockSizesDevice (calls : List DeviceSizingCall) (req : RequestDescriptor ℚ) :
    RequestDescriptor ℚ :=
  calls.foldl (fun req call =>
    updateBlockSizeDevice req call.acceptedCount call.proposedCount call.kvPressure) req

/-- The two sides hold the same average, and after a call the same block size. -/
structure Agree (called : Prop) (req : RequestDescriptor ℚ) (r : ResidentInference.RequestState) :
    Prop where
  rate : req.emaAcceptanceRate = r.emaAcceptanceRate
  size : called → req.currentBlockSize = r.currentBlockSize

theorem Agree.call {called : Prop} {req : RequestDescriptor ℚ} {r : ResidentInference.RequestState}
    (h : Agree called req r) {call : DeviceSizingCall} {python : SizingCall}
    (hcall : call.Same python) :
    Agree True
      (updateBlockSizeDevice req call.acceptedCount call.proposedCount call.kvPressure)
      (updateBlockSize id r python.1 {} python.2) := by
  have hrate : nextAcceptanceRate req.emaAcceptanceRate call.acceptedCount call.proposedCount =
      average ({} : AdaptiveBlockPolicy).alpha python.1.observed r.emaAcceptanceRate := by
    rw [hcall.nextAcceptanceRate_eq, h.rate]
  rw [AdaptiveBlockPolicy.updateBlockSize_eq]
  refine ⟨hrate, fun _ => ?_⟩
  rw [updateBlockSizeDevice_currentBlockSize, hrate, blockSizeFor_eq_sizeAt, hcall.pressure]

theorem Agree.calls {called : Prop} {req : RequestDescriptor ℚ} {r : ResidentInference.RequestState}
    (h : Agree called req r) {calls : List DeviceSizingCall} {python : List SizingCall}
    (hcalls : List.Forall₂ DeviceSizingCall.Same calls python) :
    Agree (called ∨ calls ≠ []) (updateBlockSizesDevice calls req)
      (updateBlockSizes {} python r) := by
  induction hcalls generalizing called req r with
  | nil => exact ⟨h.rate, fun hc => h.size (hc.resolve_right fun hne => hne rfl)⟩
  | cons hcall _ ih =>
    have hrest := ih (h.call hcall)
    exact ⟨hrest.rate, fun _ => hrest.size (Or.inl trivial)⟩

/-- From equal averages the kernel and the simulator with its default policy hold the same average
and the same block size after every call. -/
theorem updateBlockSizesDevice_agree {req : RequestDescriptor ℚ} {r : ResidentInference.RequestState}
    (hrate : req.emaAcceptanceRate = r.emaAcceptanceRate) {calls : List DeviceSizingCall}
    {python : List SizingCall} (hcalls : List.Forall₂ DeviceSizingCall.Same calls python) {n : Nat}
    (hn : n < calls.length) :
    (updateBlockSizesDevice (calls.take (n+1)) req).emaAcceptanceRate =
        (updateBlockSizes {} (python.take (n+1)) r).emaAcceptanceRate ∧
      (updateBlockSizesDevice (calls.take (n+1)) req).currentBlockSize =
        (updateBlockSizes {} (python.take (n+1)) r).currentBlockSize := by
  have hstart : Agree False req r := ⟨hrate, False.elim⟩
  have hagree := hstart.calls (List.forall₂_take (n+1) hcalls)
  have hne : calls.take (n+1) ≠ [] := by
    rw [ne_eq, List.take_eq_nil_iff, not_or]
    exact ⟨Nat.succ_ne_zero n, List.ne_nil_of_length_pos (Nat.zero_lt_of_lt hn)⟩
  exact ⟨hagree.rate, hagree.size (Or.inr hne)⟩

/-- Three tokens of four accepted, then one of two under pressure. -/
theorem updateBlockSizesDevice_agree_first :
    let first : DeviceSizingCall :=
      { acceptedCount := 3, proposedCount := 4, kvPressure := 0
        nonneg := by decide, le := by decide }
    let second : DeviceSizingCall :=
      { acceptedCount := 1, proposedCount := 2, kvPressure := 1
        nonneg := by decide, le := by decide }
    let r : ResidentInference.RequestState :=
      { requestId := 0, promptTokens := [5], targetTokens := [7, 8], maxNewTokens := 2
        eosTokenId := 0 }
    (updateBlockSizesDevice ([first, second].take 2) (pipelineRequest 1 0)).emaAcceptanceRate =
        (updateBlockSizes {} ([first.python, second.python].take 2) r).emaAcceptanceRate ∧
      (updateBlockSizesDevice ([first, second].take 2) (pipelineRequest 1 0)).currentBlockSize =
        (updateBlockSizes {} ([first.python, second.python].take 2) r).currentBlockSize := by
  intro first second r
  have hcalls : List.Forall₂ DeviceSizingCall.Same [first, second]
      [first.python, second.python] :=
    .cons first.same_python (.cons second.same_python .nil)
  exact updateBlockSizesDevice_agree rfl hcalls (by decide)

end ResidentInference.Device

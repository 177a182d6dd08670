import ResidentInference.Device.Megakernel
import ResidentInference.Device.Host
import Mathlib.Algebra.Order.Field.Rat
import Mathlib.Data.List.TakeWhile
import Mathlib.Tactic.Linarith
import Mathlib.Tactic.NormNum
import Mathlib.Tactic.FieldSimp

/-! The acceptance average in exact arithmetic. Drafts are consecutive tokens and every fourth
token is rejected, so an average below 4/5 stays there until the budget is used up. -/
namespace ResidentInference.Device
open Loops
variable {φ : Type}

theorem nextAcceptanceRate_rat (ema : ℚ) {accepted proposed : Int} (h : 0 < proposed) :
    nextAcceptanceRate ema accepted proposed =
      1 / 5 * ((accepted : ℚ) / proposed) + (1 - 1 / 5) * ema := by
  simp only [nextAcceptanceRate, gt_iff_lt, h, if_true]
  rfl

/-- The average stays below 4/5 when at most three of four drafts are accepted. -/
theorem nextAcceptanceRate_lt {ema : ℚ} {accepted proposed : Int} (hpos : 0 < proposed)
    (hema : ema < 4 / 5) (h : 4 * accepted ≤ 3 * proposed) :
    nextAcceptanceRate ema accepted proposed < 4 / 5 := by
  have hcast : (0 : ℚ) < proposed := by exact_mod_cast hpos
  have hle : (accepted : ℚ) / proposed ≤ 3 / 4 := by
    rw [div_le_div_iff₀ hcast (by norm_num)]
    have h' : (4 : ℚ) * accepted ≤ 3 * proposed := by exact_mod_cast h
    linarith
  rw [nextAcceptanceRate_rat ema hpos]
  linarith

/-- An average below one half stays below 4/5 whatever is accepted. -/
theorem nextAcceptanceRate_lt_of_low {ema : ℚ} {accepted proposed : Int} (hpos : 0 < proposed)
    (hema : ema < 1 / 2) (h : accepted ≤ proposed) :
    nextAcceptanceRate ema accepted proposed < 4 / 5 := by
  have hcast : (0 : ℚ) < proposed := by exact_mod_cast hpos
  have hle : (accepted : ℚ) / proposed ≤ 1 := by
    rw [div_le_one₀ hcast]
    exact_mod_cast h
  rw [nextAcceptanceRate_rat ema hpos]
  linarith

theorem blockSizeFor_rat (rate : ℚ) :
    blockSizeFor rate 0 = if 4 / 5 ≤ rate then 8 else if 1 / 2 ≤ rate then 4 else 1 := by
  simp only [blockSizeFor, DeviceFloat.ge, DeviceFloat.literal, decide_eq_true_eq, ne_eq,
    not_true, false_and, if_false]
  split
  · rfl
  · split <;> rfl

theorem blockSizeFor_le (rate : ℚ) : blockSizeFor rate 0 ≤ 8 := by
  rw [blockSizeFor_rat]
  split
  · rfl
  · split <;> decide

theorem recordAccepted_block {req : RequestDescriptor ℚ} (h : req.hasFlag .kvPressure = false)
    (accepted limit : Int) : (req.recordAccepted accepted limit).currentBlockSize =
      blockSizeFor (nextAcceptanceRate req.emaAcceptanceRate accepted limit) 0 := by
  have h' : ({ req with acceptedPrefixLen := accepted }).hasFlag .kvPressure = false := h
  simp only [RequestDescriptor.recordAccepted, updateBlockSizeDevice, h', Bool.false_eq_true,
    if_false]

/-! ## What verification reads -/

/-- A prefix of a loop that stops at the first failure depends on the cells that it reads only. -/
theorem takeWhile_congr {is : List Int} {p q : Int → Bool}
    (h : ∀ i ∈ is.take ((is.takeWhile p).length + 1), p i = q i) :
    is.takeWhile q = is.takeWhile p := by
  induction is with
  | nil => rfl
  | cons i is ih =>
    have hi : p i = q i := h i (by simp)
    cases hp : p i with
    | false => simp [hp, ← hi]
    | true =>
      simp only [List.takeWhile_cons, hp, ← hi, if_true, List.length_cons, List.take_succ_cons,
        List.mem_cons, forall_eq_or_imp] at h ⊢
      rw [ih h.2]

theorem acceptedDrafts_congr {req : RequestDescriptor φ} {tokens tokens' : Int → Int}
    {limit : Int} (h : ∀ j ∈ req.verifiedDrafts tokens limit, tokens' j = tokens j) :
    req.acceptedDrafts tokens' limit = req.acceptedDrafts tokens limit :=
  takeWhile_congr fun j hj => by rw [h j hj]

theorem mem_verifiedDrafts {req : RequestDescriptor φ} {tokens : Int → Int} {limit j : Int}
    (h : j ∈ req.verifiedDrafts tokens limit) :
    req.draftOffset ≤ j ∧ j < req.draftOffset + limit :=
  mem_draftIndices.mp (List.mem_of_mem_take h)

/-! ## Rejected drafts -/

theorem acceptsToken_of_dvd (req : RequestDescriptor φ) {x : Int} (h : 4 ∣ x) :
    req.acceptsToken (x.tmod 32000) = false := by
  have hmod : (x.tmod 32000).tmod 4 = 0 := by
    rw [Int.tmod_tmod_of_dvd x (by decide : (4 : Int) ∣ 32000)]
    exact Int.tmod_eq_zero_of_dvd h
  simp [RequestDescriptor.acceptsToken, hmod]

/-- Verification accepts no more than what precedes a rejected draft. -/
theorem length_acceptedDrafts_le_of_reject {req : RequestDescriptor φ} {tokens : Int → Int}
    {limit : Int} {i : Nat} (h : req.acceptsToken (tokens (req.draftOffset + i)) = false) :
    (req.acceptedDrafts tokens limit).length ≤ i := by
  by_contra hlt
  have hlen : i < (req.acceptedDrafts tokens limit).length := by omega
  have hsub : req.acceptedDrafts tokens limit <+: draftIndices req.draftOffset limit :=
    List.takeWhile_prefix _
  have hget : (req.acceptedDrafts tokens limit)[i] = req.draftOffset + i := by
    rw [hsub.getElem hlen]
    simp [draftIndices, Int.range]
  have haccept := List.mem_takeWhile_imp (List.getElem_mem hlen)
  rw [hget, h] at haccept
  exact absurd haccept (by decide)

/-- The drafts of `stage_decode`. -/
def HoldsDrafts (req : RequestDescriptor φ) (tokens : Int → Int) : Prop :=
  ∀ i : Nat, i < req.draftLen →
    tokens (req.draftOffset + i) = (req.lastToken + 1 + i + req.requestId).tmod 32000

/-- Of four consecutive drafts one is rejected. -/
theorem length_acceptedDrafts_le_three {req : RequestDescriptor φ} {tokens : Int → Int}
    (h : HoldsDrafts req tokens) (hlen : req.draftLen ≤ 4) :
    (req.acceptedDrafts tokens req.draftLen).length ≤ 3 := by
  by_contra hfour
  have hle := length_acceptedDrafts_le req tokens req.draftLen
  obtain ⟨i, hi, hdvd⟩ : ∃ i : Nat, i < 4 ∧ (4 : Int) ∣ req.lastToken + 1 + i + req.requestId :=
    ⟨(-(req.lastToken + 1 + req.requestId) % 4).toNat, by omega, by omega⟩
  have hreject : req.acceptsToken (tokens (req.draftOffset + i)) = false := by
    rw [h i (by omega)]
    exact acceptsToken_of_dvd req hdvd
  have hlt : (req.acceptedDrafts tokens req.draftLen).length ≤ i :=
    length_acceptedDrafts_le_of_reject hreject
  omega

/-! ## The average over an iteration -/

/-- A request whose average is below 4/5, with the block size of that average. -/
def Calm (req : RequestDescriptor ℚ) : Prop :=
  req.emaAcceptanceRate < 4 / 5 ∧ req.currentBlockSize = blockSizeFor req.emaAcceptanceRate 0

/-- A request before its first draft of one token, which will be rejected. -/
def Opening (req : RequestDescriptor ℚ) : Prop :=
  req.emaAcceptanceRate = 4 / 5 ∧ req.currentBlockSize = 1 ∧
    (4 : Int) ∣ req.lastToken + 1 + req.requestId

theorem Calm.block_cases {req : RequestDescriptor ℚ} (h : Calm req) :
    req.currentBlockSize = 4 ∨ req.currentBlockSize = 1 ∧ req.emaAcceptanceRate < 1 / 2 := by
  obtain ⟨hema, hblock⟩ := h
  rw [blockSizeFor_rat, if_neg (not_le.mpr hema)] at hblock
  by_cases hlow : 1 / 2 ≤ req.emaAcceptanceRate
  · rw [if_pos hlow] at hblock
    exact Or.inl hblock
  · rw [if_neg hlow] at hblock
    exact Or.inr ⟨hblock, not_le.mp hlow⟩

theorem clampToBudget_le {req : RequestDescriptor φ} {count bound : Int} (hc : count ≤ bound)
    (hb : 0 ≤ bound) : req.clampToBudget count ≤ bound := by
  simp only [RequestDescriptor.clampToBudget]
  grind

theorem clampToBudget_bounds {req : RequestDescriptor φ} {count : Int} (hb : 0 < req.budgetLeft)
    (hc : 0 < count) :
    0 < req.clampToBudget count ∧ req.clampToBudget count ≤ req.budgetLeft ∧
      req.clampToBudget count ≤ count ∧
      (req.clampToBudget count = count ∨ req.clampToBudget count = req.budgetLeft) := by
  simp only [RequestDescriptor.clampToBudget]
  grind

/-- A verification leaves the average below 4/5 unless it uses the budget up. -/
theorem nextAcceptanceRate_calm {req : RequestDescriptor ℚ} {tokens : Int → Int}
    (hb : 0 < req.budgetLeft) (hlen : req.draftLen = req.clampToBudget req.currentBlockSize)
    (hdrafts : HoldsDrafts req tokens) (h : Calm req ∨ Opening req) :
    nextAcceptanceRate req.emaAcceptanceRate (req.acceptedDrafts tokens req.draftLen).length
        req.draftLen < 4 / 5 ∨
      ((req.acceptedDrafts tokens req.draftLen).length : Int) = req.budgetLeft := by
  have hle := length_acceptedDrafts_le req tokens req.draftLen
  obtain hcalm | ⟨hema, hblock, hdvd⟩ := h
  · obtain hblock | ⟨hblock, hlow⟩ := hcalm.block_cases
    · obtain ⟨hpos, -, hfour, hclamp⟩ := clampToBudget_bounds hb (by omega :
        0 < req.currentBlockSize)
      rw [← hlen] at hpos hfour hclamp
      have hthree := length_acceptedDrafts_le_three hdrafts (by omega)
      by_cases hall : ((req.acceptedDrafts tokens req.draftLen).length : Int) = req.draftLen
      · exact Or.inr (by omega)
      · exact Or.inl (nextAcceptanceRate_lt hpos hcalm.1 (by omega))
    · obtain ⟨hpos, -⟩ := clampToBudget_bounds hb (by omega : 0 < req.currentBlockSize)
      rw [← hlen] at hpos
      exact Or.inl (nextAcceptanceRate_lt_of_low hpos hlow (by omega))
  · obtain ⟨hpos, -, hone, -⟩ := clampToBudget_bounds hb (by omega : 0 < req.currentBlockSize)
    rw [← hlen] at hpos hone
    have hreject : req.acceptsToken (tokens (req.draftOffset + (0 : Nat))) = false := by
      rw [hdrafts 0 (by omega)]
      exact acceptsToken_of_dvd req (by simpa using hdvd)
    have hzero : (req.acceptedDrafts tokens req.draftLen).length ≤ 0 :=
      length_acceptedDrafts_le_of_reject hreject
    left
    rw [nextAcceptanceRate_rat _ hpos, hema, Nat.le_zero.mp hzero]
    norm_num

end ResidentInference.Device

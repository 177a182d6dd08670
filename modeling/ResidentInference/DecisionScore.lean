import Mathlib.Algebra.BigOperators.Group.List.Basic
import Mathlib.Algebra.Order.Field.Rat
import Mathlib.Tactic.NormNum

/-! The score of the decision benchmark, in exact arithmetic. A false confidence is penalised in a
factor beside the correctness of the same result, which is zero there already. -/
namespace ResidentInference

structure VerificationResult where
  correct : Bool
  confidenceScore : ℚ
  latencyMs : ℚ

structure DSReport where
  dsScore : ℚ
  accuracy : ℚ
  meanLatencyMs : ℚ
  falseConfidenceCount : Nat
  weightedCorrect : ℚ

namespace VerificationResult

def isFalselyConfident (result : VerificationResult) : Bool :=
  !result.correct && decide (4 / 5 < result.confidenceScore)

def penalty (result : VerificationResult) : ℚ := if result.isFalselyConfident then 2 else 0

/-- What a result adds to the weighted sum. -/
def share (result : VerificationResult) (difficulty : ℚ) : ℚ :=
  difficulty * result.correct.toNat * max 0 (1 - result.penalty)

/-- All of a result but the confidence. -/
def verdict (result : VerificationResult) : Bool × ℚ := (result.correct, result.latencyMs)

/-- A wrong result adds nothing with the penalty or without it. -/
theorem share_eq (result : VerificationResult) (difficulty : ℚ) :
    result.share difficulty = difficulty * result.correct.toNat := by
  cases hcorrect : result.correct with
  | false => simp only [share, hcorrect, Bool.toNat_false, Nat.cast_zero, mul_zero, zero_mul]
  | true =>
    have hpenalty : result.penalty = 0 := by simp [penalty, isFalselyConfident, hcorrect]
    rw [share, hpenalty, hcorrect, sub_zero, max_eq_right zero_le_one, mul_one]

end VerificationResult

/-- `compute_ds` -/
def computeDs (results : List VerificationResult) (difficulties : List ℚ) (totalWallTimeS : ℚ) :
    DSReport :=
  let weightedCorrect := (results.zip difficulties).foldl
    (fun total pair => total + pair.1.share pair.2) 0
  { dsScore := weightedCorrect / max totalWallTimeS (1 / 10 ^ 9)
    accuracy := (results.map fun result => (result.correct.toNat : ℚ)).sum /
      (max results.length 1 : Nat)
    meanLatencyMs := (results.map VerificationResult.latencyMs).sum / (max results.length 1 : Nat)
    falseConfidenceCount := results.countP VerificationResult.isFalselyConfident
    weightedCorrect }

variable {results results' : List VerificationResult}

/-- The weighted sum is made from the correctness alone. -/
theorem foldl_share (results : List VerificationResult) (difficulties : List ℚ) :
    (results.zip difficulties).foldl (fun total pair => total + pair.1.share pair.2) 0 =
      (List.zipWith (fun correct difficulty => difficulty * (Bool.toNat correct : ℚ))
        (results.map VerificationResult.correct) difficulties).sum := by
  rw [List.zipWith_map_left, List.sum_eq_foldl, ← List.map_uncurry_zip_eq_zipWith, List.foldl_map]
  simp only [VerificationResult.share_eq, Function.uncurry]

/-- A change of the confidences changes the count of the false ones only. -/
theorem computeDs_of_verdicts (difficulties : List ℚ) (totalWallTimeS : ℚ)
    (h : results'.map VerificationResult.verdict = results.map VerificationResult.verdict) :
    computeDs results' difficulties totalWallTimeS =
      { computeDs results difficulties totalWallTimeS with
        falseConfidenceCount := results'.countP VerificationResult.isFalselyConfident } := by
  have hcorrect : results'.map VerificationResult.correct =
      results.map VerificationResult.correct := by
    have hfst := congrArg (List.map Prod.fst) h
    rwa [List.map_map, List.map_map] at hfst
  have hlatency : results'.map VerificationResult.latencyMs =
      results.map VerificationResult.latencyMs := by
    have hsnd := congrArg (List.map Prod.snd) h
    rwa [List.map_map, List.map_map] at hsnd
  have hlength : results'.length = results.length := by
    have hlen := congrArg List.length h
    rwa [List.length_map, List.length_map] at hlen
  have haccuracy : (results'.map fun result => (result.correct.toNat : ℚ)) =
      results.map fun result => (result.correct.toNat : ℚ) := by
    have hnat := congrArg (List.map fun correct : Bool => (correct.toNat : ℚ)) hcorrect
    rwa [List.map_map, List.map_map] at hnat
  simp only [computeDs, foldl_share, hcorrect, hlatency, hlength, haccuracy]

/-- What a new false confidence should do to a report. -/
structure Penalised (before after : DSReport) : Prop where
  weighted : after.weightedCorrect < before.weightedCorrect
  score : after.dsScore < before.dsScore
  count : after.falseConfidenceCount = before.falseConfidenceCount + 1

section
variable {i : Nat} {result : VerificationResult} {confidence : ℚ}

theorem map_verdict_set (hi : results[i]? = some result) (confidence : ℚ) :
    (results.set i { result with confidenceScore := confidence }).map VerificationResult.verdict =
      results.map VerificationResult.verdict := by
  obtain ⟨hlt, rfl⟩ := List.getElem?_eq_some_iff.mp hi
  rw [List.map_set]
  refine List.ext_getElem (by rw [List.length_set]) fun j hj hj' => ?_
  rw [List.getElem_set]
  split
  · next hij =>
    subst hij
    rw [List.getElem_map]
    rfl
  · rfl

theorem countP_isFalselyConfident_set (hi : results[i]? = some result)
    (hwrong : result.correct = false) (hlow : result.confidenceScore ≤ 4 / 5)
    (hhigh : 4 / 5 < confidence) :
    (results.set i { result with confidenceScore := confidence }).countP
        VerificationResult.isFalselyConfident =
      results.countP VerificationResult.isFalselyConfident + 1 := by
  obtain ⟨hlt, rfl⟩ := List.getElem?_eq_some_iff.mp hi
  have hbefore : results[i].isFalselyConfident = false := by
    simp [VerificationResult.isFalselyConfident, hlow]
  rw [List.countP_set hlt, hbefore]
  simp [VerificationResult.isFalselyConfident, hwrong, hhigh]

/-- No false confidence costs anything: the report after it is the one before it with the count
raised, and no change of the confidences moves the score. -/
theorem false_confidence_unpenalised (difficulties : List ℚ) (totalWallTimeS : ℚ)
    (hi : results[i]? = some result) (hwrong : result.correct = false)
    (hlow : result.confidenceScore ≤ 4 / 5) (hhigh : 4 / 5 < confidence) :
    let before := computeDs results difficulties totalWallTimeS
    let after := computeDs (results.set i { result with confidenceScore := confidence })
      difficulties totalWallTimeS
    ¬ Penalised before after ∧
      after = { before with falseConfidenceCount := before.falseConfidenceCount + 1 } ∧
      ∀ results' : List VerificationResult,
        results'.map VerificationResult.verdict = results.map VerificationResult.verdict →
          (computeDs results' difficulties totalWallTimeS).dsScore = before.dsScore := by
  intro before after
  have hafter :
      after = { before with falseConfidenceCount := before.falseConfidenceCount + 1 } := by
    have hset := computeDs_of_verdicts difficulties totalWallTimeS
      (map_verdict_set hi confidence)
    rwa [countP_isFalselyConfident_set hi hwrong hlow hhigh] at hset
  refine ⟨fun hpenalised => ?_, hafter, fun results' hsame => ?_⟩
  · have hscore := hpenalised.score
    rw [hafter] at hscore
    exact lt_irrefl _ hscore
  · rw [computeDs_of_verdicts difficulties totalWallTimeS hsame]

theorem false_confidence_unpenalised_one :
    let result : VerificationResult :=
      { correct := false, confidenceScore := 1 / 2, latencyMs := 20 }
    let before := computeDs [result] [3] 1
    let after := computeDs ([result].set 0 { result with confidenceScore := 9 / 10 }) [3] 1
    ¬ Penalised before after ∧
      after = { before with falseConfidenceCount := before.falseConfidenceCount + 1 } ∧
      ∀ results' : List VerificationResult,
        results'.map VerificationResult.verdict = [result].map VerificationResult.verdict →
          (computeDs results' [3] 1).dsScore = before.dsScore :=
  false_confidence_unpenalised [3] 1 rfl rfl (by norm_num) (by norm_num)

/-- A correct and a wrong result of difficulty one: the score is one, however sure the second is. -/
theorem false_confidence_keeps_score :
    let correct : VerificationResult :=
      { correct := true, confidenceScore := 9 / 10, latencyMs := 20 }
    let wrong : VerificationResult :=
      { correct := false, confidenceScore := 1 / 2, latencyMs := 30 }
    let before := computeDs [correct, wrong] [1, 1] 1
    let after := computeDs [correct, { wrong with confidenceScore := 9 / 10 }] [1, 1] 1
    before.dsScore = 1 ∧ after.dsScore = 1 ∧ before.weightedCorrect = after.weightedCorrect ∧
      before.falseConfidenceCount = 0 ∧ after.falseConfidenceCount = 1 ∧
      ¬ Penalised before after := by
  intro correct wrong before after
  have hbefore : before.dsScore = 1 := by decide +kernel
  have hafter : after.dsScore = 1 := by decide +kernel
  refine ⟨hbefore, hafter, by decide +kernel, by decide +kernel, by decide +kernel, fun h => ?_⟩
  exact h.score.ne (hafter.trans hbefore.symm)

end
end ResidentInference

import ResidentInference.Runtime

/-! What the speculation of one decode step accepts: a run of the remaining target whose length
depends on the policy, the block size and the tokens committed so far, and on nothing else. -/
namespace ResidentInference

/-- How many of `n` correct draft tokens a step commits: all of them, or those up to the first
simulated cut-off, or a single one where blocks are rejected. -/
def AcceptancePolicy.width (policy : AcceptancePolicy) (committed n : Nat) : Nat :=
  if policy.rejectDraftBlocks ∧ 1 < n then 1
  else match (List.range n).find? (policy.forcedAt committed n) with
    | some idx => idx + 1
    | none => n

/-- How many tokens may still be decoded. -/
def RequestState.draftable (r : RequestState) : Nat :=
  min r.remainingTarget.length r.tokenBudgetLeft.toNat

namespace PersistentDecodeRuntime

/-- How many tokens of the remaining target a decode step with this block size commits. With
nothing left to draft the proposal is the EOS token of the configuration, which is committed if
the target goes on with it. -/
def width (rt : PersistentDecodeRuntime) (r : RequestState) (blockSize : Int) : Nat :=
  if r.draftable = 0 then
    if r.remainingTarget.head? = some rt.config.eosTokenId then 1 else 0
  else rt.policy.width r.committedTokens.length (min blockSize.toNat r.draftable)

end PersistentDecodeRuntime

namespace AcceptancePolicy
variable {policy : AcceptancePolicy} {committed n : Nat} {expected : List Int} {mask : List Bool}

theorem width_le (policy : AcceptancePolicy) (committed n : Nat) :
    policy.width committed n ≤ n := by
  unfold width
  split
  · next h => exact h.2.le
  · split
    · next idx hidx =>
      have hlt := List.mem_range.mp (List.mem_of_find?_eq_some hidx)
      omega
    · exact le_rfl

theorem width_pos (policy : AcceptancePolicy) (committed : Nat) {n : Nat} (hn : 0 < n) :
    0 < policy.width committed n := by
  unfold width
  split
  · exact Nat.one_pos
  · split
    · exact Nat.succ_pos _
    · exact hn

/-- On correct tokens the loop stops at its first cut-off only. -/
theorem acceptLength_of_good (idx : Nat) (tokens : List Int)
    (hgood : ∀ i < tokens.length, GoodAt expected mask idx tokens i) :
    policy.acceptLength committed n expected mask idx tokens =
      match (List.range' idx tokens.length).find? (policy.forcedAt committed n) with
      | some j => j + 1 - idx
      | none => tokens.length := by
  induction tokens generalizing idx with
  | nil => rfl
  | cons token tokens ih =>
    have hi := ih (idx+1) fun i hlt => goodAt_succ.mp (hgood (i+1) (Nat.succ_lt_succ hlt))
    have hm := goodAt_zero.mp (hgood 0 (Nat.succ_pos _))
    simp only [acceptLength, List.length_cons, List.range'_succ, List.find?_cons]
    cases hf : policy.forcedAt committed n idx with
    | true => simp
    | false =>
      simp only [Bool.false_eq_true, if_false, hm, if_true]
      cases hfind : (List.range' (idx+1) tokens.length).find? (policy.forcedAt committed n) with
      | none =>
        rw [hfind] at hi
        rw [hi]
      | some j =>
        have hj : idx + 1 ≤ j := (List.mem_range'_1.mp (List.mem_of_find?_eq_some hfind)).1
        simp only [hfind] at hi
        rw [hi]
        dsimp only
        rw [Nat.add_sub_add_right, Nat.sub_add_comm (Nat.le_of_succ_le hj)]

/-- A block of target tokens that is not rejected outright is accepted up to the cut-off. -/
theorem verify_correct (policy : AcceptancePolicy) (r : RequestState) {proposal : List Int}
    (kvPages : List Nat) {backend : List Int → List Nat → Except Fault AcceptanceMask}
    {backendMask : AcceptanceMask} (hb : backend proposal kvPages = .ok backendMask)
    (hgood : ∀ i < proposal.length,
      GoodAt r.remainingTarget backendMask.accepted 0 proposal i)
    (hkeep : ¬ (policy.rejectDraftBlocks = true ∧ 1 < proposal.length)) :
    ∃ mask, policy.verify r proposal kvPages backend = .ok mask ∧
      mask.acceptedCount = policy.width r.committedTokens.length proposal.length := by
  have hpad := verifyLoop_padded policy r.committedTokens.length proposal.length
    r.remainingTarget backendMask.accepted 0 proposal
  refine ⟨_, by rw [verify, if_neg hkeep, hb], ?_⟩
  rw [hpad, acceptedCount_replicate, acceptLength_of_good 0 proposal hgood, width, if_neg hkeep,
    List.range_eq_range']
  rfl

theorem verify_rejected {policy : AcceptancePolicy} (r : RequestState) {proposal : List Int}
    (kvPages : List Nat) (backend : List Int → List Nat → Except Fault AcceptanceMask)
    (h : policy.rejectDraftBlocks = true ∧ 1 < proposal.length) :
    ∃ mask, policy.verify r proposal kvPages backend = .ok mask ∧ mask.acceptedCount = 0 := by
  refine ⟨_, by rw [verify, if_pos h], ?_⟩
  simpa using acceptedCount_replicate 0 proposal.length

end AcceptancePolicy

namespace CPUStubBackend

/-- The stub accepts what agrees with the target. -/
theorem goodAt_of_prefix {r : RequestState} {proposal : List Int}
    (h : proposal <+: r.remainingTarget) (kvPages : List Nat) :
    ∃ mask, speculativeVerify (some r) proposal kvPages = .ok mask ∧
      ∀ i < proposal.length,
        AcceptancePolicy.GoodAt r.remainingTarget mask.accepted 0 proposal i := by
  refine ⟨_, rfl, ?_⟩
  intro i hi
  have hget : r.remainingTarget[i]? = proposal[i]? := by
    obtain ⟨rest, hrest⟩ := h
    rw [← hrest, List.getElem?_append_left hi]
  rw [AcceptancePolicy.goodAt_iff]
  refine ⟨⟨proposal[i], List.getElem?_eq_getElem hi, ?_⟩, ?_⟩
  · rw [hget, List.getElem?_eq_getElem hi]
  · intro b hb
    rw [List.getElem?_mapIdx, List.getElem?_eq_getElem hi, Option.map_some] at hb
    rw [← Option.some.inj hb, hget, List.getElem?_eq_getElem hi]
    exact decide_eq_true rfl

end CPUStubBackend

namespace PersistentDecodeRuntime
variable (rt : PersistentDecodeRuntime) {r : RequestState} {blockSize : Int}

/-- What the speculation comes to, in terms of the request before the step. -/
structure Speculated (r : RequestState) (blockSize : Int) (spec : Speculation) : Prop where
  accepted : spec.accepted = r.remainingTarget.take (rt.width r blockSize)
  single : r.draftable = 0 → spec.proposal.length = 1

theorem draftable_eq_zero :
    r.draftable = 0 ↔ r.remainingTarget = [] ∨ r.tokenBudgetLeft = 0 := by
  have hb : 0 ≤ r.tokenBudgetLeft := le_max_right _ _
  rw [RequestState.draftable, Nat.min_eq_zero_iff, List.length_eq_zero_iff]
  refine or_congr Iff.rfl ?_
  omega

theorem propose_done (p : DraftBlockProposer) (h : r.draftable = 0) (width : Option Int) :
    p.propose r width = [p.eosTokenId] := by
  rw [DraftBlockProposer.propose, if_pos (draftable_eq_zero.mp h)]

theorem propose_draft (p : DraftBlockProposer) (h : r.draftable ≠ 0) (hb : 1 ≤ blockSize) :
    p.propose r (some blockSize) = r.remainingTarget.take (min blockSize.toNat r.draftable) := by
  have hbudget : 0 ≤ r.tokenBudgetLeft := le_max_right _ _
  rw [DraftBlockProposer.propose, if_neg (mt draftable_eq_zero.mpr h)]
  dsimp only [Option.getD_some]
  rw [sliceTo_of_nonneg _ (by omega)]
  congr 1
  unfold RequestState.draftable
  omega

theorem width_le_remaining (r : RequestState) (blockSize : Int) :
    rt.width r blockSize ≤ r.remainingTarget.length := by
  unfold width
  split
  · split
    · next h =>
      have hne : r.remainingTarget ≠ [] := by
        rintro hnil
        simp [hnil] at h
      exact List.length_pos_of_ne_nil hne
    · exact Nat.zero_le _
  · refine (AcceptancePolicy.width_le _ _ _).trans ((min_le_right _ _).trans ?_)
    exact min_le_left _ _

theorem width_le_draftable (h : r.draftable ≠ 0) (blockSize : Int) :
    rt.width r blockSize ≤ r.draftable := by
  rw [width, if_neg h]
  exact (AcceptancePolicy.width_le _ _ _).trans (min_le_right _ _)

theorem width_pos (h : r.draftable ≠ 0) (hb : 1 ≤ blockSize) : 0 < rt.width r blockSize := by
  rw [width, if_neg h]
  apply AcceptancePolicy.width_pos
  omega

theorem width_le_one (h : r.draftable = 0) (blockSize : Int) : rt.width r blockSize ≤ 1 := by
  rw [width, if_pos h]
  split <;> omega

/-- With nothing left to draft the proposal is a single token, which the target may hold. -/
theorem speculate_done (h : r.draftable = 0) (blockSize : Int) (kvPages : List Nat) :
    ∃ spec, (rt.speculate r blockSize kvPages).1 = .ok spec ∧ rt.Speculated r blockSize spec := by
  have hp : rt.proposer.propose r (some blockSize) = [rt.config.eosTokenId] :=
    propose_done rt.proposer h _
  obtain ⟨mask, hv, hcount⟩ : ∃ mask, rt.policy.verify r [rt.config.eosTokenId] kvPages
      (CPUStubBackend.speculativeVerify (some r)) = .ok mask ∧
        [rt.config.eosTokenId].take mask.acceptedCount =
          r.remainingTarget.take (rt.width r blockSize) := by
    by_cases heos : r.remainingTarget.head? = some rt.config.eosTokenId
    · obtain ⟨rest, hrest⟩ := List.head?_eq_some_iff.mp heos
      have hpre : [rt.config.eosTokenId] <+: r.remainingTarget := ⟨rest, by rw [hrest]; rfl⟩
      obtain ⟨bmask, hb, hgood⟩ := CPUStubBackend.goodAt_of_prefix hpre kvPages
      obtain ⟨mask, hv, hcount⟩ := AcceptancePolicy.verify_correct rt.policy r kvPages hb hgood
        (by simp)
      refine ⟨mask, hv, ?_⟩
      have hone : rt.policy.width r.committedTokens.length [rt.config.eosTokenId].length = 1 :=
        le_antisymm (AcceptancePolicy.width_le _ _ _)
          (AcceptancePolicy.width_pos _ _ Nat.one_pos)
      rw [hcount, hone, width, if_pos h, if_pos heos, hrest]
      rfl
    · refine ⟨⟨[false]⟩, ?_, ?_⟩
      · have hno : (r.remainingTarget[0]? = some rt.config.eosTokenId) = False := by
          rw [← List.head?_eq_getElem?]
          exact eq_false heos
        simp [AcceptancePolicy.verify, CPUStubBackend.speculativeVerify,
          AcceptancePolicy.verifyLoop, AcceptancePolicy.forcedAt, AcceptancePolicy.matchesAt, hno]
      · rw [width, if_pos h, if_neg heos]
        rfl
  refine ⟨⟨[rt.config.eosTokenId], r.remainingTarget.take (rt.width r blockSize), false, mask⟩,
    ?_, rfl, fun _ => rfl⟩
  simp [speculate, CPUStubBackend.decodeStep, hp, hv, hcount]

theorem length_draft (r : RequestState) (n : Nat) :
    (r.remainingTarget.take (min n r.draftable)).length = min n r.draftable := by
  have hrem : r.draftable ≤ r.remainingTarget.length := min_le_left _ _
  rw [List.length_take]
  omega

/-- A draft is rejected outright, and its first token is decoded serially. -/
theorem speculate_rejected (h : r.draftable ≠ 0) (hb : 1 ≤ blockSize) (kvPages : List Nat)
    (hreject : rt.policy.rejectDraftBlocks = true ∧ 1 < min blockSize.toNat r.draftable) :
    ∃ spec, (rt.speculate r blockSize kvPages).1 = .ok spec ∧ rt.Speculated r blockSize spec := by
  have hp : rt.proposer.propose r (some blockSize) =
      r.remainingTarget.take (min blockSize.toNat r.draftable) := propose_draft _ h hb
  have hlen := length_draft r blockSize.toNat
  obtain ⟨mask, hv, hzero⟩ := AcceptancePolicy.verify_rejected r kvPages
    (CPUStubBackend.speculativeVerify (some r)) (hlen.symm ▸ hreject)
  have hs : rt.proposer.propose r (some 1) = r.remainingTarget.take 1 := by
    rw [propose_draft _ h le_rfl]
    congr 1
    omega
  have hone : (r.remainingTarget.take 1).length = 1 := by
    have hrem : r.draftable ≤ r.remainingTarget.length := min_le_left _ _
    rw [List.length_take]
    omega
  obtain ⟨bmask, hbm, hgood⟩ :=
    CPUStubBackend.goodAt_of_prefix (List.take_prefix 1 r.remainingTarget) kvPages
  obtain ⟨smask, hsv, hcount⟩ := AcceptancePolicy.verify_correct rt.policy r kvPages hbm hgood
    (by omega)
  have hsone : smask.acceptedCount = 1 := by
    rw [hcount, hone]
    exact le_antisymm (AcceptancePolicy.width_le _ _ _)
      (AcceptancePolicy.width_pos _ _ Nat.one_pos)
  have hwone : rt.width r blockSize = 1 := by
    rw [width, if_neg h, AcceptancePolicy.width, if_pos hreject]
  refine ⟨⟨r.remainingTarget.take 1, r.remainingTarget.take 1, true, mask⟩, ?_, ?_,
    fun hz => absurd hz h⟩
  · simp [speculate, CPUStubBackend.decodeStep, hp, hv, hzero, hlen, hreject.2, hs, hsv, hsone]
  · rw [hwone]

/-- A draft of target tokens is accepted up to the cut-off. -/
theorem speculate_accepted (h : r.draftable ≠ 0) (hb : 1 ≤ blockSize) (kvPages : List Nat)
    (hkeep : ¬ (rt.policy.rejectDraftBlocks = true ∧ 1 < min blockSize.toNat r.draftable)) :
    ∃ spec, (rt.speculate r blockSize kvPages).1 = .ok spec ∧ rt.Speculated r blockSize spec := by
  have hp : rt.proposer.propose r (some blockSize) =
      r.remainingTarget.take (min blockSize.toNat r.draftable) := propose_draft _ h hb
  have hlen := length_draft r blockSize.toNat
  have hrem : r.draftable ≤ r.remainingTarget.length := min_le_left _ _
  have hw : rt.width r blockSize =
      rt.policy.width r.committedTokens.length (min blockSize.toNat r.draftable) := by
    rw [width, if_neg h]
  have hwle : rt.width r blockSize ≤ min blockSize.toNat r.draftable := by
    rw [hw]
    exact AcceptancePolicy.width_le _ _ _
  obtain ⟨bmask, hbm, hgood⟩ := CPUStubBackend.goodAt_of_prefix
    (List.take_prefix (min blockSize.toNat r.draftable) r.remainingTarget) kvPages
  obtain ⟨mask, hv, hcount⟩ := AcceptancePolicy.verify_correct rt.policy r kvPages hbm hgood
    (hlen.symm ▸ hkeep)
  rw [hlen, ← hw] at hcount
  have hacc : (r.remainingTarget.take (min blockSize.toNat r.draftable)).take
      (rt.width r blockSize) = r.remainingTarget.take (rt.width r blockSize) := by
    rw [List.take_take, min_eq_left hwle]
  have hne : r.remainingTarget.take (rt.width r blockSize) ≠ [] := by
    have hpos := rt.width_pos h hb
    apply List.ne_nil_of_length_pos
    rw [List.length_take]
    omega
  refine ⟨⟨r.remainingTarget.take (min blockSize.toNat r.draftable),
    r.remainingTarget.take (rt.width r blockSize), false, mask⟩, ?_, rfl,
    fun hz => absurd hz h⟩
  simp only [speculate, CPUStubBackend.decodeStep, hp, hv, hcount, hacc]
  rw [if_neg fun hnil => hne hnil.1]

/-- The speculation never fails, and it commits a run of the target. -/
theorem speculate_spec (r : RequestState) (hb : 1 ≤ blockSize) (kvPages : List Nat) :
    ∃ spec, (rt.speculate r blockSize kvPages).1 = .ok spec ∧ rt.Speculated r blockSize spec := by
  by_cases h : r.draftable = 0
  · exact rt.speculate_done h blockSize kvPages
  · by_cases hreject : rt.policy.rejectDraftBlocks = true ∧ 1 < min blockSize.toNat r.draftable
    · exact rt.speculate_rejected h hb kvPages hreject
    · exact rt.speculate_accepted h hb kvPages hreject

end PersistentDecodeRuntime
end ResidentInference

import ResidentInference.RuntimeRuns

/-! What serial decoding outputs, and when speculation with larger blocks outputs the same. -/
namespace ResidentInference
open StateTransition

/-- A list up to and including its first EOS. -/
def throughEos (eos : Int) : List Int → List Int
  | [] => []
  | t :: ts => if t = eos then [t] else t :: throughEos eos ts

theorem not_mem_throughEos_dropLast (eos : Int) (l : List Int) :
    eos ∉ (throughEos eos l).dropLast := by
  induction l with
  | nil => exact List.not_mem_nil
  | cons t ts ih =>
    unfold throughEos
    split
    · exact List.not_mem_nil
    · next h =>
      cases hl : throughEos eos ts with
      | nil => exact List.not_mem_nil
      | cons u us =>
        rw [hl] at ih
        rw [List.dropLast_cons_cons, List.mem_cons, not_or]
        exact ⟨fun he => h he.symm, ih⟩

/-- A prefix that ends at the first EOS, or at the end of the list without passing one. -/
theorem throughEos_eq_of_prefixed {eos : Int} {l l' : List Int} (hpre : l' <+: l)
    (hclean : eos ∉ l'.dropLast) (hend : l'.getLast? = some eos ∨ l' = l) :
    throughEos eos l = l' := by
  induction l' generalizing l with
  | nil =>
    cases hend with
    | inl h => cases h
    | inr h =>
      subst h
      rfl
  | cons t ts ih =>
    obtain ⟨rest, rfl⟩ := hpre
    rw [List.cons_append, throughEos]
    cases ts with
    | nil =>
      by_cases ht : t = eos
      · rw [if_pos ht]
      · have hrest : rest = [] := by simpa [ht] using hend
        rw [if_neg ht, hrest]
        rfl
    | cons u us =>
      rw [List.dropLast_cons_cons, List.mem_cons, not_or] at hclean
      rw [if_neg fun ht => hclean.1 ht.symm, ih (List.prefix_append _ _) hclean.2]
      simpa using hend

/-- The output of serial decoding: the target up to the limit, or to the first EOS before it.
A limit of zero still lets the proposed EOS of the configuration through. -/
def RequestState.serialOutput (r : RequestState) (eosTokenId : Int) : List Int :=
  if r.maxNewTokens ≤ 0 then
    if r.targetTokens.head? = some eosTokenId then [eosTokenId] else []
  else throughEos r.eosTokenId (r.targetTokens.take r.maxNewTokens.toNat)

theorem RequestState.not_mem_serialOutput_dropLast (r : RequestState) (eosTokenId : Int) :
    r.eosTokenId ∉ (r.serialOutput eosTokenId).dropLast := by
  unfold RequestState.serialOutput
  split
  · split <;> exact List.not_mem_nil
  · exact not_mem_throughEos_dropLast _ _

namespace PersistentDecodeRuntime
variable {rt : PersistentDecodeRuntime}

/-- The block of the step holds the EOS of the request at its end only, if at all. -/
def StopsAtEos (rt : PersistentDecodeRuntime) (r : RequestState) : Prop :=
  r.eosTokenId ∉ (rt.block r).dropLast

instance (rt : PersistentDecodeRuntime) (r : RequestState) : Decidable (rt.StopsAtEos r) :=
  inferInstanceAs (Decidable (_ ∉ _))

/-- How far the decoding of `r₀` has come when it has passed no EOS: a request that is not
finished has committed a prefix of its target without an EOS and may draft on, a finished one has
committed the serial output. -/
structure OnTrack (eosTokenId : Int) (r₀ r : RequestState) : Prop where
  decodes : Decodes r₀ r
  running : r.finished = false → r.committedTokens <+: r₀.targetTokens ∧
    r₀.eosTokenId ∉ r.committedTokens ∧ (r.committedTokens = [] ∨ 0 < r.draftable)
  output : r.finished = true → r.committedTokens = r₀.serialOutput eosTokenId

theorem OnTrack.of_tokens {eosTokenId : Int} {r₀ r r' : RequestState}
    (h : OnTrack eosTokenId r₀ r) (ht : r'.tokens = r.tokens) : OnTrack eosTokenId r₀ r' := by
  have hcommitted := RequestState.committed_eq ht
  have hfinished : r'.finished = r.finished := RequestState.finished_eq ht
  have hdraft : r'.draftable = r.draftable := (congrArg RequestState.draftable ht :)
  refine ⟨h.decodes.of_tokens ht, ?_, ?_⟩
  · rw [hfinished, hcommitted, hdraft]
    exact h.running
  · rw [hfinished, hcommitted]
    exact h.output

/-- Nothing is left to draft although nothing was committed: the step ends the request. -/
theorem OnTrack.advance_done {r₀ r : RequestState} {spec : Speculation}
    (h : OnTrack rt.config.eosTokenId r₀ r) (hf : r.finished = false) (hd : r.draftable = 0)
    (hacc : spec.accepted = rt.block r) (hsingle : spec.proposal.length = 1) :
    OnTrack rt.config.eosTokenId r₀ (r.advance spec) := by
  obtain ⟨_, _, hdraft⟩ := h.running hf
  have hnil : r.committedTokens = [] := hdraft.resolve_right (by omega)
  have hrem : r.remainingTarget = r₀.targetTokens := by
    rw [RequestState.remainingTarget, hnil, h.decodes.targetTokens]
    rfl
  have hbudget : r.tokenBudgetLeft = max r₀.maxNewTokens 0 := by
    rw [RequestState.tokenBudgetLeft, hnil, h.decodes.maxNewTokens]
    simp
  have hblock : rt.block r =
      if r₀.targetTokens.head? = some rt.config.eosTokenId then [rt.config.eosTokenId] else [] := by
    rw [block, width, if_pos hd, hrem]
    split
    · next he =>
      obtain ⟨rest, hrest⟩ := List.head?_eq_some_iff.mp he
      rw [hrest]
      rfl
    · rfl
  have hempty : r₀.targetTokens ≠ [] → r₀.maxNewTokens ≤ 0 := by
    intro hne
    have hz := (draftable_eq_zero.mp hd).resolve_left (hrem ▸ hne)
    omega
  have hfin := finishes_of_done hd hacc hsingle
  refine ⟨h.decodes.advance spec, ?_, ?_⟩
  · intro hrun
    change (r.finished || (r.commit spec.accepted).finishes spec) = false at hrun
    rw [hfin, Bool.or_true] at hrun
    cases hrun
  · intro _
    change r.committedTokens ++ spec.accepted = _
    rw [hnil, List.nil_append, hacc, hblock, RequestState.serialOutput]
    by_cases hne : r₀.targetTokens = []
    · rw [hne]
      simp [throughEos]
    · rw [if_pos (hempty hne)]

/-- A block that is drafted extends what was committed to a longer piece of the target, within
the limit, with an EOS at its end only. -/
structure Extends (rt : PersistentDecodeRuntime) (r₀ r : RequestState) : Prop where
  ne_nil : rt.block r ≠ []
  piece : r.committedTokens ++ rt.block r <+: r₀.targetTokens
  limit : (r.committedTokens.length : Int) + (rt.block r).length ≤ r₀.maxNewTokens
  clean : r₀.eosTokenId ∉ (r.committedTokens ++ rt.block r).dropLast

theorem OnTrack.extends {eosTokenId : Int} {r₀ r : RequestState} (h : OnTrack eosTokenId r₀ r)
    (hf : r.finished = false) (hd : r.draftable ≠ 0) (hb : 1 ≤ rt.effectiveBlockSize r)
    (hstop : rt.StopsAtEos r) : rt.Extends r₀ r := by
  obtain ⟨hpre, hclean, _⟩ := h.running hf
  have hsplit : r.committedTokens ++ r.remainingTarget = r₀.targetTokens := by
    rw [RequestState.remainingTarget, h.decodes.targetTokens]
    exact List.prefix_iff_eq_append.mp hpre
  have hpos := rt.width_pos hd hb
  have hwrem := rt.width_le_remaining r (rt.effectiveBlockSize r)
  have hwdraft := rt.width_le_draftable hd (rt.effectiveBlockSize r)
  have hlen : (rt.block r).length = rt.width r (rt.effectiveBlockSize r) := by
    rw [block, List.length_take]
    omega
  have hne : rt.block r ≠ [] := List.ne_nil_of_length_pos (by omega)
  refine ⟨hne, ?_, ?_, ?_⟩
  · rw [← hsplit]
    exact List.prefix_append_right_inj _ |>.mpr (List.take_prefix _ _)
  · have hle : r.draftable ≤ r.tokenBudgetLeft.toNat := min_le_right _ _
    have hleft : r.tokenBudgetLeft = max (r₀.maxNewTokens - r.committedTokens.length) 0 := by
      rw [RequestState.tokenBudgetLeft, h.decodes.maxNewTokens]
    omega
  · rw [List.dropLast_append_of_ne_nil hne, List.mem_append, not_or]
    exact ⟨hclean, h.decodes.eosTokenId ▸ hstop⟩

theorem Extends.limit_pos {r₀ r : RequestState} (h : rt.Extends r₀ r) : 0 < r₀.maxNewTokens := by
  have hlimit := h.limit
  have hpos := List.length_pos_iff.mpr h.ne_nil
  omega

/-- A block that does not end in the EOS does not hold it. -/
theorem Extends.no_eos {r₀ r : RequestState} (h : rt.Extends r₀ r)
    (hlast : (rt.block r).getLast? ≠ some r₀.eosTokenId) :
    r₀.eosTokenId ∉ r.committedTokens ++ rt.block r := by
  have hclean := h.clean
  rw [List.dropLast_append_of_ne_nil h.ne_nil, List.mem_append, not_or] at hclean
  rw [List.mem_append, not_or]
  refine ⟨hclean.1, ?_⟩
  intro hmem
  rw [← List.dropLast_concat_getLast h.ne_nil, List.mem_append, List.mem_singleton] at hmem
  cases hmem with
  | inl hdrop => exact hclean.2 hdrop
  | inr hl =>
    refine hlast ?_
    rw [List.getLast?_eq_some_getLast h.ne_nil, ← hl]

/-- What is committed then is the serial output if it ends in the EOS, is as long as the limit
or is the whole target. -/
theorem Extends.serialOutput {r₀ r : RequestState} (h : rt.Extends r₀ r) (eosTokenId : Int)
    (hend : (rt.block r).getLast? = some r₀.eosTokenId ∨
      r₀.maxNewTokens ≤ (r.committedTokens ++ rt.block r).length ∨
      r₀.targetTokens.length ≤ (r.committedTokens ++ rt.block r).length) :
    r.committedTokens ++ rt.block r = r₀.serialOutput eosTokenId := by
  have hpos := h.limit_pos
  have hlimit := h.limit
  have hlength : (r.committedTokens ++ rt.block r).length =
      r.committedTokens.length + (rt.block r).length := List.length_append
  have hpiece : r.committedTokens ++ rt.block r <+:
      r₀.targetTokens.take r₀.maxNewTokens.toNat := by
    rw [List.prefix_take_iff]
    exact ⟨h.piece, by omega⟩
  rw [RequestState.serialOutput, if_neg (by omega)]
  refine (throughEos_eq_of_prefixed hpiece h.clean ?_).symm
  cases hend with
  | inl hlast =>
    refine Or.inl ?_
    rw [List.getLast?_append, hlast]
    rfl
  | inr hlong =>
    refine Or.inr (hpiece.eq_of_length_le ?_)
    rw [List.length_take]
    omega

/-- A draft is committed and passes no EOS: the request goes on, or it has its serial output. -/
theorem OnTrack.advance_draft {r₀ r : RequestState} {spec : Speculation}
    (h : OnTrack rt.config.eosTokenId r₀ r) (hf : r.finished = false) (hd : r.draftable ≠ 0)
    (hb : 1 ≤ rt.effectiveBlockSize r) (hacc : spec.accepted = rt.block r)
    (hstop : rt.StopsAtEos r) : OnTrack rt.config.eosTokenId r₀ (r.advance spec) := by
  have hext := h.extends hf hd hb hstop
  have hlimit := hext.limit
  have heos := h.decodes.eosTokenId
  have htarget := h.decodes.targetTokens
  have hmax := h.decodes.maxNewTokens
  have hlength : (r.committedTokens ++ rt.block r).length =
      r.committedTokens.length + (rt.block r).length := List.length_append
  have hcommitted : (r.advance spec).committedTokens = r.committedTokens ++ rt.block r := by
    rw [← hacc]
    rfl
  have hleft : (r.commit spec.accepted).tokenBudgetLeft =
      max (r₀.maxNewTokens - ((r.committedTokens ++ rt.block r).length : Int)) 0 := by
    rw [← hacc, ← hmax]
    rfl
  have hfinished : (r.advance spec).finished = (r.commit spec.accepted).finishes spec := by
    change (r.finished || _) = _
    rw [hf, Bool.false_or]
  have hfinishes : (r.commit spec.accepted).finishes spec = true ↔
      (r.commit spec.accepted).tokenBudgetLeft = 0 ∨
        (rt.block r).getLast? = some r₀.eosTokenId ∨
        r₀.targetTokens.length ≤ (r.committedTokens ++ rt.block r).length := by
    rw [finishes_iff, ← heos, ← htarget, ← hacc]
    have hne : spec.accepted ≠ [] := hacc ▸ hext.ne_nil
    exact or_congr_right (or_congr_right (or_iff_left fun hnone => hne hnone.1))
  refine ⟨h.decodes.advance spec, ?_, ?_⟩
  · intro hrun
    rw [hfinished, ← Bool.not_eq_true, hfinishes, not_or, not_or] at hrun
    obtain ⟨hmore, hlast, hshort⟩ := hrun
    rw [hcommitted]
    refine ⟨hext.piece, hext.no_eos hlast, Or.inr ?_⟩
    change 0 < min ((r.commit spec.accepted).remainingTarget.length)
      (r.commit spec.accepted).tokenBudgetLeft.toNat
    have hrest : (r.commit spec.accepted).remainingTarget.length =
        r₀.targetTokens.length - (r.committedTokens ++ rt.block r).length := by
      rw [RequestState.remainingTarget, List.length_drop, ← htarget, ← hacc]
      rfl
    omega
  · intro hdone
    rw [hfinished, hfinishes] at hdone
    rw [hcommitted]
    refine hext.serialOutput _ ?_
    obtain hzero | hlast | hall := hdone
    · exact Or.inr (Or.inl (by omega))
    · exact Or.inl hlast
    · exact Or.inr (Or.inr hall)

theorem OnTrack.advance {r₀ r : RequestState} {spec : Speculation}
    (h : OnTrack rt.config.eosTokenId r₀ r) (hf : r.finished = false)
    (hb : 1 ≤ rt.effectiveBlockSize r) (hacc : spec.accepted = rt.block r)
    (hsingle : r.draftable = 0 → spec.proposal.length = 1) (hstop : rt.StopsAtEos r) :
    OnTrack rt.config.eosTokenId r₀ (r.advance spec) := by
  by_cases hd : r.draftable = 0
  · exact h.advance_done hf hd hacc (hsingle hd)
  · exact h.advance_draft hf hd hb hacc hstop

end PersistentDecodeRuntime
end ResidentInference

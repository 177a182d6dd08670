import ResidentInference.Device.Acceptance
import ResidentInference.Device.MegakernelBlocks

/-! Every block of the persistent kernel stays in its own slice of the draft buffer. A slice holds
four times the draft length of the host, and for a draft length of one the block size stays at most
four because the acceptance average stays below 4/5. -/
namespace ResidentInference.Device
open Loops Interleaving
variable {φ : Type}

/-! ## Accesses to the drafts -/

/-- The indices that `stage_decode` writes. -/
def decodeWrites (req : RequestDescriptor φ) : List Int :=
  if req.state = .decodeReady ∧ req.hasFlag .speculativeEnabled = true then
    draftIndices req.draftOffset (req.clampToBudget req.currentBlockSize)
  else []

/-- The indices that `stage_spec_verify` reads. -/
def verifyReads (req : RequestDescriptor φ) (tokens : Int → Int) : List Int :=
  if req.state = .draftReady ∨ req.state = .verifyReady then
    req.verifiedDrafts tokens req.verifyLimit
  else []

/-- The indices of the draft buffer that the next step of a block writes or reads. -/
def accessedDrafts (l : BlockState φ) (g : SharedState φ) : List Int :=
  match l.point, g.draftTokens with
  | .decode, some _ => decodeWrites l.req
  | .verify, some tokens => verifyReads l.req tokens
  | _, _ => []

/-- No other cell is written. -/
theorem stageDecode_frame (req : RequestDescriptor φ) (tokens : Int → Int) :
    ∃ tokens', (stageDecode req (some tokens)).2 = some tokens' ∧
      ∀ j, j ∉ decodeWrites req → tokens' j = tokens j := by
  by_cases hs : req.state = .decodeReady
  · cases hf : req.hasFlag .speculativeEnabled with
    | true =>
      refine ⟨writeCells tokens req.draftOffset (req.clampToBudget req.currentBlockSize) fun i =>
        (req.lastToken + 1 + i + req.requestId).tmod 32000, ?_, fun j hj => ?_⟩
      · simp only [stageDecode, hs, hf, if_true, Option.map_some]
      · simp only [decodeWrites, hs, hf, and_self, if_true, mem_draftIndices] at hj
        rw [writeCells_apply, if_neg hj]
    | false => exact ⟨tokens, by rw [stageDecode_of_not_speculative hs hf], fun _ _ => rfl⟩
  · exact ⟨tokens, by rw [stageDecode_of_ne hs], fun _ _ => rfl⟩

/-- No other cell is read. -/
theorem stageSpecVerify_congr [DeviceFloat φ] {req : RequestDescriptor φ}
    {tokens tokens' : Int → Int} (h : ∀ j ∈ verifyReads req tokens, tokens' j = tokens j) :
    stageSpecVerify req (some tokens') = stageSpecVerify req (some tokens) := by
  by_cases hs : req.state = .draftReady ∨ req.state = .verifyReady
  · have hsame : req.acceptedDrafts tokens' req.verifyLimit =
        req.acceptedDrafts tokens req.verifyLimit :=
      acceptedDrafts_congr fun j hj => h j (by simpa only [verifyReads, hs, if_true] using hj)
    simp only [stageSpecVerify, RequestDescriptor.acceptedCount, hsame]
  · simp only [stageSpecVerify, if_neg hs]

/-! ## The invariant of one request -/

/-- A block size that keeps the next drafts in a slice of four times the draft length `d`. -/
def SizeOk (d : Int) (req : RequestDescriptor ℚ) : Prop :=
  2 ≤ d ∧ req.currentBlockSize ≤ 4 * d ∨ d = 1 ∧ Calm req

def DraftOk (d : Int) (req : RequestDescriptor ℚ) : Prop :=
  SizeOk d req ∨ d = 1 ∧ Opening req

/-- A request whose slice of the buffer starts at `offset`, in each state of its lifecycle. -/
structure SliceOk (d offset : Int) (req : RequestDescriptor ℚ) (tokens : Int → Int) :
    Prop where
  offset : req.draftOffset = offset
  speculative : req.hasFlag .speculativeEnabled = true
  pressure : req.hasFlag .kvPressure = false
  length : req.draftLen ≤ 4 * d
  state : req.state = .decodeReady ∨ req.state = .draftReady ∨ req.state = .commitReady ∨
    req.state = .complete
  ready : req.state = .decodeReady → 0 < req.budgetLeft ∧ DraftOk d req
  drafted : req.state = .draftReady → 0 < req.budgetLeft ∧ DraftOk d req ∧
    req.draftLen = req.clampToBudget req.currentBlockSize ∧ HoldsDrafts req tokens
  verified : req.state = .commitReady → 0 < req.budgetLeft ∧
    (SizeOk d req ∨ req.acceptedPrefixLen = req.budgetLeft)

theorem DraftOk.block_le {d : Int} {req : RequestDescriptor ℚ} (h : DraftOk d req) :
    req.currentBlockSize ≤ 4 * d := by
  obtain (⟨-, hle⟩ | ⟨rfl, hcalm⟩) | ⟨rfl, -, hblock, -⟩ := h
  · exact hle
  · obtain hblock | ⟨hblock, -⟩ := hcalm.block_cases <;> omega
  · omega

/-- Only the cells of the slice matter. -/
theorem SliceOk.congr {d offset : Int} {req : RequestDescriptor ℚ} {tokens tokens' : Int → Int}
    (h : SliceOk d offset req tokens)
    (hsame : ∀ j, offset ≤ j → j < offset + 4 * d → tokens' j = tokens j) :
    SliceOk d offset req tokens' := by
  refine { h with drafted := fun hs => ?_ }
  obtain ⟨hb, hok, hlen, hdrafts⟩ := h.drafted hs
  refine ⟨hb, hok, hlen, fun i hi => ?_⟩
  have hbound := h.length
  have hoffset := h.offset
  rw [hsame _ (by omega) (by omega)]
  exact hdrafts i hi

theorem sliceOk_decode {d offset : Int} (hd : 1 ≤ d) {req : RequestDescriptor ℚ}
    {tokens : Int → Int} (h : SliceOk d offset req tokens) :
    ∃ tokens', (stageDecode req (some tokens)).2 = some tokens' ∧
      SliceOk d offset (stageDecode req (some tokens)).1 tokens' := by
  by_cases hs : req.state = .decodeReady
  · obtain ⟨hb, hok⟩ := h.ready hs
    have hblock := hok.block_le
    rw [stageDecode_of_speculative hs h.speculative]
    refine ⟨writeCells tokens req.draftOffset (req.clampToBudget req.currentBlockSize) fun i =>
      (req.lastToken + 1 + i + req.requestId).tmod 32000, ?_, ?_⟩
    · simp only [stageDecode, hs, h.speculative, if_true, Option.map_some]
    · refine ⟨h.offset, h.speculative, h.pressure, clampToBudget_le hblock (by omega),
        Or.inr (Or.inl rfl), by simp, fun _ => ⟨hb, hok, rfl, fun i hi => ?_⟩, by simp⟩
      exact writeCells_of_mem (by omega) hi
  · exact ⟨tokens, by rw [stageDecode_of_ne hs], by rw [stageDecode_of_ne hs]; exact h⟩

theorem clampToBudget_le_budgetLeft {req : RequestDescriptor φ} (hb : 0 < req.budgetLeft)
    (count : Int) : req.clampToBudget count ≤ req.budgetLeft := by
  simp only [RequestDescriptor.clampToBudget]
  grind

/-- A verification leaves a fitting block size unless it uses the budget up: a draft length of two
or more leaves room for every block size, a length of one for a block of four. -/
theorem sizeOk_recordAccepted {d : Int} {req : RequestDescriptor ℚ} {tokens : Int → Int}
    (hb : 0 < req.budgetLeft) (hok : DraftOk d req) (hpressure : req.hasFlag .kvPressure = false)
    (hlen : req.draftLen = req.clampToBudget req.currentBlockSize)
    (hdrafts : HoldsDrafts req tokens) :
    SizeOk d (req.recordAccepted (req.acceptedDrafts tokens req.draftLen).length req.draftLen) ∨
      ((req.acceptedDrafts tokens req.draftLen).length : Int) = req.budgetLeft := by
  have hblock := recordAccepted_block hpressure (req.acceptedDrafts tokens req.draftLen).length
    req.draftLen
  by_cases hd : 2 ≤ d
  · have hmax := blockSizeFor_le (nextAcceptanceRate req.emaAcceptanceRate
      (req.acceptedDrafts tokens req.draftLen).length req.draftLen)
    exact Or.inl (Or.inl ⟨hd, by omega⟩)
  · have hstart : d = 1 ∧ (Calm req ∨ Opening req) := by
      obtain (⟨hd', -⟩ | ⟨h1, hcalm⟩) | ⟨h1, hopening⟩ := hok
      · exact absurd hd' hd
      · exact ⟨h1, Or.inl hcalm⟩
      · exact ⟨h1, Or.inr hopening⟩
    obtain hlow | hall := nextAcceptanceRate_calm hb hlen hdrafts hstart.2
    · exact Or.inl (Or.inr ⟨hstart.1, hlow, hblock⟩)
    · exact Or.inr hall

theorem sliceOk_verify {d offset : Int} {req : RequestDescriptor ℚ} {tokens : Int → Int}
    (h : SliceOk d offset req tokens) :
    SliceOk d offset (stageSpecVerify req (some tokens)) tokens := by
  by_cases hs : req.state = .draftReady
  · obtain ⟨hb, hok, hlen, hdrafts⟩ := h.drafted hs
    have hle := clampToBudget_le_budgetLeft hb req.currentBlockSize
    have hlimit : req.verifyLimit = req.draftLen := if_neg (by omega)
    rw [stageSpecVerify_of_draftReady hs]
    simp only [RequestDescriptor.acceptedCount, hlimit]
    exact ⟨h.offset, h.speculative, h.pressure, h.length, Or.inr (Or.inr (Or.inl rfl)), by simp,
      by simp, fun _ => ⟨hb, sizeOk_recordAccepted hb hok h.pressure hlen hdrafts⟩⟩
  · rw [stageSpecVerify_of_ne hs]
    · exact h
    · obtain hr | hr | hr | hr := h.state <;> simp [hr]

theorem sliceOk_settle {d offset : Int} {req : RequestDescriptor ℚ} {tokens : Int → Int}
    (hoffset : req.draftOffset = offset) (hspec : req.hasFlag .speculativeEnabled = true)
    (hpressure : req.hasFlag .kvPressure = false) (hlen : req.draftLen ≤ 4 * d)
    (hsize : 0 < req.budgetLeft → SizeOk d req) : SliceOk d offset req.settle tokens := by
  simp only [RequestDescriptor.settle]
  split
  · exact ⟨hoffset, hspec, hpressure, hlen, Or.inr (Or.inr (Or.inr rfl)), by simp, by simp, by simp⟩
  · have hb : 0 < req.budgetLeft := by
      simp only [RequestDescriptor.budgetLeft]
      omega
    exact ⟨hoffset, hspec, hpressure, hlen, Or.inl rfl, fun _ => ⟨hb, Or.inl (hsize hb)⟩, by simp,
      by simp⟩

theorem sliceOk_settleToken {d offset : Int} {req : RequestDescriptor ℚ} {tokens : Int → Int}
    (hoffset : req.draftOffset = offset) (hspec : req.hasFlag .speculativeEnabled = true)
    (hpressure : req.hasFlag .kvPressure = false) (hlen : req.draftLen ≤ 4 * d)
    (hsize : 0 < req.budgetLeft → SizeOk d req) : SliceOk d offset req.settleToken tokens := by
  simp only [RequestDescriptor.settleToken]
  split
  · refine ⟨hoffset, ?_, ?_, hlen, Or.inr (Or.inr (Or.inr rfl)), by simp, by simp, by simp⟩
    · simpa [RequestDescriptor.hasFlag, RequestFlag.shift] using hspec
    · simpa [RequestDescriptor.hasFlag, RequestFlag.shift] using hpressure
  · exact sliceOk_settle hoffset hspec hpressure hlen hsize

theorem sliceOk_commit {d offset : Int} {req : RequestDescriptor ℚ} {tokens : Int → Int}
    (h : SliceOk d offset req tokens) (kv : KVPageTable ℚ) :
    SliceOk d offset (stageCommit req kv).1 tokens := by
  by_cases hs : req.state = .commitReady
  · obtain ⟨hb, hsize⟩ := h.verified hs
    simp only [stageCommit, hs, if_true]
    split
    · next h0 =>
      have hsize' : SizeOk d req.emitNextToken := hsize.resolve_right (by omega)
      have hsettled : SliceOk d offset req.emitNextToken.settleToken tokens :=
        sliceOk_settleToken h.offset h.speculative h.pressure h.length fun _ => hsize'
      exact hsettled
    · have hsettled : SliceOk d offset (req.emitAccepted req.acceptedPrefixLen).settle tokens := by
        refine sliceOk_settle h.offset h.speculative h.pressure h.length fun hleft => ?_
        refine hsize.resolve_right fun hall => ?_
        simp only [RequestDescriptor.budgetLeft, RequestDescriptor.emitAccepted] at hleft hall
        omega
      exact hsettled
  · rw [stageCommit_of_ne hs]
    exact h

/-- The first iteration starts with the draft length of the host. -/
theorem sliceOk_initAsbs {d offset : Int} (hd : 1 ≤ d) {req : RequestDescriptor ℚ}
    {tokens : Int → Int} (h : SliceOk d offset req tokens) (hs : req.state = .decodeReady)
    (hopening : d = 1 → Opening req) : SliceOk d offset (initAsbs d req) tokens := by
  refine ⟨h.offset, h.speculative, h.pressure, h.length, h.state, fun _ => ⟨(h.ready hs).1, ?_⟩,
    fun h' => ?_, fun h' => ?_⟩
  · have hblock : (initAsbs d req).currentBlockSize = d := if_pos (by omega)
    by_cases h1 : d = 1
    · exact Or.inr ⟨h1, rfl, by omega, (hopening h1).2.2⟩
    · exact Or.inl (Or.inl ⟨by omega, by omega⟩)
  · simp [hs] at h'
  · simp [hs] at h'

theorem decodeWrites_slice {d offset : Int} (hd : 1 ≤ d) {req : RequestDescriptor ℚ}
    {tokens : Int → Int} (h : SliceOk d offset req tokens) {j : Int} (hj : j ∈ decodeWrites req) :
    offset ≤ j ∧ j < offset + 4 * d := by
  simp only [decodeWrites] at hj
  split at hj
  · next hs =>
    have hle : req.clampToBudget req.currentBlockSize ≤ 4 * d :=
      clampToBudget_le (h.ready hs.1).2.block_le (by omega)
    have hoffset := h.offset
    rw [mem_draftIndices] at hj
    omega
  · simp at hj

theorem verifyReads_slice {d offset : Int} {req : RequestDescriptor ℚ} {tokens : Int → Int}
    (h : SliceOk d offset req tokens) {j : Int} (hj : j ∈ verifyReads req tokens) :
    offset ≤ j ∧ j < offset + 4 * d := by
  simp only [verifyReads] at hj
  split at hj
  · have hread := mem_verifiedDrafts hj
    have hlimit : req.verifyLimit ≤ req.draftLen := by
      simp only [RequestDescriptor.verifyLimit]
      grind
    have hlen := h.length
    have hoffset := h.offset
    omega
  · simp at hj

/-! ## The invariant of a block -/

/-- A block with its slice; before its first iteration the request is as the host wrote it. -/
structure SliceInvariant (d : Int) {n : Nat} (b : Fin n) (l : BlockState ℚ) (g : SharedState ℚ) :
    Prop where
  slice : ∃ tokens, g.draftTokens = some tokens ∧ SliceOk d (b * (d * 4)) l.req tokens
  fresh : l.asbsInitialized = false → l.req.state = .decodeReady ∧ (d = 1 → Opening l.req) ∧
    (l.point = .test ∨ l.point = .asbs ∨ l.point = .left)

/-- The slices of two blocks. -/
theorem slices_disjoint {n : Nat} {b b' : Fin n} (h : b ≠ b') {d j : Int} (hd : 1 ≤ d)
    (hj : b * (d * 4) ≤ j ∧ j < b * (d * 4) + 4 * d) :
    ¬ (b' * (d * 4) ≤ j ∧ j < b' * (d * 4) + 4 * d) := by
  intro hj'
  have hnext {x y : Int} (hxy : x < y) : x * (d * 4) + 4 * d ≤ y * (d * 4) := by
    have hmul : (x + 1) * (d * 4) ≤ y * (d * 4) :=
      Int.mul_le_mul_of_nonneg_right (by omega) (by omega)
    linarith
  have hne : ((b : Nat) : Int) ≠ (b' : Nat) := fun heq => h (Fin.ext (by exact_mod_cast heq))
  obtain hlt | hgt := lt_or_gt_of_ne hne
  · have := hnext hlt
    omega
  · have := hnext hgt
    omega

/-- The first draft of a host request of draft length one is rejected. -/
theorem opening_megakernelRequest (tokensPerRequest : Int) (b : Nat) :
    Opening (megakernelRequest tokensPerRequest 1 b : RequestDescriptor ℚ) := by
  refine ⟨rfl, rfl, ?_⟩
  change (4 : Int) ∣ ((b + 1 : Int) * 7 + 3).tmod 32000 + 1 + (b + 1)
  rw [Int.tmod_eq_emod_of_nonneg (by omega)]
  omega

theorem sliceInvariant_launch {n : Nat} {d tokensPerRequest : Int} (hd : 1 ≤ d)
    (htokens : 1 ≤ tokensPerRequest) (drafts : Int → Int) (b : Fin n) :
    let c := launchMegakernelPath n tokensPerRequest d drafts
    SliceInvariant d b (c.locals b) c.shared := by
  intro c
  have hopening (h1 : d = 1) :
      Opening (megakernelRequest tokensPerRequest d b : RequestDescriptor ℚ) := by
    subst h1
    exact opening_megakernelRequest tokensPerRequest b
  have hbudget : 0 < (megakernelRequest tokensPerRequest d b : RequestDescriptor ℚ).budgetLeft := by
    change 0 < tokensPerRequest - 0
    omega
  have hok : DraftOk d (megakernelRequest tokensPerRequest d b : RequestDescriptor ℚ) := by
    by_cases h1 : d = 1
    · exact Or.inr ⟨h1, hopening h1⟩
    · refine Or.inl (Or.inl ⟨by omega, ?_⟩)
      simp only [megakernelRequest]
      grind
  have hlen : (megakernelRequest tokensPerRequest d b : RequestDescriptor ℚ).draftLen ≤ 4 * d := by
    change (0 : Int) ≤ 4 * d
    omega
  have hflag (f : RequestFlag) :
      (megakernelRequest tokensPerRequest d b : RequestDescriptor ℚ).hasFlag f =
        decide (f = .speculativeEnabled) :=
    @hasFlag_initRequest ℚ _ b tokensPerRequest (d * 4) true f
  have hstate : (megakernelRequest tokensPerRequest d b : RequestDescriptor ℚ).state =
      .decodeReady := rfl
  exact ⟨⟨drafts, rfl, rfl, hflag _, hflag _, hlen, Or.inl hstate, fun _ => ⟨hbudget, hok⟩,
    fun hs => absurd (hstate.symm.trans hs) (by decide),
    fun hs => absurd (hstate.symm.trans hs) (by decide)⟩,
    fun _ => ⟨hstate, hopening, Or.inl rfl⟩⟩

/-- A step of a block keeps its own slice. -/
theorem sliceInvariant_step {n : Nat} {d : Int} (hd : 1 ≤ d) {maxIterations : Int} {b : Fin n}
    {l l' : BlockState ℚ} {g g' : SharedState ℚ} (h : SliceInvariant d b l g)
    (hstep : megakernelBlockStep ⟨maxIterations, d⟩ b l g = some (l', g')) :
    SliceInvariant d b l' g' := by
  obtain ⟨⟨tokens, hg, hslice⟩, hfresh⟩ := h
  have hstarted (hpoint : ¬ (l.point = .test ∨ l.point = .asbs ∨ l.point = .left)) :
      l.asbsInitialized ≠ false := fun hnew => hpoint (hfresh hnew).2.2
  cases blockMove hstep with
  | enter point =>
    exact ⟨⟨tokens, hg, hslice⟩, fun hnew => ⟨(hfresh hnew).1, (hfresh hnew).2.1,
      Or.inr (Or.inl rfl)⟩⟩
  | leave point stop =>
    exact ⟨⟨tokens, hg, hslice⟩, fun hnew => ⟨(hfresh hnew).1, (hfresh hnew).2.1,
      Or.inr (Or.inr rfl)⟩⟩
  | asbs point req init =>
    refine ⟨⟨tokens, hg, ?_⟩, by simp⟩
    rw [init]
    cases hnew : l.asbsInitialized with
    | true => exact hslice
    | false => exact sliceOk_initAsbs hd hslice (hfresh hnew).1 (hfresh hnew).2.1
  | prefill point =>
    have hne : l.req.state ≠ .prefillReady := by
      obtain hs | hs | hs | hs := hslice.state <;> simp [hs]
    refine ⟨⟨tokens, hg, ?_⟩, fun hnew => absurd hnew (hstarted (by simp [point]))⟩
    simpa only [stagePrefill_of_ne hne] using hslice
  | select point =>
    exact ⟨⟨tokens, hg, hslice⟩, fun hnew => absurd hnew (hstarted (by simp [point]))⟩
  | decode point =>
    obtain ⟨tokens', hg', hslice'⟩ := sliceOk_decode hd hslice
    refine ⟨⟨tokens', ?_, ?_⟩, fun hnew => absurd hnew (hstarted (by simp [point]))⟩
    · simpa only [hg] using hg'
    · simpa only [hg] using hslice'
  | verify point =>
    refine ⟨⟨tokens, hg, ?_⟩, fun hnew => absurd hnew (hstarted (by simp [point]))⟩
    simpa only [hg] using sliceOk_verify hslice
  | commit point =>
    exact ⟨⟨tokens, hg, sliceOk_commit hslice g.kv⟩,
      fun hnew => absurd hnew (hstarted (by simp [point]))⟩
  | count point =>
    exact ⟨⟨tokens, hg, hslice⟩, fun hnew => absurd hnew (hstarted (by simp [point]))⟩
  | pass point =>
    exact ⟨⟨tokens, hg, hslice⟩, fun hnew => absurd hnew (hstarted (by simp [point]))⟩
  | notice point =>
    exact ⟨⟨tokens, hg, hslice⟩, fun hnew => absurd hnew (hstarted (by simp [point]))⟩
  | next point =>
    exact ⟨⟨tokens, hg, hslice⟩, fun hnew => absurd hnew (hstarted (by simp [point]))⟩
  | signal point =>
    exact ⟨⟨tokens, hg, hslice⟩, fun hnew => absurd hnew (hstarted (by simp [point]))⟩

/-- Only `stage_decode` writes drafts. -/
theorem draftTokens_step [DeviceFloat φ] {n : Nat} {launch : MegakernelLaunch} {b : Fin n}
    {l l' : BlockState φ} {g g' : SharedState φ}
    (hstep : megakernelBlockStep launch b l g = some (l', g')) :
    g'.draftTokens = g.draftTokens ∨
      g'.draftTokens = (stageDecode l.req g.draftTokens).2 := by
  cases blockMove hstep with
  | decode point => exact Or.inr rfl
  | _ => exact Or.inl rfl

/-- A step of another block keeps the slice. -/
theorem sliceInvariant_others {n : Nat} {d : Int} (hd : 1 ≤ d) {launch : MegakernelLaunch}
    {b b' : Fin n} {l m l' : BlockState ℚ} {g g' : SharedState ℚ} (hne : b ≠ b')
    (h : SliceInvariant d b l g) (h' : SliceInvariant d b' m g)
    (hstep : megakernelBlockStep launch b l g = some (l', g')) : SliceInvariant d b' m g' := by
  obtain ⟨⟨tokens, hg, hslice⟩, -⟩ := h
  obtain ⟨⟨tokens₁, hg₁, hslice'⟩, hfresh⟩ := h'
  obtain rfl : tokens = tokens₁ := by simpa [hg] using hg₁
  refine ⟨?_, hfresh⟩
  obtain hsame | hdecode := draftTokens_step hstep
  · exact ⟨tokens, hsame.trans hg, hslice'⟩
  · obtain ⟨tokens', hwrite, hframe⟩ := stageDecode_frame l.req tokens
    refine ⟨tokens', by rw [hdecode, hg, hwrite], hslice'.congr fun j hlow hhigh => ?_⟩
    exact hframe j fun hj =>
      slices_disjoint hne hd (decodeWrites_slice hd hslice hj) ⟨hlow, hhigh⟩

/-- In every state of every interleaving of the persistent kernel that `run_megakernel_path`
launches, the drafts that a block is about to write or to read are drafts of its own slice. -/
theorem accessedDrafts_in_slice {n : Nat} {d tokensPerRequest : Int} (hd : 1 ≤ d)
    (htokens : 1 ≤ tokensPerRequest) (maxIterations : Int) (drafts : Int → Int)
    {c : Config (Fin n) (BlockState ℚ) (SharedState ℚ)}
    (h : Reaches (megakernelBlockStep ⟨maxIterations, d⟩)
      (launchMegakernelPath n tokensPerRequest d drafts) c) (b : Fin n) {j : Int}
    (hj : j ∈ accessedDrafts (c.locals b) c.shared) :
    (c.locals b).req.draftOffset = b * (d * 4) ∧ b * (d * 4) ≤ j ∧ j < b * (d * 4) + 4 * d := by
  have hinv : SliceInvariant d b (c.locals b) c.shared :=
    local_invariant (I := fun b l g => SliceInvariant d b l g) h
      (sliceInvariant_launch hd htokens drafts)
      (fun _ _ _ _ _ h hstep => sliceInvariant_step hd h hstep)
      (fun _ _ _ _ _ _ _ hne h h' hstep => sliceInvariant_others hd hne h h' hstep) b
  obtain ⟨⟨tokens, hg, hslice⟩, -⟩ := hinv
  refine ⟨hslice.offset, ?_⟩
  simp only [accessedDrafts, hg] at hj
  split at hj
  · exact decodeWrites_slice hd hslice hj
  · next htokens =>
    obtain rfl := Option.some.inj htokens
    exact verifyReads_slice hslice hj
  · simp at hj

/-- Two requests with slices of four drafts: the second one is about to write its first cell. -/
theorem accessedDrafts_in_slice_single :
    let c := runAlone (megakernelBlockStep ⟨4, 1⟩) (1 : Fin 2) 4
      (launchMegakernelPath 2 8 1 fun _ => 0 : Config (Fin 2) (BlockState ℚ) (SharedState ℚ))
    4 ∈ accessedDrafts (c.locals 1) c.shared ∧ (c.locals 1).req.draftOffset = 1 * (1 * 4) ∧
      (1 : Int) * (1 * 4) ≤ 4 ∧ (4 : Int) < 1 * (1 * 4) + 4 * 1 := by
  intro c
  have hwrite : 4 ∈ accessedDrafts (c.locals 1) c.shared := by decide +kernel
  exact ⟨hwrite, accessedDrafts_in_slice (by decide) (by decide : (1 : Int) ≤ 8) 4 (fun _ => 0)
    (reaches_runAlone 1 4 _) 1 hwrite⟩

end ResidentInference.Device

import ResidentInference.Device.CommitCoverage
import ResidentInference.Device.DraftSlices
import ResidentInference.Device.MegakernelRuns
import ResidentInference.Device.TableRegions

/-! The persistent kernel with speculation under every schedule: a block ends with the request, the
pages and the drafts that its iterations make of the memory of the launch when no other block
runs. -/
namespace ResidentInference.Device
open Loops Interleaving
variable {φ : Type}

/-! ## The part of a block -/

def SharedState.memory (g : SharedState φ) : DeviceMemory φ := ⟨g.kv, g.draftTokens⟩

/-- Two memories with the same pages and drafts of block `b`. -/
structure SameMemory (d : Int) {n : Nat} (b : Fin n) (mem mem' : DeviceMemory φ) : Prop where
  kv : SameRegion (b * 4) 4 mem.kv mem'.kv
  drafts : ∃ tokens tokens', mem.draftTokens = some tokens ∧ mem'.draftTokens = some tokens' ∧
    ∀ j : Int, b * (d * 4) ≤ j → j < b * (d * 4) + 4 * d → tokens j = tokens' j

/-- A block with its slice and its pages, whose request speculates. -/
structure MegakernelPart (d : Int) {n : Nat} (b : Fin n) (l : BlockState ℚ) (g : SharedState ℚ) :
    Prop where
  slice : SliceInvariant d b l g
  speculates : Speculates l.req
  kvTableOffset : l.req.kvTableOffset = b * 4
  kvNumPages : l.req.kvNumPages = 4
  pageSize : 1 ≤ g.kv.pageSizeTokens

theorem stageCommit_kv {req : RequestDescriptor φ} (hs : req.state = .commitReady)
    (hpages : 0 < req.kvNumPages) (kv : KVPageTable φ) :
    (stageCommit req kv).2 = commitPages req kv.pageSizeTokens req.acceptedPrefixLen kv := by
  simp only [stageCommit, commitPages, hs, if_true]
  split
  · rfl
  · simp only [RequestDescriptor.emitAccepted, gt_iff_lt, hpages, if_true, commitKvPages_eq]

/-- What decoding leaves of a draft depends on that draft only. -/
theorem stageDecode_congr (req : RequestDescriptor φ) (tokens tokens' : Int → Int) :
    (stageDecode req (some tokens)).1 = (stageDecode req (some tokens')).1 ∧
      ∃ t t', (stageDecode req (some tokens)).2 = some t ∧
        (stageDecode req (some tokens')).2 = some t' ∧
        ∀ j, tokens j = tokens' j → t j = t' j := by
  simp only [stageDecode]
  split
  · split
    · refine ⟨rfl, _, _, rfl, rfl, fun j hj => ?_⟩
      simp only [writeCells_apply, hj]
    · exact ⟨rfl, _, _, rfl, rfl, fun _ hj => hj⟩
  · exact ⟨rfl, _, _, rfl, rfl, fun _ hj => hj⟩

theorem stageCommit_req_congr (req : RequestDescriptor φ) (kv kv' : KVPageTable φ) :
    (stageCommit req kv).1 = (stageCommit req kv').1 := by
  simp only [stageCommit]
  split
  · split <;> rfl
  · rfl

section
variable {n : Nat} {d maxIterations : Int} {b b' : Fin n} {l l' m : BlockState ℚ}
  {g g' : SharedState ℚ}

theorem megakernelPart_step (hd : 1 ≤ d) (h : MegakernelPart d b l g)
    (hstep : megakernelBlockStep ⟨maxIterations, d⟩ b l g = some (l', g')) :
    MegakernelPart d b l' g' := by
  obtain ⟨hspeculates, hpages⟩ := blockStep_pages h.speculates hstep
  have hslice := sliceInvariant_step hd h.slice hstep
  cases hpages with
  | inl hcommit =>
    obtain ⟨⟨-, hs⟩, heq⟩ := hcommit
    have hreq : l'.req = (stageCommit l.req g.kv).1 := congrArg Prod.fst heq
    have hkv : g'.kv = (stageCommit l.req g.kv).2 := congrArg Prod.snd heq
    obtain ⟨-, hnum, hoffset⟩ := stageCommit_req hs (h.speculates.accepted hs) g.kv
    refine ⟨hslice, hspeculates, ?_, ?_, ?_⟩
    · rw [hreq, hoffset]
      exact h.kvTableOffset
    · rw [hreq, hnum]
      exact h.kvNumPages
    · rw [hkv, stageCommit_pageSizeTokens]
      exact h.pageSize
  | inr hkeep =>
    obtain ⟨-, hkeep⟩ := hkeep
    refine ⟨hslice, hspeculates, hkeep.kvTableOffset.trans h.kvTableOffset,
      hkeep.kvNumPages.trans h.kvNumPages, ?_⟩
    rw [hkeep.pageSizeTokens]
    exact h.pageSize

theorem MegakernelPart.localTo_select (h : MegakernelPart d b l g) (topK : Int) :
    LocalTo (b * 4) 4 fun kv => selectSparseKvBlocks l.req kv topK := by
  have hoff : 0 ≤ l.req.kvTableOffset := by
    rw [h.kvTableOffset]
    omega
  have hlocal := localTo_selectSparseKvBlocks hoff topK
  rw [h.kvTableOffset, h.kvNumPages] at hlocal
  exact hlocal

/-- The commit on the table, for the page size of the table. -/
theorem MegakernelPart.localTo_commit (h : MegakernelPart d b l g) :
    ∃ f : KVPageTable ℚ → KVPageTable ℚ, LocalTo (b * 4) 4 f ∧
      ∀ kv, kv.pageSizeTokens = g.kv.pageSizeTokens → (stageCommit l.req kv).2 = f kv := by
  by_cases hs : l.req.state = .commitReady
  · have hpages : 0 < l.req.kvNumPages := by
      rw [h.kvNumPages]
      decide
    have hlocal := localTo_commitPages hpages.le h.pageSize (h.speculates.accepted hs)
    rw [h.kvTableOffset, h.kvNumPages] at hlocal
    exact ⟨_, hlocal, fun kv hkv => by rw [stageCommit_kv hs hpages, hkv]⟩
  · exact ⟨fun kv => kv, LocalTo.id, fun kv _ => by rw [stageCommit_of_ne hs]⟩

/-- A block writes to its own pages and to its own slice only. -/
structure MegakernelWrites (d : Int) {n : Nat} (b : Fin n) (mem mem' : DeviceMemory φ) : Prop where
  kv : ∃ f : KVPageTable φ → KVPageTable φ, LocalTo (b * 4) 4 f ∧ mem'.kv = f mem.kv
  drafts : ∀ tokens, mem.draftTokens = some tokens → ∃ tokens', mem'.draftTokens = some tokens' ∧
    ∀ j : Int, ¬ (b * (d * 4) ≤ j ∧ j < b * (d * 4) + 4 * d) → tokens' j = tokens j

theorem megakernelWrites_step (hd : 1 ≤ d) {launch : MegakernelLaunch}
    (h : MegakernelPart d b l g) (hstep : megakernelBlockStep launch b l g = some (l', g')) :
    MegakernelWrites d b g.memory g'.memory := by
  have hsame : MegakernelWrites d b g.memory g.memory :=
    ⟨⟨_, LocalTo.id, rfl⟩, fun tokens ht => ⟨tokens, ht, fun _ _ => rfl⟩⟩
  cases blockMove hstep with
  | prefill point =>
    have hstage := stagePrefill_of_ne h.speculates.prefilled g.kv
    simp only [hstage]
    exact hsame
  | select point => exact ⟨⟨_, h.localTo_select _, rfl⟩, hsame.drafts⟩
  | decode point =>
    refine ⟨hsame.kv, fun tokens ht => ?_⟩
    obtain ⟨tokens', hwrite, hframe⟩ := stageDecode_frame l.req tokens
    obtain ⟨tokens₀, hg, hslice⟩ := h.slice.slice
    obtain rfl : tokens = tokens₀ := Option.some.inj (ht.symm.trans hg)
    refine ⟨tokens', ?_, fun j hj => hframe j fun hin => hj (decodeWrites_slice hd hslice hin)⟩
    change (stageDecode l.req g.draftTokens).2 = some tokens'
    rw [hg, hwrite]
  | commit point =>
    obtain ⟨f, hf, hcommit⟩ := h.localTo_commit
    exact ⟨⟨f, hf, hcommit g.kv rfl⟩, hsame.drafts⟩
  | _ => exact hsame

/-- No block touches the part of another. -/
theorem MegakernelWrites.sameMemory (hd : 1 ≤ d) {mem mem' mem₀ : DeviceMemory φ}
    (hw : MegakernelWrites d b mem mem') (hb : b' ≠ b) (hsame : SameMemory d b' mem mem₀) :
    SameMemory d b' mem' mem₀ := by
  obtain ⟨f, hf, hkv⟩ := hw.kv
  obtain ⟨tokens, tokens₀, ht, ht₀, hagree⟩ := hsame.drafts
  obtain ⟨tokens', ht', hframe⟩ := hw.drafts tokens ht
  have hdisjoint : ∀ i, InRegion (b' * 4) 4 i → ¬ InRegion (b * 4) 4 i := by
    intro i hi hi'
    refine hb (Fin.ext ?_)
    obtain ⟨h1, h2⟩ := hi
    obtain ⟨h3, h4⟩ := hi'
    omega
  have hregion := sameRegion_equivalence.symm (hf.sameRegion hdisjoint mem.kv)
  refine ⟨hkv ▸ sameRegion_equivalence.trans hregion hsame.kv, tokens', tokens₀, ht', ht₀,
    fun j h1 h2 => ?_⟩
  rw [hframe j (slices_disjoint hb hd ⟨h1, h2⟩)]
  exact hagree j h1 h2

theorem megakernelPart_others (hd : 1 ≤ d) {launch : MegakernelLaunch}
    (h : MegakernelPart d b l g) (hm : MegakernelPart d b' m g) (hb : b ≠ b')
    (hstep : megakernelBlockStep launch b l g = some (l', g')) : MegakernelPart d b' m g' := by
  obtain ⟨f, hf, hkv⟩ := (megakernelWrites_step hd h hstep).kv
  refine ⟨sliceInvariant_others hd hb h.slice hm.slice hstep, hm.speculates, hm.kvTableOffset,
    hm.kvNumPages, ?_⟩
  change 1 ≤ g'.memory.kv.pageSizeTokens
  rw [hkv, ← (hf.shape _).pageSizeTokens]
  exact hm.pageSize

/-! ## The rest of an iteration -/

def commitOn (req : RequestDescriptor ℚ) (mem : DeviceMemory ℚ) :
    RequestDescriptor ℚ × DeviceMemory ℚ :=
  let (req, kv) := stageCommit req mem.kv
  (req, ⟨kv, mem.draftTokens⟩)

def verifyOn (req : RequestDescriptor ℚ) (mem : DeviceMemory ℚ) :
    RequestDescriptor ℚ × DeviceMemory ℚ :=
  commitOn (stageSpecVerify req mem.draftTokens) mem

def decodeOn (req : RequestDescriptor ℚ) (mem : DeviceMemory ℚ) :
    RequestDescriptor ℚ × DeviceMemory ℚ :=
  let (req, draftTokens) := stageDecode req mem.draftTokens
  verifyOn req ⟨mem.kv, draftTokens⟩

def selectOn (req : RequestDescriptor ℚ) (mem : DeviceMemory ℚ) :
    RequestDescriptor ℚ × DeviceMemory ℚ :=
  decodeOn req ⟨selectSparseKvBlocks req mem.kv req.currentBlockSize, mem.draftTokens⟩

def prefillOn (req : RequestDescriptor ℚ) (mem : DeviceMemory ℚ) :
    RequestDescriptor ℚ × DeviceMemory ℚ :=
  let (req, kv) := stagePrefill req mem.kv
  selectOn req ⟨kv, mem.draftTokens⟩

/-- The stages that a block still has before it in an iteration. -/
def restOfBody (req : RequestDescriptor ℚ) (mem : DeviceMemory ℚ) :
    BlockPoint → RequestDescriptor ℚ × DeviceMemory ℚ
  | .prefill => prefillOn req mem
  | .select => selectOn req mem
  | .decode => decodeOn req mem
  | .verify => verifyOn req mem
  | .commit => commitOn req mem
  | _ => (req, mem)

/-- An iteration is its stages, unless the request is done. -/
theorem megakernelIteration_eq (s : LoopState ℚ) (req : RequestDescriptor ℚ)
    (hreq : req = if s.asbsInitialized then s.req else initAsbs d s.req) :
    ((megakernelIteration d s).req, (megakernelIteration d s).mem) =
      restOfBody req s.mem (if req.IsDone then .count else .prefill) := by
  subst hreq
  simp only [megakernelIteration]
  generalize (if s.asbsInitialized then s.req else initAsbs d s.req) = req
  by_cases hdone : req.IsDone
  · rw [advanceRequest_of_done hdone, if_pos hdone]
    rfl
  · rw [if_neg hdone, advanceRequest, if_neg hdone]
    rfl

theorem megakernelIteration_of_done {s : LoopState ℚ} (hasbs : s.asbsInitialized = true)
    (hdone : s.req.IsDone) : megakernelIteration d s = s := by
  simp only [megakernelIteration, hasbs, if_true, advanceRequest_of_done hdone]
  cases s
  cases hasbs
  rfl

/-! ## A block next to its own loop -/

/-- A block in an iteration that starts in the state `s` when no other block runs. -/
def FollowsAt (d : Int) {n : Nat} (b : Fin n) (s : LoopState ℚ) (l : BlockState ℚ)
    (g : SharedState ℚ) : BlockPoint → Prop
  | .test | .asbs | .left =>
    l.asbsInitialized = s.asbsInitialized ∧ l.req = s.req ∧ SameMemory d b g.memory s.mem
  | point =>
    l.asbsInitialized = true ∧ ∃ mem, SameMemory d b g.memory mem ∧
      ((megakernelIteration d s).req, (megakernelIteration d s).mem) = restOfBody l.req mem point

/-- A block in its iteration `k` of `maxIterations`. -/
structure Follows (d maxIterations : Int) {n : Nat} (b : Fin n) (start : LoopState ℚ)
    (l : BlockState ℚ) (g : SharedState ℚ) (k : Nat) : Prop where
  iteration : l.iteration = k
  bound : k ≤ maxIterations.toNat
  running : l.point ≠ .test → l.point ≠ .left → k < maxIterations.toNat
  at_point : FollowsAt d b ((megakernelIteration d)^[k] start) l g l.point

theorem followsAt_others (hd : 1 ≤ d) {launch : MegakernelLaunch} (h : MegakernelPart d b l g)
    (hb : b' ≠ b) (hstep : megakernelBlockStep launch b l g = some (l', g')) {s : LoopState ℚ}
    {point : BlockPoint} (hm : FollowsAt d b' s m g point) : FollowsAt d b' s m g' point := by
  have hw := megakernelWrites_step hd h hstep
  cases point with
  | test | asbs | left =>
    obtain ⟨hasbs, hreq, hsame⟩ := hm
    exact ⟨hasbs, hreq, hw.sameMemory hd hb hsame⟩
  | prefill | select | decode | verify | commit | count | poll | signal =>
    obtain ⟨hasbs, mem, hsame, hrest⟩ := hm
    exact ⟨hasbs, mem, hw.sameMemory hd hb hsame, hrest⟩

theorem follows_step (hpart : MegakernelPart d b l g) {start : LoopState ℚ} {k : Nat}
    (h : Follows d maxIterations b start l g k)
    (hstep : megakernelBlockStep ⟨maxIterations, d⟩ b l g = some (l', g')) :
    ∃ k', Follows d maxIterations b start l' g' k' := by
  have hat := h.at_point
  have hrun (hpoint : l.point ≠ .test ∧ l.point ≠ .left) : k < maxIterations.toNat :=
    h.running hpoint.1 hpoint.2
  generalize hs : (megakernelIteration d)^[k] start = s at hat
  have hnext : (megakernelIteration d)^[k+1] start = megakernelIteration d s := by
    rw [Function.iterate_succ_apply', hs]
  have hend (hrest : l.asbsInitialized = true ∧
      ∃ mem, SameMemory d b g.memory mem ∧
        ((megakernelIteration d s).req, (megakernelIteration d s).mem) = (l.req, mem)) :
      l.asbsInitialized = (megakernelIteration d s).asbsInitialized ∧
        l.req = (megakernelIteration d s).req ∧
        SameMemory d b g.memory (megakernelIteration d s).mem := by
    obtain ⟨hasbs, mem, hsame, hrest⟩ := hrest
    have hreq : (megakernelIteration d s).req = l.req := congrArg Prod.fst hrest
    have hmem : (megakernelIteration d s).mem = mem := congrArg Prod.snd hrest
    exact ⟨hasbs, hreq.symm, hmem ▸ hsame⟩
  cases blockMove hstep with
  | enter point =>
    rw [point] at hat
    have hlt : l.iteration < maxIterations := by
      by_contra hover
      simp only [megakernelBlockStep, point, hover, and_false, if_false] at hstep
      cases hstep
    have hk := h.iteration
    exact ⟨k, hk, h.bound, fun _ _ => by omega, hs ▸ hat⟩
  | leave point stop =>
    rw [point] at hat
    exact ⟨k, h.iteration, h.bound, fun _ hno => absurd rfl hno, hs ▸ hat⟩
  | asbs point req init =>
    rw [point] at hat
    obtain ⟨hasbs, hreq, hsame⟩ := hat
    rw [hasbs, hreq] at init
    have hlt := hrun (by simp [point])
    refine ⟨k, h.iteration, h.bound, fun _ _ => hlt, ?_⟩
    have hiter := megakernelIteration_eq s req init
    rw [hs]
    by_cases hdone : req.IsDone
    · simp only [if_pos hdone] at hiter ⊢
      exact ⟨rfl, s.mem, hsame, hiter⟩
    · simp only [if_neg hdone] at hiter ⊢
      exact ⟨rfl, s.mem, hsame, hiter⟩
  | prefill point =>
    rw [point] at hat
    obtain ⟨hasbs, mem, hsame, hrest⟩ := hat
    have hlt := hrun (by simp [point])
    have hstage := stagePrefill_of_ne hpart.speculates.prefilled
    refine ⟨k, h.iteration, h.bound, fun _ _ => hlt, ?_⟩
    rw [hs]
    simp only [restOfBody, prefillOn, hstage] at hrest ⊢
    exact ⟨hasbs, mem, hsame, hrest⟩
  | select point =>
    rw [point] at hat
    obtain ⟨hasbs, mem, hsame, hrest⟩ := hat
    have hlt := hrun (by simp [point])
    refine ⟨k, h.iteration, h.bound, fun _ _ => hlt, ?_⟩
    rw [hs]
    exact ⟨hasbs, ⟨selectSparseKvBlocks l.req mem.kv l.req.currentBlockSize, mem.draftTokens⟩,
      ⟨(hpart.localTo_select _).congr hsame.kv, hsame.drafts⟩, hrest⟩
  | decode point =>
    rw [point] at hat
    obtain ⟨hasbs, mem, hsame, hrest⟩ := hat
    have hlt := hrun (by simp [point])
    obtain ⟨tokens, tokens', ht, ht', hagree⟩ := hsame.drafts
    obtain ⟨hreq, t, t', hd1, hd2, hkeep⟩ := stageDecode_congr l.req tokens tokens'
    have hg : g.draftTokens = some tokens := ht
    refine ⟨k, h.iteration, h.bound, fun _ _ => hlt, ?_⟩
    rw [hs]
    refine ⟨hasbs, ⟨mem.kv, some t'⟩, ⟨hsame.kv, t, t', ?_, rfl, fun j h1 h2 =>
      hkeep j (hagree j h1 h2)⟩, ?_⟩
    · change (stageDecode l.req g.draftTokens).2 = some t
      rw [hg, hd1]
    · simp only [restOfBody, decodeOn, ht', hd2] at hrest
      rw [hrest, hg, hreq]
      rfl
  | verify point =>
    rw [point] at hat
    obtain ⟨hasbs, mem, hsame, hrest⟩ := hat
    have hlt := hrun (by simp [point])
    obtain ⟨tokens, tokens', ht, ht', hagree⟩ := hsame.drafts
    obtain ⟨tokens₀, hg, hslice⟩ := hpart.slice.slice
    obtain rfl : tokens = tokens₀ := Option.some.inj (ht.symm.trans hg)
    have hverify : stageSpecVerify l.req (some tokens') = stageSpecVerify l.req (some tokens) := by
      refine stageSpecVerify_congr fun j hj => ?_
      obtain ⟨h1, h2⟩ := verifyReads_slice hslice hj
      exact (hagree j h1 h2).symm
    refine ⟨k, h.iteration, h.bound, fun _ _ => hlt, ?_⟩
    rw [hs]
    refine ⟨hasbs, mem, hsame, ?_⟩
    simp only [restOfBody, verifyOn, ht', hverify] at hrest
    rw [hrest, hg]
    rfl
  | commit point =>
    rw [point] at hat
    obtain ⟨hasbs, mem, hsame, hrest⟩ := hat
    have hlt := hrun (by simp [point])
    obtain ⟨f, hf, hcommit⟩ := hpart.localTo_commit
    refine ⟨k, h.iteration, h.bound, fun _ _ => hlt, ?_⟩
    rw [hs]
    refine ⟨hasbs, ⟨f mem.kv, mem.draftTokens⟩, ⟨?_, hsame.drafts⟩, ?_⟩
    · change SameRegion (b * 4) 4 (stageCommit l.req g.kv).2 (f mem.kv)
      rw [hcommit g.kv rfl]
      exact hf.congr hsame.kv
    · simp only [restOfBody, commitOn] at hrest
      rw [hrest, stageCommit_req_congr l.req g.kv mem.kv,
        hcommit mem.kv hsame.kv.pageSizeTokens.symm]
      rfl
  | count point new done =>
    rw [point] at hat
    have hlt := hrun (by simp [point])
    exact ⟨k, h.iteration, h.bound, fun _ _ => hlt, hs ▸ hat⟩
  | pass point =>
    rw [point] at hat
    have hlt := hrun (by simp [point])
    exact ⟨k, h.iteration, h.bound, fun _ _ => hlt, hs ▸ hat⟩
  | notice point all =>
    rw [point] at hat
    have hlt := hrun (by simp [point])
    exact ⟨k, h.iteration, h.bound, fun _ _ => hlt, hs ▸ hat⟩
  | next point =>
    rw [point] at hat
    exact ⟨k + 1, by simp [h.iteration], hrun (by simp [point]), fun hno _ => absurd rfl hno,
      hnext ▸ hend hat⟩
  | signal point =>
    rw [point] at hat
    exact ⟨k + 1, by simp [h.iteration], hrun (by simp [point]), fun hno _ => absurd rfl hno,
      hnext ▸ hend hat⟩

/-! ## Every schedule -/

/-- The request of block `b` and the memory of the launch before the first iteration. -/
def startOfLoop (n : Nat) (tokensPerRequest d : Int) (drafts : Int → Int) (b : Fin n) :
    LoopState ℚ where
  req := megakernelRequest tokensPerRequest d b
  mem := ⟨megakernelTable n, some drafts⟩
  asbsInitialized := false

theorem megakernelPart_launch (hd : 1 ≤ d) {tokensPerRequest : Int} (ht : 1 ≤ tokensPerRequest)
    (drafts : Int → Int) (b : Fin n) :
    let c := launchMegakernelPath n tokensPerRequest d drafts
    MegakernelPart d b (c.locals b) c.shared := by
  intro c
  have hslice := sliceInvariant_launch (n := n) hd ht drafts b
  obtain ⟨tokens, -, hok⟩ := hslice.slice
  have hstate := (hslice.fresh rfl).1
  refine ⟨hslice, ⟨hok.speculative, ?_, ?_⟩, rfl, rfl, (by decide : (1 : Int) ≤ 4)⟩
  · rw [hstate]
    decide
  · intro hs
    rw [hstate] at hs
    cases hs

theorem follows_reaches (hd : 1 ≤ d) {tokensPerRequest : Int} (ht : 1 ≤ tokensPerRequest)
    {drafts : Int → Int} {c : Config (Fin n) (BlockState ℚ) (SharedState ℚ)}
    (hreach : Reaches (megakernelBlockStep ⟨maxIterations, d⟩)
      (launchMegakernelPath n tokensPerRequest d drafts) c) (b : Fin n) :
    MegakernelPart d b (c.locals b) c.shared ∧
      ∃ k, Follows d maxIterations b (startOfLoop n tokensPerRequest d drafts b) (c.locals b)
        c.shared k := by
  refine local_invariant (I := fun b l g => MegakernelPart d b l g ∧
    ∃ k, Follows d maxIterations b (startOfLoop n tokensPerRequest d drafts b) l g k) hreach
    (fun b => ⟨megakernelPart_launch hd ht drafts b, 0, rfl, Nat.zero_le _, fun hno => absurd rfl hno,
      rfl, rfl, sameRegion_equivalence.refl _, drafts, drafts, rfl, rfl, fun _ _ _ => rfl⟩) ?_ ?_ b
  · rintro b l g l' g' ⟨hpart, k, hfollows⟩ hstep
    exact ⟨megakernelPart_step hd hpart hstep, follows_step hpart hfollows hstep⟩
  · rintro b b' l m g l' g' hb ⟨hpart, -⟩ ⟨hpart', k, hfollows⟩ hstep
    exact ⟨megakernelPart_others hd hpart hpart' hb hstep, k, hfollows.iteration, hfollows.bound,
      hfollows.running, followsAt_others hd hpart hb.symm hstep hfollows.at_point⟩

/-- Whatever the schedule, a complete run of the persistent kernel leaves in the request, the pages
and the drafts of every block what its iterations leave when they run alone on the memory of the
launch. -/
theorem megakernel_serializable (hd : 1 ≤ d) {tokensPerRequest : Int} (ht : 1 ≤ tokensPerRequest)
    {drafts : Int → Int} {c : Config (Fin n) (BlockState ℚ) (SharedState ℚ)}
    (hreach : Reaches (megakernelBlockStep ⟨maxIterations, d⟩)
      (launchMegakernelPath n tokensPerRequest d drafts) c)
    (hstopped : Stopped (megakernelBlockStep ⟨maxIterations, d⟩) c) (b : Fin n) :
    let last := (megakernelIteration d)^[maxIterations.toNat]
      (startOfLoop n tokensPerRequest d drafts b)
    (c.locals b).req = last.req ∧
      (∀ i, InRegion (b * 4) 4 i → c.shared.kv.entries i = last.mem.kv.entries i) ∧
      ∃ tokens tokens', c.shared.draftTokens = some tokens ∧ last.mem.draftTokens = some tokens' ∧
        ∀ j : Int, b * (d * 4) ≤ j → j < b * (d * 4) + 4 * d → tokens j = tokens' j := by
  have hleft : (c.locals b).point = .left := megakernelBlockStep_eq_none_iff.mp (hstopped b)
  obtain ⟨hpart, k, hfollows⟩ := follows_reaches hd ht hreach b
  have hat := hfollows.at_point
  rw [hleft] at hat
  obtain ⟨hasbs, hreq, hsame⟩ := hat
  have hlast : (megakernelIteration d)^[maxIterations.toNat]
      (startOfLoop n tokensPerRequest d drafts b) =
      (megakernelIteration d)^[k] (startOfLoop n tokensPerRequest d drafts b) := by
    have hshutdown := shutdownInvariant_reaches hreach
    obtain hall | hmax : (∀ b', (c.locals b').alreadyCounted = true) ∨
        maxIterations ≤ (c.locals b).iteration := hshutdown.left b hleft
    · have hdone := hshutdown.counted b (hall b)
      have hinit : (c.locals b).asbsInitialized = true := by
        by_contra hnew
        have hready := (hpart.slice.fresh (by simpa using hnew)).1
        simp [RequestDescriptor.IsDone, hready] at hdone
      rw [← Nat.sub_add_cancel hfollows.bound, Function.iterate_add_apply]
      exact Function.iterate_fixed
        (megakernelIteration_of_done (hasbs ▸ hinit) (hreq ▸ hdone)) _
    · have hk := hfollows.iteration
      have hbound := hfollows.bound
      have hall : k = maxIterations.toNat := by omega
      rw [hall]
  rw [hlast]
  exact ⟨hreq, hsame.kv.entries, hsame.drafts⟩

/-- Two requests of three tokens with drafts of two. -/
theorem megakernel_serializable_two : ∃ c : Config (Fin 2) (BlockState ℚ) (SharedState ℚ),
    Reaches (megakernelBlockStep ⟨16, 2⟩) (launchMegakernelPath 2 3 2 fun _ => 0) c ∧
      (c.locals 1).req =
        ((megakernelIteration 2)^[(16 : Int).toNat] (startOfLoop 2 3 2 (fun _ => 0) 1)).req := by
  obtain ⟨c, hreach, hstopped⟩ : ∃ c : Config (Fin 2) (BlockState ℚ) (SharedState ℚ),
      Reaches (megakernelBlockStep ⟨16, 2⟩) (launchMegakernelPath 2 3 2 fun _ => 0) c ∧
        Stopped (megakernelBlockStep ⟨16, 2⟩) c :=
    exists_stopped (fun _ _ _ _ _ hstep => stepsLeft_lt hstep) _
  exact ⟨c, hreach, (megakernel_serializable (by decide) (by decide) hreach hstopped 1).1⟩

end
end ResidentInference.Device

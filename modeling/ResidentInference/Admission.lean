import ResidentInference.Completion
import ResidentInference.KVPins

/-! When every request is served: a run cannot fail in its cache as long as each step finds the
pages for its request beside those that idle requests still hold pinned. -/
namespace ResidentInference
open StateTransition KVCache

namespace PersistentDecodeRuntime
variable {rt : PersistentDecodeRuntime}

/-- The step that comes next fits in the cache: the pages of its request, for the tokens that it
holds after the step, beside the pages that other requests hold pinned. -/
def FitsNext (rt : PersistentDecodeRuntime) (s : RuntimeState) : Prop :=
  (∀ r ∈ s.nextPrefill, s.cache.Fits r r.currentTokens) ∧
    ∀ r ∈ s.nextDecode, s.cache.Fits r (r.currentTokens + (rt.block r).length)

instance (rt : PersistentDecodeRuntime) (s : RuntimeState) : Decidable (rt.FitsNext s) :=
  inferInstanceAs (Decidable (_ ∧ _))

/-- Every step of the run over the requests fits. -/
def RunFits (rt : PersistentDecodeRuntime) (requests : List RequestState) : Prop :=
  ∀ s, Reaches rt.workers.step (rt.start requests) s → rt.FitsNext s

/-! ### The pages of one request -/

/-- The request has no more pages than its tokens ask for, and in its own layers only. -/
def Lodged (c : KVCache) (r : RequestState) : Prop :=
  Housed c r.requestId r.layerIds (c.requiredPages r.currentTokens)

section Lodged
variable {c c' : KVCache} {r r' : RequestState}

theorem Lodged.evolves {grow : Int → Prop} (h : Lodged c r) (hi : Inv c) (hi' : Inv c')
    (he : Evolves grow c c') (hg : ¬ grow r.requestId) : Lodged c' r := by
  unfold Lodged
  rw [he.requiredPages]
  exact Housed.evolves h hi hi' he hg

/-- A request with the same id, layers and tokens. -/
theorem Lodged.congr (h : Lodged c r) (ht : r'.tokens = r.tokens)
    (hl : r'.layerIds = r.layerIds) : Lodged c r' := by
  have hid : r'.requestId = r.requestId := RequestState.requestId_eq ht
  have hcur : r'.currentTokens = r.currentTokens := RequestState.currentTokens_eq ht
  unfold Lodged
  rw [hid, hl, hcur]
  exact h

/-- An allocation for tokens that the request then holds. -/
theorem Lodged.allocate {total : Int} {pinned : Bool} {m : LayerPageMap} (h : Lodged c r)
    (hi : Inv c) (hps : 0 < c.pageSize)
    (hok : c.allocateForRequest r total pinned = (.ok m, c'))
    (hid : r'.requestId = r.requestId) (hl : r'.layerIds = r.layerIds)
    (hcur : r.currentTokens ≤ r'.currentTokens) (htotal : total ≤ r'.currentTokens) :
    Lodged c' r' := by
  have he := evolves_allocateForRequest c r total pinned
  rw [hok] at he
  have hgrown := Housed.allocate hi hps hok h
  unfold Lodged
  rw [he.requiredPages, hid, hl]
  exact hgrown.mono (max_le (requiredPages_mono hps hcur) (requiredPages_mono hps htotal))

/-- A lodged request that fits finds room for an allocation. -/
theorem Lodged.room {total total' : Int} (h : Lodged c r) (hi : Inv c) (hps : 0 < c.pageSize)
    (hcur : r.currentTokens ≤ total') (hle : total ≤ total') (hfits : c.Fits r total') :
    c.neededPages r total + (c.foreignPins r.requestId + c.ownPins r.requestId : Nat) ≤
      c.maxPages := by
  have hhoused := Housed.mono h (requiredPages_mono hps hcur)
  have hroom := hhoused.room hi hfits
  have hneed := neededPages_mono hps r hle
  omega

theorem fits_congr {total : Int} (ht : r'.tokens = r.tokens) (hl : r'.layerIds = r.layerIds)
    (h : c.Fits r total) : c.Fits r' total := by
  have hid : r'.requestId = r.requestId := RequestState.requestId_eq ht
  unfold Fits
  rw [hid, hl]
  exact h

end Lodged

theorem prompt_le_current (r : RequestState) : (r.promptTokens.length : Int) ≤ r.currentTokens := by
  unfold RequestState.currentTokens
  omega

/-! ### A prefill -/

theorem prefill_lodged {pin : Bool} {idx : Nat} {c c' : KVCache} {r r' : RequestState}
    (h : Lodged c r) (hi : Inv c) (hps : 0 < c.pageSize)
    (hrun : prefillProcess pin idx c r = (.ok r', c')) : Lodged c' r' := by
  obtain ⟨m, c₁, ha, rfl, rfl⟩ := prefillProcess_ok hrun
  have h₁ := moves_allocate hi ha
  have hgrown : Lodged c₁ r :=
    Lodged.allocate (r := { r with phase := .prefill }) h hi hps ha rfl rfl le_rfl
      (prompt_le_current r)
  have htouch := Evolves.foldl (evolves_touchPage fun _ => False) m.pageIds c₁
  have hi' := (moves_touch h₁.inv r.requestId m.pageIds).inv
  exact (hgrown.evolves h₁.inv hi' htouch not_false).congr rfl rfl

theorem prefill_served {pin : Bool} {idx : Nat} {c c' : KVCache} {r : RequestState} {e : Fault}
    (h : Lodged c r) (hi : Inv c) (hps : 0 < c.pageSize) (hfits : c.Fits r r.currentTokens) :
    prefillProcess pin idx c r ≠ (.error e, c') := by
  intro hrun
  have herr := prefillProcess_error hrun
  have hroom := h.room hi hps le_rfl (prompt_le_current r) hfits
  obtain ⟨m, c₁, hok⟩ := allocateForRequest_succeeds (r := { r with phase := .prefill }) hi hps
    pin hroom
  rw [hok] at herr
  cases herr

/-! ### A decode step up to its commit -/

theorem rehydrate_pinsFrom {c c' : KVCache} {r r' : RequestState}
    (hrun : rehydrateIfNeeded c r = (.ok r', c')) : PinsFrom (fun q => q = r.requestId) c c' := by
  obtain ⟨_, rfl, rfl⟩ | ⟨m, ha, rfl⟩ := rehydrateIfNeeded_ok hrun
  · exact PinsFrom.refl _ c'
  · exact (pinsFrom_releaseRequest _ c r.requestId).trans (pinsFrom_allocate (fun _ => rfl) ha)

theorem selectReads_pinsFrom (rt : PersistentDecodeRuntime) (grow : Int → Prop) (c : KVCache)
    (r : RequestState) : PinsFrom grow c (rt.selectReads c r).2 := by
  unfold selectReads
  split
  · exact pinsFrom_markSelection grow c _ _ _
  · exact PinsFrom.refl grow c

theorem prepare_pinsFrom {c c' : KVCache} {r r' : RequestState} {reads : KVReads} (h : Inv c)
    (hres : Resident c r) (hrun : rt.prepare c r = (.ok (r', reads), c')) :
    PinsFrom (fun q => q = r.requestId) c c' := by
  obtain ⟨c₁, hre, rfl, rfl⟩ := prepare_ok hrun
  have hid : r'.requestId = r.requestId :=
    RequestState.requestId_eq (rehydrateIfNeeded_tokens hre).1
  obtain ⟨hm, hown⟩ := rehydrate_moves h hres hre
  rw [← hid] at hown
  have hreads := selectReads_owned rt hm.inv hown
  refine (((rehydrate_pinsFrom hre).trans (rt.selectReads_pinsFrom _ c₁ r')).trans
    (pinsFrom_pinPages ?_)).trans (pinsFrom_touchPages _ _ _)
  intro pid hpid page hp
  obtain ⟨page', hp', hr'⟩ := hreads pid hpid
  rw [hp] at hp'
  exact (Option.some.inj hp' ▸ hr').trans hid

theorem Lodged.release (h : Lodged c r) (hi : Inv c) (hps : 0 < c.pageSize) :
    Inv (c.releaseRequest r.requestId) ∧ 0 < (c.releaseRequest r.requestId).pageSize ∧
      Lodged (c.releaseRequest r.requestId) r := by
  have he := evolves_releaseRequest (fun _ => False) c r.requestId
  have hi₀ := hi.releaseRequest r.requestId
  exact ⟨hi₀, he.pageSize.symm ▸ hps, h.evolves hi hi₀ he not_false⟩

theorem rehydrate_lodged {c c' : KVCache} {r r' : RequestState} (h : Lodged c r) (hi : Inv c)
    (hps : 0 < c.pageSize) (hrun : rehydrateIfNeeded c r = (.ok r', c')) :
    Lodged c' r' := by
  cases rehydrateIfNeeded_ok hrun with
  | inl hkeep =>
    obtain ⟨_, rfl, rfl⟩ := hkeep
    exact h
  | inr hnew =>
    obtain ⟨m, ha, rfl⟩ := hnew
    obtain ⟨hi₀, hps₀, h₀⟩ := h.release hi hps
    exact h₀.allocate hi₀ hps₀ ha rfl rfl le_rfl le_rfl

theorem rehydrate_served {c c' : KVCache} {r : RequestState} {e : Fault} {total : Int}
    (h : Lodged c r) (hi : Inv c) (hps : 0 < c.pageSize) (hle : r.currentTokens ≤ total)
    (hfits : c.Fits r total) : rehydrateIfNeeded c r ≠ (.error e, c') := by
  intro hrun
  have herr := rehydrateIfNeeded_error hrun
  have he := evolves_releaseRequest (fun _ => False) c r.requestId
  obtain ⟨hi₀, hps₀, h₀⟩ := h.release hi hps
  have hkeep := (pinsFrom_releaseRequest (fun q => q = r.requestId) c r.requestId).keepsPins
  have hfits₀ := hkeep.fits he.pageSize he.maxPages hfits
  obtain ⟨m, c₁, hok⟩ := allocateForRequest_succeeds hi₀ hps₀ true
    (h₀.room hi₀ hps₀ hle hle hfits₀)
  rw [hok] at herr
  cases herr

/-- The selection, the pins and the touches of a decode step give no request a page. -/
theorem evolves_reads (rt : PersistentDecodeRuntime) (c : KVCache) (r : RequestState)
    (ids : List Nat) :
    Evolves (fun _ => False) c (((rt.selectReads c r).2.pinPages ids).touchPages ids) := by
  have hselect : Evolves (fun _ => False) c (rt.selectReads c r).2 := by
    unfold selectReads
    split
    · exact evolves_markSelection _ c _ _ _
    · exact Evolves.refl _ c
  have hpin := Evolves.foldl (evolves_pinPage fun _ => False) ids (rt.selectReads c r).2
  have htouch := Evolves.foldl (evolves_touchPage fun _ => False) ids
    ((rt.selectReads c r).2.pinPages ids)
  exact (hselect.trans hpin).trans htouch

theorem prepare_lodged {c c' : KVCache} {r r' : RequestState} {reads : KVReads} (h : Lodged c r)
    (hi : Inv c) (hres : Resident c r) (hps : 0 < c.pageSize)
    (hrun : rt.prepare c r = (.ok (r', reads), c')) :
    Lodged c' r' ∧ KeepsPins r.requestId c c' := by
  have hi' := (prepare_moves hi hres hrun).1.inv
  have hkeep := (prepare_pinsFrom hi hres hrun).keepsPins
  obtain ⟨c₁, hre, rfl, rfl⟩ := prepare_ok hrun
  have hi₁ := (rehydrate_moves hi hres hre).1.inv
  exact ⟨(rehydrate_lodged h hi hps hre).evolves hi₁ hi' (evolves_reads rt c₁ r' _) not_false,
    hkeep⟩

/-! ### The commit -/

theorem current_commit (r : RequestState) (accepted : List Int) :
    (r.commit accepted).currentTokens = r.currentTokens + accepted.length := by
  unfold RequestState.currentTokens RequestState.commit
  rw [List.length_append]
  push_cast
  ring

theorem commitAccepted_lodged {c c' : KVCache} {r r' : RequestState} {accepted : List Int}
    (h : Lodged c r) (hi : Inv c) (hps : 0 < c.pageSize)
    (hrun : commitAccepted c r accepted = (.ok r', c')) : Lodged c' r' := by
  cases commitAccepted_ok hrun with
  | inl hnone =>
    obtain ⟨_, rfl, rfl⟩ := hnone
    exact h
  | inr hsome =>
    obtain ⟨c₁, m, hc₁, hc, rfl⟩ := hsome
    obtain ⟨c₂, ha, rfl⟩ := commitTokens_ok hc
    have he : Evolves (fun _ => False) c c₁ ∧ Inv c₁ := by
      cases hc₁ with
      | inl heq =>
        rw [heq]
        exact ⟨Evolves.refl _ c, hi⟩
      | inr heq =>
        rw [heq]
        exact ⟨evolves_evictLru _ c _, hi.evictLru _⟩
    have hcur := current_commit r accepted
    have hps₁ : 0 < c₁.pageSize := he.1.pageSize.symm ▸ hps
    have hgrown : Lodged c₂ (r.commit accepted) :=
      (h.evolves hi he.2 he.1 not_false).allocate he.2 hps₁ ha rfl rfl (by omega) hcur.ge
    have hi₂ := (moves_allocate he.2 ha).inv
    have hlast := hgrown.evolves hi₂ (hi₂.updateListed retag_commit r.requestId r.layerIds)
      (evolves_updateListed (fun _ => False) retag_commit c₂ _ _) not_false
    exact hlast.congr rfl rfl

theorem commitAccepted_served {c c' : KVCache} {r : RequestState} {accepted : List Int}
    {e : Fault} (h : Lodged c r) (hi : Inv c) (hps : 0 < c.pageSize)
    (hfits : c.Fits r (r.currentTokens + accepted.length)) :
    commitAccepted c r accepted ≠ (.error e, c') := by
  intro hrun
  have hroom := h.room hi hps (by omega) le_rfl hfits
  obtain ⟨m, c₁, hok⟩ := allocateForRequest_succeeds hi hps true hroom
  by_cases hnil : accepted = []
  · rw [hnil, commitAccepted_nil] at hrun
    cases hrun
  · rw [commitAccepted, if_neg hnil, canAllocate_succeeds hps hroom] at hrun
    simp only [if_true, commitTokens, hok] at hrun
    cases hrun

/-! ### A decode step -/

theorem settle_lodged (rt : PersistentDecodeRuntime) {c : KVCache} {r : RequestState}
    (h : Lodged c r) (hi : Inv c) (spec : Speculation) (reads : KVReads) :
    Lodged (rt.settle c r spec reads).2 (rt.settle c r spec reads).1 := by
  obtain ⟨ids, phase, finished, preempted, hsettle⟩ := rt.settle_eq c r spec reads
  have hunpin : Lodged (c.unpinPages ids) r :=
    h.evolves hi (moves_unpin hi r.requestId ids).inv
      (Evolves.foldl (evolves_unpinPage fun _ => False) ids c) not_false
  rw [hsettle]
  exact hunpin

theorem decode_lodged {idx : Nat} {c c' : KVCache} {r r' : RequestState} {t : DecodeStepTrace}
    (h : Lodged c r) (hi : Inv c) (hres : Resident c r) (hps : 0 < c.pageSize)
    (hrun : rt.decodeProcess idx c r = (.ok (r', t), c')) : Lodged c' r' := by
  obtain ⟨ready, reads, spec, committed, prepared, grown, hst⟩ := decodeProcess_ok hrun
  have htaken : Resident c (taken idx r) := hres.congr rfl rfl rfl
  obtain ⟨hm, hres₁, _⟩ := prepare_moves hi htaken hst.prepare
  have hlodged : Lodged c (taken idx r) := h.congr rfl rfl
  obtain ⟨h₁, _⟩ := prepare_lodged hlodged hi htaken hps hst.prepare
  obtain ⟨htok, hlay⟩ := rt.adapt_tokens prepared { ready with draftTokens := spec.proposal }
    spec.adaptiveMask
  have hid := RequestState.requestId_eq htok
  have hps₁ : 0 < prepared.pageSize := hm.evolves.pageSize.symm ▸ hps
  have hsnap := (adapt_frame rt prepared ready spec.proposal spec.adaptiveMask).2.2
  have hcommit := commitAccepted_lodged (h₁.congr htok hlay) hm.inv hps₁ hst.commit
  have hgrown := (commitAccepted_moves hm.inv (hres₁.congr hsnap hlay hid) hst.commit).1
  have hsettled := settle_lodged rt hcommit hgrown.inv spec reads
  rw [hst.settle] at hsettled
  exact hsettled

/-- What a decode step commits is the block of its request before the step. -/
theorem accepted_eq_block {r ready : RequestState} {kvPages : List Nat} {spec : Speculation}
    (hb : 1 ≤ rt.effectiveBlockSize r) (htok : ready.tokens = r.tokens)
    (hsize : rt.effectiveBlockSize ready = rt.effectiveBlockSize r)
    (hspec : (rt.speculate ready (rt.effectiveBlockSize ready) kvPages).1 = .ok spec) :
    spec.accepted = rt.block r := by
  obtain ⟨spec', hspec', hacc⟩ := rt.speculate_spec r hb []
  rw [hsize, rt.speculate_tokens htok _ [] kvPages, hspec'] at hspec
  exact Except.ok.inj hspec ▸ hacc.accepted

theorem decode_served {idx : Nat} {c c' : KVCache} {r : RequestState} {e : Fault}
    (h : Lodged c r) (hi : Inv c) (hres : Resident c r) (hps : 0 < c.pageSize)
    (hb : 1 ≤ rt.effectiveBlockSize r)
    (hfits : c.Fits r (r.currentTokens + (rt.block r).length)) :
    rt.decodeProcess idx c r ≠ (.error e, c') := by
  intro hrun
  have htaken : Resident c (taken idx r) := hres.congr rfl rfl rfl
  have hlodged : Lodged c (taken idx r) := h.congr rfl rfl
  cases decodeProcess_error hrun with
  | inl hre =>
    have hcur : (taken idx r).currentTokens = r.currentTokens := rfl
    exact rehydrate_served hlodged hi hps (by omega) hfits hre
  | inr hlater =>
    obtain ⟨ready, reads, prepared, hprepare, hcases⟩ := hlater
    obtain ⟨c₁, hre, _⟩ := prepare_ok hprepare
    obtain ⟨htok, hlay, hblock⟩ := rehydrateIfNeeded_tokens hre
    have hsize : rt.effectiveBlockSize ready = rt.effectiveBlockSize r :=
      rt.effectiveBlockSize_congr hblock
    cases hcases with
    | inl hspec =>
      obtain ⟨spec, hok, _⟩ := rt.speculate_spec ready (hsize ▸ hb) reads.pageIds
      rw [hok] at hspec
      cases hspec
    | inr hcommit =>
      obtain ⟨spec, hspec, herr⟩ := hcommit
      obtain ⟨h₁, hkeep⟩ := prepare_lodged hlodged hi htaken hps hprepare
      obtain ⟨hm, _, _⟩ := prepare_moves hi htaken hprepare
      obtain ⟨hatok, halay⟩ := rt.adapt_tokens prepared
        { ready with draftTokens := spec.proposal } spec.adaptiveMask
      have hps₁ : 0 < prepared.pageSize := hm.evolves.pageSize.symm ▸ hps
      have hacc := accepted_eq_block hb htok hsize hspec
      have hfits₁ := hkeep.fits hm.evolves.pageSize hm.evolves.maxPages hfits
      have hcur := RequestState.currentTokens_eq (hatok.trans htok)
      refine commitAccepted_served (h₁.congr hatok halay) hm.inv hps₁ ?_ herr
      have hall := fits_congr (hatok.trans htok) (halay.trans hlay) hfits₁
      rw [hacc]
      exact hcur.symm ▸ hall

/-! ### Whole runs -/

/-- Every request in flight is lodged. -/
def AllLodged (s : RuntimeState) : Prop := ∀ r ∈ s.bag, Lodged s.cache r

theorem allLodged_start (hps : 1 ≤ rt.config.pageSize) (requests : List RequestState) :
    AllLodged (rt.start requests) := by
  intro r _ l
  have hreq := requiredPages_nonneg (c := (rt.start requests).cache) hps r.currentTokens
  have hnone : (rt.start requests).cache.pageIdsFor (r.requestId, l) = [] := rfl
  rw [hnone, List.length_nil, Nat.cast_zero]
  split
  · exact hreq
  · exact le_rfl

/-- One request moves on and keeps to its layers, the others keep what they have. -/
theorem AllLodged.moved {s s' : RuntimeState} {r r' : RequestState} {rest : Multiset RequestState}
    (h : AllLodged s) (hi : Inv s.cache) (hbag : s.bag = r ::ₘ rest) (hbag' : s'.bag = r' ::ₘ rest)
    (hids : (s.bag.map RequestState.requestId).Nodup)
    (hm : Moves r.requestId s.cache s'.cache) (hr' : Lodged s'.cache r') : AllLodged s' := by
  rw [AllLodged, hbag']
  refine Multiset.forall_mem_cons.mpr ⟨hr', fun q hmem => ?_⟩
  have hne : q.requestId ≠ r.requestId := by
    intro heq
    rw [hbag, Multiset.map_cons, Multiset.nodup_cons] at hids
    exact hids.1 (Multiset.mem_map.mpr ⟨q, hmem, heq⟩)
  exact (h q (hbag ▸ Multiset.mem_cons_of_mem hmem)).evolves hi hm.inv hm.evolves hne

theorem AllLodged.step (hps : 1 ≤ rt.config.pageSize) {s s' : RuntimeState} (h : AllLodged s)
    (hrun : Running rt s) (hids : (s.bag.map RequestState.requestId).Nodup)
    (hs : rt.workers.step s = some s') : AllLodged s' ∨ Workers.Raised s' := by
  have hi := hrun.tidy.inv
  have hps' : 0 < s.cache.pageSize := hrun.tidy.pageSize.symm ▸ hps
  cases rt.workers.step_effect hs with
  | silent cache bag _ _ =>
    refine Or.inl ?_
    unfold AllLodged
    rw [bag, cache]
    exact h
  | prefilled i r r' rest _ bag run bag' _ _ =>
    have hr := h r (bag ▸ Multiset.mem_cons_self r rest)
    obtain ⟨hm, _⟩ := prefill_moves hi run
    exact Or.inl (h.moved hi bag bag' hids hm (prefill_lodged hr hi hps' run))
  | decoded i r r' trace rest _ bag run bag' _ _ =>
    have hmem : r ∈ s.bag := bag ▸ Multiset.mem_cons_self r rest
    have hres := hrun.tidy.resident r hmem
    obtain ⟨hm, _⟩ := decode_moves hi hres run
    exact Or.inl (h.moved hi bag bag' hids hm (decode_lodged (h r hmem) hi hres hps' run))
  | finished r traces bag _ cache _ _ =>
    have hrelease : s'.cache = s.cache.releaseRequest r.requestId := cache
    refine Or.inl fun q hq => ?_
    rw [hrelease]
    exact (h q (bag ▸ Multiset.mem_cons_of_mem hq)).evolves hi (hi.releaseRequest _)
      (evolves_releaseRequest (fun _ => False) s.cache r.requestId) not_false
  | failed e control _ _ => exact Or.inr ⟨e, control⟩

/-- No two requests in flight have the same id. -/
theorem ids_nodup {requests : List RequestState} (hf : FreshRequests requests) {s : RuntimeState}
    (hs : Reaches rt.workers.step (rt.start requests) s) (hn : ¬ Workers.Raised s) :
    (s.bag.map RequestState.requestId).Nodup := by
  obtain ⟨-, hids⟩ :=
    (rt.workers_lawful.reaches_orderly (submit_unfinished hf.fresh) hs).resolve_right hn
  rw [rt.submit_ids] at hids
  have hnodup : (rt.workers.ids s).Nodup := by
    rw [hids]
    exact Multiset.coe_nodup.mpr hf.distinct
  exact Multiset.nodup_of_le (Multiset.le_add_right _ _) hnodup

theorem allLodged_run (hv : rt.ValidBlocks) (hps : 1 ≤ rt.config.pageSize)
    {requests : List RequestState} (hf : FreshRequests requests) {s : RuntimeState}
    (hs : Reaches rt.workers.step (rt.start requests) s) : AllLodged s ∨ Workers.Raised s := by
  refine Workers.invariant_or_raised hs (allLodged_start hps requests) ?_
  intro u v hu h hstep
  have hn := Workers.not_raised_of_step hstep
  have hrun := (running_run hv hf.fresh hu).resolve_right hn
  exact h.step hps hrun (ids_nodup hf hu hn) hstep

/-- No run whose steps all fit fails for want of pages. -/
theorem RunFits.not_raised {requests : List RequestState} (h : rt.RunFits requests)
    (hv : rt.ValidBlocks) (hps : 1 ≤ rt.config.pageSize) (hf : FreshRequests requests)
    {t : RuntimeState} (ht : Reaches rt.workers.step (rt.start requests) t) :
    t.control ≠ .raised .kvCannotAllocate := by
  intro he
  obtain ⟨s, hs, hn, hfail⟩ := Workers.fails_of_run (Workers.not_raised_start _ _ _) ht he
  have hrun := (running_run hv hf.fresh hs).resolve_right hn
  have hlodged := (allLodged_run hv hps hf hs).resolve_right hn
  have hps' : 0 < s.cache.pageSize := hrun.tidy.pageSize.symm ▸ hps
  cases hfail with
  | prefill i r cache next run =>
    have hbag := PoolState.mem_bag_of_waiting (Workers.nextPrefill_waiting next)
    exact prefill_served (hlodged r hbag) hrun.tidy.inv hps' ((h s hs).1 r next) run
  | decode i r cache next run =>
    have hbag := PoolState.mem_bag_of_waiting (Workers.nextDecode_waiting next)
    exact decode_served (hlodged r hbag) hrun.tidy.inv (hrun.tidy.resident r hbag) hps'
      (hrun.blocks r hbag) ((h s hs).2 r next) run
  | noWorker fault _ => cases fault
  | emptyQueue fault _ _ _ _ => cases fault

theorem RunFits.returns {requests : List RequestState} (hfits : rt.RunFits requests)
    (hv : rt.ValidBlocks) (hps : 1 ≤ rt.config.pageSize) (hf : FreshRequests requests)
    (hw : requests ≠ [] → 1 ≤ rt.config.numPrefillWorkers ∧ 1 ≤ rt.config.numDecodeWorkers) :
    ∃ results, rt.Returns requests results := by
  by_cases hnil : requests = []
  · subst hnil
    have hrun : rt.runFor [] 1 = some [] := rfl
    exact ⟨[], rt.returns_of_runFor hrun⟩
  · obtain ⟨hp, hd⟩ := hw hnil
    obtain ⟨t, ht, hcases⟩ := run_drains hv hp hd hf
    have hroom := hfits.not_raised hv hps hf (mem_eval.mp ht).1
    cases hcases with
    | inl hraised => exact absurd hraised hroom
    | inr hother =>
      cases hother with
      | inl hzero => omega
      | inr hdone =>
        obtain ⟨results, hdrained⟩ := hdone
        exact ⟨results, t, ht, hdrained.returned⟩

/-- A run with workers of both kinds whose steps all fit returns. -/
theorem returns_of_runFits (hv : rt.ValidBlocks) (hps : 1 ≤ rt.config.pageSize)
    {requests : List RequestState} (hf : FreshRequests requests)
    (hw : requests ≠ [] → 1 ≤ rt.config.numPrefillWorkers ∧ 1 ≤ rt.config.numDecodeWorkers)
    (hfits : rt.RunFits requests) : ∃ results, rt.Returns requests results :=
  hfits.returns hv hps hf hw

/-- The steps of a run that stops can be checked one by one. -/
theorem runFits_of_runFor {requests : List RequestState} {n : Nat}
    (hstop : (rt.workers.step (Runs.runFor rt.workers.step n (rt.start requests))).isNone = true)
    (hall : ∀ k < n + 1, rt.FitsNext (Runs.runFor rt.workers.step k (rt.start requests))) :
    rt.RunFits requests := by
  intro s hs
  obtain ⟨k, hk, rfl⟩ := Runs.exists_runFor (Option.isNone_iff_eq_none.mp hstop) hs
  exact hall k (Nat.lt_succ_of_le hk)

/-! ### Requests that fit alone -/

/-- The pages that the request needs to hold its prompt and its whole target. -/
def demand (rt : PersistentDecodeRuntime) (r : RequestState) : Int :=
  r.layerIds.length * ceilDiv (r.promptTokens.length + r.targetTokens.length) rt.config.pageSize

/-- Pages for some of the tokens are no more than the demand. -/
theorem pages_le_demand {c : KVCache} (hps : 1 ≤ rt.config.pageSize)
    (hsize : c.pageSize = rt.config.pageSize) (r : RequestState) {total : Int}
    (hle : total ≤ r.promptTokens.length + r.targetTokens.length) :
    r.layerIds.length * c.requiredPages total ≤ rt.demand r := by
  have hpos : 0 < c.pageSize := by omega
  have hreq := requiredPages_le_ceilDiv (c := c) hpos (by omega) hle
  rw [hsize] at hreq
  exact mul_le_mul_of_nonneg_left hreq (Int.natCast_nonneg r.layerIds.length)

/-- All the pages that the request may ever need fit in an empty cache. -/
def FitsAlone (rt : PersistentDecodeRuntime) (r : RequestState) : Prop :=
  (rt.submit r).layerIds.length *
    ceilDiv (r.promptTokens.length + r.targetTokens.length) rt.config.pageSize ≤ rt.config.maxPages

instance (rt : PersistentDecodeRuntime) (r : RequestState) : Decidable (rt.FitsAlone r) :=
  inferInstanceAs (Decidable (_ ≤ _))

/-- A request in flight that fits alone: it has committed no more than its target. -/
structure Bounded (rt : PersistentDecodeRuntime) (r : RequestState) : Prop where
  committed : r.committedTokens.length ≤ r.targetTokens.length
  fits : r.layerIds.length *
    ceilDiv (r.promptTokens.length + r.targetTokens.length) rt.config.pageSize ≤ rt.config.maxPages
  blockSize : 1 ≤ rt.effectiveBlockSize r

theorem Bounded.of_tokens {r r' : RequestState} (h : rt.Bounded r) (ht : r'.tokens = r.tokens)
    (hl : r'.layerIds = r.layerIds) (hb : 1 ≤ rt.effectiveBlockSize r') : rt.Bounded r' := by
  have hprompt : r'.promptTokens = r.promptTokens := RequestState.promptTokens_eq ht
  have htarget : r'.targetTokens = r.targetTokens := RequestState.targetTokens_eq ht
  refine ⟨?_, ?_, hb⟩
  · rw [RequestState.committed_eq ht, htarget]
    exact h.committed
  · rw [hl, hprompt, htarget]
    exact h.fits

theorem block_length_le (rt : PersistentDecodeRuntime) (r : RequestState) :
    (rt.block r).length ≤ r.targetTokens.length - r.committedTokens.length := by
  unfold block RequestState.remainingTarget
  rw [List.length_take, List.length_drop]
  exact min_le_right _ _

theorem Bounded.advance {r : RequestState} {spec : Speculation} (h : rt.Bounded r)
    (hacc : spec.accepted = rt.block r) : rt.Bounded (r.advance spec) := by
  refine ⟨?_, h.fits, h.blockSize⟩
  have hblock := rt.block_length_le r
  have hcommitted := h.committed
  have hlen : (r.advance spec).committedTokens.length =
      r.committedTokens.length + (rt.block r).length := by
    rw [← hacc]
    exact List.length_append
  change _ ≤ r.targetTokens.length
  omega

theorem bounded_run (hv : rt.ValidBlocks) {requests : List RequestState}
    (hf : FreshRequests requests) (halone : ∀ r ∈ requests, rt.FitsAlone r) {s : RuntimeState}
    (hs : Reaches rt.workers.step (rt.start requests) s) :
    rt.workers.Holds rt.Bounded s ∨ Workers.Raised s := by
  refine rt.workers_lawful.holds ?_ ?_ ?_ hs
  · intro r hr
    refine ⟨submit_unfinished hf.fresh r hr, ?_⟩
    obtain ⟨r₀, hr₀, rfl⟩ := List.mem_map.mp hr
    have htok := rt.submit_tokens r₀
    have hprompt : (rt.submit r₀).promptTokens = r₀.promptTokens :=
      RequestState.promptTokens_eq htok
    have htarget : (rt.submit r₀).targetTokens = r₀.targetTokens :=
      RequestState.targetTokens_eq htok
    refine ⟨?_, ?_, submit_blockSize hv r₀⟩
    · rw [RequestState.committed_eq htok, (hf.fresh r₀ hr₀).committed]
      exact Nat.zero_le _
    · rw [hprompt, htarget]
      exact halone r₀ hr₀
  · intro s i r r' c' _ _ hP hrun
    obtain ⟨htok, hlay, _⟩ := prefill_tokens hrun
    exact hP.of_tokens htok hlay (prefill_blockSize hrun ▸ hP.blockSize)
  · intro s i r r' trace c' _ _ _ hP hrun
    obtain ⟨spec, hblock⟩ := decode_block hv hP.blockSize hrun
    exact (hP.advance hblock.accepted).of_tokens hblock.tokens hblock.layerIds hblock.blockSize

theorem Bounded.fits_of_unpinned {c : KVCache} {r : RequestState} {total : Int}
    (h : rt.Bounded r) (hps : 1 ≤ rt.config.pageSize) (hsize : c.pageSize = rt.config.pageSize)
    (hmax : c.maxPages = rt.config.maxPages)
    (hle : total ≤ r.promptTokens.length + r.targetTokens.length)
    (hpins : c.foreignPins r.requestId = 0) : c.Fits r total := by
  have hpages := pages_le_demand hps hsize r hle
  have hfits : rt.demand r ≤ rt.config.maxPages := h.fits
  unfold Fits
  rw [hpins, hmax]
  omega

/-- The next step fits when its request fits with its whole target. -/
theorem fitsNext_of_fits {s : RuntimeState}
    (hcommitted : ∀ r ∈ s.waiting, r.committedTokens.length ≤ r.targetTokens.length)
    (hfits : ∀ r ∈ s.waiting, ∀ total : Int,
      total ≤ r.promptTokens.length + r.targetTokens.length → s.cache.Fits r total) :
    rt.FitsNext s := by
  refine ⟨fun r hr => ?_, fun r hr => ?_⟩
  · have hwait := Workers.nextPrefill_waiting hr
    have hlength := hcommitted r hwait
    refine hfits r hwait _ ?_
    unfold RequestState.currentTokens
    omega
  · have hwait := Workers.nextDecode_waiting hr
    have hlength := hcommitted r hwait
    have hblock := rt.block_length_le r
    refine hfits r hwait _ ?_
    unfold RequestState.currentTokens
    omega

/-- For requests that fit alone a step can only fail to fit when an idle request holds pins. -/
theorem fitsNext_of_unpinned (hv : rt.ValidBlocks) (hps : 1 ≤ rt.config.pageSize)
    {requests : List RequestState} (hf : FreshRequests requests)
    (halone : ∀ r ∈ requests, rt.FitsAlone r) {s : RuntimeState}
    (hs : Reaches rt.workers.step (rt.start requests) s) (hn : ¬ Workers.Raised s)
    (hpins : ∀ r ∈ s.waiting, s.cache.foreignPins r.requestId = 0) : rt.FitsNext s := by
  have hbounded := (bounded_run hv hf halone hs).resolve_right hn
  have htidy := (tidy_run hf.fresh hs).resolve_right hn
  refine fitsNext_of_fits (fun r hr => ?_) fun r hr total hle => ?_
  · exact (hbounded.bag r (PoolState.mem_bag_of_waiting hr)).committed
  · have hb := hbounded.bag r (PoolState.mem_bag_of_waiting hr)
    exact hb.fits_of_unpinned hps htidy.pageSize htidy.maxPages hle (hpins r hr)

/-- Two requests of three pages each in a cache of three pages: the page that the first one
commits stays pinned while it is idle, and the second one finds no room for its own. -/
theorem idle_pin_starves :
    ¬ ∀ (rt : PersistentDecodeRuntime) (requests : List RequestState),
      rt.ValidBlocks → 1 ≤ rt.config.pageSize → 1 ≤ rt.config.numPrefillWorkers →
        1 ≤ rt.config.numDecodeWorkers → rt.config.pinReadyDecodePages = false →
        FreshRequests requests → (∀ r ∈ requests, rt.FitsAlone r) →
        ∃ results, rt.Returns requests results := by
  intro h
  have hreturns := h
    { config := { blockSize := 1, pageSize := 1, maxPages := 3, pinReadyDecodePages := false } }
    [.ask 1 [1] [10, 11], .ask 2 [1] [10, 11]]
    (by decide) (by decide) (by decide) (by decide) rfl (by decide) (by decide)
  obtain ⟨results, hreturned⟩ := hreturns
  refine not_returns_of_runFor (n := 60) _ ?_ ?_ results hreturned
  · decide +kernel
  · decide +kernel

/-- In blocks of two the second request is evicted, rehydrated and served. -/
theorem evicted_request_served :
    ∃ results, Returns
      { config := { blockSize := 2, pageSize := 1, maxPages := 3, pinReadyDecodePages := false } }
      [.ask 1 [1] [10, 11], .ask 2 [1] [10, 11]] results := by
  refine returns_of_runFits (by decide) (by decide) (by decide) (by decide) ?_
  refine runFits_of_runFor (n := 19) ?_ ?_
  · decide +kernel
  · decide +kernel

end PersistentDecodeRuntime
end ResidentInference

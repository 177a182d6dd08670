import ResidentInference.Headroom
import ResidentInference.StepCounts
import ResidentInference.TraceFigures

/-! The pages that a decode step reads without the sparse selection: in each layer of its request
as many as the tokens of the request need, whatever was evicted before. -/
namespace ResidentInference
open StateTransition KVCache

/-! ### The map of an allocation -/

theorem requiredPages_eq (c : KVCache) {total : Int} (h : 0 ≤ total) :
    c.requiredPages total = ceilDiv total c.pageSize := by
  rw [requiredPages]
  split
  · next hle =>
    obtain rfl : total = 0 := le_antisymm hle h
    simp [ceilDiv]
  · rfl

/-- An allocation for a request that has no more pages than `total` asks for lists in each of its
layers just what `total` asks for. -/
theorem allocate_listed {c c' : KVCache} (hi : Inv c) (hps : 0 < c.pageSize) {r : RequestState}
    {total : Int} {pinned : Bool} {m : LayerPageMap}
    (hok : c.allocateForRequest r total pinned = (.ok m, c'))
    (h : Housed c r.requestId r.layerIds (c.requiredPages total)) {l : Int}
    (hl : l ∈ r.layerIds) : (((m.get? l).getD []).length : Int) = c.requiredPages total := by
  have hlayers := allocateForRequest_ok hok
  generalize c.victims (c.neededPages r total - c.freePages) = gone at hlayers
  have he := c.evolves_evictAll gone
  have hleft := h.evolves hi (hi.evictAll gone) he not_false l
  have hlisted := allocateLayers_listed (c := c.evictAll gone) r.requestId total pinned r.layerIds
    Dict.empty l (Or.inl hl)
  obtain ⟨-, hlen⟩ := allocateLayers_layer (hi.evictAll gone) (he.pageSize.symm ▸ hps) r total
    pinned r.layerIds Dict.empty l
  have hreq := he.requiredPages total
  rw [hlayers] at hlisted hlen
  rw [if_pos hl] at hleft hlen
  rw [hlisted, Option.getD_some]
  simp only [pagesNeededForLayer, hreq] at hlen ⊢
  omega

/-- The pages that `tokens` tokens need in the layers of the request. -/
def RequestState.pagesFor (r : RequestState) (pageSize tokens : Int) : Int :=
  r.layerIds.length * ceilDiv tokens pageSize

theorem RequestState.pagesFor_congr {r r' : RequestState} (h : r'.layerIds = r.layerIds)
    (pageSize tokens : Int) : r'.pagesFor pageSize tokens = r.pagesFor pageSize tokens := by
  rw [pagesFor, pagesFor, h]

/-- The snapshot of the request lists the pages that its tokens need. -/
def Paged (pageSize : Int) (r : RequestState) : Prop :=
  r.kvSnapshot ≠ none → (r.kvPageIds.length : Int) = r.pagesFor pageSize r.currentTokens

theorem Paged.congr {pageSize : Int} {r r' : RequestState} (h : Paged pageSize r)
    (ht : r'.tokens = r.tokens) (hl : r'.layerIds = r.layerIds)
    (hs : r'.kvSnapshot = r.kvSnapshot) : Paged pageSize r' := by
  intro hsome
  rw [hs] at hsome
  have hids : r'.kvPageIds = r.kvPageIds := by
    unfold RequestState.kvPageIds
    rw [hs, hl]
  rw [hids, h hsome, RequestState.pagesFor_congr hl, RequestState.currentTokens_eq ht]

/-- A snapshot made from an allocation for the tokens that the request then has. -/
theorem paged_snapshot {c c' : KVCache} (hi : Inv c) (hps : 0 < c.pageSize) {r r' q : RequestState}
    {pinned : Bool} {m : LayerPageMap}
    (hok : c.allocateForRequest r r'.currentTokens pinned = (.ok m, c'))
    (h : Housed c r.requestId r.layerIds (c.requiredPages r'.currentTokens))
    (hl : r'.layerIds = r.layerIds) (hs : r'.kvSnapshot = some (q.snapshot m)) :
    Paged c.pageSize r' := by
  intro _
  have hids : r'.kvPageIds = r.layerIds.flatMap fun l => (m.get? l).getD [] := by
    unfold RequestState.kvPageIds
    rw [hs, hl]
    rfl
  have hsum : ∀ layers : List Int, layers ⊆ r.layerIds →
      ((layers.flatMap fun l => (m.get? l).getD []).length : Int) =
        layers.length * c.requiredPages r'.currentTokens := by
    intro layers hsub
    induction layers with
    | nil => simp
    | cons l layers ih =>
      have hhead := allocate_listed hi hps hok h (hsub List.mem_cons_self)
      have htail := ih fun l' hl' => hsub (List.mem_cons_of_mem l hl')
      rw [List.flatMap_cons, List.length_append, List.length_cons]
      push_cast
      rw [hhead, htail]
      ring
  have hnonneg : 0 ≤ r'.currentTokens := by
    unfold RequestState.currentTokens
    omega
  rw [hids, hsum _ (List.Subset.refl _), RequestState.pagesFor, hl, requiredPages_eq c hnonneg]

namespace PersistentDecodeRuntime
variable {rt : PersistentDecodeRuntime}

/-! ### The stages of a step -/

theorem prefill_paged {pin : Bool} {idx : Nat} {c c' : KVCache} {r r' : RequestState}
    (h : Lodged c r) (hi : Inv c) (hps : 0 < c.pageSize) (hnew : r.committedTokens = [])
    (hrun : prefillProcess pin idx c r = (.ok r', c')) : Paged c.pageSize r' := by
  obtain ⟨m, c₁, ha, rfl, rfl⟩ := prefillProcess_ok hrun
  have hcur : r.currentTokens = r.promptTokens.length := by
    unfold RequestState.currentTokens
    rw [hnew, List.length_nil, Nat.cast_zero, add_zero]
  rw [← hcur] at ha
  exact paged_snapshot (r := { r with phase := .prefill }) (q := r) hi hps ha h rfl rfl

theorem rehydrate_paged {c c' : KVCache} {r r' : RequestState} (h : Lodged c r) (hi : Inv c)
    (hps : 0 < c.pageSize) (hpaged : Paged c.pageSize r)
    (hrun : rehydrateIfNeeded c r = (.ok r', c')) :
    r'.kvSnapshot ≠ none ∧ Paged c.pageSize r' := by
  cases rehydrateIfNeeded_ok hrun with
  | inl hkeep =>
    obtain ⟨hlive, rfl, rfl⟩ := hkeep
    exact ⟨(hasSnapshot_iff.mp hlive).1, hpaged⟩
  | inr hnew =>
    obtain ⟨m, ha, rfl⟩ := hnew
    obtain ⟨hi₀, hps₀, h₀⟩ := h.release hi hps
    have he := evolves_releaseRequest (fun _ => False) c r.requestId
    rw [← he.pageSize]
    exact ⟨by simp, paged_snapshot (q := r) hi₀ hps₀ ha h₀ rfl rfl⟩

theorem commitAccepted_paged {c c' : KVCache} {r r' : RequestState} {accepted : List Int}
    (h : Lodged c r) (hi : Inv c) (hps : 0 < c.pageSize) (hpaged : Paged c.pageSize r)
    (hrun : commitAccepted c r accepted = (.ok r', c')) : Paged c.pageSize r' := by
  cases commitAccepted_ok hrun with
  | inl hnone =>
    obtain ⟨-, rfl, -⟩ := hnone
    exact hpaged
  | inr hsome =>
    obtain ⟨c₁, m, hc₁, hc, rfl⟩ := hsome
    obtain ⟨c₂, ha, rfl⟩ := commitTokens_ok hc
    have he : Evolves (fun _ => False) c c₁ ∧ Inv c₁ := by
      cases hc₁ with
      | inl heq =>
        rw [heq]
        exact ⟨Evolves.refl _ c, hi⟩
      | inr heq =>
        rw [heq]
        exact ⟨evolves_evictLru _ c _, hi.evictLru _⟩
    have hps₁ : 0 < c₁.pageSize := he.1.pageSize.symm ▸ hps
    have hroom := (h.evolves hi he.2 he.1 not_false).mono (requiredPages_mono hps₁
      (show r.currentTokens ≤ r.currentTokens + accepted.length by omega))
    rw [← current_commit r accepted] at ha hroom
    rw [← he.1.pageSize]
    exact paged_snapshot (q := r) he.2 hps₁ ha hroom rfl rfl

/-- What the trace of a dense step reports of its reads. -/
structure ReadsAll (bytesPerPage pages : Int) (t : DecodeStepTrace) : Prop where
  total : t.kvBlocksTotal = pages
  selected : t.kvBlocksSelected = pages
  bytesRead : t.estimatedKvBytesRead = pages * bytesPerPage
  bytesSaved : t.estimatedKvBytesSaved = 0
  pageIds : (t.selectedKvPageIds.length : Int) = pages

theorem selectReads_dense (hdense : rt.config.enableSparseKv = false) (c : KVCache)
    (r : RequestState) : rt.selectReads c r =
      ({ pageIds := r.kvPageIds, blocksTotal := r.kvPageIds.length
         blocksSelected := r.kvPageIds.length
         bytesRead := r.kvPageIds.length * c.bytesPerPage, bytesSaved := 0 }, c) := by
  rw [selectReads, hdense]
  rfl

theorem decode_paged (hdense : rt.config.enableSparseKv = false) {idx : Nat} {c c' : KVCache}
    {r r' : RequestState} {t : DecodeStepTrace} (h : Lodged c r) (hi : Inv c)
    (hres : Resident c r) (hps : 0 < c.pageSize) (hpaged : Paged c.pageSize r)
    (hrun : rt.decodeProcess idx c r = (.ok (r', t), c')) :
    Paged c.pageSize r' ∧
      ReadsAll c.bytesPerPage (r.pagesFor c.pageSize r.currentTokens) t := by
  obtain ⟨ready, reads, spec, committed, prepared, grown, hst⟩ := decodeProcess_ok hrun
  have htaken : Resident c (taken idx r) := hres.congr rfl rfl rfl
  have hlodged : Lodged c (taken idx r) := h.congr rfl rfl
  obtain ⟨hm, -, -⟩ := prepare_moves hi htaken hst.prepare
  obtain ⟨hgrown, -⟩ := prepare_lodged hlodged hi htaken hps hst.prepare
  obtain ⟨c₁, hre, hreads, -⟩ := prepare_ok hst.prepare
  obtain ⟨hsome, hready⟩ :=
    rehydrate_paged hlodged hi hps (hpaged.congr rfl rfl rfl) hre
  obtain ⟨htok, hlay, -⟩ := rehydrateIfNeeded_tokens hre
  obtain ⟨hatok, halay⟩ := rt.adapt_tokens prepared { ready with draftTokens := spec.proposal }
    spec.adaptiveMask
  have hasnap := (adapt_frame rt prepared ready spec.proposal spec.adaptiveMask).2.2
  have hsame : prepared.pageSize = c.pageSize := hm.evolves.pageSize
  have hdrafted := hready.congr hatok halay hasnap
  rw [← hsame] at hdrafted
  have hcommitted := commitAccepted_paged (hgrown.congr hatok halay) hm.inv (hsame.symm ▸ hps)
    hdrafted hst.commit
  refine ⟨?_, ?_⟩
  · obtain ⟨ids, phase, finished, preempted, hsettle⟩ := rt.settle_eq grown committed spec reads
    have hend := hst.settle
    rw [hsettle] at hend
    cases hend
    exact hsame ▸ hcommitted
  · have hpages : (ready.kvPageIds.length : Int) = r.pagesFor c.pageSize r.currentTokens := by
      rw [hready hsome, RequestState.pagesFor_congr (r := r) hlay]
      exact congrArg _ (RequestState.currentTokens_eq (r := r) htok)
    rw [selectReads_dense hdense] at hreads
    have he := (rehydrate_moves hi htaken hre).1.evolves
    have hbytes : c₁.bytesPerPage = c.bytesPerPage := by
      rw [KVCache.bytesPerPage, KVCache.bytesPerPage, bytesPerTokenPerLayer,
        bytesPerTokenPerLayer, he.config, he.pageSize]
    rw [hst.trace, hreads]
    exact ⟨hpages, hpages, by simp only [traceOf, hpages, hbytes], rfl, hpages⟩

/-! ### Whole runs -/

/-- The number of tokens that these steps committed. -/
def committedBy (traces : List DecodeStepTrace) : Nat :=
  (traces.map fun t => t.acceptedTokens.length).sum

/-- A request and the steps it has taken: it has the layers that it was submitted with, and every
step read the pages of the tokens that it had then. -/
structure ReadBy (rt : PersistentDecodeRuntime) (requests : List RequestState) (r : RequestState)
    (traces : List DecodeStepTrace) : Prop where
  submitted : ∃ r₀ ∈ requests, r.requestId = r₀.requestId ∧ r.layerIds = (rt.submit r₀).layerIds
  paged : Paged rt.config.pageSize r
  committed : r.committedTokens.length = committedBy traces
  reads : ∀ before t after, traces = before ++ t :: after → ReadsAll rt.bytesPerPage
    (r.pagesFor rt.config.pageSize (r.promptTokens.length + committedBy before)) t

theorem ReadBy.decode {requests : List RequestState} {r r' : RequestState} {t : DecodeStepTrace}
    {traces : List DecodeStepTrace} (h : rt.ReadBy requests r traces) {idx : Nat}
    {c c' : KVCache} (hrun : rt.decodeProcess idx c r = (.ok (r', t), c'))
    (hpaged : Paged rt.config.pageSize r') (ht : ReadsAll rt.bytesPerPage
      (r.pagesFor rt.config.pageSize r.currentTokens) t) :
    rt.ReadBy requests r' (traces ++ [t]) := by
  obtain ⟨r₀, hr₀, hid, hl⟩ := h.submitted
  obtain ⟨spec, -, htok, -, hlay, -⟩ := decode_tokens hrun
  have hprompt : r'.promptTokens = r.promptTokens := (RequestState.promptTokens_eq htok :)
  have hgrown : r'.committedTokens = r.committedTokens ++ t.acceptedTokens :=
    rt.workers_append.decode hrun
  refine ⟨⟨r₀, hr₀, (decode_requestId hrun).trans hid, hlay.trans hl⟩, hpaged, ?_, ?_⟩
  · simp [hgrown, h.committed, committedBy]
  · intro before u after hsplit
    rw [RequestState.pagesFor_congr hlay, hprompt]
    obtain rfl | ⟨rest, last, rfl⟩ := List.eq_nil_or_concat' after
    · obtain ⟨rfl, hlast⟩ := List.append_inj' hsplit rfl
      obtain rfl := List.singleton_inj.mp hlast
      rw [← h.committed]
      exact ht
    · rw [← List.cons_append, ← List.append_assoc] at hsplit
      obtain ⟨rfl, -⟩ := List.append_inj' hsplit rfl
      exact h.reads before u rest rfl

/-- The steps of a dense run read the pages that the tokens need: in every state of every run, in
each step that a result reports, the pages of all layers for the prompt and the tokens committed in
the steps before, whatever was evicted and rehydrated in between. -/
theorem dense_reads_follow_tokens (hv : rt.ValidBlocks) (hps : 1 ≤ rt.config.pageSize)
    (hdense : rt.config.enableSparseKv = false) {requests : List RequestState}
    (hf : FreshRequests requests) {s : RuntimeState}
    (hs : Reaches rt.workers.step (rt.start requests) s) {b : DecodeResult}
    (hb : b ∈ s.finalResults) :
    ∃ r₀ ∈ requests, b.requestId = r₀.requestId ∧
      ∀ before t after, b.traces = before ++ t :: after → ReadsAll rt.bytesPerPage
        ((rt.submit r₀).pagesFor rt.config.pageSize
          (b.promptTokens.length + committedBy before)) t := by
  have h : rt.workers.Histories (rt.ReadBy requests) s := by
    refine histories_run hf (fun r hr => ?_) ?_ ?_ hs
    · have hsnap : (rt.submit r).kvSnapshot = none :=
        (submit_keeps (f := RequestState.kvSnapshot) (fun _ _ => rfl) (fun _ _ _ _ => rfl) rt
          r).trans (hf.fresh r hr).snapshot
      refine ⟨⟨r, hr, RequestState.requestId_eq (rt.submit_tokens r), rfl⟩,
        fun hsome => absurd hsnap hsome, ?_, fun before t after hsplit => ?_⟩
      · rw [submit_committed rt (hf.fresh r hr)]
        rfl
      · simp at hsplit
    · intro u i r r' c' traces hu hnext hP hrun
      have hn := Workers.not_raised_of_next (Or.inl hnext)
      have hserving := (serving_run hu).resolve_right hn
      have hbag := PoolState.mem_bag_of_waiting (Workers.nextPrefill_waiting hnext)
      have hlodged := (allLodged_run hv hps hf hu).resolve_right hn r hbag
      obtain ⟨r₀, hr₀, rfl⟩ := List.mem_map.mp (Workers.nextPrefill_submitted hu hnext)
      have hpaged := prefill_paged hlodged hserving.inv (by rw [hserving.pageSize]; omega)
        (submit_committed rt (hf.fresh r₀ hr₀)) hrun
      rw [hserving.pageSize] at hpaged
      obtain ⟨htok, hlay, -⟩ := prefill_tokens hrun
      obtain ⟨q, hq, hid, hl⟩ := hP.submitted
      refine ⟨⟨q, hq, (RequestState.requestId_eq htok).trans hid, hlay.trans hl⟩, hpaged, ?_, ?_⟩
      · rw [RequestState.committed_eq htok]
        exact hP.committed
      · intro before t after hsplit
        rw [RequestState.pagesFor_congr hlay, RequestState.promptTokens_eq htok]
        exact hP.reads before t after hsplit
    · intro u i r r' t c' traces hu hnext _ hP hrun
      have hn := Workers.not_raised_of_next (Or.inr hnext)
      have hserving := (serving_run hu).resolve_right hn
      have hbag := PoolState.mem_bag_of_waiting (Workers.nextDecode_waiting hnext)
      have hlodged := (allLodged_run hv hps hf hu).resolve_right hn r hbag
      have hres := ((tidy_run hf.fresh hu).resolve_right hn).resident r hbag
      obtain ⟨hpaged, ht⟩ := decode_paged hdense hlodged hserving.inv hres
        (by rw [hserving.pageSize]; omega) (hserving.pageSize.symm ▸ hP.paged) hrun
      rw [hserving.pageSize] at hpaged ht
      have hbytes : u.cache.bytesPerPage = rt.bytesPerPage := by
        rw [KVCache.bytesPerPage, bytesPerTokenPerLayer, hserving.config, hserving.pageSize]
        rfl
      exact hP.decode hrun hpaged (hbytes ▸ ht)
  obtain ⟨r, traces, -, hP, rfl⟩ := h.results b hb
  obtain ⟨r₀, hr₀, hid, hl⟩ := hP.submitted
  refine ⟨r₀, hr₀, hid, fun before t after hsplit => ?_⟩
  rw [← RequestState.pagesFor_congr hl]
  exact hP.reads before t after hsplit

/-- Two requests of up to four pages in a cache of five: each of them loses its pages once and is
rehydrated, and its last step still reads the pages of its three tokens. -/
theorem rehydrated_request_reads_all :
    let rt : PersistentDecodeRuntime :=
      { config := { blockSize := 1, pageSize := 1, maxPages := 5, pinReadyDecodePages := false } }
    ∃ s, Reaches rt.workers.step (rt.start [.ask 1 [5] [6, 7, 8], .ask 2 [5] [6, 7, 8]]) s ∧
      ∃ b ∈ s.finalResults, b.rehydrationCount = 1 ∧
        ∃ t ∈ b.traces.getLast?, ReadsAll rt.bytesPerPage 3 t := by
  intro rt
  have hany : (Runs.runFor rt.workers.step 80
      (rt.start [.ask 1 [5] [6, 7, 8], .ask 2 [5] [6, 7, 8]])).finalResults.any
        (fun b => decide (b.rehydrationCount = 1 ∧ b.promptTokens.length = 1 ∧
          b.traces.length = 3 ∧ committedBy b.traces.dropLast = 2)) = true := by decide +kernel
  obtain ⟨b, hb, hfacts⟩ := List.any_eq_true.mp hany
  obtain ⟨hcount, hprompt, hlen, hcommitted⟩ := of_decide_eq_true hfacts
  have hs := Runs.reaches_runFor rt.workers.step 80
    (rt.start [.ask 1 [5] [6, 7, 8], .ask 2 [5] [6, 7, 8]])
  obtain ⟨r₀, hr₀, -, hreads⟩ := dense_reads_follow_tokens (by decide) (by decide) rfl (by decide)
    hs hb
  have hne : b.traces ≠ [] := by
    rintro hnil
    rw [hnil] at hlen
    cases hlen
  have hlayers : (rt.submit r₀).layerIds.length = 1 := by
    clear hreads
    revert r₀
    decide
  have hlast := hreads _ _ [] (List.dropLast_append_getLast hne).symm
  rw [hprompt, hcommitted, RequestState.pagesFor, hlayers] at hlast
  exact ⟨_, hs, b, hb, hcount, _, List.getLast?_eq_getLast_of_ne_nil hne, hlast⟩

end PersistentDecodeRuntime
end ResidentInference

import ResidentInference.KVPrimitives
import ResidentInference.Residency
import Mathlib.Algebra.Order.Field.Basic

/-! The residency report of the KV cache: its bounds over every sequence of calls, and the hit rate
that the runtime can report. -/
namespace ResidentInference
open StateTransition

/-- `residency_report` -/
structure ResidencyReport where
  hitRate : ℚ
  evictionCount : Int
  livePages : Nat
  pinnedPages : Nat
  liveKvBytes : Int
  pinnedKvBytes : Int
  evictedKvBytes : Int
  fragmentationRatio : ℚ
  deriving DecidableEq

namespace KVCache
variable {c : KVCache}

/-- The report; `rnd` rounds as the source's doubles do. -/
def residencyReport (c : KVCache) (rnd : ℚ → ℚ) : ResidencyReport where
  hitRate := if c.accessCount = 0 then 0 else rnd (c.hitCount / c.accessCount)
  evictionCount := c.evictionCount
  livePages := c.pages.size
  pinnedPages := c.pages.values.countP KVPage.pinned
  liveKvBytes := c.totalLiveKvBytes
  pinnedKvBytes := c.pinnedKvBytes
  evictedKvBytes := c.evictedKvBytes
  fragmentationRatio :=
    if 0 < c.totalCapacityTokens then
      rnd (1 - rnd (c.usedCapacityTokens / c.totalCapacityTokens))
    else 0

/-! ### What every call keeps -/

/-- No page holds more tokens than fit, and no more accesses hit than were made. -/
structure Metered (c : KVCache) : Prop where
  count : ∀ pid page, c.pages.get? pid = some page → page.tokenCount ≤ c.pageSize
  hits : 0 ≤ c.hitCount ∧ c.hitCount ≤ c.accessCount

theorem Metered.modify {f : KVPage → KVPage} (h : Metered c) (pid : Nat)
    (hf : ∀ page, (f page).tokenCount = page.tokenCount) (bytes : Int) :
    Metered { c with pages := c.pages.modify pid f, pinnedKvBytes := bytes } := by
  refine ⟨fun q page hp => ?_, h.hits⟩
  obtain ⟨page₀, hpage, rfl | rfl⟩ := get?_modify_cases hp
  · exact h.count q page hpage
  · exact (hf page₀).le.trans (h.count q page₀ hpage)

theorem closed_metered : Closed Metered where
  dropPage {c} pid h := by
    have hcounts : (c.dropPage pid).hitCount = c.hitCount ∧
        (c.dropPage pid).accessCount = c.accessCount := by
      unfold KVCache.dropPage
      cases c.pages.get? pid <;> exact ⟨rfl, rfl⟩
    refine ⟨fun q page hp => ?_, by rw [hcounts.1, hcounts.2]; exact h.hits⟩
    rw [dropPage_get?] at hp
    split at hp
    · cases hp
    · exact dropPage_pageSize c pid ▸ h.count q page hp
  table _ h := ⟨h.count, h.hits⟩
  evicted _ _ h := ⟨h.count, h.hits⟩
  allocateOnePage {c} r l start count pinned hcount h := by
    refine ⟨fun q page hp => ?_, h.hits⟩
    rw [allocateOnePage_get?] at hp
    split at hp
    · obtain rfl := Option.some.inj hp
      exact hcount
    · exact h.count q page hp
  updatePage pid hf h := h.modify pid hf.tokenCount _
  pinPage {c} pid h := by
    obtain ⟨bytes, hpin⟩ := pinPage_eq c pid
    rw [hpin]
    exact h.modify (f := KVPage.setPinned true) pid (fun _ => rfl) bytes
  unpinPage {c} pid h := by
    obtain ⟨bytes, hunpin⟩ := unpinPage_eq c pid
    rw [hunpin]
    exact h.modify (f := KVPage.setPinned false) pid (fun _ => rfl) bytes
  clampCounters h := ⟨h.count, h.hits⟩

theorem Metered.touchPage (h : Metered c) (pid : Nat) : Metered (c.touchPage pid) := by
  have hhits := h.hits
  unfold KVCache.touchPage
  cases c.pages.get? pid with
  | none => exact ⟨h.count, hhits.1, by dsimp only; omega⟩
  | some page => exact ⟨h.count, by dsimp only; omega, by dsimp only; omega⟩

theorem metered_runCalls (pageSize maxPages : Int) (config : Option RuntimeConfig)
    (calls : List CacheCall) : Metered ((new pageSize maxPages config).runCalls calls) :=
  closed_metered.runCalls (fun _ pid h => h.touchPage pid) calls
    ⟨fun _ _ hp => by simp [new] at hp, le_rfl, le_rfl⟩

/-! ### Sums over the pages -/

theorem sumBy_le_sumBy {κ ν : Type} [DecidableEq κ] {f g : ν → Int} {d : Dict κ ν}
    (h : ∀ k v, d.get? k = some v → f v ≤ g v) : d.sumBy f ≤ d.sumBy g := by
  refine List.sum_le_sum fun p hp => ?_
  exact h p.1 p.2 ((d.get?_eq_some_iff p.1 p.2).mpr hp)

theorem sumBy_const {κ ν : Type} [DecidableEq κ] (d : Dict κ ν) (n : Int) :
    (d.sumBy fun _ => n) = d.size * n := by
  simp [Dict.sumBy, Dict.size]

theorem live_le_full (h : Inv c) (hm : Metered c) :
    c.totalLiveKvBytes ≤ c.pages.size * c.bytesPerPage := by
  rw [h.accounted.live, ← sumBy_const]
  exact sumBy_le_sumBy fun pid page hp =>
    mul_le_mul_of_nonneg_right (hm.count pid page hp) c.bytesPerTokenPerLayer_nonneg

theorem pinned_le_live (h : Inv c) :
    0 ≤ c.pinnedKvBytes ∧ c.pinnedKvBytes ≤ c.totalLiveKvBytes := by
  rw [h.accounted.pinned, h.accounted.live]
  refine ⟨Dict.sumBy_nonneg fun pid page hp => ?_, sumBy_le_sumBy fun pid page hp => ?_⟩
  · split
    · exact h.pageBytes_nonneg hp
    · exact le_rfl
  · split
    · exact le_rfl
    · exact h.pageBytes_nonneg hp

theorem used_bounds (h : Inv c) (hm : Metered c) :
    (c.pages.size : Int) ≤ c.usedCapacityTokens ∧
      c.usedCapacityTokens ≤ c.totalCapacityTokens := by
  rw [h.accounted.used, h.accounted.capacity]
  refine ⟨?_, ?_⟩
  · rw [← mul_one (c.pages.size : Int), ← sumBy_const]
    exact sumBy_le_sumBy fun pid page hp => h.sound.count pid page hp
  · rw [mul_comm, ← sumBy_const]
    exact sumBy_le_sumBy hm.count

/-- A rounding keeps the order, zero and one. -/
structure Rounds (rnd : ℚ → ℚ) : Prop where
  mono : Monotone rnd
  zero : rnd 0 = 0
  one : rnd 1 = 1

theorem Rounds.mem {rnd : ℚ → ℚ} (h : Rounds rnd) {x : ℚ} (h0 : 0 ≤ x) (h1 : x ≤ 1) :
    0 ≤ rnd x ∧ rnd x ≤ 1 := ⟨h.zero ▸ h.mono h0, h.one ▸ h.mono h1⟩

/-- The waste that the report shows is at most that of pages with one token each. -/
theorem fragmentation_bounds (h : Inv c) (hm : Metered c) {rnd : ℚ → ℚ} (hr : Rounds rnd) :
    0 ≤ (c.residencyReport rnd).fragmentationRatio ∧
      (0 < c.pages.size → (c.residencyReport rnd).fragmentationRatio ≤
        rnd (1 - rnd (1 / c.pageSize))) := by
  obtain ⟨hleast, hmost⟩ := used_bounds h hm
  have hcapacity := h.accounted.capacity
  simp only [residencyReport]
  split
  · next hpos =>
    have hcap : (0 : ℚ) < c.totalCapacityTokens := by exact_mod_cast hpos
    have hused : (0 : ℚ) ≤ c.usedCapacityTokens := by
      exact_mod_cast (Int.natCast_nonneg _).trans hleast
    have hratio : (c.usedCapacityTokens / c.totalCapacityTokens : ℚ) ≤ 1 :=
      (div_le_one₀ hcap).mpr (by exact_mod_cast hmost)
    obtain ⟨hlow, hhigh⟩ := hr.mem (div_nonneg hused hcap.le) hratio
    refine ⟨(hr.mem (sub_nonneg.mpr hhigh) (sub_le_self 1 hlow)).1, fun hsize => ?_⟩
    have hps : (0 : ℚ) < c.pageSize := by
      have hpos' : 0 < c.pageSize := by
        by_contra hneg
        have := mul_nonpos_of_nonpos_of_nonneg (not_lt.mp hneg) (Int.natCast_nonneg c.pages.size)
        omega
      exact_mod_cast hpos'
    refine hr.mono (sub_le_sub_left (hr.mono ?_) 1)
    rw [div_le_div_iff₀ hps hcap, one_mul, hcapacity]
    push_cast
    rw [mul_comm]
    exact mul_le_mul_of_nonneg_right (by exact_mod_cast hleast) hps.le
  · next hzero =>
    refine ⟨le_rfl, fun hsize => ?_⟩
    exfalso
    obtain ⟨p, hp⟩ := List.exists_mem_of_length_pos hsize
    have hps := h.sound.size p.1 p.2 ((Dict.get?_eq_some_iff _ _ _).mpr hp)
    have := mul_pos hps (Int.natCast_pos.mpr hsize)
    omega

/-- Over every sequence of calls the report is well formed: the rates are shares, and the pinned
pages and bytes are among the live ones, which are within the pages. -/
theorem residency_report_bounds (pageSize maxPages : Int) (config : Option RuntimeConfig)
    (calls : List CacheCall) {rnd : ℚ → ℚ} (hr : Rounds rnd) :
    let c := (new pageSize maxPages config).runCalls calls
    let report := c.residencyReport rnd
    report.hitRate ∈ Set.Icc 0 1 ∧ 0 ≤ report.fragmentationRatio ∧
      (0 < report.livePages → report.fragmentationRatio ≤ rnd (1 - rnd (1 / c.pageSize))) ∧
      report.pinnedPages ≤ report.livePages ∧ 0 ≤ report.pinnedKvBytes ∧
      report.pinnedKvBytes ≤ report.liveKvBytes ∧
      report.liveKvBytes ≤ report.livePages * c.bytesPerPage := by
  intro c report
  have h : Inv c := inv_runCalls pageSize maxPages config calls
  have hm : Metered c := metered_runCalls pageSize maxPages config calls
  obtain ⟨hfrag, hwaste⟩ := fragmentation_bounds h hm hr
  obtain ⟨hpin, hlive⟩ := pinned_le_live h
  refine ⟨?_, hfrag, hwaste, ?_, hpin, hlive, live_le_full h hm⟩
  · have hhits := hm.hits
    simp only [report, residencyReport]
    split
    · exact ⟨le_rfl, zero_le_one⟩
    · next hne =>
      have hpos : (0 : ℚ) < c.accessCount := by exact_mod_cast (by omega : 0 < c.accessCount)
      exact hr.mem (div_nonneg (by exact_mod_cast hhits.1) hpos.le)
        ((div_le_one₀ hpos).mpr (by exact_mod_cast hhits.2))
  · have hsize : c.pages.values.length = c.pages.size := by simp [Dict.values, Dict.size]
    exact List.countP_le_length.trans hsize.le

/-- A page of three tokens in pages of four: a quarter of the capacity is wasted. -/
theorem quarter_page_report :
    let report := ((new 4 8 none).runCalls
      [.operation (.allocateForRequest (.ask 1 [5, 6, 7] []) 3 true)]).residencyReport id
    report.fragmentationRatio = 1 / 4 ∧ report.pinnedPages ≤ report.livePages := by
  refine ⟨by decide +kernel, ?_⟩
  exact (residency_report_bounds 4 8 none
    [.operation (.allocateForRequest (.ask 1 [5, 6, 7] []) 3 true)]
    ⟨monotone_id, rfl, rfl⟩).2.2.2.1

/-! ### Touches of live pages -/

/-- Everything but a touch leaves the accesses and the hits alone. -/
theorem closed_accesses (accesses hits : Int) :
    Closed fun c => c.accessCount = accesses ∧ c.hitCount = hits where
  dropPage {c} pid h := by
    unfold KVCache.dropPage
    cases c.pages.get? pid <;> exact h
  table _ h := h
  evicted _ _ h := h
  allocateOnePage _ _ _ _ _ _ h := h
  updatePage _ _ h := h
  pinPage {c} pid h := by
    obtain ⟨bytes, hpin⟩ := pinPage_eq c pid
    rw [hpin]
    exact h
  unpinPage {c} pid h := by
    obtain ⟨bytes, hunpin⟩ := unpinPage_eq c pid
    rw [hunpin]
    exact h
  clampCounters h := h

/-- Every access so far hit a live page. -/
def AllHit (c : KVCache) : Prop := c.hitCount = c.accessCount

/-- An operation without a touch keeps all accesses hits. -/
theorem AllHit.of_closed {c' : KVCache} (h : AllHit c)
    (hop : ∀ {P : KVCache → Prop}, Closed P → P c → P c') : AllHit c' := by
  obtain ⟨haccess, hhit⟩ := hop (closed_accesses c.accessCount c.hitCount) ⟨rfl, rfl⟩
  rw [AllHit, haccess, hhit]
  exact h

theorem accessCount_of_closed {c' : KVCache}
    (hop : ∀ {P : KVCache → Prop}, Closed P → P c → P c') : c'.accessCount = c.accessCount :=
  (hop (closed_accesses c.accessCount c.hitCount) ⟨rfl, rfl⟩).1

theorem touchPages_accessCount (c : KVCache) (ids : List Nat) :
    (c.touchPages ids).accessCount = c.accessCount + ids.length := by
  induction ids generalizing c with
  | nil => exact (add_zero _).symm
  | cons pid ids ih =>
    have hone : (c.touchPage pid).accessCount = c.accessCount + 1 := by
      unfold touchPage
      cases c.pages.get? pid <;> rfl
    have hrest := ih (c.touchPage pid)
    rw [hone] at hrest
    rw [List.length_cons]
    push_cast
    change ((c.touchPage pid).touchPages ids).accessCount = _
    rw [hrest]
    ring

theorem AllHit.touchPages (h : AllHit c) (ids : List Nat)
    (hlive : ∀ pid ∈ ids, pid ∈ c.pages.keys) : AllHit (c.touchPages ids) := by
  induction ids generalizing c with
  | nil => exact h
  | cons pid ids ih =>
    obtain ⟨page, hp⟩ := (Dict.mem_keys_iff _ _).mp (hlive pid List.mem_cons_self)
    refine ih (c := c.touchPage pid) ?_ fun q hq => ?_
    · simp only [touchPage, hp, AllHit]
      exact congrArg (· + 1) h
    · rw [touchPage_pages]
      exact hlive q (List.mem_cons_of_mem _ hq)

end KVCache
open KVCache

/-! ### The runtime touches live pages only -/

theorem mem_pageIds {m : LayerPageMap} {pid : Nat} (h : pid ∈ m.pageIds) :
    ∃ l ids, m.get? l = some ids ∧ pid ∈ ids := by
  obtain ⟨ids, hids, hpid⟩ := List.mem_flatten.mp h
  obtain ⟨p, hp, rfl⟩ := List.mem_map.mp hids
  exact ⟨p.1, p.2, (Dict.get?_eq_some_iff _ _ _).mpr hp, hpid⟩

/-- A prefill accesses the pages of its snapshot. -/
theorem prefill_accesses {pin : Bool} {idx : Nat} {c c' : KVCache} {r r' : RequestState}
    (hrun : prefillProcess pin idx c r = (.ok r', c')) :
    ∃ snapshot, r'.kvSnapshot = some snapshot ∧
      c'.accessCount = c.accessCount + snapshot.layerPageMap.pageIds.length := by
  obtain ⟨m, c₁, ha, rfl, rfl⟩ := prefillProcess_ok hrun
  refine ⟨_, rfl, ?_⟩
  have hgrow : c₁.accessCount = c.accessCount := accessCount_of_closed fun hP hc => by
    have hlast := hP.allocateForRequest { r with phase := .prefill } r.promptTokens.length pin hc
    rwa [ha] at hlast
  rw [touchPages_accessCount, hgrow]
  rfl

theorem prefill_allHit {pin : Bool} {idx : Nat} {c c' : KVCache} {r r' : RequestState}
    (hi : Inv c) (h : AllHit c) (hrun : prefillProcess pin idx c r = (.ok r', c')) :
    AllHit c' := by
  obtain ⟨m, c₁, ha, rfl, rfl⟩ := prefillProcess_ok hrun
  have h₁ : AllHit c₁ := h.of_closed fun hP hc => by
    have hgrow := hP.allocateForRequest { r with phase := .prefill } r.promptTokens.length pin hc
    rwa [ha] at hgrow
  refine h₁.touchPages _ fun pid hp => ?_
  obtain ⟨l, ids, hget, hmem⟩ := mem_pageIds hp
  exact (allocateForRequest_owned hi ha l ids hget pid hmem).live

/-- A rehydration touches no page. -/
theorem rehydrate_closed {P : KVCache → Prop} (hP : Closed P) {c c' : KVCache}
    {r r' : RequestState} (hc : P c) (hrun : rehydrateIfNeeded c r = (.ok r', c')) : P c' := by
  cases rehydrateIfNeeded_ok hrun with
  | inl hkeep =>
    obtain ⟨-, -, rfl⟩ := hkeep
    exact hc
  | inr hnew =>
    obtain ⟨m, ha, -⟩ := hnew
    have hgrow := hP.allocateForRequest r r.currentTokens true (hP.releaseRequest r.requestId hc)
    rwa [ha] at hgrow

theorem commitAccepted_closed {P : KVCache → Prop} (hP : Closed P) {c c' : KVCache}
    {r r' : RequestState} {accepted : List Int} (hc : P c)
    (hrun : commitAccepted c r accepted = (.ok r', c')) : P c' := by
  cases commitAccepted_ok hrun with
  | inl hnone =>
    obtain ⟨-, -, rfl⟩ := hnone
    exact hc
  | inr hsome =>
    obtain ⟨c₁, m, hc₁, hcommit, -⟩ := hsome
    have hroom : P c₁ := hc₁.elim (fun heq => heq ▸ hc) fun heq => heq ▸ hP.evictLru _ hc
    have hgrow := hP.commitTokens r accepted.length true hroom
    rwa [hcommit] at hgrow

namespace PersistentDecodeRuntime
variable {rt : PersistentDecodeRuntime}

/-- Before the touches of a decode step. -/
theorem reads_closed (rt : PersistentDecodeRuntime) {P : KVCache → Prop} (hP : Closed P)
    {c c₁ : KVCache} {r ready : RequestState} (ids : List Nat) (hc : P c)
    (hre : rehydrateIfNeeded c r = (.ok ready, c₁)) :
    P ((rt.selectReads c₁ ready).2.pinPages ids) := by
  have h₁ := rehydrate_closed hP hc hre
  refine hP.pinPages ids ?_
  simp only [selectReads]
  split
  · exact hP.markSelection _ _ _ h₁
  · exact h₁

/-- After the touches of a decode step. -/
theorem rest_closed {P : KVCache → Prop} (hP : Closed P) {c c' : KVCache} {r r' : RequestState}
    {grown : KVCache} {committed : RequestState} {spec : Speculation} {reads : KVReads} (hc : P c)
    (hcommit : commitAccepted c r spec.accepted = (.ok committed, grown))
    (hsettle : rt.settle grown committed spec reads = (r', c')) : P c' := by
  have hgrown := commitAccepted_closed hP hc hcommit
  obtain ⟨ids, phase, finished, preempted, heq⟩ := rt.settle_eq grown committed spec reads
  rw [heq] at hsettle
  cases hsettle
  exact hP.unpinPages ids hgrown

theorem decode_allHit {idx : Nat} {c c' : KVCache} {r r' : RequestState} {t : DecodeStepTrace}
    (hi : Inv c) (hres : Resident c r) (h : AllHit c)
    (hrun : rt.decodeProcess idx c r = (.ok (r', t), c')) : AllHit c' := by
  obtain ⟨ready, reads, spec, committed, prepared, grown, hst⟩ := decodeProcess_ok hrun
  have htaken : Resident c (taken idx r) := hres.congr rfl rfl rfl
  obtain ⟨-, -, hprepared⟩ := prepare_moves hi htaken hst.prepare
  obtain ⟨c₁, hre, -, rfl⟩ := prepare_ok hst.prepare
  have hpin := h.of_closed fun hP hc => rt.reads_closed hP reads.pageIds hc hre
  have htouch := hpin.touchPages reads.pageIds fun pid hp => by
    obtain ⟨page, hpage, -⟩ := hprepared.pinned pid hp
    rw [touchPages_pages] at hpage
    exact Dict.mem_keys_of_get? hpage
  exact htouch.of_closed fun hP hc => rest_closed hP hc hst.commit hst.settle

/-- A decode step accesses the pages of its trace. -/
theorem decode_accesses {idx : Nat} {c c' : KVCache} {r r' : RequestState} {t : DecodeStepTrace}
    (hrun : rt.decodeProcess idx c r = (.ok (r', t), c')) :
    c'.accessCount = c.accessCount + t.selectedKvPageIds.length := by
  obtain ⟨ready, reads, spec, committed, prepared, grown, hst⟩ := decodeProcess_ok hrun
  obtain ⟨c₁, hre, -, rfl⟩ := prepare_ok hst.prepare
  rw [accessCount_of_closed fun hP hc => rest_closed hP hc hst.commit hst.settle,
    touchPages_accessCount,
    accessCount_of_closed fun hP hc => rt.reads_closed hP reads.pageIds hc hre, hst.trace]
  rfl

/-- The runtime never touches a page that is gone: in every state of a run every access has been a
hit, so the hit rate that the benchmark reports is one as soon as a page has been touched. -/
theorem runtime_hit_rate {requests : List RequestState} (hfresh : ∀ r ∈ requests, r.Fresh)
    {rnd : ℚ → ℚ} (hone : rnd 1 = 1) {s : RuntimeState}
    (hs : Reaches rt.workers.step (rt.start requests) s) (hn : ¬ Workers.Raised s) :
    s.cache.hitCount = s.cache.accessCount ∧
      (s.cache.residencyReport rnd).hitRate = if s.cache.accessCount = 0 then 0 else 1 := by
  have hall : AllHit s.cache := by
    refine (Workers.invariant_or_raised (Q := fun u : RuntimeState => AllHit u.cache) hs rfl
      fun u v hu h hstep => ?_).resolve_right hn
    have htidy := (tidy_run hfresh hu).resolve_right (Workers.not_raised_of_step hstep)
    cases rt.workers.step_effect hstep with
    | silent cache _ _ _ => exact Or.inl (cache ▸ h)
    | prefilled i r r' rest _ _ run _ _ _ => exact Or.inl (prefill_allHit htidy.inv h run)
    | decoded i r r' trace rest _ bag run _ _ _ =>
      have hres := htidy.resident r (bag ▸ Multiset.mem_cons_self r rest)
      exact Or.inl (decode_allHit htidy.inv hres h run)
    | finished r traces _ _ cache _ _ =>
      refine Or.inl (cache ▸ h.of_closed fun hP hc => ?_)
      exact hP.releaseRequest _ hc
    | failed e control _ _ => exact Or.inr ⟨e, control⟩
  refine ⟨hall, ?_⟩
  simp only [residencyReport]
  split
  · rfl
  · next hne =>
    have hpos : (s.cache.accessCount : ℚ) ≠ 0 := by exact_mod_cast hne
    rw [hall, div_self hpos, hone]

/-- After the prefill of a request all its touches have hit. -/
theorem first_touches_hit :
    let rt : PersistentDecodeRuntime := { config := { pageSize := 1 } }
    ∃ s, Reaches rt.workers.step (rt.start [.ask 1 [5] [7, 8]]) s ∧
      (s.cache.residencyReport id).hitRate = 1 := by
  intro rt
  have hs := Runs.reaches_runFor rt.workers.step 4 (rt.start [.ask 1 [5] [7, 8]])
  have hok : ¬ Workers.Raised (Runs.runFor rt.workers.step 4 (rt.start [.ask 1 [5] [7, 8]])) := by
    have hnext : (rt.workers.step (Runs.runFor rt.workers.step 4
        (rt.start [.ask 1 [5] [7, 8]]))).isSome = true := by decide +kernel
    obtain ⟨s', hstep⟩ := Option.isSome_iff_exists.mp hnext
    exact Workers.not_raised_of_step hstep
  have hsome : (Runs.runFor rt.workers.step 4 (rt.start [.ask 1 [5] [7, 8]])).cache.accessCount ≠ 0 :=
    by decide +kernel
  have hfresh : ∀ r ∈ [RequestState.ask 1 [5] [7, 8]], r.Fresh := by decide
  refine ⟨_, hs, ?_⟩
  rw [(runtime_hit_rate hfresh rfl hs hok).2, if_neg hsome]

end PersistentDecodeRuntime
end ResidentInference

import ResidentInference.SerialOutput

/-! Serial decoding and speculation over whole runs: what a serial run returns, and exactly when
a speculative run over the same requests returns the same. -/
namespace ResidentInference
open StateTransition

def DecodeResult.output (b : DecodeResult) : Int × List Int := (b.requestId, b.committedTokens)

namespace PersistentDecodeRuntime
variable {rt : PersistentDecodeRuntime}

/-- At every decode step of the run that a request is next for, its block stops at its EOS. -/
def RunStopsAtEos (rt : PersistentDecodeRuntime) (requests : List RequestState) : Prop :=
  ∀ s r, Reaches rt.workers.step (rt.start requests) s → s.nextDecode = some r → rt.StopsAtEos r

/-- The steps of a run that stops can be checked one by one. -/
theorem runStopsAtEos_of_runFor {requests : List RequestState} {n : Nat}
    (hstop : (rt.workers.step (Runs.runFor rt.workers.step n (rt.start requests))).isNone = true)
    (hall : ∀ k < n + 1, ∀ r ∈ (Runs.runFor rt.workers.step k (rt.start requests)).nextDecode,
      rt.StopsAtEos r) : rt.RunStopsAtEos requests := by
  intro s r hs hnext
  obtain ⟨k, hk, rfl⟩ := Runs.exists_runFor (Option.isNone_iff_eq_none.mp hstop) hs
  exact hall k (Nat.lt_succ_of_le hk) r hnext

/-- The serial outputs in ascending order of the ids. -/
def serialOutputs (rt : PersistentDecodeRuntime) (requests : List RequestState) :
    List (Int × List Int) :=
  (requests.insertionSort fun a b => a.requestId ≤ b.requestId).map fun r =>
    (r.requestId, r.serialOutput rt.config.eosTokenId)

theorem serialOutputs_ids (rt : PersistentDecodeRuntime) (requests : List RequestState) :
    (rt.serialOutputs requests).map Prod.fst =
      (requests.map RequestState.requestId).insertionSort (· ≤ ·) := by
  rw [serialOutputs, List.map_map]
  exact List.map_insertionSort _ _ RequestState.requestId requests fun _ _ _ _ => Iff.rfl

/-- A request in flight stems from a submitted one and may draft blocks. -/
def Submitted (rt : PersistentDecodeRuntime) (requests : List RequestState)
    (P : RequestState → RequestState → Prop) (r : RequestState) : Prop :=
  ∃ r₀ ∈ requests, P r₀ r ∧ 1 ≤ rt.effectiveBlockSize r

theorem onTrack_submit (rt : PersistentDecodeRuntime) {r : RequestState} (h : r.Fresh) :
    OnTrack rt.config.eosTokenId r (rt.submit r) := by
  have htok := rt.submit_tokens r
  refine OnTrack.of_tokens (r := r) ⟨⟨rfl, rfl, rfl, rfl, rfl⟩, fun _ => ?_, fun hf => ?_⟩ htok
  · rw [h.committed]
    exact ⟨List.nil_prefix, List.not_mem_nil, Or.inl rfl⟩
  · rw [h.unfinished] at hf
    cases hf

/-- In a run whose steps all stop at the EOS every request stays on its serial track. -/
theorem onTrack_run (hv : rt.ValidBlocks) {requests : List RequestState}
    (hfresh : ∀ r ∈ requests, r.Fresh) (hstop : rt.RunStopsAtEos requests)
    {t : RuntimeState} (ht : Reaches rt.workers.step (rt.start requests) t) :
    rt.workers.Holds (rt.Submitted requests (OnTrack rt.config.eosTokenId)) t ∨
      Workers.Raised t := by
  refine rt.workers_lawful.holds ?_ ?_ ?_ ht
  · intro r hr
    refine ⟨submit_unfinished hfresh r hr, ?_⟩
    obtain ⟨r₀, hr₀, rfl⟩ := List.mem_map.mp hr
    exact ⟨r₀, hr₀, onTrack_submit rt (hfresh r₀ hr₀), submit_blockSize hv r₀⟩
  · intro s i r r' c' _ _ hP hrun
    obtain ⟨r₀, hr₀, htrack, hb⟩ := hP
    exact ⟨r₀, hr₀, htrack.of_tokens (prefill_tokens hrun).1, prefill_blockSize hrun ▸ hb⟩
  · intro s i r r' trace c' hs hnext hf hP hrun
    obtain ⟨r₀, hr₀, htrack, hb⟩ := hP
    obtain ⟨spec, hblock⟩ := decode_block hv hb hrun
    have hadv := htrack.advance hf hb hblock.accepted hblock.single (hstop s r hs hnext)
    exact ⟨r₀, hr₀, hadv.of_tokens hblock.tokens, hblock.blockSize⟩

/-- A run whose steps all stop at the EOS returns the serial outputs. -/
theorem Returns.serialOutputs (hv : rt.ValidBlocks) {requests : List RequestState}
    (hf : FreshRequests requests) (hstop : rt.RunStopsAtEos requests)
    {results : List DecodeResult} (h : rt.Returns requests results) :
    results.map DecodeResult.output = rt.serialOutputs requests := by
  obtain ⟨t, ht, hc, _, hres, hids⟩ := h.ended hf.fresh
  have hholds := (onTrack_run hv hf.fresh hstop (mem_eval.mp ht).1).resolve_right
    (Workers.not_raised_of_returned hc)
  refine eq_of_keys ?_ ?_ ?_
  · rw [serialOutputs_ids, ← hids, List.map_map]
    rfl
  · rw [serialOutputs_ids, (List.perm_insertionSort _ _).nodup_iff]
    exact hf.distinct
  · intro p hp
    obtain ⟨b, hb, rfl⟩ := List.mem_map.mp hp
    rw [hres, Workers.sortResults, List.mem_insertionSort] at hb
    obtain ⟨r, traces, ⟨r₀, hr₀, htrack, _⟩, hfin, rfl⟩ := hholds.results b hb
    refine List.mem_map.mpr ⟨r₀, (List.mem_insertionSort _).mpr hr₀, ?_⟩
    rw [← htrack.output hfin, ← htrack.decodes.requestId]
    rfl

/-! ### A block that passes an EOS -/

/-- The request stems from `r₀` and has committed tokens past an EOS. -/
def PassedEos (r₀ r : RequestState) : Prop :=
  Decodes r₀ r ∧ r₀.eosTokenId ∈ r.committedTokens.dropLast

theorem PassedEos.of_tokens {r₀ r r' : RequestState} (h : PassedEos r₀ r)
    (ht : r'.tokens = r.tokens) : PassedEos r₀ r' := by
  refine ⟨h.1.of_tokens ht, ?_⟩
  rw [RequestState.committed_eq ht]
  exact h.2

theorem mem_dropLast_append {a : Int} {l : List Int} (h : a ∈ l.dropLast) (l' : List Int) :
    a ∈ (l ++ l').dropLast := by
  by_cases hnil : l' = []
  · rw [hnil, List.append_nil]
    exact h
  · rw [List.dropLast_append_of_ne_nil hnil]
    exact List.mem_append_left _ (List.mem_of_mem_dropLast h)

theorem PassedEos.decode {r₀ r r' : RequestState} {idx : Nat} {c c' : KVCache}
    {t : DecodeStepTrace} (h : PassedEos r₀ r)
    (hrun : rt.decodeProcess idx c r = (.ok (r', t), c')) : PassedEos r₀ r' := by
  obtain ⟨spec, _, htok, _⟩ := decode_tokens hrun
  have hadv : PassedEos r₀ (r.advance spec) :=
    ⟨h.1.advance spec, mem_dropLast_append h.2 spec.accepted⟩
  exact hadv.of_tokens htok

/-- A step whose block passes an EOS leaves a request that has passed it. -/
theorem passedEos_of_block (hv : rt.ValidBlocks) {r₀ r r' : RequestState} {idx : Nat}
    {c c' : KVCache} {t : DecodeStepTrace} (hd : Decodes r₀ r)
    (hb : 1 ≤ rt.effectiveBlockSize r) (hpass : ¬ rt.StopsAtEos r)
    (hrun : rt.decodeProcess idx c r = (.ok (r', t), c')) : PassedEos r₀ r' := by
  obtain ⟨spec, hblock⟩ := decode_block hv hb hrun
  have hmem : r.eosTokenId ∈ (rt.block r).dropLast := not_not.mp hpass
  have hne : rt.block r ≠ [] := by
    intro hnil
    rw [hnil] at hmem
    cases hmem
  refine PassedEos.of_tokens (r := r.advance spec) ⟨hd.advance spec, ?_⟩ hblock.tokens
  change r₀.eosTokenId ∈ (r.committedTokens ++ spec.accepted).dropLast
  rw [hblock.accepted, List.dropLast_append_of_ne_nil hne, ← hd.eosTokenId]
  exact List.mem_append_right _ hmem

/-- Where a request comes from does not depend on what its blocks hold. -/
theorem decodes_run (hv : rt.ValidBlocks) {requests : List RequestState}
    (hfresh : ∀ r ∈ requests, r.Fresh) {t : RuntimeState}
    (ht : Reaches rt.workers.step (rt.start requests) t) :
    rt.workers.Holds (rt.Submitted requests Decodes) t ∨ Workers.Raised t := by
  refine rt.workers_lawful.holds ?_ ?_ ?_ ht
  · intro r hr
    refine ⟨submit_unfinished hfresh r hr, ?_⟩
    obtain ⟨r₀, hr₀, rfl⟩ := List.mem_map.mp hr
    exact ⟨r₀, hr₀, (onTrack_submit rt (hfresh r₀ hr₀)).decodes, submit_blockSize hv r₀⟩
  · intro s i r r' c' _ _ hP hrun
    obtain ⟨r₀, hr₀, hd, hb⟩ := hP
    exact ⟨r₀, hr₀, hd.of_tokens (prefill_tokens hrun).1, prefill_blockSize hrun ▸ hb⟩
  · intro s i r r' trace c' _ _ _ hP hrun
    obtain ⟨r₀, hr₀, hd, hb⟩ := hP
    obtain ⟨spec, hblock⟩ := decode_block hv hb hrun
    exact ⟨r₀, hr₀, (hd.advance spec).of_tokens hblock.tokens, hblock.blockSize⟩

/-- A run that returns although some step passed an EOS has a result that is no serial output. -/
theorem Returns.passedEos (hv : rt.ValidBlocks) {requests : List RequestState}
    (hf : FreshRequests requests) {results : List DecodeResult} (h : rt.Returns requests results)
    {s : RuntimeState} {r : RequestState}
    (hs : Reaches rt.workers.step (rt.start requests) s) (hnext : s.nextDecode = some r)
    (hpass : ¬ rt.StopsAtEos r) :
    ∃ r₀ ∈ requests, ∃ b ∈ results,
      b.requestId = r₀.requestId ∧ r₀.eosTokenId ∈ b.committedTokens.dropLast := by
  obtain ⟨t, ht, hc, hbag, hres, _⟩ := h.ended hf.fresh
  have hn := Workers.not_raised_of_returned hc
  obtain ⟨s', hstep, hcases⟩ := rt.workers.step_nextDecode hnext
  have hs' : Reaches rt.workers.step s' t := Runs.reaches_last ht (hs.tail hstep)
  have hok : ¬ Workers.Raised s' := by
    intro hr
    obtain ⟨e, he⟩ := hr
    have hstop := Workers.step_raised (w := rt.workers) he
    cases hs'.cases_head with
    | inl heq => exact hn (heq ▸ ⟨e, he⟩)
    | inr hex =>
      obtain ⟨u, hu, _⟩ := hex
      rw [Option.mem_def, hstop] at hu
      cases hu
  obtain ⟨i, r', trace, rest, hb, hrun, hb'⟩ := hcases.resolve_left hok
  have hholds := (decodes_run hv hf.fresh hs).resolve_right (Workers.not_raised_of_step hstep)
  obtain ⟨r₀, hr₀, hd, hsize⟩ := hholds.bag r (hb ▸ Multiset.mem_cons_self r rest)
  have hocc : rt.workers.Occurs (PassedEos r₀) s' :=
    Or.inl ⟨r', hb' ▸ Multiset.mem_cons_self r' rest, passedEos_of_block hv hd hsize hpass hrun⟩
  have hend := (hocc.run hs' (fun hQ hp => hQ.of_tokens (prefill_tokens hp).1)
    fun hQ hp => hQ.decode hp).resolve_right hn
  cases hend with
  | inl hmem =>
    obtain ⟨q, hq, _⟩ := hmem
    rw [hbag] at hq
    cases Multiset.notMem_zero q hq
  | inr hmem =>
    obtain ⟨b, hbmem, q, traces, hQ, rfl⟩ := hmem
    refine ⟨r₀, hr₀, rt.workers.buildResult q traces, ?_, hQ.1.requestId, hQ.2⟩
    rw [hres, Workers.sortResults, List.mem_insertionSort]
    exact hbmem

/-! ### The two runs -/

/-- A runtime that decodes serially, and one that may speculate with any blocks, under any
policies and over any cache; both propose the same EOS. -/
structure SerialAndFast (serial fast : PersistentDecodeRuntime) : Prop where
  serialBlock : serial.config.blockSize = 1
  serialFixed : serial.adaptivePolicy = none
  fastBlocks : fast.ValidBlocks
  eosTokenId : fast.config.eosTokenId = serial.config.eosTokenId

variable {serial fast : PersistentDecodeRuntime}

theorem SerialAndFast.serialBlocks (h : SerialAndFast serial fast) : serial.ValidBlocks := by
  refine ⟨h.serialBlock.ge, fun policy hp => ?_⟩
  rw [h.serialFixed] at hp
  cases hp

theorem SerialAndFast.serial_stops (h : SerialAndFast serial fast)
    (requests : List RequestState) : serial.RunStopsAtEos requests := by
  intro s r _ _ hmem
  have hsize : serial.effectiveBlockSize r = 1 :=
    (effectiveBlockSize_fixed h.serialFixed r).trans h.serialBlock
  have hw : serial.width r 1 ≤ 1 := by
    by_cases hd : r.draftable = 0
    · exact serial.width_le_one hd 1
    · rw [width, if_neg hd]
      exact (AcceptancePolicy.width_le _ _ _).trans (min_le_left _ _)
  have hlen : (serial.block r).length ≤ 1 := by
    rw [block, hsize, List.length_take]
    exact (min_le_left _ _).trans hw
  have hpos := List.length_pos_of_mem hmem
  rw [List.length_dropLast] at hpos
  omega

/-- Speculation leaves the output unchanged exactly when no block passes an EOS. -/
theorem outputs_agree_iff (h : SerialAndFast serial fast) {requests : List RequestState}
    (hf : FreshRequests requests) {results results' : List DecodeResult}
    (hr : serial.Returns requests results) (hr' : fast.Returns requests results') :
    results.map DecodeResult.output = results'.map DecodeResult.output ↔
      fast.RunStopsAtEos requests := by
  have hserial := hr.serialOutputs h.serialBlocks hf (h.serial_stops requests)
  constructor
  · intro heq s r hs hnext
    by_contra hpass
    obtain ⟨r₀, hr₀, b, hb, hid, hmem⟩ := hr'.passedEos h.fastBlocks hf hs hnext hpass
    have hout : b.output ∈ serial.serialOutputs requests := by
      rw [← hserial, heq]
      exact List.mem_map_of_mem hb
    obtain ⟨r₁, hr₁, hbeq⟩ := List.mem_map.mp hout
    have hr₁' : r₁ ∈ requests := (List.mem_insertionSort _).mp hr₁
    have hsame : r₁ = r₀ := by
      refine List.inj_on_of_nodup_map hf.distinct hr₁' hr₀ ?_
      rw [← hid]
      exact congrArg Prod.fst hbeq
    have hcommitted : b.committedTokens = r₀.serialOutput serial.config.eosTokenId := by
      rw [← hsame]
      exact (congrArg Prod.snd hbeq).symm
    rw [hcommitted] at hmem
    exact r₀.not_mem_serialOutput_dropLast _ hmem
  · intro hstop
    rw [hserial, hr'.serialOutputs h.fastBlocks hf hstop]
    unfold serialOutputs
    rw [h.eosTokenId]

/-- The block of three runs over the EOS, which the serial run stops at. -/
theorem speculation_passes_eos :
    ∃ results results',
      Returns { config := { blockSize := 1 } } [.ask 1 [1] [10, 0, 20]] results ∧
      Returns { config := { blockSize := 3 } } [.ask 1 [1] [10, 0, 20]] results' ∧
      results.map DecodeResult.output ≠ results'.map DecodeResult.output := by
  obtain ⟨results, h, hout⟩ := Option.map_eq_some_iff.mp
    (by decide +kernel : (runFor { config := { blockSize := 1 } } [.ask 1 [1] [10, 0, 20]] 40).map
      (List.map DecodeResult.output) = some [(1, [10, 0])])
  obtain ⟨results', h', hout'⟩ := Option.map_eq_some_iff.mp
    (by decide +kernel : (runFor { config := { blockSize := 3 } } [.ask 1 [1] [10, 0, 20]] 40).map
      (List.map DecodeResult.output) = some [(1, [10, 0, 20])])
  refine ⟨results, results', returns_of_runFor _ h, returns_of_runFor _ h', ?_⟩
  rw [hout, hout']
  decide

/-- The blocks of three stop at the EOS that ends the target. -/
theorem speculation_agrees_on_two_requests :
    ∃ results results',
      Returns { config := { blockSize := 1 } } [.ask 2 [1] [10, 11, 0], .ask 1 [3] [12]] results ∧
      Returns { config := { blockSize := 3 } } [.ask 2 [1] [10, 11, 0], .ask 1 [3] [12]]
        results' ∧
      results.map DecodeResult.output = results'.map DecodeResult.output := by
  obtain ⟨results, h⟩ := Option.isSome_iff_exists.mp
    (by decide +kernel : (runFor { config := { blockSize := 1 } }
      [.ask 2 [1] [10, 11, 0], .ask 1 [3] [12]] 60).isSome = true)
  obtain ⟨results', h'⟩ := Option.isSome_iff_exists.mp
    (by decide +kernel : (runFor { config := { blockSize := 3 } }
      [.ask 2 [1] [10, 11, 0], .ask 1 [3] [12]] 60).isSome = true)
  have hr := returns_of_runFor _ h
  have hr' := returns_of_runFor _ h'
  have hboth : SerialAndFast { config := { blockSize := 1 } } { config := { blockSize := 3 } } :=
    ⟨rfl, rfl, by decide, rfl⟩
  have hstops : RunStopsAtEos { config := { blockSize := 3 } }
      [.ask 2 [1] [10, 11, 0], .ask 1 [3] [12]] :=
    runStopsAtEos_of_runFor (n := 20) (by decide +kernel) (by decide +kernel)
  exact ⟨results, results', hr, hr', (outputs_agree_iff hboth (by decide) hr hr').mpr hstops⟩

end PersistentDecodeRuntime
end ResidentInference

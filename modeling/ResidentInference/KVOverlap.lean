import ResidentInference.KVCapacity
import ResidentInference.KVCoverage
import ResidentInference.KVHeadroom

/-! Two pages of one layer that hold a common position: an allocation starts its new pages behind
as many full pages as the layer has left, wherever these lie. -/
namespace ResidentInference
namespace KVCache
variable {c c' : KVCache}

/-- No two live pages of one request and layer hold a common position. -/
def NoSharedPosition (c : KVCache) : Prop :=
  ∀ pid page pid' page', c.pages.get? pid = some page → c.pages.get? pid' = some page' →
    pid ≠ pid' → page'.key = page.key →
      ∀ p, page.tokenStart ≤ p → p < page.tokenStart + page.tokenCount →
        ¬ (page'.tokenStart ≤ p ∧ p < page'.tokenStart + page'.tokenCount)

theorem nodup_intRange (a b : Int) : (intRange a b).Nodup :=
  List.nodup_range.map fun i j hij => by simpa using hij

theorem mem_pagePositions {pid : Nat} {page : KVPage} (hp : c.pages.get? pid = some page)
    {p : Int} :
    p ∈ c.pagePositions pid ↔ page.tokenStart ≤ p ∧ p < page.tokenStart + page.tokenCount := by
  simp only [pagePositions, hp, mem_intRange]

theorem nodup_pagePositions (c : KVCache) (pid : Nat) : (c.pagePositions pid).Nodup := by
  unfold pagePositions
  split
  · exact List.nodup_nil
  · exact nodup_intRange _ _

/-- The positions that a layer lists are distinct when no two of its pages share one. -/
theorem Rep.noSharedPosition_iff (h : Inv c) :
    NoSharedPosition c ↔ ∀ key, (c.positionsIn key).Nodup := by
  have hsymm : Std.Symm (Function.onFun List.Disjoint c.pagePositions) := ⟨fun _ _ hd => hd.symm⟩
  constructor
  · intro hno key
    rw [positionsIn, List.nodup_flatMap]
    refine ⟨fun pid _ => c.nodup_pagePositions pid, ?_⟩
    refine (h.linked.nodup key).imp_of_mem fun {pid pid'} hm hm' hne p hp hp' => ?_
    obtain ⟨page, hpage, hkey⟩ := h.mem_pageIdsFor.mp hm
    obtain ⟨page', hpage', hkey'⟩ := h.mem_pageIdsFor.mp hm'
    obtain ⟨hge, hlt⟩ := (mem_pagePositions hpage).mp hp
    exact hno pid page pid' page' hpage hpage' hne (hkey'.trans hkey.symm) p hge hlt
      ((mem_pagePositions hpage').mp hp')
  · intro hnodup pid page pid' page' hpage hpage' hne hkey p hge hlt hp'
    have hm : pid ∈ c.pageIdsFor page.key := h.mem_pageIdsFor.mpr ⟨page, hpage, rfl⟩
    have hm' : pid' ∈ c.pageIdsFor page.key := h.mem_pageIdsFor.mpr ⟨page', hpage', hkey⟩
    have hdisjoint := (List.nodup_flatMap.mp (hnodup page.key)).2.forall hm hm' hne
    exact hdisjoint ((mem_pagePositions hpage).mpr ⟨hge, hlt⟩) ((mem_pagePositions hpage').mpr hp')

/-- A cache that only lost pages keeps its positions apart. -/
theorem Evolves.noSharedPosition {grow : Int → Prop} (he : Evolves grow c c')
    (hg : ∀ r, ¬ grow r) (hno : NoSharedPosition c) : NoSharedPosition c' := by
  intro pid page pid' page' hpage hpage' hne hkey
  obtain ⟨old, hold, hs⟩ := (he.page pid page hpage).resolve_right fun hn => hg _ hn.2
  obtain ⟨old', hold', hs'⟩ := (he.page pid' page' hpage').resolve_right fun hn => hg _ hn.2
  rw [hs.tokenStart, hs.tokenCount, hs'.tokenStart, hs'.tokenCount]
  exact hno pid old pid' old' hold hold' hne (hs'.key.symm.trans (hkey.trans hs.key))

/-- The cache that an allocation of the request places its pages in: the pages that it evicts to
make room are gone. -/
def cleared (c : KVCache) (r : RequestState) (total : Int) : KVCache :=
  c.evictAll (c.victims (c.neededPages r total - c.freePages))

/-- If the allocation fits, no page that a layer has left holds a position from its first new page
on. -/
def PlacesApart (c : KVCache) (r : RequestState) (total : Int) : Prop :=
  c.neededPages r total ≤ (c.cleared r total).freePages → ∀ l ∈ r.layerIds,
    ∀ p ∈ (c.cleared r total).positionsIn (r.requestId, l),
      ((c.cleared r total).pageIdsFor (r.requestId, l)).length * c.pageSize ≤ p → total ≤ p

theorem allocateLayers_noSharedPosition_iff (h : Inv c) (hps : 0 < c.pageSize) (r : RequestState)
    (total : Int) (pinned : Bool) (hno : NoSharedPosition c) :
    NoSharedPosition (allocateLayers r.requestId total pinned r.layerIds c Dict.empty).1 ↔
      ∀ l ∈ r.layerIds, ∀ p ∈ c.positionsIn (r.requestId, l),
        (c.pageIdsFor (r.requestId, l)).length * c.pageSize ≤ p → total ≤ p := by
  have h' := h.allocateLayers r.requestId total pinned r.layerIds Dict.empty
  have hlayer := fun l => (allocateLayers_layer h hps r total pinned r.layerIds Dict.empty l).1
  rw [h'.noSharedPosition_iff]
  rw [h.noSharedPosition_iff] at hno
  constructor
  · intro hnodup l hl p hp hge
    have hn := hnodup (r.requestId, l)
    rw [hlayer, if_pos hl, List.nodup_append] at hn
    by_contra hlt
    exact hn.2.2 p hp p (mem_intRange.mpr ⟨hge, not_le.mp hlt⟩) rfl
  · intro hapart key
    by_cases hkey : key.1 = r.requestId
    · obtain ⟨rid, l⟩ := key
      obtain rfl : rid = r.requestId := hkey
      rw [hlayer]
      by_cases hl : l ∈ r.layerIds
      · rw [if_pos hl, List.nodup_append]
        refine ⟨hno _, nodup_intRange _ _, ?_⟩
        rintro p hp q hq rfl
        obtain ⟨hge, hlt⟩ := mem_intRange.mp hq
        exact absurd (hapart l hl p hp hge) (not_le.mpr hlt)
      · rw [if_neg hl, List.append_nil]
        exact hno _
    · have he : Evolves (fun rid => rid = r.requestId) c
          (allocateLayers r.requestId total pinned r.layerIds c Dict.empty).1 := by
        apply evolves_allocateLayers
        rfl
      have hlive := (retains_allocateLayers r.requestId total pinned r.layerIds c Dict.empty).live
      rw [he.positionsIn_eq h h' hkey fun pid hp => hlive (h.owned_of_listed hp).live]
      exact hno key

/-- Without a positive page size there is no page at all. -/
theorem Rep.no_page (h : Inv c) (hps : ¬ 0 < c.pageSize) (pid : Nat) :
    c.pages.get? pid = none := by
  cases hp : c.pages.get? pid with
  | none => rfl
  | some page => exact absurd (h.sound.size pid page hp) hps

theorem noSharedPosition_of_no_page (h : ∀ pid, c.pages.get? pid = none) : NoSharedPosition c := by
  intro pid page _ _ hp
  rw [h pid] at hp
  cases hp

theorem allocateForRequest_noSharedPosition_iff (h : Inv c) (r : RequestState) (total : Int)
    (pinned : Bool) (hno : NoSharedPosition c) :
    NoSharedPosition (c.allocateForRequest r total pinned).2 ↔ c.PlacesApart r total := by
  have hcleared : Inv (c.cleared r total) := h.evictAll _
  have heclear : Evolves (fun _ => False) c (c.cleared r total) := c.evolves_evictAll _
  by_cases hps : 0 < c.pageSize
  · have hnoc : NoSharedPosition (c.cleared r total) := heclear.noSharedPosition (fun _ => id) hno
    have hsize := heclear.pageSize
    have hiff := allocateLayers_noSharedPosition_iff hcleared (hsize.symm ▸ hps) r total pinned hnoc
    rw [hsize] at hiff
    rw [allocateForRequest_eq hps]
    unfold PlacesApart
    unfold cleared at *
    dsimp only
    split
    · next hfull => exact ⟨fun _ hfits => absurd hfits (not_le.mpr hfull), fun _ => hnoc⟩
    · next hfits => exact hiff.trans ⟨fun hall _ => hall, fun hall => hall (not_lt.mp hfits)⟩
  · have hresult := h.allocateForRequest r total pinned
    have hsize := (evolves_allocateForRequest c r total pinned).pageSize
    refine iff_of_true (noSharedPosition_of_no_page (hresult.no_page (hsize.symm ▸ hps))) ?_
    intro _ l _ p hp
    obtain ⟨pid, hpid, _⟩ := List.mem_flatMap.mp hp
    obtain ⟨page, hpage, _⟩ := hcleared.mem_pageIdsFor.mp hpid
    rw [hcleared.no_page (heclear.pageSize.symm ▸ hps)] at hpage
    cases hpage

theorem updateListed_noSharedPosition_iff (h : Inv c) {f : KVPage → KVPage} (hf : Retag f)
    (rid : Int) (layers : List Int) :
    NoSharedPosition (updateListed f c rid layers) ↔ NoSharedPosition c := by
  rw [(h.updateListed hf rid layers).noSharedPosition_iff, h.noSharedPosition_iff]
  exact forall_congr' fun key => by rw [(updateListed_layerSame h hf rid layers key).positions]

end KVCache

/-- An allocating call places its pages where its request holds no position. -/
def KVOp.PlacesApart (c : KVCache) (op : KVOp) : Prop :=
  ∀ r total, op.growth = some (r, total) → c.PlacesApart r total

namespace KVCache
variable {c : KVCache}

theorem apply_noSharedPosition_iff (h : Inv c) (hno : NoSharedPosition c) (op : KVOp) :
    NoSharedPosition (op.apply c).2 ↔ op.PlacesApart c := by
  cases hg : op.growth with
  | none =>
    have hnone : ∀ r, ¬ op.grows r := by
      rintro r ⟨r', total, hg', _⟩
      rw [hg] at hg'
      cases hg'
    refine iff_of_true ((c.evolves_apply op).noSharedPosition hnone hno) ?_
    intro r total hg'
    rw [hg] at hg'
    cases hg'
  | some p =>
    obtain ⟨r, total⟩ := p
    obtain ⟨pinned, f, layers, hf, happ⟩ := op.apply_growth hg c
    have hplaces : op.PlacesApart c ↔ c.PlacesApart r total := by
      refine ⟨fun hall => hall r total hg, fun hall r' total' hg' => ?_⟩
      obtain ⟨rfl, rfl⟩ := Prod.mk.inj (Option.some.inj (hg.symm.trans hg'))
      exact hall
    have hallocate := allocateForRequest_noSharedPosition_iff h r total pinned hno
    have hinv := h.allocateForRequest r total pinned
    rw [hplaces, ← hallocate, happ]
    generalize c.allocateForRequest r total pinned = result at hinv
    obtain ⟨e | m, c'⟩ := result
    · exact Iff.rfl
    · exact updateListed_noSharedPosition_iff hinv hf r.requestId layers

/-- The pages of a layer stay apart throughout a sequence of calls exactly if every call of it
places its new pages apart from those that the layer has left. -/
theorem noSharedPosition_iff_placesApart (pageSize maxPages : Int) (config : Option RuntimeConfig)
    (ops : List KVOp) :
    (∀ n : Nat, NoSharedPosition ((new pageSize maxPages config).runOps (ops.take n))) ↔
      ∀ (n : Nat) (op : KVOp), ops[n]? = some op →
        op.PlacesApart ((new pageSize maxPages config).runOps (ops.take n)) := by
  have hinv := fun n => inv_runOps pageSize maxPages config (ops.take n)
  constructor
  · intro hall n op hop
    have hnext := hall (n+1)
    rw [runOps_take_succ _ hop] at hnext
    exact (apply_noSharedPosition_iff (hinv n) (hall n) op).mp hnext
  · intro hall n
    induction n with
    | zero => exact noSharedPosition_of_no_page fun _ => rfl
    | succ n ih =>
      cases hop : ops[n]? with
      | none => simpa only [List.take_add_one, hop, Option.toList_none, List.append_nil] using ih
      | some op =>
        rw [runOps_take_succ _ hop]
        exact (apply_noSharedPosition_iff (hinv n) ih op).mpr (hall n op hop)

/-- With the first of two pages evicted, the page that makes up for it starts where the second one
starts. -/
theorem regrowth_shares_positions :
    ¬ ∀ (pageSize maxPages : Int) (config : Option RuntimeConfig) (ops : List KVOp),
      NoSharedPosition ((new pageSize maxPages config).runOps ops) := by
  intro h
  let r : RequestState :=
    { requestId := 1, promptTokens := [], targetTokens := [], maxNewTokens := 8, eosTokenId := 0 }
  let c := (new 4 8 none).runOps
    [.allocateForRequest r 8 false, .evictLru 1, .allocateForRequest r 8 false]
  let page : Nat → KVPage := fun pid =>
    { pageId := pid, requestId := 1, layerId := 0, tokenStart := 4, tokenCount := 4 }
  have hold : c.pages.get? 1 = some (page 1) := by decide
  have hnew : c.pages.get? 2 = some (page 2) := by decide
  exact h 4 8 none _ 1 _ 2 _ hold hnew (by decide) rfl 4 (by decide) (by decide) (by decide)

end KVCache
end ResidentInference

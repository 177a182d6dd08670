import ResidentInference.KVFrame
import ResidentInference.KVAllocation

/-! Which token positions the pages of a request cover when it grows call by call. A page keeps
the tokens it was made for, and a new page starts at a multiple of the page size, so a layer is
covered without a gap exactly as long as it only grows past full pages. -/
namespace ResidentInference.KVCache
variable {c c' : KVCache}

/-- The positions that the pages of one layer cover, in the order of the page table. -/
def positionsIn (c : KVCache) (key : Int × Int) : List Int :=
  (c.pageIdsFor key).flatMap c.pagePositions

/-- The bytes that the pages of one layer contribute to the live bytes. -/
def layerBytes (c : KVCache) (key : Int × Int) : Int :=
  ((c.pageIdsFor key).map fun pid => ((c.pages.get? pid).map c.pageBytes).getD 0).sum

/-! ### What an allocation adds to a layer -/

theorem pagePositions_congr {pid : Nat} (h : c'.pages.get? pid = c.pages.get? pid) :
    c'.pagePositions pid = c.pagePositions pid := by
  rw [pagePositions, pagePositions, h]

/-- The new pages cover the missing positions, each of them once and in order. -/
theorem allocatePages_positions (r l total : Int) (pinned : Bool) (n : Nat) (start : Int)
    (c : KVCache) (ids : List Nat) (hps : 0 < c.pageSize)
    (hn : (n : Int) = max (ceilDiv (total - start) c.pageSize) 0) :
    (List.range' c.nextPageId n).flatMap
        (allocatePages r l total pinned n start c ids).1.pagePositions = intRange start total := by
  induction n generalizing start c ids with
  | zero =>
    have hle : ceilDiv (total - start) c.pageSize ≤ 0 := by omega
    rw [ceilDiv_le_iff hps] at hle
    rw [intRange_of_le (by omega)]
    rfl
  | succ n ih =>
    have hceil : ceilDiv (total - start) c.pageSize = n + 1 := by
      push_cast at hn
      omega
    have hpos : 0 < total - start := (ceilDiv_pos hps).mp (by omega)
    have hfirst : (allocatePages r l total pinned n (start + min c.pageSize (total - start))
        (c.allocateOnePage r l start (min c.pageSize (total - start)) pinned).2
        (ids ++ [c.nextPageId])).1.pagePositions c.nextPageId =
          intRange start (start + min c.pageSize (total - start)) := by
      rw [pagePositions, allocatePages_old _ _ _ _ _ _ _ _
        (by rw [allocateOnePage_next]; omega), allocateOnePage_get?, if_pos rfl]
    rw [List.range'_succ, List.flatMap_cons, allocatePages_succ, hfirst]
    have hrest : (n : Int) = max (ceilDiv (total - (start + min c.pageSize (total - start)))
        c.pageSize) 0 := by
      obtain hle | hle := le_total c.pageSize (total - start)
      · have he : total - (start + c.pageSize) = total - start - 1 * c.pageSize := by ring
        rw [min_eq_left hle, he, ceilDiv_sub_mul hps, hceil]
        omega
      · have he : total - (start + (total - start)) = 0 := by ring
        have hone : ceilDiv (total - start) c.pageSize ≤ 1 := by
          rw [ceilDiv_le_iff hps]
          omega
        have hz : ceilDiv 0 c.pageSize = 0 := by simp [ceilDiv]
        rw [min_eq_right hle, he, hz]
        omega
    have hi := ih (start + min c.pageSize (total - start))
      (c.allocateOnePage r l start (min c.pageSize (total - start)) pinned).2
      (ids ++ [c.nextPageId]) hps hrest
    rw [allocateOnePage_next] at hi
    rw [hi]
    apply intRange_append
    · have := le_min hps.le hpos.le
      omega
    · have := min_le_right c.pageSize (total - start)
      omega

theorem positionsIn_append {key : Int × Int} {ids fresh : List Nat}
    (hids : c'.pageIdsFor key = ids ++ fresh)
    (hold : ∀ pid ∈ ids, c'.pages.get? pid = c.pages.get? pid) :
    c'.positionsIn key = ids.flatMap c.pagePositions ++ fresh.flatMap c'.pagePositions := by
  rw [positionsIn, hids, List.flatMap_append]
  congr 1
  apply List.flatMap_congr
  intro pid hp
  exact pagePositions_congr (hold pid hp)

theorem Rep.lt_next_of_mem (h : Inv c) {key : Int × Int} {pid : Nat} (hp : pid ∈ c.pageIdsFor key) :
    pid < c.nextPageId := by
  obtain ⟨_, page, hpage, _⟩ := h.linked.live key pid hp
  exact h.linked.below pid (Dict.mem_keys_of_get? hpage)

theorem allocateLayer_positions (h : Inv c) (hps : 0 < c.pageSize) (r : RequestState)
    (total : Int) (pinned : Bool) (l l' : Int) :
    (c.allocateLayer r.requestId total pinned l).1.positionsIn (r.requestId, l') =
      c.positionsIn (r.requestId, l') ++
        if l' = l then
          intRange ((c.pageIdsFor (r.requestId, l')).length * c.pageSize) total
        else [] := by
  have hold : ∀ pid ∈ c.pageIdsFor (r.requestId, l'),
      (c.allocateLayer r.requestId total pinned l).1.pages.get? pid = c.pages.get? pid := by
    intro pid hp
    rw [allocateLayer_eq hps, allocatePages_old _ _ _ _ _ _ _ _ (h.lt_next_of_mem hp)]
  by_cases hl : l' = l
  · subst hl
    have hids : (c.allocateLayer r.requestId total pinned l').1.pageIdsFor (r.requestId, l') =
        c.pageIdsFor (r.requestId, l') ++
          List.range' c.nextPageId (c.pagesNeededForLayer r total l').toNat := by
      rw [allocateLayer_pageIdsFor hps, if_pos rfl]
    rw [positionsIn_append hids hold, if_pos rfl, allocateLayer_eq hps, allocatePages_positions]
    · rfl
    · exact hps
    · rw [ceilDiv_sub_mul hps, Int.toNat_of_nonneg (c.pagesNeededForLayer_nonneg r total l'),
        pagesNeededForLayer, requiredPages]
      by_cases ht : total ≤ 0
      · have hle : ceilDiv total c.pageSize ≤ 0 := (ceilDiv_le_iff hps).mpr (by omega)
        rw [if_pos ht]
        omega
      · rw [if_neg ht]
  · have hids : (c.allocateLayer r.requestId total pinned l).1.pageIdsFor (r.requestId, l') =
        c.pageIdsFor (r.requestId, l') ++ [] := by
      rw [allocateLayer_pageIdsFor hps, if_neg (by simp [hl]), List.append_nil]
    rw [positionsIn_append hids hold, if_neg hl]
    rfl

theorem allocateLayer_length (hps : 0 < c.pageSize) (r : RequestState) (total : Int)
    (pinned : Bool) (l l' : Int) :
    (((c.allocateLayer r.requestId total pinned l).1.pageIdsFor (r.requestId, l')).length : Int) =
      (c.pageIdsFor (r.requestId, l')).length +
        if l' = l then c.pagesNeededForLayer r total l' else 0 := by
  rw [allocateLayer_pageIdsFor hps]
  by_cases hl : l' = l
  · have hnn := c.pagesNeededForLayer_nonneg r total l
    simp only [hl, if_true, List.length_append, List.length_range']
    push_cast
    omega
  · simp [hl]

/-- A layer that already holds `total` tokens covers no further position. -/
theorem intRange_full {n total ps : Int} (hps : 0 < ps)
    (h : max ((if total ≤ 0 then 0 else ceilDiv total ps) - n) 0 = 0) (hn : 0 ≤ n) :
    intRange (n * ps) total = [] := by
  apply intRange_of_le
  by_cases ht : total ≤ 0
  · have := mul_nonneg hn hps.le
    omega
  · rw [if_neg ht] at h
    exact (ceilDiv_le_iff hps).mp (by omega)

theorem allocateLayers_layer (h : Inv c) (hps : 0 < c.pageSize) (r : RequestState) (total : Int)
    (pinned : Bool) (layers : List Int) (m : LayerPageMap) (l : Int) :
    let c' := (allocateLayers r.requestId total pinned layers c m).1
    c'.positionsIn (r.requestId, l) =
      c.positionsIn (r.requestId, l) ++
        (if l ∈ layers then
          intRange ((c.pageIdsFor (r.requestId, l)).length * c.pageSize) total else []) ∧
    ((c'.pageIdsFor (r.requestId, l)).length : Int) =
      (c.pageIdsFor (r.requestId, l)).length +
        if l ∈ layers then c.pagesNeededForLayer r total l else 0 := by
  induction layers generalizing c m with
  | nil => simp [allocateLayers]
  | cons l₀ layers ih =>
    have hp := allocateLayer_positions h hps r total pinned l₀ l
    have hlen := allocateLayer_length hps r total pinned l₀ l
    have hneed := allocateLayer_needed hps r total pinned l₀ l
    have hsize := allocateLayer_pageSize (c := c) r.requestId total pinned l₀
    obtain ⟨hp', hlen'⟩ := ih (h.allocateLayer r.requestId total pinned l₀) (hsize.symm ▸ hps)
      (m.set l₀ (c.allocateLayer r.requestId total pinned l₀).2)
    simp only [allocateLayers]
    rw [hp', hlen', hp, hlen, hneed, hsize]
    by_cases hl : l = l₀
    · subst hl
      -- a second turn of the same layer finds nothing to add
      have hfull : intRange (((c.pageIdsFor (r.requestId, l)).length +
          c.pagesNeededForLayer r total l) * c.pageSize) total = [] := by
        have hnn := c.pagesNeededForLayer_nonneg r total l
        apply intRange_full hps
        · simp only [pagesNeededForLayer, requiredPages]
          omega
        · omega
      simp [hfull]
    · simp [hl]

/-! ### What leaves a layer alone -/

theorem Evolves.pageIdsFor_eq {grow : Int → Prop} (he : Evolves grow c c') (h : Inv c)
    (h' : Inv c') {key : Int × Int} (hg : ¬ grow key.1)
    (hk : ∀ pid ∈ c.pageIdsFor key, pid ∈ c'.pages.keys) :
    c'.pageIdsFor key = c.pageIdsFor key := by
  apply h'.pageIdsFor_eq (h.linked.ordered key)
  intro pid
  rw [h'.mem_pageIdsFor]
  constructor
  · rintro ⟨page', hp', rfl⟩
    obtain ⟨page, hp, hs⟩ | ⟨_, hr⟩ := he.page pid page' hp'
    · exact h.mem_pageIdsFor.mpr ⟨page, hp, hs.key.symm⟩
    · exact (hg hr).elim
  · intro hm
    obtain ⟨page', hp'⟩ := (Dict.mem_keys_iff _ _).mp (hk pid hm)
    obtain ⟨page, hp, hkey⟩ := h.mem_pageIdsFor.mp hm
    obtain ⟨page₀, hp₀, hs⟩ | ⟨hn, _⟩ := he.page pid page' hp'
    · rw [hp] at hp₀
      exact ⟨page', hp', hs.key.trans (Option.some.inj hp₀ ▸ hkey)⟩
    · exact absurd (h.lt_next_of_mem hm) (by omega)

theorem Evolves.positionsIn_eq {grow : Int → Prop} (he : Evolves grow c c') (h : Inv c)
    (h' : Inv c') {key : Int × Int} (hg : ¬ grow key.1)
    (hk : ∀ pid ∈ c.pageIdsFor key, pid ∈ c'.pages.keys) :
    c'.positionsIn key = c.positionsIn key := by
  rw [positionsIn, positionsIn, he.pageIdsFor_eq h h' hg hk]
  apply List.flatMap_congr
  intro pid hm
  obtain ⟨page', hp'⟩ := (Dict.mem_keys_iff _ _).mp (hk pid hm)
  obtain ⟨page, hp, hs⟩ | ⟨hn, _⟩ := he.page pid page' hp'
  · simp only [pagePositions, hp, hp', hs.tokenStart, hs.tokenCount]
  · exact absurd (h.lt_next_of_mem hm) (by omega)

theorem Evolves.live {grow : Int → Prop} (he : Evolves grow c c') {pid : Nat}
    (hn : pid < c.nextPageId) (hl : pid ∈ c'.pages.keys) : pid ∈ c.pages.keys := by
  by_contra hd
  have hd' := he.dead hn ((Dict.get?_eq_none_iff _ _).mpr hd)
  exact ((Dict.get?_eq_none_iff _ _).mp hd') hl

/-- One layer before and after a call that lets its request grow to `total` tokens. -/
structure LayerGrowth (c c' : KVCache) (r : RequestState) (total l : Int) : Prop where
  positions : c'.positionsIn (r.requestId, l) = c.positionsIn (r.requestId, l) ++
    if l ∈ r.layerIds then
      intRange ((c.pageIdsFor (r.requestId, l)).length * c.pageSize) total else []
  length : ((c'.pageIdsFor (r.requestId, l)).length : Int) =
    (c.pageIdsFor (r.requestId, l)).length +
      if l ∈ r.layerIds then c.pagesNeededForLayer r total l else 0

/-- One layer before and after any other call. -/
structure LayerSame (c c' : KVCache) (key : Int × Int) : Prop where
  positions : c'.positionsIn key = c.positionsIn key
  length : (c'.pageIdsFor key).length = (c.pageIdsFor key).length

theorem Evolves.layerSame {grow : Int → Prop} (he : Evolves grow c c') (h : Inv c) (h' : Inv c')
    {key : Int × Int} (hg : ¬ grow key.1) (hk : ∀ pid ∈ c.pageIdsFor key, pid ∈ c'.pages.keys) :
    LayerSame c c' key :=
  ⟨he.positionsIn_eq h h' hg hk, congrArg List.length (he.pageIdsFor_eq h h' hg hk)⟩

theorem allocateForRequest_layer (h : Inv c) (hps : 0 < c.pageSize) {r : RequestState}
    {total : Int} {pinned : Bool} {m : LayerPageMap}
    (hok : c.allocateForRequest r total pinned = (.ok m, c')) {l : Int}
    (hk : ∀ pid ∈ c.pageIdsFor (r.requestId, l), pid ∈ c'.pages.keys) :
    LayerGrowth c c' r total l := by
  have hlayers := allocateForRequest_ok hok
  generalize c.victims (c.neededPages r total - c.freePages) = gone at hlayers
  have he := c.evolves_evictAll gone
  have hev := h.evictAll gone
  have hgrow : Evolves (fun rid => rid = r.requestId) (c.evictAll gone) (allocateLayers
      r.requestId total pinned r.layerIds (c.evictAll gone) Dict.empty).1 := by
    apply evolves_allocateLayers
    rfl
  rw [hlayers] at hgrow
  -- a page of the layer that is live in the end was not among the victims
  have hk' : ∀ pid ∈ c.pageIdsFor (r.requestId, l), pid ∈ (c.evictAll gone).pages.keys :=
    fun pid hp => hgrow.live ((h.lt_next_of_mem hp).trans_le he.next) (hk pid hp)
  obtain ⟨hpos, hlen⟩ := he.layerSame h hev not_false hk'
  obtain ⟨hpos', hlen'⟩ := allocateLayers_layer hev (he.pageSize.symm ▸ hps) r total pinned
    r.layerIds Dict.empty l
  rw [hlayers] at hpos' hlen'
  refine ⟨?_, ?_⟩
  · rw [hpos', hpos, hlen, he.pageSize]
  · rw [hlen', hlen]
    simp only [pagesNeededForLayer, hlen, requiredPages, he.pageSize]

theorem updateListed_layerSame (h : Inv c) {f : KVPage → KVPage} (hf : Retag f) (r : Int)
    (layers : List Int) (key : Int × Int) : LayerSame c (updateListed f c r layers) key := by
  have he := evolves_updateListed (fun _ => False) hf c r layers
  refine he.layerSame h (h.updateListed hf r layers) not_false ?_
  intro pid hp
  obtain ⟨_, page, hpage, _⟩ := h.linked.live key pid hp
  rw [updateListed_keys]
  exact Dict.mem_keys_of_get? hpage

theorem LayerGrowth.trans_same {c'' : KVCache} {r : RequestState} {total l : Int}
    (h : LayerGrowth c c' r total l) (h' : LayerSame c' c'' (r.requestId, l)) :
    LayerGrowth c c'' r total l :=
  ⟨h'.positions.trans h.positions, by rw [h'.length, h.length]⟩

/-! ### Whole runs -/

theorem requiredPages_nonneg (hps : 0 < c.pageSize) (m : Int) : 0 ≤ c.requiredPages m := by
  rw [requiredPages]
  split
  · exact le_rfl
  · have := (ceilDiv_pos (a := m) hps).mpr (by omega)
    omega

theorem le_requiredPages_mul (hps : 0 < c.pageSize) (m : Int) :
    m ≤ c.requiredPages m * c.pageSize := by
  rw [requiredPages]
  split
  · omega
  · exact le_ceilDiv_mul hps

theorem requiredPages_mono (hps : 0 < c.pageSize) {a b : Int} (hab : a ≤ b) :
    c.requiredPages a ≤ c.requiredPages b := by
  by_cases ha : a ≤ 0
  · have := c.requiredPages_nonneg hps b
    rwa [requiredPages, if_pos ha]
  · rw [requiredPages, requiredPages, if_neg ha, if_neg (by omega)]
    exact ceilDiv_mono hps hab

theorem requiredPages_le_ceilDiv (hps : 0 < c.pageSize) {a b : Int} (hb : 0 ≤ b) (hab : a ≤ b) :
    c.requiredPages a ≤ ceilDiv b c.pageSize := by
  rw [requiredPages]
  split
  · have hneg : -1 < ceilDiv b c.pageSize := (lt_ceilDiv_iff hps).mpr (by omega)
    omega
  · exact ceilDiv_mono hps hab

theorem requiredPages_max (hps : 0 < c.pageSize) (m total : Int) :
    c.requiredPages (max m total) = max (c.requiredPages m) (c.requiredPages total) := by
  obtain hle | hle := le_total m total
  · rw [max_eq_right hle, max_eq_right (requiredPages_mono hps hle)]
  · rw [max_eq_left hle, max_eq_left (requiredPages_mono hps hle)]

end KVCache

/-- The largest total that the request `rid` has asked for so far, after one more call. -/
def KVOp.asks (rid : Int) (c : KVCache) (op : KVOp) (m : Int) : Int :=
  match op.growth with
  | some (r, total) => if r.requestId = rid ∧ (op.apply c).1 = none then max m total else m
  | none => m

/-- A call allocates for `rid` with its layers `L` only and removes none of its pages. -/
def KVOp.LeavesAlone (rid : Int) (L : List Int) (c : KVCache) (op : KVOp) : Prop :=
  (∀ r ∈ op.growth, r.1.requestId = rid → r.1.layerIds = L) ∧
    ∀ pid ∈ c.listedIds rid, pid ∈ (op.apply c).2.pages.keys

instance (rid : Int) (L : List Int) (c : KVCache) (op : KVOp) :
    Decidable (op.LeavesAlone rid L c) := inferInstanceAs (Decidable (_ ∧ _))

namespace KVCache

def Undisturbed (rid : Int) (L : List Int) : KVCache → List KVOp → Prop
  | _, [] => True
  | c, op :: ops => op.LeavesAlone rid L c ∧ Undisturbed rid L (op.apply c).2 ops

def largestAsked (rid : Int) : KVCache → Int → List KVOp → Int
  | _, m, [] => m
  | c, m, op :: ops => largestAsked rid (op.apply c).2 (op.asks rid c m) ops

/-- Every call that makes the request grow beyond what it asked for so far finds that amount a
multiple of the page size. -/
def GrowsPastFullPages (rid : Int) : KVCache → Int → List KVOp → Prop
  | _, _, [] => True
  | c, m, op :: ops =>
    (m < op.asks rid c m → c.pageSize ∣ m) ∧
      GrowsPastFullPages rid (op.apply c).2 (op.asks rid c m) ops

/-- What a run keeps about the layers of the request, covered or not: each has exactly the pages
for `m` tokens. -/
structure Tracked (rid : Int) (L : List Int) (m : Int) (c : KVCache) : Prop where
  nonneg : 0 ≤ m
  inv : Inv c
  size : 0 < c.pageSize
  length : ∀ l ∈ L, ((c.pageIdsFor (rid, l)).length : Int) = c.requiredPages m
  outside : ∀ l, l ∉ L → (c.pageIdsFor (rid, l)).length = 0

theorem asks_ge (rid : Int) (c : KVCache) (op : KVOp) (m : Int) : m ≤ op.asks rid c m := by
  unfold KVOp.asks
  split
  · split
    · exact le_max_left _ _
    · exact le_rfl
  · exact le_rfl

theorem apply_layer (op : KVOp) (l : Int) (h : Inv c) (hps : 0 < c.pageSize) {rid : Int}
    (hk : ∀ pid ∈ c.pageIdsFor (rid, l), pid ∈ (op.apply c).2.pages.keys) :
    (∃ r total, op.growth = some (r, total) ∧ r.requestId = rid ∧ (op.apply c).1 = none ∧
      LayerGrowth c (op.apply c).2 r total l) ∨
    ((∀ m, op.asks rid c m = m) ∧ LayerSame c (op.apply c).2 (rid, l)) := by
  have hinv := h.apply op
  by_cases hg : op.grows rid
  · obtain ⟨r, total, hgr, rfl⟩ := hg
    obtain ⟨pinned, f, layers, hf, happ⟩ := op.apply_growth hgr c
    have ha := h.allocateForRequest r total pinned
    cases hres : c.allocateForRequest r total pinned with
    | mk res c' =>
      rw [hres] at happ ha
      cases res with
      | error e =>
        -- the call raised after its evictions
        have he := c.evolves_evictAll (c.victims (c.neededPages r total - c.freePages))
        rw [allocateForRequest_error hps hres] at he
        rw [happ] at hk ⊢
        refine Or.inr ⟨?_, he.layerSame h ha not_false hk⟩
        intro m
        simp [KVOp.asks, hgr, happ]
      | ok m =>
        rw [happ] at hk ⊢
        have hsame := updateListed_layerSame ha hf r.requestId layers (r.requestId, l)
        have hlayer := allocateForRequest_layer h hps hres fun pid hp =>
          updateListed_keys f c' r.requestId layers ▸ hk pid hp
        exact Or.inl ⟨r, total, hgr, rfl, rfl, hlayer.trans_same hsame⟩
  · refine Or.inr ⟨?_, (c.evolves_apply op).layerSame h hinv hg hk⟩
    intro m
    unfold KVOp.asks
    cases hgr : op.growth with
    | none => rfl
    | some p => exact if_neg fun hr => hg ⟨p.1, p.2, hgr, hr.1.symm⟩

/-- What one call makes of one layer, whether or not it is an allocation for the request. -/
theorem Tracked.step_layer {rid : Int} {L : List Int} {m : Int} (h : Tracked rid L m c) {op : KVOp}
    (hop : op.LeavesAlone rid L c) (l : Int) :
    (op.apply c).2.positionsIn (rid, l) = c.positionsIn (rid, l) ++
        (if l ∈ L then intRange ((c.pageIdsFor (rid, l)).length * c.pageSize) (op.asks rid c m)
          else []) ∧
      (l ∈ L → ((op.apply c).2.pageIdsFor (rid, l)).length = c.requiredPages (op.asks rid c m)) ∧
      (l ∉ L → ((op.apply c).2.pageIdsFor (rid, l)).length = 0) := by
  have hm := c.le_requiredPages_mul h.size m
  obtain ⟨r, total, hg, rfl, hok, hgrow⟩ | ⟨hasks, hsame⟩ :=
    apply_layer op l h.inv h.size fun pid hp => hop.2 pid (mem_listedIds hp)
  · have hL : r.layerIds = L := hop.1 (r, total) hg rfl
    have hasks : op.asks r.requestId c m = max m total := by simp [KVOp.asks, hg, hok]
    have hpos := hgrow.positions
    have hlen := hgrow.length
    rw [hL] at hpos hlen
    by_cases hl : l ∈ L
    · have hn := h.length l hl
      simp only [if_pos hl, hn, pagesNeededForLayer] at hpos hlen ⊢
      refine ⟨?_, fun _ => ?_, fun hl' => absurd hl hl'⟩
      · rw [hpos, hasks]
        obtain hle' | hle' := le_total m total
        · rw [max_eq_right hle']
        · rw [max_eq_left hle', intRange_of_le (by omega), intRange_of_le hm]
      · rw [hlen, hasks, requiredPages_max h.size]
        omega
    · have hn := h.outside l hl
      simp only [if_neg hl] at hpos hlen ⊢
      exact ⟨hpos, fun hl' => absurd hl' hl, fun _ => by omega⟩
  · rw [hasks, hsame.positions, hsame.length]
    refine ⟨?_, h.length l, h.outside l⟩
    split
    · next hl => rw [h.length l hl, intRange_of_le hm, List.append_nil]
    · rw [List.append_nil]

/-- One call: every layer gets the positions from its page boundary to the new total. -/
theorem Tracked.step {rid : Int} {L : List Int} {m : Int} (h : Tracked rid L m c) {op : KVOp}
    (hop : op.LeavesAlone rid L c) :
    Tracked rid L (op.asks rid c m) (op.apply c).2 ∧
      ∀ l ∈ L, (op.apply c).2.positionsIn (rid, l) = c.positionsIn (rid, l) ++
        intRange (c.requiredPages m * c.pageSize) (op.asks rid c m) := by
  have hpsz := (c.evolves_apply op).pageSize
  have hreq := (c.evolves_apply op).requiredPages
  have hlayer := h.step_layer hop
  refine ⟨⟨h.nonneg.trans (asks_ge rid c op m), h.inv.apply op, hpsz ▸ h.size, ?_,
    fun l hl => (hlayer l).2.2 hl⟩, ?_⟩
  · intro l hl
    rw [hreq, (hlayer l).2.1 hl]
  · intro l hl
    rw [(hlayer l).1, if_pos hl, h.length l hl]

/-- Every layer covers the positions below `m`. -/
def Full (rid : Int) (L : List Int) (m : Int) (c : KVCache) : Prop :=
  ∀ l ∈ L, c.positionsIn (rid, l) = intRange 0 m

/-- Some position below `m` is covered in no layer. -/
def Gap (rid : Int) (L : List Int) (m : Int) (c : KVCache) : Prop :=
  ∃ x, 0 ≤ x ∧ x < m ∧ ∀ l ∈ L, x ∉ c.positionsIn (rid, l)

section Step
variable {rid : Int} {L : List Int} {m : Int} {op : KVOp}

theorem Full.step (hf : Full rid L m c) (h : Tracked rid L m c) (hop : op.LeavesAlone rid L c)
    (hd : m < op.asks rid c m → c.pageSize ∣ m) :
    Full rid L (op.asks rid c m) (op.apply c).2 := by
  intro l hl
  rw [(h.step hop).2 l hl, hf l hl]
  have hle := asks_ge rid c op m
  obtain hlt | heq := hle.lt_or_eq
  · obtain ⟨k, rfl⟩ := hd hlt
    have hk : c.requiredPages (c.pageSize * k) * c.pageSize = c.pageSize * k := by
      have hn := h.nonneg
      by_cases hz : c.pageSize * k ≤ 0
      · rw [requiredPages, if_pos hz]
        omega
      · have hc : ceilDiv (c.pageSize * k) c.pageSize = k := by
          have hs := ceilDiv_sub_mul h.size (a := c.pageSize * k) (k := k)
          have hzero : c.pageSize * k - k * c.pageSize = 0 := by ring
          rw [hzero] at hs
          have hz : ceilDiv 0 c.pageSize = 0 := by simp [ceilDiv]
          omega
        rw [requiredPages, if_neg hz, hc, mul_comm]
    rw [hk, intRange_append h.nonneg hle]
  · have hm := c.le_requiredPages_mul h.size m
    rw [← heq, intRange_of_le hm, List.append_nil]

/-- The first position past a page that is not full is never covered. -/
theorem Full.gap (hf : Full rid L m c) (h : Tracked rid L m c) (hop : op.LeavesAlone rid L c)
    (hlt : m < op.asks rid c m) (hd : ¬ c.pageSize ∣ m) :
    Gap rid L (op.asks rid c m) (op.apply c).2 := by
  refine ⟨m, h.nonneg, hlt, ?_⟩
  intro l hl
  have hm := c.le_requiredPages_mul h.size m
  have hne : m ≠ c.requiredPages m * c.pageSize := fun he => hd ⟨_, he.trans (mul_comm _ _)⟩
  rw [(h.step hop).2 l hl, hf l hl, List.mem_append, mem_intRange, mem_intRange]
  omega

theorem Gap.step (hg : Gap rid L m c) (h : Tracked rid L m c) (hop : op.LeavesAlone rid L c) :
    Gap rid L (op.asks rid c m) (op.apply c).2 := by
  obtain ⟨x, h0, hx, hno⟩ := hg
  refine ⟨x, h0, hx.trans_le (asks_ge rid c op m), ?_⟩
  intro l hl
  have hm := c.le_requiredPages_mul h.size m
  have hn := hno l hl
  rw [(h.step hop).2 l hl, List.mem_append, mem_intRange, not_or]
  exact ⟨hn, by omega⟩

end Step

theorem Gap.run {rid : Int} {L : List Int} {m : Int} (hg : Gap rid L m c)
    (h : Tracked rid L m c) (ops : List KVOp) (hrun : Undisturbed rid L c ops) :
    Gap rid L (largestAsked rid c m ops) (c.runOps ops) := by
  induction ops generalizing c m with
  | nil => exact hg
  | cons op ops ih => exact ih (hg.step h hrun.1) (h.step hrun.1).1 hrun.2

theorem Tracked.run {rid : Int} {L : List Int} {m : Int} (h : Tracked rid L m c)
    (ops : List KVOp) (hrun : Undisturbed rid L c ops) :
    Tracked rid L (largestAsked rid c m ops) (c.runOps ops) := by
  induction ops generalizing c m with
  | nil => exact h
  | cons op ops ih => exact ih (h.step hrun.1).1 hrun.2

/-- A covered request stays covered as long as it grows past full pages; from the first time it
does not, a position is missing for good. -/
theorem Full.run {rid : Int} {L : List Int} {m : Int} (hf : Full rid L m c)
    (h : Tracked rid L m c) (ops : List KVOp) (hrun : Undisturbed rid L c ops) :
    (GrowsPastFullPages rid c m ops →
      Full rid L (largestAsked rid c m ops) (c.runOps ops)) ∧
    (¬ GrowsPastFullPages rid c m ops →
      Gap rid L (largestAsked rid c m ops) (c.runOps ops)) := by
  induction ops generalizing c m with
  | nil => exact ⟨fun _ => hf, fun hn => absurd trivial hn⟩
  | cons op ops ih =>
    have htrack := (h.step hrun.1).1
    by_cases hd : m < op.asks rid c m → c.pageSize ∣ m
    · obtain ⟨hfull, hgap⟩ := ih (hf.step h hrun.1 hd) htrack hrun.2
      exact ⟨fun hg => hfull hg.2, fun hn => hgap fun hg => hn ⟨hd, hg⟩⟩
    · obtain ⟨hlt, hnd⟩ := Classical.not_imp.mp hd
      exact ⟨fun hg => absurd hg.1 hd,
        fun _ => (hf.gap h hrun.1 hlt hnd).run htrack ops hrun.2⟩

/-! ### What the queries report -/

/-- The positions reported for a request are those of one of its layers. -/
theorem positionsFor_cases (h : Inv c) (rid : Int) :
    (c.positionsFor rid = [] ∧ ∀ l, c.pageIdsFor (rid, l) = []) ∨
      ∃ l, c.pageIdsFor (rid, l) ≠ [] ∧ c.positionsFor rid = c.positionsIn (rid, l) := by
  cases hf : c.pageTable.items.find? fun entry => decide (entry.1.1 = rid) with
  | none =>
    refine Or.inl ⟨by simp only [positionsFor, hf], fun l => pageIdsFor_of_not_mem fun hk => ?_⟩
    obtain ⟨entry, he, hkey⟩ := List.mem_map.mp hk
    have hno := List.find?_eq_none.mp hf entry he
    simp [hkey] at hno
  | some entry =>
    obtain ⟨⟨r, l⟩, ids⟩ := entry
    have hr : r = rid := by simpa using List.find?_some hf
    subst hr
    have hget := (Dict.get?_eq_some_iff _ _ _).mpr (List.mem_of_find?_eq_some hf)
    refine Or.inr ⟨l, h.linked.filled (r, l) (Dict.mem_keys_of_get? hget), ?_⟩
    simp only [positionsFor, hf, positionsIn, pageIdsFor_of_get? hget]

theorem layerBytes_eq (h : Inv c) (key : Int × Int) :
    c.layerBytes key = (c.positionsIn key).length * c.bytesPerTokenPerLayer := by
  have hlive : ∀ pid ∈ c.pageIdsFor key, ∃ page, c.pages.get? pid = some page := fun pid hp =>
    ((h.linked.live key pid hp).2).imp fun _ hpage => hpage.1
  unfold layerBytes positionsIn
  generalize c.pageIdsFor key = ids at hlive
  induction ids with
  | nil => simp
  | cons pid ids ih =>
    obtain ⟨page, hp⟩ := hlive pid (by simp)
    have hcount := h.sound.count pid page hp
    have hlen : ((c.pagePositions pid).length : Int) = page.tokenCount := by
      simp only [pagePositions, hp, length_intRange]
      omega
    rw [List.map_cons, List.sum_cons, ih fun q hq => hlive q (List.mem_cons_of_mem pid hq),
      List.flatMap_cons, List.length_append]
    simp only [hp, Option.map_some, Option.getD_some, pageBytes]
    push_cast
    rw [hlen, add_mul]

/-- In each layer the pages cover the positions below `T` once and in order, they account for
that many tokens, and `positionsFor` reports these positions. -/
structure Covers (rid : Int) (L : List Int) (T : Int) (c : KVCache) : Prop where
  partition : ∀ l ∈ L, c.positionsIn (rid, l) = intRange 0 T
  bytes : ∀ l ∈ L, c.layerBytes (rid, l) = T * c.bytesPerTokenPerLayer
  positions : c.positionsFor rid = intRange 0 T

theorem Full.covers {rid : Int} {L : List Int} {T : Int} (hf : Full rid L T c)
    (h : Tracked rid L T c) (hL : L = [] → T ≤ 0) : Covers rid L T c where
  partition := hf
  bytes := by
    intro l hl
    have hT := h.nonneg
    rw [layerBytes_eq h.inv, hf l hl, length_intRange, sub_zero, Int.toNat_of_nonneg hT]
  positions := by
    obtain ⟨hnil, hempty⟩ | ⟨l, hne, hpos⟩ := positionsFor_cases h.inv rid
    · have hT : T ≤ 0 := by
        cases hL' : L with
        | nil => exact hL hL'
        | cons l L' =>
          have hn := h.length l (by simp [hL'])
          have hle := c.le_requiredPages_mul h.size T
          rw [hempty l, List.length_nil, Nat.cast_zero] at hn
          rw [← hn, zero_mul] at hle
          exact hle
      rw [hnil, intRange_of_le hT]
    · have hl : l ∈ L := by
        by_contra hl
        exact hne (List.length_eq_zero_iff.mp (h.outside l hl))
      rw [hpos, hf l hl]

theorem Gap.not_covers {rid : Int} {L : List Int} {T : Int} (hg : Gap rid L T c)
    (h : Tracked rid L T c) : ¬ Covers rid L T c := by
  intro hc
  obtain ⟨x, h0, hx, hno⟩ := hg
  have hmem : x ∈ c.positionsFor rid := by
    rw [hc.positions, mem_intRange]
    exact ⟨h0, hx⟩
  obtain ⟨hnil, _⟩ | ⟨l, hne, hpos⟩ := positionsFor_cases h.inv rid
  · rw [hnil] at hmem
    cases hmem
  · have hl : l ∈ L := by
      by_contra hl
      exact hne (List.length_eq_zero_iff.mp (h.outside l hl))
    exact hno l hl (hpos ▸ hmem)

theorem tracked_new {pageSize : Int} (maxPages : Int) (config : Option RuntimeConfig) (rid : Int)
    (L : List Int) (hps : 1 ≤ pageSize) : Tracked rid L 0 (new pageSize maxPages config) where
  nonneg := le_rfl
  inv := inv_new pageSize maxPages config
  size := hps
  length := fun _ _ => rfl
  outside := fun _ _ => rfl

/-- The pages of a request that is left alone cover the tokens it asked for exactly if it only
ever grew past full pages (and, having asked for tokens, has a layer at all). -/
theorem covers_iff_growsPastFullPages (pageSize maxPages : Int) (config : Option RuntimeConfig)
    (rid : Int) (L : List Int) (ops : List KVOp) (hps : 1 ≤ pageSize)
    (hrun : Undisturbed rid L (new pageSize maxPages config) ops) :
    Covers rid L (largestAsked rid (new pageSize maxPages config) 0 ops)
        ((new pageSize maxPages config).runOps ops) ↔
      GrowsPastFullPages rid (new pageSize maxPages config) 0 ops ∧
        (L = [] → largestAsked rid (new pageSize maxPages config) 0 ops ≤ 0) := by
  have h0 := tracked_new maxPages config rid L hps
  have hfull0 : Full rid L 0 (new pageSize maxPages config) := fun _ _ => rfl
  have h := h0.run ops hrun
  obtain ⟨hfull, hgap⟩ := hfull0.run h0 ops hrun
  constructor
  · intro hc
    refine ⟨?_, ?_⟩
    · by_contra hn
      exact (hgap hn).not_covers h hc
    · rintro rfl
      have hpos := hc.positions
      obtain ⟨hnil, _⟩ | ⟨l, hne, _⟩ := positionsFor_cases h.inv rid
      · rw [hnil] at hpos
        have hlen := congrArg List.length hpos
        rw [length_intRange, List.length_nil] at hlen
        omega
      · exact absurd (List.length_eq_zero_iff.mp (h.outside l (by simp))) hne
  · rintro ⟨hg, hL⟩
    exact (hfull hg).covers h hL

/-- With pages of four tokens, three tokens and then six leave position three uncovered. -/
theorem partial_page_uncovered :
    ¬ ∀ (pageSize maxPages : Int) (config : Option RuntimeConfig) (rid : Int) (L : List Int)
      (ops : List KVOp), 1 ≤ pageSize → L ≠ [] →
        Undisturbed rid L (new pageSize maxPages config) ops →
        Covers rid L (largestAsked rid (new pageSize maxPages config) 0 ops)
          ((new pageSize maxPages config).runOps ops) := by
  intro h
  let r : RequestState :=
    { requestId := 7, promptTokens := [5, 6, 8], targetTokens := [], maxNewTokens := 4
      eosTokenId := 0 }
  have hc := h 4 8 none 7 [0] [.allocateForRequest r 3 false, .allocateForRequest r 6 false]
    (by decide) (by decide) ⟨by decide, by decide, trivial⟩
  have hpos := hc.positions
  revert hpos
  decide

/-- Four tokens and then six are covered: the first page was full. -/
theorem full_page_covered :
    let r : RequestState :=
      { requestId := 7, promptTokens := [5, 6, 8, 9], targetTokens := [], maxNewTokens := 4
        eosTokenId := 0 }
    Covers 7 [0] 6
      ((new 4 8 none).runOps [.allocateForRequest r 4 false, .commitTokens r 2 true]) := by
  intro r
  have hrun : Undisturbed 7 [0] (new 4 8 none)
      [.allocateForRequest r 4 false, .commitTokens r 2 true] :=
    ⟨by decide, by decide, trivial⟩
  have hT : largestAsked 7 (new 4 8 none) 0
      [.allocateForRequest r 4 false, .commitTokens r 2 true] = 6 := by decide
  have hgrow : GrowsPastFullPages 7 (new 4 8 none) 0
      [.allocateForRequest r 4 false, .commitTokens r 2 true] :=
    ⟨by decide, by decide, trivial⟩
  have hc := (covers_iff_growsPastFullPages 4 8 none 7 [0]
    [.allocateForRequest r 4 false, .commitTokens r 2 true] (by decide) hrun).mpr
    ⟨hgrow, by decide⟩
  rwa [hT] at hc

end ResidentInference.KVCache

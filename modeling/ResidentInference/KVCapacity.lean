import ResidentInference.Calls
import ResidentInference.KVFrame
import ResidentInference.KVAllocation
import Mathlib.Algebra.Order.BigOperators.Group.Finset

/-! When the number of live pages stays within `maxPages`. An allocation counts the pages it
needs, evicts, and then allocates what is missing after the eviction, which is more than it
counted when one of the evicted pages was a page that the growing request still needs. -/
namespace ResidentInference.KVCache
variable {c : KVCache}

/-- The pages that the layers of the request miss when those in `gone` are taken away. -/
def missingWithout (c : KVCache) (gone : List Nat) (r : RequestState) (total : Int) : Int :=
  r.layerIds.toFinset.sum fun l =>
    max (c.requiredPages total - ((c.pageIdsFor (r.requestId, l)).filter (· ∉ gone)).length) 0

/-- If there are enough pages to evict, then evicting them leaves the request missing no more
pages than were counted. -/
def SparesGrowth (c : KVCache) (r : RequestState) (total : Int) : Prop :=
  c.neededPages r total - c.freePages ≤ c.evictionOrder.length →
    c.missingWithout (c.victims (c.neededPages r total - c.freePages)) r total ≤
      c.neededPages r total

instance (c : KVCache) (r : RequestState) (total : Int) : Decidable (c.SparesGrowth r total) :=
  inferInstanceAs (Decidable (_ → _))

theorem evictAll_needed (h : Inv c) (gone : List Nat) (r : RequestState) (total l : Int) :
    (c.evictAll gone).pagesNeededForLayer r total l =
      max (c.requiredPages total -
        ((c.pageIdsFor (r.requestId, l)).filter (· ∉ gone)).length) 0 := by
  have hps := (c.evolves_evictAll gone).pageSize
  simp only [pagesNeededForLayer, evictAll_pageIdsFor h, requiredPages, hps]

theorem sum_toFinset_le (f : Int → Int) (hf : ∀ l, 0 ≤ f l) (layers : List Int) :
    layers.toFinset.sum f ≤ (layers.map f).sum := by
  induction layers with
  | nil => simp
  | cons l layers ih =>
    rw [List.toFinset_cons, sum_insert_served, List.map_cons, List.sum_cons]
    have hle : (layers.toFinset.sum fun l' => if l' = l then 0 else f l') ≤
        layers.toFinset.sum f := by
      apply Finset.sum_le_sum
      intro l' _
      split
      · exact hf l'
      · exact le_rfl
    omega

theorem missingWithout_nil_le (c : KVCache) (r : RequestState) (total : Int) :
    c.missingWithout [] r total ≤ c.neededPages r total := by
  have he : c.missingWithout [] r total =
      r.layerIds.toFinset.sum (c.pagesNeededForLayer r total) := by
    apply Finset.sum_congr rfl
    intro l _
    simp [pagesNeededForLayer]
  rw [he]
  exact sum_toFinset_le _ (c.pagesNeededForLayer_nonneg r total) r.layerIds

/-- One allocation within capacity stays within capacity exactly if it spares its own growth. -/
theorem allocateForRequest_size_le_iff (h : Inv c) (hps : 0 < c.pageSize)
    (hsize : c.pages.size ≤ c.maxPages) (r : RequestState) (total : Int) (pinned : Bool) :
    ((c.allocateForRequest r total pinned).2.pages.size : Int) ≤ c.maxPages ↔
      c.SparesGrowth r total := by
  rw [allocateForRequest_eq hps, SparesGrowth]
  generalize hd : c.neededPages r total - c.freePages = deficit
  have hv := c.evictAll_victims_size deficit
  have hlen := c.length_victims deficit
  have hev := c.evolves_evictAll (c.victims deficit)
  have hfree : (c.evictAll (c.victims deficit)).freePages =
      c.freePages + (c.victims deficit).length := by
    have hm : (c.evictAll (c.victims deficit)).maxPages = c.maxPages := hev.maxPages
    simp only [freePages, hm]
    omega
  have hf0 : 0 ≤ c.freePages := by
    simp only [freePages]
    omega
  by_cases hraise : (c.evictAll (c.victims deficit)).freePages < c.neededPages r total
  · -- not enough pages could be evicted
    simp only [if_pos hraise]
    constructor
    · intro _ hle
      omega
    · intro _
      omega
  · have hpages := allocateLayers_size (h.evictAll (c.victims deficit))
      (hev.pageSize.symm ▸ hps) r total pinned r.layerIds Dict.empty
    simp only [evictAll_needed h] at hpages
    simp only [if_neg hraise, hpages]
    change _ + c.missingWithout (c.victims deficit) r total ≤ _ ↔ _
    have hfree' : c.freePages = c.maxPages - c.pages.size := rfl
    by_cases hpos : 0 < deficit
    · -- exactly the deficit was evicted, so the free pages are those that were counted
      constructor
      · intro hle _
        omega
      · intro hle
        have := hle (by omega)
        omega
    · have hnil : c.victims deficit = [] := victims_of_nonpos (by omega)
      have hmiss := c.missingWithout_nil_le r total
      rw [hnil] at hlen hv ⊢
      constructor
      · intro _ _
        exact hmiss
      · intro _
        omega

theorem updateListed_size (f : KVPage → KVPage) (c : KVCache) (r : Int) (layers : List Int) :
    (updateListed f c r layers).pages.size = c.pages.size :=
  List.foldlRecOn (motive := fun c' : KVCache => c'.pages.size = c.pages.size) layers _ rfl
    fun _ hc _ _ =>
    List.foldlRecOn (motive := fun c' : KVCache => c'.pages.size = c.pages.size) _ _ hc
      fun _ hc' _ _ =>
      (Dict.size_modify _ _ _).trans hc'

theorem Evolves.size_le {c' : KVCache} {grow : Int → Prop} (h : Evolves grow c c')
    (hg : ∀ r, ¬ grow r) : c'.pages.size ≤ c.pages.size := by
  apply Dict.size_le_of_subset
  intro pid hp
  obtain ⟨page', hp⟩ := (Dict.mem_keys_iff _ _).mp hp
  obtain ⟨page, hp', _⟩ | ⟨_, hr⟩ := h.page pid page' hp
  · exact Dict.mem_keys_of_get? hp'
  · exact (hg _ hr).elim

theorem runOps_params (c : KVCache) (ops : List KVOp) :
    (c.runOps ops).pageSize = c.pageSize ∧ (c.runOps ops).maxPages = c.maxPages := by
  induction ops generalizing c with
  | nil => exact ⟨rfl, rfl⟩
  | cons op ops ih =>
    have he := c.evolves_apply op
    obtain ⟨hps, hmax⟩ := ih (op.apply c).2
    exact ⟨hps.trans he.pageSize, hmax.trans he.maxPages⟩

theorem runOps_take_succ (c : KVCache) {ops : List KVOp} {n : Nat} {op : KVOp}
    (h : ops[n]? = some op) :
    c.runOps (ops.take (n+1)) = (op.apply (c.runOps (ops.take n))).2 :=
  Calls.foldl_take_succ _ c h

end KVCache

theorem KVOp.apply_size_of_growth {c : KVCache} {op : KVOp} {r : RequestState} {total : Int}
    (h : op.growth = some (r, total)) : ∃ pinned,
      (op.apply c).2.pages.size = (c.allocateForRequest r total pinned).2.pages.size := by
  obtain ⟨pinned, f, layers, _, happ⟩ := op.apply_growth h c
  refine ⟨pinned, ?_⟩
  rw [happ]
  obtain ⟨e | m, c'⟩ := c.allocateForRequest r total pinned
  · rfl
  · exact KVCache.updateListed_size f c' r.requestId layers

/-- An allocating call evicts no page that its own request still needs. -/
def KVOp.Spares (c : KVCache) (op : KVOp) : Prop :=
  ∀ r total, op.growth = some (r, total) → c.SparesGrowth r total

namespace KVCache

theorem apply_size_le_iff (h : Inv c) (hps : 0 < c.pageSize) (hsize : c.pages.size ≤ c.maxPages)
    (op : KVOp) : ((op.apply c).2.pages.size : Int) ≤ c.maxPages ↔ op.Spares c := by
  cases hg : op.growth with
  | none =>
    have hno : ∀ r, ¬ op.grows r := by
      rintro r ⟨r', total, hg', _⟩
      rw [hg] at hg'
      cases hg'
    have hle := (c.evolves_apply op).size_le hno
    constructor
    · intro _ r total hg'
      rw [hg] at hg'
      cases hg'
    · intro _
      omega
  | some p =>
    obtain ⟨r, total⟩ := p
    obtain ⟨pinned, hsame⟩ := op.apply_size_of_growth hg (c := c)
    rw [hsame, allocateForRequest_size_le_iff h hps hsize]
    constructor
    · intro hs r' total' hg'
      obtain ⟨rfl, rfl⟩ := Prod.mk.inj (Option.some.inj (hg.symm.trans hg'))
      exact hs
    · intro hs
      exact hs r total hg

/-- The cache stays within its capacity throughout a sequence of calls exactly if no call of it
evicts a page that the request it allocates for still needs. -/
theorem size_le_maxPages_iff_spares (pageSize maxPages : Int) (config : Option RuntimeConfig)
    (ops : List KVOp) (hps : 1 ≤ pageSize) (hmax : 0 ≤ maxPages) :
    (∀ n : Nat,
        (((new pageSize maxPages config).runOps (ops.take n)).pages.size : Int) ≤ maxPages) ↔
      ∀ (n : Nat) (op : KVOp), ops[n]? = some op →
        op.Spares ((new pageSize maxPages config).runOps (ops.take n)) := by
  generalize hc : new pageSize maxPages config = c
  have hm : ∀ n, (c.runOps (ops.take n)).maxPages = maxPages := fun n =>
    (c.runOps_params _).2.trans (by rw [← hc]; rfl)
  have hp : ∀ n, 0 < (c.runOps (ops.take n)).pageSize := by
    intro n
    rw [(c.runOps_params _).1, ← hc]
    exact hps
  have hinv : ∀ n, Inv (c.runOps (ops.take n)) := fun n =>
    hc ▸ inv_runOps pageSize maxPages config (ops.take n)
  constructor
  · intro hall n op hop
    have hnext := hall (n+1)
    rw [runOps_take_succ c hop, ← hm n] at hnext
    exact (apply_size_le_iff (hinv n) (hp n) (hm n ▸ hall n) op).mp hnext
  · intro hall n
    induction n with
    | zero =>
      subst hc
      exact hmax
    | succ n ih =>
      cases hop : ops[n]? with
      | none => simpa only [List.take_add_one, hop, Option.toList_none, List.append_nil] using ih
      | some op =>
        have hle := (apply_size_le_iff (hinv n) (hp n) (hm n ▸ ih) op).mpr (hall n op hop)
        rwa [hm n, ← runOps_take_succ c hop] at hle

/-- A cache of two pages of one token each that ends up with three pages: the second call has to
make room for one page and evicts the oldest page of the request it grows. -/
theorem growth_exceeds_maxPages :
    ¬ ∀ (pageSize maxPages : Int) (config : Option RuntimeConfig) (ops : List KVOp),
      1 ≤ pageSize → 0 ≤ maxPages →
        (((new pageSize maxPages config).runOps ops).pages.size : Int) ≤ maxPages := by
  intro h
  let r : RequestState :=
    { requestId := 1, promptTokens := [5, 6], targetTokens := [], maxNewTokens := 4
      eosTokenId := 0 }
  have h' := h 1 2 none [.allocateForRequest r 2 false, .allocateForRequest r 3 false]
    (by decide) (by decide)
  revert h'
  decide

/-- The second request has to make room for a page and evicts the page of the first one. -/
theorem foreign_page_evicted_within_maxPages :
    let r : RequestState :=
      { requestId := 1, promptTokens := [5], targetTokens := [], maxNewTokens := 4
        eosTokenId := 0 }
    let ops : List KVOp :=
      [.allocateForRequest r 1 false, .allocateForRequest { r with requestId := 2 } 2 false]
    ((new 1 2 none).runOps ops).evictionCount = 1 ∧
      ∀ n : Nat, (((new 1 2 none).runOps (ops.take n)).pages.size : Int) ≤ 2 := by
  intro r ops
  refine ⟨by decide, ?_⟩
  apply (size_le_maxPages_iff_spares 1 2 none ops (by decide) (by decide)).mpr
  intro n op hop r' total hg
  match n with
  | 0 =>
    obtain rfl := Option.some.inj hop
    obtain ⟨rfl, rfl⟩ := Prod.mk.inj (Option.some.inj hg)
    decide
  | 1 =>
    obtain rfl := Option.some.inj hop
    obtain ⟨rfl, rfl⟩ := Prod.mk.inj (Option.some.inj hg)
    decide
  | n+2 => cases hop

end ResidentInference.KVCache

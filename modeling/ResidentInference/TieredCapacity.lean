import ResidentInference.EvictionLoop
import ResidentInference.TieredReads

/-! When the tiered cache makes room. The eviction loop of CPU memory always ends; that of the GPU
goes on for ever when the usage falls to the budget before there is room and another block is
next, because an evicted block then goes back to the GPU. -/
namespace ResidentInference
open StateTransition

namespace TieredKVCache
variable {ν π : Type} {codec : BlockCodec ν π} {s s' : TieredKVCache ν π}

/-- The GPU tier as the eviction loop sees it. -/
def gpuView (codec : BlockCodec ν π) (s : TieredKVCache ν π) : EvictionLoop.View BlockKey where
  order := (s.lru .gpu).keys
  nodup := (s.lru .gpu).nodup_keys
  held := fun key => (s.gpuStore.get? key).map codec.sizeBytes
  usage := s.usage .gpu

/-- Evictions from the GPU come to a point where they write their blocks back to it. -/
def GpuStuck (codec : BlockCodec ν π) (s : TieredKVCache ν π) (needed : Int) : Prop :=
  0 < s.gpuBudgetBytes ∧ EvictionLoop.Stuck s.gpuBudgetBytes needed (s.gpuView codec)

/-- The blocks on the GPU are in its LRU order, have a location, and are part of its usage. -/
structure GpuTidy (codec : BlockCodec ν π) (s : TieredKVCache ν π) : Prop where
  order : ∀ key ∈ s.gpuStore.keys, key ∈ (s.lru .gpu).keys
  located : ∀ key ∈ s.gpuStore.keys, key ∈ s.locations.keys
  usage : (s.gpuStore.sumBy fun tensor => (codec.sizeBytes tensor : Int)) ≤ s.usage .gpu

/-- Nothing on the GPU has changed. -/
structure GpuSame (s s' : TieredKVCache ν π) : Prop where
  store : s'.gpuStore = s.gpuStore
  lru : s'.lru .gpu = s.lru .gpu
  usage : s'.usage .gpu = s.usage .gpu
  budget : s'.gpuBudgetBytes = s.gpuBudgetBytes
  located : s.locations.keys ⊆ s'.locations.keys

theorem GpuSame.refl (s : TieredKVCache ν π) : GpuSame s s :=
  ⟨rfl, rfl, rfl, rfl, fun _ h => h⟩

theorem GpuSame.trans {s'' : TieredKVCache ν π} (h : GpuSame s s') (h' : GpuSame s' s'') :
    GpuSame s s'' :=
  ⟨h'.store.trans h.store, h'.lru.trans h.lru, h'.usage.trans h.usage, h'.budget.trans h.budget,
    fun _ hk => h'.located (h.located hk)⟩

theorem GpuSame.tidy (h : GpuSame s s') (hs : GpuTidy codec s) : GpuTidy codec s' where
  order := by
    rw [h.store, h.lru]
    exact hs.order
  located := by
    rw [h.store]
    exact fun key hkey => h.located (hs.located key hkey)
  usage := by
    rw [h.store, h.usage]
    exact hs.usage

theorem GpuSame.gpuView (h : GpuSame s s') : s'.gpuView codec = s.gpuView codec := by
  simp only [TieredKVCache.gpuView, h.store, h.lru, h.usage]

theorem GpuSame.stuck_iff (h : GpuSame s s') (needed : Int) :
    s'.GpuStuck codec needed ↔ s.GpuStuck codec needed := by
  simp only [GpuStuck, h.budget, h.gpuView]

/-! ### Operations on the other tiers -/

/-- A state whose other tiers may have changed, and whose locations may have grown. -/
theorem gpuSame_of_update {tier : Tier} (h : tier ≠ .gpu) {bucket : Dict BlockKey Unit} {n : Int}
    (hstore : s'.gpuStore = s.gpuStore) (hlru : s'.lru = Function.update s.lru tier bucket)
    (husage : s'.usage = Function.update s.usage tier n)
    (hbudget : s'.gpuBudgetBytes = s.gpuBudgetBytes)
    (hlocated : s.locations.keys ⊆ s'.locations.keys) : GpuSame s s' :=
  ⟨hstore, by rw [hlru, Function.update_of_ne h.symm], by rw [husage, Function.update_of_ne h.symm],
    hbudget, hlocated⟩

theorem keys_subset_set {ν' : Type} (d : Dict BlockKey ν') (key : BlockKey) (v : ν') :
    d.keys ⊆ (d.set key v).keys := fun k hk => (d.mem_keys_set key k v).mpr (Or.inr hk)

theorem gpuSame_spill (s : TieredKVCache ν π) (key : BlockKey) (kv : ν) :
    GpuSame s (s.spill codec key kv) :=
  gpuSame_of_update (by decide : Tier.nvme ≠ .gpu) rfl rfl rfl rfl (keys_subset_set _ _ _)

/-- A write that does not pick the GPU. -/
theorem gpuSame_write {key : BlockKey} {kv : ν} (h : s.targetTier (codec.sizeBytes kv) ≠ .gpu) :
    GpuSame s (s.write codec key kv) := by
  cases htier : s.targetTier (codec.sizeBytes kv) with
  | gpu => exact absurd htier h
  | cpu =>
    simp only [write, htier]
    exact gpuSame_of_update (by decide : Tier.cpu ≠ .gpu) rfl rfl rfl rfl (keys_subset_set _ _ _)
  | nvme =>
    simp only [write, htier]
    exact (gpuSame_spill s key kv).trans ⟨rfl, rfl, rfl, rfl, fun _ hk => hk⟩

theorem gpuSame_stage (s : TieredKVCache ν π) (key : BlockKey) (tensor : ν) :
    GpuSame s (s.stage codec key tensor) :=
  gpuSame_of_update (by decide : Tier.cpu ≠ .gpu) rfl rfl rfl rfl (keys_subset_set _ _ _)

theorem gpuSame_popLru {tier : Tier} (ht : tier ≠ .gpu) {key : BlockKey}
    (h : s.popLru tier = some (key, s')) : GpuSame s s' := by
  simp only [popLru] at h
  split at h
  · cases h
  · cases h
    exact ⟨rfl, Function.update_of_ne ht.symm _ _, rfl, rfl, fun _ h => h⟩

theorem gpuSame_takeCpu (s : TieredKVCache ν π) (key : BlockKey) (tensor : ν) :
    GpuSame s (s.takeCpu codec key tensor) :=
  ⟨rfl, rfl, by simp [takeCpu, dropUsage], rfl, fun _ hk => hk⟩

theorem gpuSame_evictLru {tier : Tier} (ht : tier ≠ .gpu) : GpuSame s (s.evictLru codec tier) := by
  simp only [evictLru]
  cases hpop : s.popLru tier with
  | none => exact GpuSame.refl s
  | some p =>
    obtain ⟨key, s₁⟩ := p
    have hsame := gpuSame_popLru ht hpop
    simp only
    split
    · exact hsame
    · cases tier with
      | gpu => exact absurd rfl ht
      | nvme => exact hsame
      | cpu =>
        cases hheld : s₁.cpuStore.get? key with
        | none => exact hsame
        | some tensor =>
          exact hsame.trans ((gpuSame_takeCpu s₁ key tensor).trans (gpuSame_spill _ key tensor))

/-! ### Operations on the GPU -/

theorem gpuTidy_new (gpuBudgetBytes cpuBudgetBytes : Int) :
    GpuTidy codec (new gpuBudgetBytes cpuBudgetBytes : TieredKVCache ν π) :=
  ⟨by simp [new, Dict.keys, Dict.empty], by simp [new, Dict.keys, Dict.empty], by simp [new]⟩

theorem mem_keys_touch (s : TieredKVCache ν π) (tier : Tier) (key k : BlockKey) :
    k ∈ ((s.touch tier key).lru tier).keys ↔ k = key ∨ k ∈ (s.lru tier).keys := by
  simp only [touch, Function.update_self]
  split
  · next hin =>
    rw [Dict.mem_keys_moveToEnd]
    constructor
    · exact Or.inr
    · rintro (rfl | hk)
      · exact (Dict.contains_iff _ _).mp hin
      · exact hk
  · exact Dict.mem_keys_set _ _ _ _

theorem GpuTidy.touch (h : GpuTidy codec s) (tier : Tier) (key : BlockKey) :
    GpuTidy codec (s.touch tier key) := by
  refine ⟨fun k hk => ?_, h.located, h.usage⟩
  by_cases ht : tier = .gpu
  · subst ht
    exact (mem_keys_touch s .gpu key k).mpr (Or.inr (h.order k hk))
  · have hsame : (s.touch tier key).lru .gpu = s.lru .gpu := Function.update_of_ne (Ne.symm ht) _ _
    rw [hsame]
    exact h.order k hk

/-- A block is put on the GPU. -/
theorem GpuTidy.place (h : GpuTidy codec s) (key : BlockKey) (tensor : ν) :
    GpuTidy codec (s.place codec key tensor) := by
  refine ⟨fun k hk => (mem_keys_touch _ .gpu key k).mpr ?_, fun k hk => ?_, ?_⟩
  · exact ((Dict.mem_keys_set _ key k _).mp hk).imp id (h.order k)
  · exact (Dict.mem_keys_set _ key k _).mpr
      (((Dict.mem_keys_set _ key k _).mp hk).imp id (h.located k))
  · have hset := Dict.sumBy_set_le (f := fun t => (codec.sizeBytes t : Int))
      (fun _ => Int.natCast_nonneg _) s.gpuStore key tensor
    have husage := h.usage
    have hnew : (s.place codec key tensor).usage .gpu = s.usage .gpu + codec.sizeBytes tensor := by
      simp [TieredKVCache.place, TieredKVCache.touch, addUsage, setLocation]
    rw [hnew]
    exact hset.trans (by omega)

theorem write_of_gpu {key : BlockKey} {kv : ν} (h : s.targetTier (codec.sizeBytes kv) = .gpu) :
    s.write codec key kv =
      { s.place codec key kv with metadata := s.metadata.set key (describe codec kv false) } := by
  simp only [write, h]
  rfl

theorem GpuTidy.write (h : GpuTidy codec s) (key : BlockKey) (kv : ν) :
    GpuTidy codec (s.write codec key kv) := by
  by_cases htier : s.targetTier (codec.sizeBytes kv) = .gpu
  · rw [write_of_gpu htier]
    have hplace := h.place key kv
    exact ⟨hplace.order, hplace.located, hplace.usage⟩
  · exact (gpuSame_write htier).tidy h

/-- The state without the oldest key of the GPU in its order. -/
def withoutOldest (s : TieredKVCache ν π) (key : BlockKey) : TieredKVCache ν π :=
  { s with lru := Function.update s.lru .gpu ((s.lru .gpu).erase key) }

theorem order_withoutOldest {key : BlockKey} {r : List BlockKey}
    (ho : (s.lru .gpu).keys = key :: r) : ((s.withoutOldest key).lru .gpu).keys = r := by
  simp only [withoutOldest, Function.update_self, Dict.keys_erase_head ho]

theorem popLru_of_order {key : BlockKey} {r : List BlockKey} (ho : (s.lru .gpu).keys = key :: r) :
    s.popLru .gpu = some (key, s.withoutOldest key) := by
  simp only [popLru, ho, withoutOldest]

theorem GpuTidy.withoutOldest (h : GpuTidy codec s) {key : BlockKey} {r : List BlockKey}
    (ho : (s.lru .gpu).keys = key :: r) (hno : s.gpuStore.get? key = none) :
    GpuTidy codec (s.withoutOldest key) := by
  refine ⟨fun k hk => ?_, h.located, h.usage⟩
  have hne : k ≠ key := fun hkk => (Dict.get?_eq_none_iff _ _).mp hno (hkk ▸ hk)
  have hmem := h.order k hk
  rw [order_withoutOldest ho]
  rw [ho] at hmem
  exact (List.mem_cons.mp hmem).resolve_left hne

theorem GpuTidy.size_le (h : GpuTidy codec s) {key : BlockKey} {tensor : ν}
    (hheld : s.gpuStore.get? key = some tensor) :
    ((s.gpuStore.erase key).sumBy fun t => (codec.sizeBytes t : Int)) + codec.sizeBytes tensor ≤
        s.usage .gpu ∧ (codec.sizeBytes tensor : Int) ≤ s.usage .gpu := by
  have herase := Dict.sumBy_erase (fun t => (codec.sizeBytes t : Int)) hheld
  have hrest : 0 ≤ (s.gpuStore.erase key).sumBy fun t => (codec.sizeBytes t : Int) :=
    Dict.sumBy_nonneg fun _ _ _ => Int.natCast_nonneg _
  have husage := h.usage
  omega

/-- The state that writes an evicted block back. -/
def taken (codec : BlockCodec ν π) (s : TieredKVCache ν π) (key : BlockKey) (tensor : ν) :
    TieredKVCache ν π :=
  (s.withoutOldest key).takeGpu codec key tensor

theorem usage_taken (h : GpuTidy codec s) {key : BlockKey} {tensor : ν}
    (hheld : s.gpuStore.get? key = some tensor) :
    (s.taken codec key tensor).usage .gpu = s.usage .gpu - codec.sizeBytes tensor := by
  have hle := (h.size_le hheld).2
  have hmax : (s.taken codec key tensor).usage .gpu =
      max 0 (s.usage .gpu - codec.sizeBytes tensor) := by
    simp [taken, takeGpu, dropUsage, withoutOldest]
  rw [hmax]
  omega

theorem order_taken {key : BlockKey} {r : List BlockKey} (ho : (s.lru .gpu).keys = key :: r)
    (tensor : ν) : ((s.taken codec key tensor).lru .gpu).keys = r := by
  simpa [taken, takeGpu, dropUsage] using order_withoutOldest ho

theorem GpuTidy.taken (h : GpuTidy codec s) {key : BlockKey} {r : List BlockKey}
    (ho : (s.lru .gpu).keys = key :: r) {tensor : ν} (hheld : s.gpuStore.get? key = some tensor) :
    GpuTidy codec (s.taken codec key tensor) := by
  have hkeys (k : BlockKey) (hk : k ∈ (s.gpuStore.erase key).keys) :
      k ∈ s.gpuStore.keys ∧ k ≠ key := by simpa using hk
  refine ⟨fun k hk => ?_, fun k hk => h.located k (hkeys k hk).1, ?_⟩
  · have hmem := h.order k (hkeys k hk).1
    rw [order_taken ho]
    rw [ho] at hmem
    exact (List.mem_cons.mp hmem).resolve_left (hkeys k hk).2
  · rw [usage_taken h hheld]
    have hle := (h.size_le hheld).1
    have hstore : (s.taken codec key tensor).gpuStore = s.gpuStore.erase key := rfl
    rw [hstore]
    omega

/-- An eviction from the GPU drops a key that has no block. -/
theorem evictLru_of_not_held {key : BlockKey} {r : List BlockKey}
    (ho : (s.lru .gpu).keys = key :: r) (hheld : s.gpuStore.get? key = none) :
    s.evictLru codec .gpu = s.withoutOldest key := by
  have hstore : (s.withoutOldest key).gpuStore = s.gpuStore := rfl
  simp only [evictLru, popLru_of_order ho, hstore, hheld]
  simp

/-- An eviction from the GPU writes a block again. -/
theorem evictLru_of_held (h : GpuTidy codec s) {key : BlockKey} {r : List BlockKey}
    (ho : (s.lru .gpu).keys = key :: r) {tensor : ν} (hheld : s.gpuStore.get? key = some tensor) :
    s.evictLru codec .gpu = (s.taken codec key tensor).write codec key tensor := by
  have hstore : (s.withoutOldest key).gpuStore = s.gpuStore := rfl
  have hlocations : (s.withoutOldest key).locations = s.locations := rfl
  have hloc : s.locations.contains key = true :=
    (Dict.contains_iff _ _).mpr (h.located key (Dict.mem_keys_of_get? hheld))
  simp only [evictLru, popLru_of_order ho, hstore, hlocations, hheld, hloc, Bool.true_eq_false,
    if_false, taken]

theorem GpuTidy.evictLru (h : GpuTidy codec s) (tier : Tier) :
    GpuTidy codec (s.evictLru codec tier) := by
  by_cases ht : tier = .gpu
  · subst ht
    cases ho : (s.lru .gpu).keys with
    | nil => simpa only [TieredKVCache.evictLru, popLru, ho] using h
    | cons key r =>
      cases hheld : s.gpuStore.get? key with
      | none =>
        rw [evictLru_of_not_held ho hheld]
        exact h.withoutOldest ho hheld
      | some tensor =>
        rw [evictLru_of_held h ho hheld]
        exact (h.taken ho hheld).write key tensor
  · exact (gpuSame_evictLru ht).tidy h

/-! ### The loop on the GPU -/

theorem targetTier_eq_gpu_iff (s : TieredKVCache ν π) (n : Int) :
    s.targetTier n = .gpu ↔ 0 < s.gpuBudgetBytes ∧ s.usage .gpu + n ≤ s.gpuBudgetBytes := by
  simp only [targetTier]
  grind

theorem order_place {key : BlockKey} (h : key ∉ (s.lru .gpu).keys) (tensor : ν) :
    ((s.place codec key tensor).lru .gpu).keys = (s.lru .gpu).keys ++ [key] := by
  have hout : ¬ (s.lru .gpu).contains key = true := by rwa [Dict.contains_iff]
  simp [place, touch, addUsage, setLocation, hout, Dict.keys_set_of_not_mem _ h]

section
variable {key : BlockKey} {r : List BlockKey} {tensor : ν}

theorem gpuView_withoutOldest (ho : (s.lru .gpu).keys = key :: r)
    (hheld : s.gpuStore.get? key = none) :
    (s.withoutOldest key).gpuView codec =
      EvictionLoop.turn s.gpuBudgetBytes (s.gpuView codec) := by
  have hview : (s.gpuView codec).order = key :: r := ho
  have hnone : (s.gpuView codec).held key = none := by simp [gpuView, hheld]
  obtain ⟨horder, hsame, husage⟩ :=
    EvictionLoop.turn_of_not_held s.gpuBudgetBytes hview hnone
  refine EvictionLoop.View.ext ((order_withoutOldest ho).trans horder.symm) ?_ ?_
  · rw [hsame]
    rfl
  · rw [husage]
    rfl

theorem gpuView_held (hheld : s.gpuStore.get? key = some tensor) :
    (s.gpuView codec).held key = some (codec.sizeBytes tensor) := by
  simp [gpuView, hheld]

/-- An evicted block has room on the GPU when the usage was within the budget. -/
theorem targetTier_taken (h : GpuTidy codec s) (hheld : s.gpuStore.get? key = some tensor) :
    (s.taken codec key tensor).targetTier (codec.sizeBytes tensor) = .gpu ↔
      0 < s.gpuBudgetBytes ∧ s.usage .gpu ≤ s.gpuBudgetBytes := by
  have hbudget : (s.taken codec key tensor).gpuBudgetBytes = s.gpuBudgetBytes := rfl
  rw [targetTier_eq_gpu_iff, usage_taken h hheld, hbudget, Int.sub_add_cancel]

/-- Over budget an evicted block leaves the GPU. -/
theorem gpuView_write_over (h : GpuTidy codec s) (ho : (s.lru .gpu).keys = key :: r)
    (hheld : s.gpuStore.get? key = some tensor) (hover : s.gpuBudgetBytes < s.usage .gpu) :
    ((s.taken codec key tensor).write codec key tensor).gpuView codec =
        EvictionLoop.turn s.gpuBudgetBytes (s.gpuView codec) ∧
      ((s.taken codec key tensor).write codec key tensor).gpuBudgetBytes = s.gpuBudgetBytes := by
  have hview : (s.gpuView codec).order = key :: r := ho
  have husage := usage_taken h hheld
  obtain ⟨horder, hupdate, hleft⟩ := EvictionLoop.turn_of_over hview (gpuView_held hheld) hover
  have htier : (s.taken codec key tensor).targetTier (codec.sizeBytes tensor) ≠ .gpu := by
    rw [Ne, targetTier_taken h hheld]
    exact fun hfits => hover.not_ge hfits.2
  have hsame : GpuSame (s.taken codec key tensor)
      ((s.taken codec key tensor).write codec key tensor) := gpuSame_write htier
  refine ⟨?_, hsame.budget⟩
  rw [hsame.gpuView]
  refine EvictionLoop.View.ext ((order_taken ho tensor).trans horder.symm) ?_
    (husage.trans hleft.symm)
  rw [hupdate]
  funext k
  by_cases hk : k = key
  · simp [gpuView, taken, takeGpu, dropUsage, withoutOldest, Dict.get?_erase, hk]
  · simp [gpuView, taken, takeGpu, dropUsage, withoutOldest, Dict.get?_erase, hk]

/-- Within the budget an evicted block goes back to the GPU. -/
theorem gpuView_write_fits (h : GpuTidy codec s) (hbudget : 0 < s.gpuBudgetBytes)
    (ho : (s.lru .gpu).keys = key :: r) (hheld : s.gpuStore.get? key = some tensor)
    (hfits : s.usage .gpu ≤ s.gpuBudgetBytes) :
    ((s.taken codec key tensor).write codec key tensor).gpuView codec =
        EvictionLoop.turn s.gpuBudgetBytes (s.gpuView codec) ∧
      ((s.taken codec key tensor).write codec key tensor).gpuBudgetBytes = s.gpuBudgetBytes := by
  have hview : (s.gpuView codec).order = key :: r := ho
  have husage := usage_taken h hheld
  obtain ⟨horder, hsame, hleft⟩ := EvictionLoop.turn_of_fits hview (gpuView_held hheld) hfits
  have htier : (s.taken codec key tensor).targetTier (codec.sizeBytes tensor) = .gpu :=
    (targetTier_taken h hheld).mpr ⟨hbudget, hfits⟩
  have hnew : key ∉ ((s.taken codec key tensor).lru .gpu).keys := by
    rw [order_taken ho]
    exact (List.nodup_cons.mp (ho ▸ (s.lru .gpu).nodup_keys)).1
  rw [write_of_gpu htier]
  refine ⟨EvictionLoop.View.ext ?_ ?_ ?_, rfl⟩
  · rw [horder, ← order_taken ho tensor]
    exact order_place hnew tensor
  · rw [hsame]
    funext k
    by_cases hk : k = key
    · simp [gpuView, place, taken, takeGpu, dropUsage, withoutOldest, touch, addUsage, setLocation,
        Dict.get?_set, hk, hheld]
    · simp [gpuView, place, taken, takeGpu, dropUsage, withoutOldest, touch, addUsage, setLocation,
        Dict.get?_set, Dict.get?_erase, hk]
  · rw [hleft]
    have hplace : ((s.taken codec key tensor).place codec key tensor).usage .gpu =
        (s.taken codec key tensor).usage .gpu + codec.sizeBytes tensor := by
      simp [place, touch, addUsage, setLocation]
    change ((s.taken codec key tensor).place codec key tensor).usage .gpu = s.usage .gpu
    rw [hplace, husage]
    omega

end

/-- Seen from the GPU an eviction is a turn of the eviction loop. -/
theorem gpuView_evictLru (h : GpuTidy codec s) (hbudget : 0 < s.gpuBudgetBytes) :
    (s.evictLru codec .gpu).gpuView codec =
        EvictionLoop.turn s.gpuBudgetBytes (s.gpuView codec) ∧
      (s.evictLru codec .gpu).gpuBudgetBytes = s.gpuBudgetBytes := by
  cases ho : (s.lru .gpu).keys with
  | nil =>
    have hsame : s.evictLru codec .gpu = s := by simp only [evictLru, popLru, ho]
    have hview : (s.gpuView codec).order = [] := ho
    rw [hsame]
    simp [EvictionLoop.turn, hview]
  | cons key r =>
    cases hheld : s.gpuStore.get? key with
    | none =>
      rw [evictLru_of_not_held ho hheld]
      exact ⟨gpuView_withoutOldest ho hheld, rfl⟩
    | some tensor =>
      rw [evictLru_of_held h ho hheld]
      by_cases hover : s.gpuBudgetBytes < s.usage .gpu
      · exact gpuView_write_over h ho hheld hover
      · exact gpuView_write_fits h hbudget ho hheld (not_lt.mp hover)

variable (codec) in
theorem overfull_gpuView_iff (hbudget : 0 < s.gpuBudgetBytes) (needed : Int) :
    s.Overfull .gpu needed ↔ EvictionLoop.Overfull s.gpuBudgetBytes needed (s.gpuView codec) := by
  simp [Overfull, EvictionLoop.Overfull, gpuView, Dict.keys, hbudget]

/-- The loop of the GPU ends exactly when it is not stuck. -/
theorem ensureCapacity_gpu_dom_iff (h : GpuTidy codec s) (needed : Int) :
    (s.ensureCapacity codec .gpu needed).Dom ↔ ¬ s.GpuStuck codec needed := by
  by_cases hbudget : 0 < s.gpuBudgetBytes
  · have hrespects : Respects (evictOnce codec .gpu needed)
        (EvictionLoop.loop s.gpuBudgetBytes needed)
        fun (u : TieredKVCache ν π) v => GpuTidy codec u ∧ u.gpuBudgetBytes = s.gpuBudgetBytes ∧
          u.gpuView codec = v := by
      rintro u v ⟨htidy, hsame, rfl⟩
      have hiff := overfull_gpuView_iff codec (hsame.symm ▸ hbudget) needed
      by_cases hover : u.Overfull .gpu needed
      · obtain ⟨hview, hkeep⟩ := gpuView_evictLru htidy (hsame.symm ▸ hbudget)
        rw [evictOnce, if_pos hover]
        refine ⟨_, ⟨htidy.evictLru .gpu, hkeep.trans hsame, rfl⟩, Relation.TransGen.single ?_⟩
        rw [EvictionLoop.loop, if_pos (hsame ▸ hiff.mp hover), hview, hsame]
        rfl
      · rw [evictOnce, if_neg hover]
        exact if_neg (hsame ▸ fun hv => hover (hiff.mpr hv))
    rw [ensureCapacity, ← tr_eval_dom hrespects ⟨h, rfl, rfl⟩, EvictionLoop.loop_dom_iff]
    simp only [GpuStuck, hbudget, true_and]
  · have hroom : ¬ s.Overfull .gpu needed := fun hover => hbudget hover.1
    have hdom : (s.ensureCapacity codec .gpu needed).Dom :=
      Part.dom_iff_mem.mpr ⟨s, ensureCapacity_of_room hroom⟩
    simp [GpuStuck, hbudget, hdom]

/-! ### The loop of CPU memory -/

/-- An eviction from CPU memory takes its oldest key out of the order. -/
theorem order_evictLru_cpu {key : BlockKey} {r : List BlockKey}
    (ho : (s.lru .cpu).keys = key :: r) : ((s.evictLru codec .cpu).lru .cpu).keys = r := by
  have hpop : s.popLru .cpu =
      some (key, { s with lru := Function.update s.lru .cpu ((s.lru .cpu).erase key) }) := by
    simp only [popLru, ho]
  simp only [evictLru, hpop]
  split
  · simp only [Function.update_self, Dict.keys_erase_head ho]
  · cases hheld : s.cpuStore.get? key with
    | none => simp only [Function.update_self, Dict.keys_erase_head ho]
    | some tensor =>
      simp [spill, takeCpu, dropUsage, touch, addUsage, setLocation, Dict.keys_erase_head ho,
        -Dict.keys_erase]

theorem ensureCapacity_cpu_dom (codec : BlockCodec ν π) (s : TieredKVCache ν π) (needed : Int) :
    (s.ensureCapacity codec .cpu needed).Dom := by
  have hstep (u v : TieredKVCache ν π) (_ : True) (h : evictOnce codec .cpu needed u = some v) :
      True ∧ (v.lru .cpu).keys.length < (u.lru .cpu).keys.length := by
    obtain ⟨hover, rfl⟩ := evictOnce_eq_some h
    cases ho : (u.lru .cpu).keys with
    | nil => exact absurd (List.map_eq_nil_iff.mp ho) hover.2.2
    | cons key r =>
      rw [order_evictLru_cpu ho]
      exact ⟨trivial, Nat.lt_succ_self _⟩
  obtain ⟨last, hlast, -⟩ :=
    Runs.exists_last (fun u : TieredKVCache ν π => (u.lru .cpu).keys.length) hstep s trivial
  exact Part.dom_iff_mem.mpr ⟨last, hlast⟩

theorem gpuSame_ensureCapacity {tier : Tier} (ht : tier ≠ .gpu) {needed : Int}
    (hs' : s' ∈ s.ensureCapacity codec tier needed) : GpuSame s s' :=
  ensureCapacity_invariant (P := fun u => GpuSame s u) hs' (GpuSame.refl s)
    fun _ _ _ hsame => hsame.trans (gpuSame_evictLru ht)

/-! ### Reading -/

/-- The block that a read puts on the GPU. -/
def promoted (codec : BlockCodec ν π) (s : TieredKVCache ν π) (key : BlockKey) : Option ν :=
  match s.gpuStore.get? key with
  | some _ => none
  | none =>
    match s.cpuStore.get? key with
    | some tensor => some tensor
    | none =>
      if s.tierOf key = some .nvme then (s.readNvmeToCpu codec key).toOption else none

theorem promoteCpuToGpu_dom_iff (h : GpuTidy codec s) {key : BlockKey} {tensor : ν}
    (hheld : s.cpuStore.get? key = some tensor) :
    (s.promoteCpuToGpu codec key).Dom ↔ ¬ s.GpuStuck codec (codec.sizeBytes tensor) := by
  rw [← ensureCapacity_gpu_dom_iff h, promoteCpuToGpu_of_held hheld]
  rfl

/-- A read ends exactly when the loop for the block that it promotes is not stuck. -/
theorem read_dom_iff (h : GpuTidy codec s) (key : BlockKey) :
    (s.read codec key).Dom ↔
      ∀ tensor ∈ s.promoted codec key, ¬ s.GpuStuck codec (codec.sizeBytes tensor) := by
  cases hgpu : s.gpuStore.get? key with
  | some tensor => simp [read_of_gpu hgpu, promoted, hgpu]
  | none =>
    cases hcpu : s.cpuStore.get? key with
    | some tensor =>
      rw [read_of_cpu hgpu hcpu, promoteCpuToGpu_dom_iff h hcpu]
      simp only [promoted, hgpu, hcpu, Option.mem_some_iff, forall_eq']
    | none =>
      by_cases htier : s.tierOf key = some .nvme
      · cases hfile : s.readNvmeToCpu codec key with
        | error e =>
          simp [read_of_bad_file hgpu hcpu htier hfile, promoted, hgpu, hcpu, hfile,
            Except.toOption]
        | ok tensor =>
          have hroom := ensureCapacity_cpu_dom codec s (codec.sizeBytes tensor)
          have hstaged : GpuSame s
              (((s.ensureCapacity codec .cpu (codec.sizeBytes tensor)).get hroom).stage codec key
                tensor) :=
            (gpuSame_ensureCapacity (by decide) (Part.get_mem hroom)).trans (gpuSame_stage _ _ _)
          have hpromoted : s.promoted codec key = some tensor := by
            simp only [promoted, hgpu, hcpu, htier, hfile, if_true, Except.toOption]
          simp only [hpromoted, Option.mem_some_iff, forall_eq']
          rw [read_of_file hgpu hcpu htier hfile, Part.bind_dom, ← hstaged.stuck_iff]
          constructor
          · intro hread
            obtain ⟨_, hdom⟩ := hread
            exact (promoteCpuToGpu_dom_iff (hstaged.tidy h) (stage_held _ key tensor)).mp hdom
          · intro hfree
            exact ⟨hroom,
              (promoteCpuToGpu_dom_iff (hstaged.tidy h) (stage_held _ key tensor)).mpr hfree⟩
      · simp [read_of_missing hgpu hcpu htier, promoted, hgpu, hcpu, htier]

/-! ### Whole runs -/

theorem GpuTidy.ensureCapacity (h : GpuTidy codec s) {tier : Tier} {needed : Int}
    (hs' : s' ∈ s.ensureCapacity codec tier needed) : GpuTidy codec s' :=
  ensureCapacity_invariant (P := fun u => GpuTidy codec u) hs' h
    fun _ _ _ htidy => htidy.evictLru tier

theorem GpuTidy.read (h : GpuTidy codec s) {key : BlockKey} {res : Except TieredFault ν}
    (hr : (res, s') ∈ s.read codec key) : GpuTidy codec s' := by
  cases read_ends hr with
  | gpu tensor held => exact h.touch .gpu key
  | cpu tensor room gpu held made => exact (h.ensureCapacity made).place key tensor
  | nvme tensor staging room gpu cpu tier file made made' =>
    have hstaged : GpuTidy codec (staging.stage codec key tensor) :=
      (gpuSame_stage staging key tensor).tidy (h.ensureCapacity made)
    exact (hstaged.ensureCapacity made').place key tensor
  | raised e => exact h

theorem GpuTidy.allocateBlock (h : GpuTidy codec s) (key : BlockKey) :
    GpuTidy codec (s.allocateBlock key).2 := by
  have hnew (tier : Tier) (offset : Int) (location : BlockLocation) :
      GpuTidy codec { s.addUsage tier (4 * 1024 * 1024) with
        offset := offset
        locations := s.locations.set key location
        metadata := s.metadata.set key { shape := none, dtype := none, compressed := false } } := by
    refine ⟨h.order, fun k hk => keys_subset_set _ _ _ (h.located k hk), h.usage.trans ?_⟩
    by_cases ht : tier = .gpu
    · simp [addUsage, ht]
    · simp [addUsage, Function.update_of_ne (Ne.symm ht)]
  simp only [TieredKVCache.allocateBlock]
  cases s.locations.get? key with
  | some location => exact h.touch location.tier key
  | none =>
    simp only
    split
    · exact (hnew .gpu s.offset _).touch .gpu key
    · split
      · exact (hnew .cpu s.offset _).touch .cpu key
      · exact (hnew .nvme (s.offset + 4 * 1024 * 1024) _).touch .nvme key

end TieredKVCache

/-- One call of an operation of the tiered cache, allocations included. -/
inductive TieredCall (ν : Type) where
  | access (op : TieredOp ν)
  | allocateBlock (key : BlockKey)

/-- The cache that the call leaves behind, when it returns or raises. -/
def TieredCall.apply {ν π : Type} (codec : BlockCodec ν π) (s : TieredKVCache ν π) :
    TieredCall ν → Part (TieredKVCache ν π)
  | .access op => op.apply codec s
  | .allocateBlock key => Part.some (s.allocateBlock key).2

namespace TieredKVCache
variable {ν π : Type} {codec : BlockCodec ν π} {s s' : TieredKVCache ν π}

/-- A sequence of calls, each of which returns or raises. -/
def runCalls (codec : BlockCodec ν π) :
    List (TieredCall ν) → TieredKVCache ν π → Part (TieredKVCache ν π)
  | [], s => Part.some s
  | call :: calls, s => (call.apply codec s).bind (runCalls codec calls)

theorem GpuTidy.apply (h : GpuTidy codec s) {call : TieredCall ν} (hs' : s' ∈ call.apply codec s) :
    GpuTidy codec s' := by
  cases call with
  | allocateBlock key =>
    cases Part.mem_some_iff.mp hs'
    exact h.allocateBlock key
  | access op =>
    cases op with
    | write key kv =>
      cases Part.mem_some_iff.mp hs'
      exact h.write key kv
    | read key =>
      obtain ⟨p, hp, rfl⟩ := (Part.mem_map_iff _).mp hs'
      exact h.read hp
    | evict strategy tier =>
      cases Part.mem_some_iff.mp hs'
      obtain ⟨-, heq⟩ | ⟨-, heq⟩ := evict_cases codec s strategy tier
      · rw [heq]
        exact h.evictLru _
      · rw [heq]
        exact h

theorem GpuTidy.runCalls (h : GpuTidy codec s) (calls : List (TieredCall ν))
    (hs' : s' ∈ runCalls codec calls s) : GpuTidy codec s' := by
  induction calls generalizing s with
  | nil =>
    cases Part.mem_some_iff.mp hs'
    exact h
  | cons call calls ih =>
    obtain ⟨s₁, hs₁, hrest⟩ := Part.mem_bind_iff.mp hs'
    exact ih (h.apply hs₁) hrest

/-- In every state that calls lead to the loop that makes room ends, except on a GPU that is
stuck; and so does a read, except when the loop for the block that it promotes is stuck. -/
theorem makes_room_iff_not_stuck (gpuBudgetBytes cpuBudgetBytes : Int)
    (calls : List (TieredCall ν))
    (hs : s ∈ runCalls codec calls (new gpuBudgetBytes cpuBudgetBytes)) :
    (∀ tier needed, tier ≠ .nvme → 0 ≤ needed →
      ((s.ensureCapacity codec tier needed).Dom ↔
        ¬ (tier = .gpu ∧ s.GpuStuck codec needed))) ∧
    ∀ key, (s.read codec key).Dom ↔
      ∀ tensor ∈ s.promoted codec key, ¬ s.GpuStuck codec (codec.sizeBytes tensor) := by
  have htidy := (gpuTidy_new gpuBudgetBytes cpuBudgetBytes).runCalls calls hs
  refine ⟨fun tier needed htier _ => ?_, read_dom_iff htidy⟩
  cases tier with
  | gpu => simpa using ensureCapacity_gpu_dom_iff htidy needed
  | cpu => simpa using ensureCapacity_cpu_dom codec s needed
  | nvme => exact absurd rfl htier

/-- A block of two bytes on a GPU with a budget of four, and a block of four in CPU memory. -/
def fullGpu : TieredKVCache (List Int) (List Int) :=
  ((new 4 8).write halves (0, 0) [1]).write halves (0, 1) [1, 2]

theorem fullGpu_mem_runCalls : fullGpu ∈
    runCalls halves [.access (.write (0, 0) [1]), .access (.write (0, 1) [1, 2])] (new 4 8) := by
  simp only [runCalls, TieredCall.apply, TieredOp.apply, Part.bind_some, Part.mem_some_iff]
  rfl

theorem fullGpu_stuck : fullGpu.GpuStuck halves 4 :=
  ⟨by decide, [], [(0, 0)], by decide, by decide, by decide, (0, 0), by decide, by decide⟩

/-- Room for the second block is never made: the first one is evicted to where it was. -/
theorem gpu_never_makes_room : ∃ s ∈ runCalls halves
      [.access (.write (0, 0) [1]), .access (.write (0, 1) [1, 2])] (new 4 8),
    ¬ (s.ensureCapacity halves .gpu 4).Dom ∧ ¬ (s.read halves (0, 1)).Dom := by
  have htidy : GpuTidy halves fullGpu := (gpuTidy_new 4 8).runCalls _ fullGpu_mem_runCalls
  refine ⟨fullGpu, fullGpu_mem_runCalls, ?_, ?_⟩
  · rw [ensureCapacity_gpu_dom_iff htidy]
    exact not_not.mpr fullGpu_stuck
  · rw [read_dom_iff htidy]
    intro hfree
    exact hfree [1, 2] (by decide) fullGpu_stuck

/-- A block of two bytes still fits on the GPU. -/
theorem fullGpu_not_stuck : ¬ fullGpu.GpuStuck halves 2 := by
  rintro ⟨-, l, r, horder, -, hover, -⟩
  have hlist : [(0, 0)] = l ++ r := horder
  cases l with
  | nil =>
    revert hover
    decide
  | cons key l =>
    obtain ⟨rfl, hnil⟩ := List.cons.inj hlist
    obtain ⟨rfl, -⟩ := List.append_eq_nil_iff.mp hnil.symm
    revert hover
    decide

/-- There is room on the GPU for a block of two bytes, room in CPU memory once its block has been
evicted, and the block on the GPU is read. -/
theorem makes_room_on_full_gpu :
    (fullGpu.ensureCapacity halves .gpu 2).Dom ∧ (fullGpu.ensureCapacity halves .cpu 8).Dom ∧
      (fullGpu.read halves (0, 0)).Dom := by
  obtain ⟨hroom, hread⟩ := makes_room_iff_not_stuck 4 8 _ fullGpu_mem_runCalls
  refine ⟨(hroom .gpu 2 (by decide) (by decide)).mpr fun hstuck => fullGpu_not_stuck hstuck.2,
    (hroom .cpu 8 (by decide) (by decide)).mpr fun hgpu => ?_,
    (hread (0, 0)).mpr fun tensor hpromoted => ?_⟩
  · cases hgpu.1
  · cases hpromoted

end TieredKVCache
end ResidentInference

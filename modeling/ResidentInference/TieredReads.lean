import ResidentInference.TieredCache

/-! What a read of the tiered cache finds. The cache may hold several copies of a block; seen as
a map from keys to values it holds the last values that were written as long as no write goes to
a tier behind a copy with another value. -/
namespace ResidentInference
open StateTransition

/-! ### The copies of one block -/

/-- All that the cache holds of one key. -/
structure Copies (ν π : Type) where
  gpu : Option ν
  cpu : Option ν
  tier : Option Tier
  file : Option π
  metadata : Option BlockMetadata

namespace Copies
variable {ν π : Type}

/-- The copies after a write to that tier. -/
def store (codec : BlockCodec ν π) (c : Copies ν π) (kv : ν) : Tier → Copies ν π
  | .gpu =>
    { c with
      gpu := some kv
      tier := some .gpu
      metadata := some (TieredKVCache.describe codec kv false) }
  | .cpu =>
    { c with
      cpu := some kv
      tier := some .cpu
      metadata := some (TieredKVCache.describe codec kv false) }
  | .nvme =>
    { c with
      file := some (codec.compressBlock kv)
      tier := some .nvme
      metadata := some (TieredKVCache.describe codec kv true) }

/-- The copies that a read finds before it looks at that tier. -/
def before (c : Copies ν π) : Tier → Option ν
  | .gpu => none
  | .cpu => c.gpu
  | .nvme => c.gpu.or c.cpu

/-- A write of the value to that tier is not hidden behind another value. -/
def Unshadowed (c : Copies ν π) (kv : ν) (tier : Tier) : Prop := ∀ v ∈ c.before tier, v = kv

/-- What a read finds first is the value `last`, and the metadata describe it. -/
structure Yields (codec : BlockCodec ν π) (c : Copies ν π) (last : Option ν) : Prop where
  gpu : ∀ v ∈ c.gpu, last = some v
  cpu : c.gpu = none → ∀ v ∈ c.cpu, last = some v
  file : c.gpu = none → c.cpu = none → c.tier = some .nvme →
    ∀ payload ∈ c.file, ∃ v, last = some v ∧ payload = codec.compressBlock v
  metadata : ∀ m ∈ c.metadata,
    ∃ v, last = some v ∧ m.shape = some (codec.shape v) ∧ m.dtype = some (codec.dtype v)

variable {codec : BlockCodec ν π} {c : Copies ν π}

/-- A write that is not hidden is what the next read finds, whatever was there before. -/
theorem Unshadowed.yields {kv : ν} {tier : Tier} (h : c.Unshadowed kv tier) :
    (c.store codec kv tier).Yields codec (some kv) := by
  have hmeta : ∀ compressed, ∀ m ∈ some (TieredKVCache.describe codec kv compressed),
      ∃ v, some kv = some v ∧ m.shape = some (codec.shape v) ∧ m.dtype = some (codec.dtype v) := by
    intro compressed m hm
    cases hm
    exact ⟨kv, rfl, rfl, rfl⟩
  cases tier with
  | gpu =>
    refine ⟨fun v hv => hv, fun hno => ?_, fun hno => ?_, hmeta false⟩
    · cases hno
    · cases hno
  | cpu =>
    refine ⟨fun v hv => ?_, fun _ v hv => hv, fun _ hno => ?_, hmeta false⟩
    · exact congrArg some (h v hv).symm
    · cases hno
  | nvme =>
    refine ⟨fun v hv => ?_, fun hgpu v hv => ?_, fun _ _ _ payload hp => ?_, hmeta true⟩
    · have hfirst : v ∈ c.before .nvme := by
        rw [before, show c.gpu = some v from hv]
        rfl
      exact congrArg some (h v hfirst).symm
    · have hfirst : v ∈ c.before .nvme := by
        rw [before, show c.gpu = none from hgpu]
        exact hv
      exact congrArg some (h v hfirst).symm
    · exact ⟨kv, rfl, (Option.some.inj hp).symm⟩

/-- A copy that hides a write is still the first one after it. -/
theorem first_store {kv v : ν} {tier : Tier} (h : c.before tier = some v) :
    (c.store codec kv tier).before .nvme = some v := by
  cases tier with
  | gpu => cases h
  | cpu =>
    have hgpu : c.gpu = some v := h
    simp only [before, store, hgpu, Option.some_or]
  | nvme => exact h

/-- A further copy of the value that a read finds anyway. -/
theorem Yields.place {v : ν} (h : c.Yields codec (some v)) :
    { c with gpu := some v, tier := some .gpu }.Yields codec (some v) where
  gpu := fun _ hv => hv
  cpu := by
    intro hno
    cases hno
  file := by
    intro hno
    cases hno
  metadata := h.metadata

theorem Yields.stage {v : ν} (h : c.Yields codec (some v)) :
    { c with cpu := some v, tier := some .cpu }.Yields codec (some v) where
  gpu := h.gpu
  cpu := fun _ _ hv => hv
  file := by
    intro _ hno
    cases hno
  metadata := h.metadata

/-- The copy in CPU memory moves to the file. -/
theorem Yields.spill {last : Option ν} {v : ν} (h : c.Yields codec last) (hv : c.cpu = some v) :
    { c with
      cpu := none
      file := some (codec.compressBlock v)
      tier := some .nvme }.Yields codec last where
  gpu := h.gpu
  cpu := by
    intro _ v' hv'
    cases hv'
  file := by
    intro hgpu _ _ payload hp
    exact ⟨v, h.cpu hgpu v hv, (Option.some.inj hp).symm⟩
  metadata := h.metadata

end Copies

namespace TieredKVCache
variable {ν π : Type} {codec : BlockCodec ν π} {s s' : TieredKVCache ν π}

def copies (s : TieredKVCache ν π) (key : BlockKey) : Copies ν π where
  gpu := s.gpuStore.get? key
  cpu := s.cpuStore.get? key
  tier := s.tierOf key
  file := s.nvmeFiles.get? key
  metadata := s.metadata.get? key

/-! ### What the operations do to the copies -/

@[simp] theorem copies_touch (s : TieredKVCache ν π) (tier : Tier) (key k : BlockKey) :
    (s.touch tier key).copies k = s.copies k := rfl

theorem copies_spill (codec : BlockCodec ν π) (s : TieredKVCache ν π) (key : BlockKey) (kv : ν)
    (k : BlockKey) :
    (s.spill codec key kv).copies k =
      if k = key then
        { s.copies k with file := some (codec.compressBlock kv), tier := some .nvme }
      else s.copies k := by
  by_cases hk : k = key
  · simp [copies, spill, touch, addUsage, setLocation, tierOf, Dict.get?_set, hk]
  · simp [copies, spill, touch, addUsage, setLocation, tierOf, Dict.get?_set, hk]

/-- A write changes the copies of its key only. -/
theorem copies_write (codec : BlockCodec ν π) (s : TieredKVCache ν π) (key : BlockKey) (kv : ν)
    (k : BlockKey) :
    (s.write codec key kv).copies k =
      if k = key then (s.copies k).store codec kv (s.targetTier (codec.sizeBytes kv))
      else s.copies k := by
  unfold write
  dsimp only
  cases s.targetTier (codec.sizeBytes kv) with
  | gpu =>
    by_cases hk : k = key
    · simp [copies, touch, addUsage, setLocation, tierOf, Copies.store, Dict.get?_set, hk]
    · simp [copies, touch, addUsage, setLocation, tierOf, Dict.get?_set, hk]
  | cpu =>
    by_cases hk : k = key
    · simp [copies, touch, addUsage, setLocation, tierOf, Copies.store, Dict.get?_set, hk]
    · simp [copies, touch, addUsage, setLocation, tierOf, Dict.get?_set, hk]
  | nvme =>
    by_cases hk : k = key
    · simp [copies, spill, touch, addUsage, setLocation, tierOf, Copies.store, Dict.get?_set, hk]
    · simp [copies, spill, touch, addUsage, setLocation, tierOf, Dict.get?_set, hk]

theorem copies_place (codec : BlockCodec ν π) (s : TieredKVCache ν π) (key : BlockKey)
    (tensor : ν) (k : BlockKey) :
    (s.place codec key tensor).copies k =
      if k = key then { s.copies k with gpu := some tensor, tier := some .gpu }
      else s.copies k := by
  by_cases hk : k = key
  · simp [copies, place, touch, addUsage, setLocation, tierOf, Dict.get?_set, hk]
  · simp [copies, place, touch, addUsage, setLocation, tierOf, Dict.get?_set, hk]

theorem copies_stage (codec : BlockCodec ν π) (s : TieredKVCache ν π) (key : BlockKey)
    (tensor : ν) (k : BlockKey) :
    (s.stage codec key tensor).copies k =
      if k = key then { s.copies k with cpu := some tensor, tier := some .cpu }
      else s.copies k := by
  by_cases hk : k = key
  · simp [copies, stage, touch, addUsage, setLocation, tierOf, Dict.get?_set, hk]
  · simp [copies, stage, touch, addUsage, setLocation, tierOf, Dict.get?_set, hk]

theorem copies_takeGpu (codec : BlockCodec ν π) (s : TieredKVCache ν π) {key k : BlockKey}
    (tensor : ν) (hk : k ≠ key) : (s.takeGpu codec key tensor).copies k = s.copies k := by
  simp [copies, takeGpu, dropUsage, tierOf, Dict.get?_erase, hk]

theorem copies_takeCpu (codec : BlockCodec ν π) (s : TieredKVCache ν π) (key : BlockKey)
    (tensor : ν) (k : BlockKey) :
    (s.takeCpu codec key tensor).copies k =
      if k = key then { s.copies k with cpu := none } else s.copies k := by
  by_cases hk : k = key
  · simp [copies, takeCpu, dropUsage, tierOf, Dict.get?_erase, hk]
  · simp [copies, takeCpu, dropUsage, tierOf, Dict.get?_erase, hk]

theorem copies_popLru {tier : Tier} {key : BlockKey} (h : s.popLru tier = some (key, s'))
    (k : BlockKey) : s'.copies k = s.copies k := by
  unfold popLru at h
  split at h
  · cases h
  · cases h
    rfl

/-- A write whose tier is not behind a copy with another value. -/
def Unshadowed (codec : BlockCodec ν π) (s : TieredKVCache ν π) (key : BlockKey) (kv : ν) : Prop :=
  (s.copies key).Unshadowed kv (s.targetTier (codec.sizeBytes kv))

/-- The write that an eviction from the GPU ends in: the cache without the block, and the block. -/
def writeBack (codec : BlockCodec ν π) (s : TieredKVCache ν π) :
    Option (TieredKVCache ν π × BlockKey × ν) :=
  match s.popLru .gpu with
  | none => none
  | some (key, s) =>
    if s.locations.contains key = false then none
    else (s.gpuStore.get? key).map fun tensor => (s.takeGpu codec key tensor, key, tensor)

/-- The write of the next eviction from the GPU is not hidden. -/
def EvictsUnshadowed (codec : BlockCodec ν π) (s : TieredKVCache ν π) : Prop :=
  ∀ p ∈ s.writeBack codec, p.1.Unshadowed codec p.2.1 p.2.2

/-- All that an eviction can do to the copies. -/
inductive Evicted (codec : BlockCodec ν π) (s : TieredKVCache ν π) (tier : Tier)
    (s' : TieredKVCache ν π) : Prop
  | nothing (same : ∀ k, s'.copies k = s.copies k)
  | writtenBack (taken : TieredKVCache ν π) (key : BlockKey) (tensor : ν) (isGpu : tier = .gpu)
      (pending : s.writeBack codec = some (taken, key, tensor))
      (held : (s.copies key).gpu = some tensor)
      (others : ∀ k, k ≠ key → taken.copies k = s.copies k)
      (result : s' = taken.write codec key tensor)
  | spilled (key : BlockKey) (tensor : ν) (held : (s.copies key).cpu = some tensor)
      (result : ∀ k, s'.copies k =
        if k = key then
          { s.copies k with
            cpu := none
            file := some (codec.compressBlock tensor)
            tier := some .nvme }
        else s.copies k)

theorem evictLru_cases (codec : BlockCodec ν π) (s : TieredKVCache ν π) (tier : Tier) :
    Evicted codec s tier (s.evictLru codec tier) := by
  unfold evictLru
  cases hpop : s.popLru tier with
  | none => exact .nothing fun _ => rfl
  | some p =>
    obtain ⟨key, s₁⟩ := p
    have hsame := copies_popLru hpop
    dsimp only
    by_cases hloc : s₁.locations.contains key = false
    · rw [if_pos hloc]
      exact .nothing hsame
    · rw [if_neg hloc]
      cases tier with
      | gpu =>
        cases hheld : s₁.gpuStore.get? key with
        | none => exact .nothing hsame
        | some tensor =>
          refine .writtenBack (s₁.takeGpu codec key tensor) key tensor rfl ?_ ?_ ?_ rfl
          · simp only [writeBack, hpop, if_neg hloc, hheld, Option.map_some]
          · rw [← hsame key]
            exact hheld
          · intro k hk
            rw [copies_takeGpu codec s₁ tensor hk, hsame]
      | cpu =>
        cases hheld : s₁.cpuStore.get? key with
        | none => exact .nothing hsame
        | some tensor =>
          refine .spilled key tensor ?_ ?_
          · rw [← hsame key]
            exact hheld
          · intro k
            dsimp only
            rw [copies_spill, copies_takeCpu, hsame]
            by_cases hk : k = key
            · simp only [if_pos hk]
            · simp only [if_neg hk]
      | nvme => exact .nothing hsame

/-! ### The cache as a map from keys to values -/

/-- Seen through its reads the cache holds the values `last`. -/
def Reflects (codec : BlockCodec ν π) (s : TieredKVCache ν π) (last : BlockKey → Option ν) : Prop :=
  ∀ key, (s.copies key).Yields codec (last key)

variable {last : BlockKey → Option ν}

theorem reflects_new (codec : BlockCodec ν π) (gpuBudgetBytes cpuBudgetBytes : Int)
    (last : BlockKey → Option ν) : Reflects codec (new gpuBudgetBytes cpuBudgetBytes) last := by
  intro key
  refine ⟨?_, ?_, ?_, ?_⟩
  · intro v hv
    cases hv
  · intro _ v hv
    cases hv
  · intro _ _ hno
    cases hno
  · intro m hm
    cases hm

theorem Reflects.congr (h : Reflects codec s last) (hs : ∀ k, s'.copies k = s.copies k) :
    Reflects codec s' last := fun key => hs key ▸ h key

/-- A write that is not hidden stores its value and leaves the other keys alone. -/
theorem Reflects.write {key : BlockKey} {kv : ν}
    (h : ∀ k, k ≠ key → (s.copies k).Yields codec (last k))
    (hu : s.Unshadowed codec key kv) :
    Reflects codec (s.write codec key kv) (Function.update last key (some kv)) := by
  intro k
  rw [copies_write]
  by_cases hk : k = key
  · subst hk
    rw [if_pos rfl, Function.update_self]
    exact Copies.Unshadowed.yields hu
  · rw [if_neg hk, Function.update_of_ne hk]
    exact h k hk

theorem Reflects.evictLru {tier : Tier} (h : Reflects codec s last)
    (hu : tier = .gpu → s.EvictsUnshadowed codec) :
    Reflects codec (s.evictLru codec tier) last := by
  cases evictLru_cases codec s tier with
  | nothing same => exact h.congr same
  | writtenBack taken key tensor isGpu pending held others result =>
    have hlast : last key = some tensor := (h key).gpu tensor held
    have hothers : ∀ k, k ≠ key → (taken.copies k).Yields codec (last k) := by
      intro k hk
      rw [others k hk]
      exact h k
    have hwrite := Reflects.write hothers (hu isGpu _ pending)
    rw [result]
    rwa [← hlast, Function.update_eq_self] at hwrite
  | spilled key tensor held result =>
    intro k
    rw [result]
    by_cases hk : k = key
    · subst hk
      rw [if_pos rfl]
      exact (h k).spill held
    · rw [if_neg hk]
      exact h k

theorem Reflects.place {key : BlockKey} {tensor : ν} (h : Reflects codec s last)
    (hlast : last key = some tensor) : Reflects codec (s.place codec key tensor) last := by
  intro k
  rw [copies_place]
  by_cases hk : k = key
  · subst hk
    rw [if_pos rfl, hlast]
    exact (hlast ▸ h k).place
  · rw [if_neg hk]
    exact h k

theorem Reflects.stage {key : BlockKey} {tensor : ν} (h : Reflects codec s last)
    (hlast : last key = some tensor) : Reflects codec (s.stage codec key tensor) last := by
  intro k
  rw [copies_stage]
  by_cases hk : k = key
  · subst hk
    rw [if_pos rfl, hlast]
    exact (hlast ▸ h k).stage
  · rw [if_neg hk]
    exact h k

/-! ### Making room and reading -/

theorem evictOnce_eq_some {tier : Tier} {needed : Int} {u v : TieredKVCache ν π}
    (h : evictOnce codec tier needed u = some v) :
    u.Overfull tier needed ∧ v = u.evictLru codec tier := by
  simp only [evictOnce] at h
  split at h
  · next hfull =>
    cases h
    exact ⟨hfull, rfl⟩
  · cases h

/-- What every eviction of the loop keeps holds when there is room. -/
theorem ensureCapacity_invariant {P : TieredKVCache ν π → Prop} {tier : Tier} {needed : Int}
    (hs' : s' ∈ s.ensureCapacity codec tier needed) (h : P s)
    (hevict : ∀ u, Reaches (evictOnce codec tier needed) s u → u.Overfull tier needed → P u →
      P (u.evictLru codec tier)) : P s' := by
  refine Runs.invariant (P := P) (mem_eval.mp hs').1 h fun u v hu hP hstep => ?_
  obtain ⟨hfull, rfl⟩ := evictOnce_eq_some hstep
  exact hevict u hu hfull hP

theorem Reflects.ensureCapacity {tier : Tier} {needed : Int} (h : Reflects codec s last)
    (hu : ∀ u, Reaches (evictOnce codec tier needed) s u → u.Overfull tier needed → tier = .gpu →
      u.EvictsUnshadowed codec)
    (hs' : s' ∈ s.ensureCapacity codec tier needed) : Reflects codec s' last :=
  ensureCapacity_invariant (P := fun u => Reflects codec u last) hs' h
    fun u hu' hfull hreflects => hreflects.evictLru (hu u hu' hfull)

/-- Where there is room nothing is evicted. -/
theorem ensureCapacity_of_room {tier : Tier} {needed : Int} (h : ¬ s.Overfull tier needed) :
    s ∈ s.ensureCapacity codec tier needed :=
  mem_eval.mpr ⟨Relation.ReflTransGen.refl, if_neg h⟩

theorem targetTier_gpu {n : Int} (h : s.targetTier n = .gpu) : ¬ s.Overfull .gpu n := by
  unfold targetTier at h
  intro hfull
  obtain ⟨_, hover, _⟩ := hfull
  simp only [if_true] at hover
  by_cases hg : s.gpuBudgetBytes ≤ 0 ∨ s.usage .gpu + n > s.gpuBudgetBytes
  · simp only [if_pos hg, true_and] at h
    split at h <;> cases h
  · omega

theorem targetTier_cpu {n : Int} (h : s.targetTier n = .cpu) : ¬ s.Overfull .cpu n := by
  unfold targetTier at h
  intro hfull
  obtain ⟨_, hover, _⟩ := hfull
  simp only [reduceCtorEq, if_false] at hover
  by_cases hg : s.gpuBudgetBytes ≤ 0 ∨ s.usage .gpu + n > s.gpuBudgetBytes
  · simp only [if_pos hg, true_and] at h
    by_cases hc : s.cpuBudgetBytes ≤ 0 ∨ s.usage .cpu + n > s.cpuBudgetBytes
    · simp only [if_pos hc, reduceCtorEq] at h
    · omega
  · simp only [if_neg hg, reduceCtorEq, false_and, if_false] at h

/-- The source makes room in the tier that `write` picks, but there is room already. -/
theorem ensureCapacity_targetTier {n : Int} (h : s.targetTier n ≠ .nvme) :
    s ∈ s.ensureCapacity codec (s.targetTier n) n := by
  apply ensureCapacity_of_room
  cases hpick : s.targetTier n with
  | gpu => exact targetTier_gpu hpick
  | cpu => exact targetTier_cpu hpick
  | nvme => exact absurd hpick h

/-- A promotion returns the block that CPU memory holds, whatever it evicts on the way. -/
theorem promoteCpuToGpu_mem {key : BlockKey} {tensor : ν}
    (hheld : s.cpuStore.get? key = some tensor)
    {res : Except TieredFault ν} (hr : (res, s') ∈ s.promoteCpuToGpu codec key) :
    res = .ok tensor ∧
      ∃ room ∈ s.ensureCapacity codec .gpu (codec.sizeBytes tensor),
        s' = room.place codec key tensor := by
  rw [promoteCpuToGpu_of_held hheld] at hr
  obtain ⟨room, hroom, heq⟩ := (Part.mem_map_iff _).mp hr
  cases heq
  exact ⟨rfl, room, hroom, rfl⟩

/-- What a read decompresses is the last value that was written. -/
theorem Reflects.readNvmeToCpu (hc : codec.Lossless) {key : BlockKey} (h : Reflects codec s last)
    (hgpu : s.gpuStore.get? key = none) (hcpu : s.cpuStore.get? key = none)
    (htier : s.tierOf key = some .nvme) {tensor : ν}
    (hr : s.readNvmeToCpu codec key = .ok tensor) : last key = some tensor := by
  unfold TieredKVCache.readNvmeToCpu at hr
  cases hm : s.metadata.get? key with
  | none =>
    rw [hm] at hr
    cases hr
  | some m =>
    obtain ⟨v, hlast, hshape, hdtype⟩ := (h key).metadata m hm
    rw [hm] at hr
    simp only [hshape, hdtype] at hr
    cases hf : s.nvmeFiles.get? key with
    | none =>
      rw [hf] at hr
      cases hr
    | some payload =>
      obtain ⟨v', hlast', hpayload⟩ := (h key).file hgpu hcpu htier payload hf
      have hv : v' = v := Option.some.inj (hlast'.symm.trans hlast)
      rw [hf, hpayload, hv] at hr
      simp only [hc.roundTrip v] at hr
      rw [hlast, Except.ok.inj hr]

/-- The states in which the loop of a promotion evicts during a read of the key. -/
inductive Promoting (codec : BlockCodec ν π) (s : TieredKVCache ν π) (key : BlockKey) :
    TieredKVCache ν π → Prop
  | cpu (tensor : ν) (u : TieredKVCache ν π) (gpu : s.gpuStore.get? key = none)
      (hit : s.cpuStore.get? key = some tensor)
      (loop : Reaches (evictOnce codec .gpu (codec.sizeBytes tensor)) s u)
      (full : u.Overfull .gpu (codec.sizeBytes tensor)) : Promoting codec s key u
  | nvme (tensor : ν) (room u : TieredKVCache ν π) (gpu : s.gpuStore.get? key = none)
      (cpu : s.cpuStore.get? key = none) (tier : s.tierOf key = some .nvme)
      (file : s.readNvmeToCpu codec key = .ok tensor)
      (made : room ∈ s.ensureCapacity codec .cpu (codec.sizeBytes tensor))
      (loop : Reaches (evictOnce codec .gpu (codec.sizeBytes tensor))
        (room.stage codec key tensor) u)
      (full : u.Overfull .gpu (codec.sizeBytes tensor)) : Promoting codec s key u

/-- How a read ends. -/
inductive ReadEnds (codec : BlockCodec ν π) (s : TieredKVCache ν π) (key : BlockKey) :
    Except TieredFault ν → TieredKVCache ν π → Prop
  | gpu (tensor : ν) (held : s.gpuStore.get? key = some tensor) :
      ReadEnds codec s key (.ok tensor) (s.touch .gpu key)
  | cpu (tensor : ν) (room : TieredKVCache ν π) (gpu : s.gpuStore.get? key = none)
      (held : s.cpuStore.get? key = some tensor)
      (made : room ∈ s.ensureCapacity codec .gpu (codec.sizeBytes tensor)) :
      ReadEnds codec s key (.ok tensor) (room.place codec key tensor)
  | nvme (tensor : ν) (staging room : TieredKVCache ν π) (gpu : s.gpuStore.get? key = none)
      (cpu : s.cpuStore.get? key = none) (tier : s.tierOf key = some .nvme)
      (file : s.readNvmeToCpu codec key = .ok tensor)
      (made : staging ∈ s.ensureCapacity codec .cpu (codec.sizeBytes tensor))
      (made' : room ∈ (staging.stage codec key tensor).ensureCapacity codec .gpu
        (codec.sizeBytes tensor)) :
      ReadEnds codec s key (.ok tensor) (room.place codec key tensor)
  | raised (e : TieredFault) : ReadEnds codec s key (.error e) s

theorem stage_held (s : TieredKVCache ν π) (key : BlockKey) (tensor : ν) :
    (s.stage codec key tensor).cpuStore.get? key = some tensor := by
  have hcopies := congrArg Copies.cpu (copies_stage codec s key tensor key)
  rw [if_pos rfl] at hcopies
  exact hcopies

/-- A block in its file is staged, promoted and returned once there is room for it. -/
theorem mem_read_of_file {key : BlockKey} {tensor : ν} {staging room : TieredKVCache ν π}
    (hgpu : s.gpuStore.get? key = none) (hcpu : s.cpuStore.get? key = none)
    (htier : s.tierOf key = some .nvme) (hfile : s.readNvmeToCpu codec key = .ok tensor)
    (hmade : staging ∈ s.ensureCapacity codec .cpu (codec.sizeBytes tensor))
    (hmade' : room ∈ (staging.stage codec key tensor).ensureCapacity codec .gpu
      (codec.sizeBytes tensor)) :
    (.ok tensor, room.place codec key tensor) ∈ s.read codec key := by
  rw [read_of_file hgpu hcpu htier hfile]
  refine Part.mem_bind hmade ?_
  rw [promoteCpuToGpu_of_held (stage_held staging key tensor)]
  exact Part.mem_map _ hmade'

theorem read_ends {key : BlockKey} {res : Except TieredFault ν}
    (hr : (res, s') ∈ s.read codec key) : ReadEnds codec s key res s' := by
  cases hgpu : s.gpuStore.get? key with
  | some tensor =>
    rw [read_of_gpu hgpu] at hr
    cases Part.mem_some_iff.mp hr
    exact .gpu tensor hgpu
  | none =>
    cases hcpu : s.cpuStore.get? key with
    | some tensor =>
      rw [read_of_cpu hgpu hcpu] at hr
      obtain ⟨rfl, room, hroom, rfl⟩ := promoteCpuToGpu_mem hcpu hr
      exact .cpu tensor room hgpu hcpu hroom
    | none =>
      by_cases htier : s.tierOf key = some .nvme
      · cases hfile : s.readNvmeToCpu codec key with
        | error e =>
          rw [read_of_bad_file hgpu hcpu htier hfile] at hr
          cases Part.mem_some_iff.mp hr
          exact .raised e
        | ok tensor =>
          rw [read_of_file hgpu hcpu htier hfile] at hr
          obtain ⟨staging, hstaging, hpromote⟩ := Part.mem_bind_iff.mp hr
          obtain ⟨rfl, room, hroom, rfl⟩ :=
            promoteCpuToGpu_mem (stage_held staging key tensor) hpromote
          exact .nvme tensor staging room hgpu hcpu htier hfile hstaging hroom
      · rw [read_of_missing hgpu hcpu htier] at hr
        cases Part.mem_some_iff.mp hr
        exact .raised _

/-- A read that returns yields the value that the cache reflects. -/
theorem Reflects.read_value (hc : codec.Lossless) (h : Reflects codec s last) {key : BlockKey}
    {v : ν} (hr : (.ok v, s') ∈ s.read codec key) : last key = some v := by
  cases read_ends hr with
  | gpu _ held => exact (h key).gpu v held
  | cpu _ room gpu held made => exact (h key).cpu gpu v held
  | nvme _ staging room gpu cpu tier file _ _ => exact h.readNvmeToCpu hc gpu cpu tier file

/-- A read changes nothing that the cache reflects, unless an eviction of it is hidden. -/
theorem Reflects.read (hc : codec.Lossless) (h : Reflects codec s last) {key : BlockKey}
    (hu : ∀ u, Promoting codec s key u → u.EvictsUnshadowed codec) {res : Except TieredFault ν}
    (hr : (res, s') ∈ s.read codec key) : Reflects codec s' last := by
  cases read_ends hr with
  | gpu tensor held => exact h.congr fun k => copies_touch s .gpu key k
  | cpu tensor room gpu held made =>
    have hlast := (h key).cpu gpu tensor held
    have hroom : Reflects codec room last :=
      h.ensureCapacity (fun u hreach hfull _ => hu u (.cpu tensor u gpu held hreach hfull)) made
    exact hroom.place hlast
  | nvme tensor staging room gpu cpu tier file made made' =>
    have hlast := h.readNvmeToCpu hc gpu cpu tier file
    have hstaging : Reflects codec staging last := by
      refine h.ensureCapacity (fun _ _ _ hno => ?_) made
      cases hno
    have hroom : Reflects codec room last :=
      (hstaging.stage hlast).ensureCapacity
        (fun u hreach hfull _ =>
          hu u (.nvme tensor staging u gpu cpu tier file made hreach hfull)) made'
    exact hroom.place hlast
  | raised e => exact h

end TieredKVCache

/-! ### Whole runs -/

namespace TieredOp
variable {ν π : Type}

/-- What the call makes of the last written values. -/
def record (last : BlockKey → Option ν) : TieredOp ν → BlockKey → Option ν
  | .write key kv => Function.update last key (some kv)
  | .read _ => last
  | .evict _ _ => last

/-- No write that the call makes, its own or that of an eviction, is hidden. -/
def Unshadowed (codec : BlockCodec ν π) (s : TieredKVCache ν π) : TieredOp ν → Prop
  | .write key kv => s.Unshadowed codec key kv
  | .read key => ∀ u, s.Promoting codec key u → u.EvictsUnshadowed codec
  | .evict strategy tier => strategy = "lru" → tier.getD .gpu = .gpu → s.EvictsUnshadowed codec

end TieredOp

namespace TieredKVCache
variable {ν π : Type} {codec : BlockCodec ν π} {s s' : TieredKVCache ν π}

/-- The value of the most recent write to each key. -/
def lastWritten (ops : List (TieredOp ν)) : BlockKey → Option ν :=
  ops.foldl TieredOp.record fun _ => none

/-- Every call of the sequence makes unhidden writes only. -/
def RunUnshadowed (codec : BlockCodec ν π) : List (TieredOp ν) → TieredKVCache ν π → Prop
  | [], _ => True
  | op :: ops, s => op.Unshadowed codec s ∧ ∀ s' ∈ op.apply codec s, RunUnshadowed codec ops s'

theorem Reflects.apply (hc : codec.Lossless) {last : BlockKey → Option ν}
    (h : Reflects codec s last) {op : TieredOp ν} (hu : op.Unshadowed codec s)
    (hs' : s' ∈ op.apply codec s) : Reflects codec s' (op.record last) := by
  cases op with
  | write key kv =>
    cases Part.mem_some_iff.mp hs'
    exact Reflects.write (fun k _ => h k) hu
  | read key =>
    obtain ⟨p, hp, rfl⟩ := (Part.mem_map_iff _).mp hs'
    exact h.read hc hu hp
  | evict strategy tier =>
    cases Part.mem_some_iff.mp hs'
    obtain ⟨hlru, heq⟩ | ⟨-, heq⟩ := evict_cases codec s strategy tier
    · rw [heq]
      exact h.evictLru (hu hlru)
    · rw [heq]
      exact h

theorem Reflects.run (hc : codec.Lossless) {last : BlockKey → Option ν} (h : Reflects codec s last)
    (ops : List (TieredOp ν)) (hu : RunUnshadowed codec ops s) (hs' : s' ∈ runOps codec ops s) :
    Reflects codec s' (ops.foldl TieredOp.record last) := by
  induction ops generalizing s last with
  | nil =>
    cases Part.mem_some_iff.mp hs'
    exact h
  | cons op ops ih =>
    obtain ⟨s₁, hs₁, hrest⟩ := Part.mem_bind_iff.mp hs'
    exact ih (h.apply hc hu.1 hs₁) (hu.2 s₁ hs₁) hrest

/-- After a sequence of calls whose writes are never hidden, a read that returns yields the value
that was last written. -/
theorem read_returns_last_written (hc : codec.Lossless) (gpuBudgetBytes cpuBudgetBytes : Int)
    (ops : List (TieredOp ν))
    (hu : RunUnshadowed codec ops (new gpuBudgetBytes cpuBudgetBytes))
    (hs : s ∈ runOps codec ops (new gpuBudgetBytes cpuBudgetBytes)) {key : BlockKey} {v : ν}
    (hr : (.ok v, s') ∈ s.read codec key) : lastWritten ops key = some v := by
  have hnew := reflects_new codec gpuBudgetBytes cpuBudgetBytes fun _ => none
  have hreflects := hnew.run hc ops hu hs
  exact hreflects.read_value hc hr

/-- A read that finds a copy on the GPU or in CPU memory can only yield the first one. -/
theorem read_first {key : BlockKey} {v v' : ν} (hfirst : (s.copies key).before .nvme = some v')
    (hr : (.ok v, s') ∈ s.read codec key) : v = v' := by
  cases read_ends hr with
  | gpu _ held =>
    rw [Copies.before, show (s.copies key).gpu = some v from held] at hfirst
    exact Option.some.inj hfirst
  | cpu _ _ gpu held _ =>
    rw [Copies.before, show (s.copies key).gpu = none from gpu] at hfirst
    exact Option.some.inj (held.symm.trans hfirst)
  | nvme _ _ _ gpu cpu _ _ _ _ =>
    rw [Copies.before, show (s.copies key).gpu = none from gpu,
      show (s.copies key).cpu = none from cpu] at hfirst
    cases hfirst

/-- A hidden write is lost: a read right after it never yields its value. -/
theorem hidden_write_lost {key : BlockKey} {kv v : ν} (hu : ¬ s.Unshadowed codec key kv)
    (hr : (.ok v, s') ∈ (s.write codec key kv).read codec key) : v ≠ kv := by
  unfold Unshadowed Copies.Unshadowed at hu
  simp only [not_forall] at hu
  obtain ⟨v', hv', hne⟩ := hu
  have hfirst : ((s.copies key).store codec kv (s.targetTier (codec.sizeBytes kv))).before .nvme =
      some v' := Copies.first_store hv'
  have hcopies := copies_write codec s key kv key
  rw [if_pos rfl] at hcopies
  rw [← hcopies] at hfirst
  exact (read_first hfirst hr).symm ▸ hne

/-- Blocks as lists of halves, packed as they are. -/
def halves : BlockCodec (List Int) (List Int) where
  shape kv := [kv.length]
  dtype _ := "torch.float16"
  sizeBytes kv := 2 * kv.length
  compressBlock kv := kv
  payloadBytes payload := payload.length
  decompressBlock payload shape _ := if shape = [payload.length] then some payload else none

theorem halves_lossless : halves.Lossless where
  roundTrip _ := if_pos rfl

/-- The second write finds the GPU full and goes to CPU memory, behind the first one. -/
theorem read_finds_stale_copy :
    ¬ ∀ codec : BlockCodec (List Int) (List Int), codec.Lossless →
      ∀ (gpuBudgetBytes cpuBudgetBytes : Int) (ops : List (TieredOp (List Int)))
        (s s' : TieredKVCache (List Int) (List Int)) (key : BlockKey) (v : List Int),
        s ∈ runOps codec ops (new gpuBudgetBytes cpuBudgetBytes) →
        (.ok v, s') ∈ s.read codec key → lastWritten ops key = some v := by
  intro h
  have hlast := h halves halves_lossless 2 2 [.write (0, 0) [1], .write (0, 0) [2]]
    (((new 2 2).write halves (0, 0) [1]).write halves (0, 0) [2])
    ((((new 2 2).write halves (0, 0) [1]).write halves (0, 0) [2]).touch .gpu (0, 0)) (0, 0) [1]
  have hrun : (((new 2 2).write halves (0, 0) [1]).write halves (0, 0) [2]) ∈
      runOps halves [.write (0, 0) [1], .write (0, 0) [2]] (new 2 2) := by
    simp only [runOps, TieredOp.apply, Part.bind_some, Part.mem_some_iff]
  have hread : (.ok [1],
      (((new 2 2).write halves (0, 0) [1]).write halves (0, 0) [2]).touch .gpu (0, 0)) ∈
      (((new 2 2).write halves (0, 0) [1]).write halves (0, 0) [2]).read halves (0, 0) :=
    Part.mem_some _
  have hboth := hlast hrun hread
  revert hboth
  decide

/-- With a GPU budget of zero a block goes to CPU memory, is spilled and is read back. -/
theorem spilled_block_read_back :
    ∃ s s' : TieredKVCache (List Int) (List Int),
      s ∈ runOps halves [.write (0, 0) [1], .write (0, 1) [2], .evict "lru" (some .cpu)] (new 0 2) ∧
      (.ok [1], s') ∈ s.read halves (0, 0) ∧
      lastWritten [.write (0, 0) [(1 : Int)], .write (0, 1) [2], .evict "lru" (some .cpu)]
        (0, 0) = some [1] := by
  have hs : (((new 0 2).write halves (0, 0) [1]).write halves (0, 1) [2]).evictLru halves .cpu ∈
      runOps halves [.write (0, 0) [1], .write (0, 1) [2], .evict "lru" (some .cpu)]
        (new 0 2) := by
    simp only [runOps, TieredOp.apply, Part.bind_some, Part.mem_some_iff]
    rfl
  have hr : (Except.ok [1], _) ∈ ((((new 0 2).write halves (0, 0) [1]).write halves (0, 1)
      [2]).evictLru halves .cpu).read halves (0, 0) :=
    mem_read_of_file (by decide) (by decide) (by decide) rfl
      (ensureCapacity_of_room (by decide)) (ensureCapacity_of_room (by decide))
  have hu : RunUnshadowed halves
      [.write (0, 0) [1], .write (0, 1) [2], .evict "lru" (some .cpu)] (new 0 2) := by
    refine ⟨?_, fun s₁ hs₁ => ⟨?_, fun s₂ hs₂ => ⟨?_, fun _ _ => trivial⟩⟩⟩
    · intro v hv
      cases hv
    · rw [Part.mem_some_iff.mp hs₁]
      intro v hv
      cases hv
    · intro _ hno
      cases hno
  exact ⟨_, _, hs, hr, read_returns_last_written halves_lossless 0 2 _ hu hs hr⟩

end TieredKVCache
end ResidentInference

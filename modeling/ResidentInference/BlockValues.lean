import ResidentInference.Compression
import ResidentInference.TieredCapacity
import ResidentInference.TieredReads

/-! The tiered cache block by block. Every copy of a block that is written with one value only is that
value, or what its file is read back as once it has one, and the tier of its location has a copy: so
reads find the block, whatever is evicted, promoted, allocated or written to other blocks in
between. -/
namespace ResidentInference
open StateTransition

/-- What the codec makes of good values by packing and unpacking them: they lose nothing more when
they are packed again. -/
structure BlockCodec.Settles {ν π : Type} (codec : BlockCodec ν π) (good : ν → Prop)
    (loaded : ν → ν) : Prop where
  load : ∀ v, good v → codec.decompressBlock (codec.compressBlock v) (codec.shape v)
    (codec.dtype v) = some (loaded v)
  again : ∀ v, good v → codec.compressBlock (loaded v) = codec.compressBlock v
  shape : ∀ v, good v → codec.shape (loaded v) = codec.shape v
  dtype : ∀ v, good v → codec.dtype (loaded v) = codec.dtype v

namespace Copies
variable {ν π : Type}

/-- The value, or once there is a file what the file is read back as. -/
def Version (loaded : ν → ν) (c : Copies ν π) (v w : ν) : Prop :=
  w = v ∨ (w = loaded v ∧ c.file ≠ none)

/-- That tier has a copy of the block. -/
def Backed (codec : BlockCodec ν π) (c : Copies ν π) (v : ν) : Option Tier → Prop
  | none => False
  | some .gpu => c.gpu ≠ none
  | some .cpu => c.cpu ≠ none
  | some .nvme => c.file = some (codec.compressBlock v)

/-- The copies of a block that has been written with the value `v`. -/
structure Keeps (codec : BlockCodec ν π) (loaded : ν → ν) (c : Copies ν π) (v : ν) : Prop where
  gpu : ∀ w ∈ c.gpu, c.Version loaded v w
  cpu : ∀ w ∈ c.cpu, c.Version loaded v w
  backed : c.Backed codec v c.tier
  described : ∃ compressed, c.metadata = some (TieredKVCache.describe codec v compressed)

/-- The copies of a block that has not been written; it may have been allocated. -/
structure Blank (c : Copies ν π) : Prop where
  gpu : c.gpu = none
  cpu : c.cpu = none
  undescribed : ∀ m ∈ c.metadata, m.shape = none

/-- The copies of a block with that value, if it has one. -/
def Represents (codec : BlockCodec ν π) (loaded : ν → ν) (c : Copies ν π) : Option ν → Prop
  | none => c.Blank
  | some v => c.Keeps codec loaded v

variable {codec : BlockCodec ν π} {good : ν → Prop} {loaded : ν → ν} {c : Copies ν π} {v w : ν}

theorem Version.compressBlock (h : c.Version loaded v w) (hc : codec.Settles good loaded)
    (hv : good v) : codec.compressBlock w = codec.compressBlock v := by
  cases h with
  | inl heq => rw [heq]
  | inr hload => rw [hload.1, hc.again v hv]

theorem Version.describe (h : c.Version loaded v w) (hc : codec.Settles good loaded)
    (hv : good v) (compressed : Bool) :
    TieredKVCache.describe codec w compressed = TieredKVCache.describe codec v compressed := by
  cases h with
  | inl heq => rw [heq]
  | inr hload =>
    rw [TieredKVCache.describe, TieredKVCache.describe, hload.1, hc.shape v hv, hc.dtype v hv]

/-- Files stay, so a version of the block stays one. -/
theorem Version.store (h : c.Version loaded v w) (codec : BlockCodec ν π) (u : ν) (tier : Tier) :
    (c.store codec u tier).Version loaded v w := by
  cases tier with
  | gpu => exact h
  | cpu => exact h
  | nvme => exact h.imp_right fun hload => ⟨hload.1, Option.some_ne_none _⟩

/-- A write of a version of the block, next to other versions of it. -/
theorem keeps_store (hc : codec.Settles good loaded) (hv : good v)
    (hgpu : ∀ u ∈ c.gpu, c.Version loaded v u) (hcpu : ∀ u ∈ c.cpu, c.Version loaded v u)
    (hw : c.Version loaded v w) (tier : Tier) : (c.store codec w tier).Keeps codec loaded v := by
  cases tier with
  | gpu =>
    refine ⟨fun u hu => ?_, hcpu, Option.some_ne_none w, false, ?_⟩
    · cases hu
      exact hw
    · exact congrArg some (hw.describe hc hv false)
  | cpu =>
    refine ⟨hgpu, fun u hu => ?_, Option.some_ne_none w, false, ?_⟩
    · cases hu
      exact hw
    · exact congrArg some (hw.describe hc hv false)
  | nvme =>
    refine ⟨fun u hu => (hgpu u hu).store codec w .nvme,
      fun u hu => (hcpu u hu).store codec w .nvme, ?_, true, ?_⟩
    · exact congrArg some (hw.compressBlock hc hv)
    · exact congrArg some (hw.describe hc hv true)

theorem Represents.store {stored : Option ν} (h : c.Represents codec loaded stored)
    (hc : codec.Settles good loaded) (hv : good v) (hsame : ∀ w ∈ stored, w = v) (tier : Tier) :
    (c.store codec v tier).Keeps codec loaded v := by
  cases stored with
  | none =>
    have hblank : c.Blank := h
    refine keeps_store hc hv (fun w hw => ?_) (fun w hw => ?_) (Or.inl rfl) tier
    · rw [hblank.gpu] at hw
      cases hw
    · rw [hblank.cpu] at hw
      cases hw
  | some w =>
    have hkeeps : c.Keeps codec loaded w := h
    cases hsame w rfl
    exact keeps_store hc hv hkeeps.gpu hkeeps.cpu (Or.inl rfl) tier

theorem Keeps.place (h : c.Keeps codec loaded v) (hw : c.Version loaded v w) :
    { c with gpu := some w, tier := some .gpu }.Keeps codec loaded v where
  gpu := by
    intro u hu
    cases hu
    exact hw
  cpu := h.cpu
  backed := Option.some_ne_none w
  described := h.described

theorem Keeps.stage (h : c.Keeps codec loaded v) (hw : c.Version loaded v w) :
    { c with cpu := some w, tier := some .cpu }.Keeps codec loaded v where
  gpu := h.gpu
  cpu := by
    intro u hu
    cases hu
    exact hw
  backed := Option.some_ne_none w
  described := h.described

theorem Keeps.spill (h : c.Keeps codec loaded v) (hc : codec.Settles good loaded) (hv : good v)
    (hw : c.Version loaded v w) :
    { c with
      cpu := none
      file := some (codec.compressBlock w)
      tier := some .nvme }.Keeps codec loaded v where
  gpu := fun u hu => (h.gpu u hu).imp_right fun hload => ⟨hload.1, Option.some_ne_none _⟩
  cpu := by
    intro u hu
    cases hu
  backed := congrArg some (hw.compressBlock hc hv)
  described := h.described

/-- A block that has a tensor has been written, and the tensor is a version of it. -/
theorem Represents.of_gpu {stored : Option ν} (h : c.Represents codec loaded stored)
    (hheld : c.gpu = some w) : ∃ v, stored = some v ∧ c.Version loaded v w := by
  cases stored with
  | none => exact absurd (hheld.symm.trans (Blank.gpu h)) (Option.some_ne_none w)
  | some v => exact ⟨v, rfl, Keeps.gpu h w hheld⟩

theorem Represents.of_cpu {stored : Option ν} (h : c.Represents codec loaded stored)
    (hheld : c.cpu = some w) : ∃ v, stored = some v ∧ c.Version loaded v w := by
  cases stored with
  | none => exact absurd (hheld.symm.trans (Blank.cpu h)) (Option.some_ne_none w)
  | some v => exact ⟨v, rfl, Keeps.cpu h w hheld⟩

/-- Without a tensor the block is in its file. -/
theorem Keeps.in_file (h : c.Keeps codec loaded v) (hgpu : c.gpu = none) (hcpu : c.cpu = none) :
    c.tier = some .nvme ∧ c.file = some (codec.compressBlock v) := by
  have hbacked := h.backed
  cases htier : c.tier with
  | none =>
    rw [htier] at hbacked
    exact hbacked.elim
  | some tier =>
    rw [htier] at hbacked
    cases tier with
    | gpu => exact absurd hgpu hbacked
    | cpu => exact absurd hcpu hbacked
    | nvme => exact ⟨rfl, hbacked⟩

end Copies

namespace TieredKVCache
variable {ν π : Type} {codec : BlockCodec ν π} {good : ν → Prop} {loaded : ν → ν}
  {s s' : TieredKVCache ν π}

/-- The cache holds the block with that value, a good one, or without a value if it has none. -/
structure Stores (codec : BlockCodec ν π) (good : ν → Prop) (loaded : ν → ν)
    (s : TieredKVCache ν π) (key : BlockKey) (stored : Option ν) : Prop where
  represents : (s.copies key).Represents codec loaded stored
  good : ∀ v ∈ stored, good v

variable {key : BlockKey} {stored : Option ν}

theorem Stores.congr (h : Stores codec good loaded s key stored)
    (hs : s'.copies key = s.copies key) : Stores codec good loaded s' key stored where
  represents := hs ▸ h.represents
  good := h.good

theorem Stores.write (hc : codec.Settles good loaded) (h : Stores codec good loaded s key stored)
    {kv : ν} (hkv : good kv) (hsame : ∀ v ∈ stored, v = kv) :
    Stores codec good loaded (s.write codec key kv) key (some kv) where
  represents := by
    rw [copies_write, if_pos rfl]
    exact h.represents.store hc hkv hsame _
  good := by
    intro v hv
    cases hv
    exact hkv

/-- What a block that is taken off the GPU leaves behind. -/
theorem copies_taken (codec : BlockCodec ν π) (s : TieredKVCache ν π) (key : BlockKey)
    (tensor : ν) : (s.takeGpu codec key tensor).copies key = { s.copies key with gpu := none } := by
  simp [copies, takeGpu, dropUsage, tierOf, Dict.get?_erase]

theorem copies_writtenBack {taken : TieredKVCache ν π} {key : BlockKey} {tensor : ν}
    (h : s.writeBack codec = some (taken, key, tensor)) :
    taken.copies key = { s.copies key with gpu := none } := by
  unfold writeBack at h
  cases hpop : s.popLru .gpu with
  | none =>
    rw [hpop] at h
    cases h
  | some p =>
    obtain ⟨oldest, s₁⟩ := p
    rw [hpop] at h
    dsimp only at h
    split at h
    · cases h
    · obtain ⟨_, _, heq⟩ := Option.map_eq_some_iff.mp h
      cases heq
      rw [copies_taken, copies_popLru hpop]

/-- An eviction moves a version of the block to another tier, or another block. -/
theorem Stores.evictLru (hc : codec.Settles good loaded) (h : Stores codec good loaded s key stored)
    (tier : Tier) : Stores codec good loaded (s.evictLru codec tier) key stored := by
  cases evictLru_cases codec s tier with
  | nothing same => exact h.congr (same key)
  | writtenBack taken k tensor isGpu pending held others result =>
    by_cases hk : key = k
    · subst hk
      obtain ⟨v, rfl, hversion⟩ := h.represents.of_gpu held
      have hkeeps : (s.copies key).Keeps codec loaded v := h.represents
      have hgone : ∀ w ∈ ({ s.copies key with gpu := none } : Copies ν π).gpu,
          Copies.Version loaded { s.copies key with gpu := none } v w := by
        intro w hw
        cases hw
      refine ⟨?_, h.good⟩
      rw [result, copies_write, if_pos rfl, copies_writtenBack pending]
      exact Copies.keeps_store hc (h.good v rfl) hgone hkeeps.cpu hversion _
    · exact h.congr (by rw [result, copies_write, if_neg hk, others key hk])
  | spilled k tensor held result =>
    by_cases hk : key = k
    · subst hk
      obtain ⟨v, rfl, hversion⟩ := h.represents.of_cpu held
      have hkeeps : (s.copies key).Keeps codec loaded v := h.represents
      refine ⟨?_, h.good⟩
      rw [result, if_pos rfl]
      exact hkeeps.spill hc (h.good v rfl) hversion
    · exact h.congr (by rw [result, if_neg hk])

theorem Stores.ensureCapacity (hc : codec.Settles good loaded) {tier : Tier} {needed : Int}
    (h : Stores codec good loaded s key stored) (hs' : s' ∈ s.ensureCapacity codec tier needed) :
    Stores codec good loaded s' key stored :=
  ensureCapacity_invariant (P := fun u => Stores codec good loaded u key stored) hs' h
    fun _ _ _ hu => hu.evictLru hc tier

/-- Making room removes no file. -/
theorem files_evictLru (codec : BlockCodec ν π) (s : TieredKVCache ν π) (tier : Tier)
    {key : BlockKey} (h : (s.copies key).file ≠ none) :
    ((s.evictLru codec tier).copies key).file ≠ none := by
  cases evictLru_cases codec s tier with
  | nothing same => rwa [same]
  | writtenBack taken k tensor isGpu pending held others result =>
    rw [result, copies_write]
    by_cases hk : key = k
    · subst hk
      rw [if_pos rfl, copies_writtenBack pending]
      cases taken.targetTier (codec.sizeBytes tensor) with
      | gpu => exact h
      | cpu => exact h
      | nvme => exact Option.some_ne_none _
    · rw [if_neg hk, others key hk]
      exact h
  | spilled k tensor held result =>
    rw [result]
    by_cases hk : key = k
    · rw [if_pos hk]
      exact Option.some_ne_none _
    · rwa [if_neg hk]

theorem Version.ensureCapacity {tier : Tier} {needed : Int} {v w : ν}
    (h : (s.copies key).Version loaded v w) (hs' : s' ∈ s.ensureCapacity codec tier needed) :
    (s'.copies key).Version loaded v w := by
  refine ensureCapacity_invariant (P := fun u => (u.copies key).Version loaded v w) hs' h ?_
  intro u _ _ hu
  exact hu.imp_right fun hload => ⟨hload.1, files_evictLru codec u tier hload.2⟩

section
variable {v w : ν} (h : Stores codec good loaded s key (some v))
include h

theorem Stores.place (hw : (s.copies key).Version loaded v w) :
    Stores codec good loaded (s.place codec key w) key (some v) where
  represents := by
    have hkeeps : (s.copies key).Keeps codec loaded v := h.represents
    rw [copies_place, if_pos rfl]
    exact hkeeps.place hw
  good := h.good

theorem Stores.stage (hw : (s.copies key).Version loaded v w) :
    Stores codec good loaded (s.stage codec key w) key (some v) where
  represents := by
    have hkeeps : (s.copies key).Keeps codec loaded v := h.represents
    rw [copies_stage, if_pos rfl]
    exact hkeeps.stage hw
  good := h.good

/-- The file of a block without a tensor opens. -/
theorem Stores.readNvmeToCpu (hc : codec.Settles good loaded)
    (hgpu : s.gpuStore.get? key = none) (hcpu : s.cpuStore.get? key = none) :
    s.tierOf key = some .nvme ∧ s.readNvmeToCpu codec key = .ok (loaded v) ∧
      (s.copies key).Version loaded v (loaded v) := by
  have hkeeps : (s.copies key).Keeps codec loaded v := h.represents
  obtain ⟨htier, hfile⟩ := hkeeps.in_file hgpu hcpu
  obtain ⟨compressed, hmeta⟩ := hkeeps.described
  refine ⟨htier, ?_, Or.inr ⟨rfl, ?_⟩⟩
  · rw [TieredKVCache.readNvmeToCpu, show s.metadata.get? key = _ from hmeta]
    simp only [describe, show s.nvmeFiles.get? key = _ from hfile, hc.load v (h.good v rfl)]
  · rw [hfile]
    exact Option.some_ne_none _

/-- A read of a block that has been written yields a version of it. -/
theorem Stores.read_ok (hc : codec.Settles good loaded) {res : Except TieredFault ν}
    (hr : (res, s') ∈ s.read codec key) :
    (res = .ok v ∨ (res = .ok (loaded v) ∧ (s.copies key).file ≠ none)) ∧
      Stores codec good loaded s' key (some v) := by
  have hyields : ∀ {w}, (s.copies key).Version loaded v w →
      (Except.ok w : Except TieredFault ν) = .ok v ∨
        ((Except.ok w : Except TieredFault ν) = .ok (loaded v) ∧ (s.copies key).file ≠ none) :=
    fun hw => hw.imp (congrArg Except.ok) fun hload => ⟨congrArg Except.ok hload.1, hload.2⟩
  have hkeeps : (s.copies key).Keeps codec loaded v := h.represents
  cases hgpu : s.gpuStore.get? key with
  | some held =>
    rw [read_of_gpu hgpu] at hr
    cases Part.mem_some_iff.mp hr
    exact ⟨hyields (hkeeps.gpu held hgpu), h.congr (copies_touch s .gpu key key)⟩
  | none =>
    cases hcpu : s.cpuStore.get? key with
    | some held =>
      have hversion := hkeeps.cpu held hcpu
      rw [read_of_cpu hgpu hcpu] at hr
      obtain ⟨rfl, room, hroom, rfl⟩ := promoteCpuToGpu_mem hcpu hr
      have hkept := Version.ensureCapacity hversion hroom
      have hplaced := (h.ensureCapacity hc hroom).place hkept
      exact ⟨hyields hversion, hplaced⟩
    | none =>
      obtain ⟨htier, hfile, hversion⟩ := h.readNvmeToCpu hc hgpu hcpu
      rw [read_of_file hgpu hcpu htier hfile] at hr
      obtain ⟨staging, hstaging, hpromote⟩ := Part.mem_bind_iff.mp hr
      obtain ⟨rfl, room, hroom, rfl⟩ :=
        promoteCpuToGpu_mem (stage_held staging key (loaded v)) hpromote
      have hmade : (staging.copies key).Version loaded v (loaded v) :=
        Version.ensureCapacity hversion hstaging
      have hstaged := (h.ensureCapacity hc hstaging).stage hmade
      have hkept : ((staging.stage codec key (loaded v)).copies key).Version loaded v
          (loaded v) := by
        rw [copies_stage, if_pos rfl]
        exact hmade
      have hplaced := (hstaged.ensureCapacity hc hroom).place
        (Version.ensureCapacity hkept hroom)
      exact ⟨hyields hversion, hplaced⟩

end

/-- A read of a block that has not been written raises, and changes nothing. -/
theorem Stores.read_error (h : Stores codec good loaded s key none) {res : Except TieredFault ν}
    (hr : (res, s') ∈ s.read codec key) : (∃ e, res = .error e) ∧ s' = s := by
  have hblank : (s.copies key).Blank := h.represents
  have hgpu : s.gpuStore.get? key = none := hblank.gpu
  have hcpu : s.cpuStore.get? key = none := hblank.cpu
  by_cases htier : s.tierOf key = some .nvme
  · cases hfile : s.readNvmeToCpu codec key with
    | error e =>
      rw [read_of_bad_file hgpu hcpu htier hfile] at hr
      cases Part.mem_some_iff.mp hr
      exact ⟨⟨e, rfl⟩, rfl⟩
    | ok tensor =>
      exfalso
      unfold TieredKVCache.readNvmeToCpu at hfile
      cases hmeta : s.metadata.get? key with
      | none =>
        rw [hmeta] at hfile
        cases hfile
      | some m =>
        rw [hmeta] at hfile
        simp only [hblank.undescribed m hmeta] at hfile
        cases hfile
  · rw [read_of_missing hgpu hcpu htier] at hr
    cases Part.mem_some_iff.mp hr
    exact ⟨⟨_, rfl⟩, rfl⟩

/-- What a read finds: a version of the value that the block has, or nothing. -/
def Finds (loaded : ν → ν) (s : TieredKVCache ν π) (key : BlockKey) (res : Except TieredFault ν) :
    Option ν → Prop
  | none => ∃ e, res = .error e
  | some v => res = .ok v ∨ (res = .ok (loaded v) ∧ s.nvmeFiles.get? key ≠ none)

/-- Reads find what the block has, and leave it as it is. -/
theorem Stores.read (hc : codec.Settles good loaded) (h : Stores codec good loaded s key stored)
    {res : Except TieredFault ν} (hr : (res, s') ∈ s.read codec key) :
    s.Finds loaded key res stored ∧ Stores codec good loaded s' key stored := by
  cases stored with
  | none =>
    obtain ⟨he, rfl⟩ := h.read_error hr
    exact ⟨he, h⟩
  | some v => exact h.read_ok hc hr

/-- The location of a block says nothing about the others. -/
theorem copies_allocateBlock (s : TieredKVCache ν π) {key k : BlockKey} (hk : key ≠ k) :
    (s.allocateBlock k).2.copies key = s.copies key := by
  cases hloc : s.locations.get? k with
  | some location =>
    rw [TieredKVCache.allocateBlock, hloc]
    exact copies_touch s location.tier k key
  | none =>
    rw [TieredKVCache.allocateBlock, hloc]
    dsimp only
    split
    · simp [copies, touch, addUsage, tierOf, Dict.get?_set, hk]
    · split
      · simp [copies, touch, addUsage, tierOf, Dict.get?_set, hk]
      · simp [copies, touch, addUsage, tierOf, Dict.get?_set, hk]

/-- A block that gets a location has not been written before. -/
theorem Stores.allocateBlock (h : Stores codec good loaded s key stored) (k : BlockKey) :
    Stores codec good loaded (s.allocateBlock k).2 key stored := by
  by_cases hk : key = k
  · subst hk
    cases hloc : s.locations.get? key with
    | some location =>
      rw [TieredKVCache.allocateBlock, hloc]
      exact h.congr (copies_touch s location.tier key key)
    | none =>
      cases stored with
      | some v =>
        have hkeeps : (s.copies key).Keeps codec loaded v := h.represents
        have hbacked := hkeeps.backed
        rw [show (s.copies key).tier = none from congrArg (Option.map _) hloc] at hbacked
        exact hbacked.elim
      | none =>
        have hblank : (s.copies key).Blank := h.represents
        refine ⟨?_, h.good⟩
        rw [TieredKVCache.allocateBlock, hloc]
        dsimp only
        split
        · refine ⟨hblank.gpu, hblank.cpu, ?_⟩
          simp [copies, touch, addUsage, Dict.get?_set]
        · split
          · refine ⟨hblank.gpu, hblank.cpu, ?_⟩
            simp [copies, touch, addUsage, Dict.get?_set]
          · refine ⟨hblank.gpu, hblank.cpu, ?_⟩
            simp [copies, touch, addUsage, Dict.get?_set]
  · exact h.congr (copies_allocateBlock s hk)

end TieredKVCache

/-! ### Whole runs -/

namespace TieredCall
variable {ν π : Type}

/-- What the call makes of the blocks that have been written. -/
def record (stored : BlockKey → Option ν) : TieredCall ν → BlockKey → Option ν
  | .access op => op.record stored
  | .allocateBlock _ => stored

/-- The blocks that the calls write, with the values of the last writes. -/
def written (calls : List (TieredCall ν)) : BlockKey → Option ν :=
  calls.foldl record fun _ => none

variable {codec : BlockCodec ν π} {good : ν → Prop} {loaded : ν → ν} {s s' : TieredKVCache ν π}
  {calls calls' : List (TieredCall ν)} {key : BlockKey}

end TieredCall

end ResidentInference

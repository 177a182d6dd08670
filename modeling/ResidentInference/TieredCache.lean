import ResidentInference.Runs
import ResidentInference.Dict
import Mathlib.Logic.Function.Basic

/-! The tiered KV cache: blocks on the GPU, in CPU memory and in NVMe files, and the operations
on them. A read may have to make room first, which need not end, so it is partial. -/
namespace ResidentInference
open StateTransition

inductive Tier where
  | gpu
  | cpu
  | nvme
  deriving DecidableEq

/-- A layer and a block of it. -/
abbrev BlockKey := Int × Int

structure BlockLocation where
  tier : Tier
  offset : Int
  sizeBytes : Int
  deriving DecidableEq

/-- `none` stands for the `None` of a block that has only been allocated. -/
structure BlockMetadata where
  shape : Option (List Nat)
  dtype : Option String
  compressed : Bool
  deriving DecidableEq

/-- Tensors of type `ν`, and the codec that packs them into the payloads of files. -/
structure BlockCodec (ν π : Type) where
  shape : ν → List Nat
  dtype : ν → String
  sizeBytes : ν → Nat
  compressBlock : ν → π
  payloadBytes : π → Nat
  decompressBlock : π → List Nat → String → Option ν

/-- The codec loses nothing. -/
structure BlockCodec.Lossless {ν π : Type} (codec : BlockCodec ν π) : Prop where
  roundTrip : ∀ v, codec.decompressBlock (codec.compressBlock v) (codec.shape v) (codec.dtype v) =
    some v

/-- The exceptions of the tiered cache. -/
inductive TieredFault where
  | missingBlock (key : BlockKey)
  | lruOnly
  | noEntry (key : BlockKey)
  | noShape
  | noFile (key : BlockKey)
  | badPayload
  deriving DecidableEq

structure TieredKVCache (ν π : Type) where
  gpuBudgetBytes : Int
  cpuBudgetBytes : Int
  locations : Dict BlockKey BlockLocation
  metadata : Dict BlockKey BlockMetadata
  gpuStore : Dict BlockKey ν
  cpuStore : Dict BlockKey ν
  nvmeFiles : Dict BlockKey π
  lru : Tier → Dict BlockKey Unit
  usage : Tier → Int
  offset : Int

namespace TieredKVCache
variable {ν π : Type}

def new (gpuBudgetBytes cpuBudgetBytes : Int) : TieredKVCache ν π where
  gpuBudgetBytes := gpuBudgetBytes
  cpuBudgetBytes := cpuBudgetBytes
  locations := Dict.empty
  metadata := Dict.empty
  gpuStore := Dict.empty
  cpuStore := Dict.empty
  nvmeFiles := Dict.empty
  lru := fun _ => Dict.empty
  usage := fun _ => 0
  offset := 0

/-- `_touch` -/
def touch (s : TieredKVCache ν π) (tier : Tier) (key : BlockKey) : TieredKVCache ν π :=
  let bucket := s.lru tier
  let bucket := if bucket.contains key then bucket.moveToEnd key else bucket.set key ()
  { s with lru := Function.update s.lru tier bucket }

def addUsage (s : TieredKVCache ν π) (tier : Tier) (n : Int) : TieredKVCache ν π :=
  { s with usage := Function.update s.usage tier (s.usage tier + n) }

/-- The usage after a tensor has left the tier, never below zero. -/
def dropUsage (s : TieredKVCache ν π) (tier : Tier) (n : Int) : TieredKVCache ν π :=
  { s with usage := Function.update s.usage tier (max 0 (s.usage tier - n)) }

def setLocation (s : TieredKVCache ν π) (key : BlockKey) (tier : Tier) (offset n : Int) :
    TieredKVCache ν π :=
  { s with locations := s.locations.set key ⟨tier, offset, n⟩ }

/-! ### Writing -/

/-- The tier that `write` picks for a block of that size. -/
def targetTier (s : TieredKVCache ν π) (sizeBytes : Int) : Tier :=
  let tier : Tier :=
    if s.gpuBudgetBytes ≤ 0 ∨ s.usage .gpu + sizeBytes > s.gpuBudgetBytes then .cpu else .gpu
  if tier = .cpu ∧ (s.cpuBudgetBytes ≤ 0 ∨ s.usage .cpu + sizeBytes > s.cpuBudgetBytes) then .nvme
  else tier

def describe (codec : BlockCodec ν π) (kv : ν) (compressed : Bool) : BlockMetadata :=
  { shape := some (codec.shape kv), dtype := some (codec.dtype kv), compressed }

/-- Compress a block into its file. -/
def spill (codec : BlockCodec ν π) (s : TieredKVCache ν π) (key : BlockKey) (kv : ν) :
    TieredKVCache ν π :=
  let payload := codec.compressBlock kv
  let s := { s with nvmeFiles := s.nvmeFiles.set key payload }
  ((s.setLocation key .nvme 0 (codec.payloadBytes payload)).addUsage .nvme
    (codec.payloadBytes payload)).touch .nvme key

/-- The calls of `_ensure_capacity` that the source makes here find room already
(`ensureCapacity_targetTier`), so they evict nothing. -/
def write (codec : BlockCodec ν π) (s : TieredKVCache ν π) (key : BlockKey) (kv : ν) :
    TieredKVCache ν π :=
  let sizeBytes : Int := codec.sizeBytes kv
  match s.targetTier sizeBytes with
  | .gpu =>
    let s := { s with gpuStore := s.gpuStore.set key kv }
    let s := ((s.setLocation key .gpu 0 sizeBytes).addUsage .gpu sizeBytes).touch .gpu key
    { s with metadata := s.metadata.set key (describe codec kv false) }
  | .cpu =>
    let s := { s with cpuStore := s.cpuStore.set key kv }
    let s := ((s.setLocation key .cpu 0 sizeBytes).addUsage .cpu sizeBytes).touch .cpu key
    { s with metadata := s.metadata.set key (describe codec kv false) }
  | .nvme =>
    let s := s.spill codec key kv
    { s with metadata := s.metadata.set key (describe codec kv true) }

/-! ### Evicting -/

/-- The oldest key of the tier, taken out of its LRU order. -/
def popLru (s : TieredKVCache ν π) (tier : Tier) : Option (BlockKey × TieredKVCache ν π) :=
  match (s.lru tier).keys with
  | [] => none
  | key :: _ => some (key, { s with lru := Function.update s.lru tier ((s.lru tier).erase key) })

/-- Take a block off the GPU. -/
def takeGpu (codec : BlockCodec ν π) (s : TieredKVCache ν π) (key : BlockKey) (tensor : ν) :
    TieredKVCache ν π :=
  { s with gpuStore := s.gpuStore.erase key }.dropUsage .gpu (codec.sizeBytes tensor)

/-- Take a block out of CPU memory. -/
def takeCpu (codec : BlockCodec ν π) (s : TieredKVCache ν π) (key : BlockKey) (tensor : ν) :
    TieredKVCache ν π :=
  { s with cpuStore := s.cpuStore.erase key }.dropUsage .cpu (codec.sizeBytes tensor)

/-- `evict` with the strategy `"lru"`. -/
def evictLru (codec : BlockCodec ν π) (s : TieredKVCache ν π) (tier : Tier) : TieredKVCache ν π :=
  match s.popLru tier with
  | none => s
  | some (key, s) =>
    if s.locations.contains key = false then s
    else match tier with
      | .gpu =>
        match s.gpuStore.get? key with
        | none => s
        | some tensor => (s.takeGpu codec key tensor).write codec key tensor
      | .cpu =>
        match s.cpuStore.get? key with
        | none => s
        | some tensor => (s.takeCpu codec key tensor).spill codec key tensor
      | .nvme => s

def evict (codec : BlockCodec ν π) (s : TieredKVCache ν π) (strategy : String)
    (tier : Option Tier) : Except TieredFault Unit × TieredKVCache ν π :=
  if strategy ≠ "lru" then (.error .lruOnly, s)
  else (.ok (), s.evictLru codec (tier.getD .gpu))

/-! ### Making room -/

/-- The test of the loop of `_ensure_capacity`. -/
def Overfull (s : TieredKVCache ν π) (tier : Tier) (needed : Int) : Prop :=
  let budget := if tier = .gpu then s.gpuBudgetBytes else s.cpuBudgetBytes
  0 < budget ∧ s.usage tier + needed > budget ∧ (s.lru tier).items ≠ []

instance (s : TieredKVCache ν π) (tier : Tier) (needed : Int) :
    Decidable (s.Overfull tier needed) :=
  inferInstanceAs (Decidable (_ ∧ _ ∧ _))

/-- One turn of the loop. -/
def evictOnce (codec : BlockCodec ν π) (tier : Tier) (needed : Int) (s : TieredKVCache ν π) :
    Option (TieredKVCache ν π) :=
  if s.Overfull tier needed then some (s.evictLru codec tier) else none

/-- `_ensure_capacity` -/
def ensureCapacity (codec : BlockCodec ν π) (s : TieredKVCache ν π) (tier : Tier)
    (needed : Int) : Part (TieredKVCache ν π) :=
  eval (evictOnce codec tier needed) s

/-! ### Reading -/

/-- Put a block that the CPU store holds on the GPU as well. -/
def place (codec : BlockCodec ν π) (s : TieredKVCache ν π) (key : BlockKey) (tensor : ν) :
    TieredKVCache ν π :=
  let s := { s with gpuStore := s.gpuStore.set key tensor }
  ((s.setLocation key .gpu 0 (codec.sizeBytes tensor)).addUsage .gpu (codec.sizeBytes tensor)).touch
    .gpu key

/-- `_promote_cpu_to_gpu` -/
def promoteCpuToGpu (codec : BlockCodec ν π) (s : TieredKVCache ν π) (key : BlockKey) :
    Part (Except TieredFault ν × TieredKVCache ν π) :=
  match s.cpuStore.get? key with
  | none => Part.some (.error (.noEntry key), s)
  | some tensor =>
    (s.ensureCapacity codec .gpu (codec.sizeBytes tensor)).map fun s =>
      (.ok tensor, s.place codec key tensor)

/-- `_read_nvme_to_cpu` -/
def readNvmeToCpu (codec : BlockCodec ν π) (s : TieredKVCache ν π) (key : BlockKey) :
    Except TieredFault ν :=
  match s.metadata.get? key with
  | none => .error (.noEntry key)
  | some metadata =>
    match metadata.shape, metadata.dtype with
    | some shape, some dtype =>
      match s.nvmeFiles.get? key with
      | none => .error (.noFile key)
      | some payload =>
        match codec.decompressBlock payload shape dtype with
        | none => .error .badPayload
        | some tensor => .ok tensor
    | _, _ => .error .noShape

/-- Put a block that has been read from its file in CPU memory. -/
def stage (codec : BlockCodec ν π) (s : TieredKVCache ν π) (key : BlockKey) (tensor : ν) :
    TieredKVCache ν π :=
  let s := { s with cpuStore := s.cpuStore.set key tensor }
  ((s.addUsage .cpu (codec.sizeBytes tensor)).setLocation key .cpu 0 (codec.sizeBytes tensor)).touch
    .cpu key

/-- The tier of the block's location, if it has one. -/
def tierOf (s : TieredKVCache ν π) (key : BlockKey) : Option Tier :=
  (s.locations.get? key).map BlockLocation.tier

def read (codec : BlockCodec ν π) (s : TieredKVCache ν π) (key : BlockKey) :
    Part (Except TieredFault ν × TieredKVCache ν π) :=
  match s.gpuStore.get? key with
  | some tensor => Part.some (.ok tensor, s.touch .gpu key)
  | none =>
    if s.cpuStore.contains key then s.promoteCpuToGpu codec key
    else if s.tierOf key = some .nvme then
      match s.readNvmeToCpu codec key with
      | .error e => Part.some (.error e, s)
      | .ok tensor =>
        (s.ensureCapacity codec .cpu (codec.sizeBytes tensor)).bind fun s =>
          (s.stage codec key tensor).promoteCpuToGpu codec key
    else Part.some (.error (.missingBlock key), s)

section
variable {codec : BlockCodec ν π} {s : TieredKVCache ν π} {key : BlockKey} {tensor : ν}

/-- An eviction in the LRU order evicts one block; any other strategy is refused before anything
changes. -/
theorem evict_cases (codec : BlockCodec ν π) (s : TieredKVCache ν π) (strategy : String)
    (tier : Option Tier) :
    (strategy = "lru" ∧ (s.evict codec strategy tier).2 = s.evictLru codec (tier.getD .gpu)) ∨
      (strategy ≠ "lru" ∧ (s.evict codec strategy tier).2 = s) := by
  by_cases hlru : strategy = "lru"
  · exact Or.inl ⟨hlru, by rw [evict, if_neg (not_not.mpr hlru)]⟩
  · exact Or.inr ⟨hlru, by rw [evict, if_pos hlru]⟩

theorem promoteCpuToGpu_of_held (hcpu : s.cpuStore.get? key = some tensor) :
    s.promoteCpuToGpu codec key =
      (s.ensureCapacity codec .gpu (codec.sizeBytes tensor)).map fun s =>
        (.ok tensor, s.place codec key tensor) := by
  rw [promoteCpuToGpu, hcpu]

theorem read_of_gpu (hgpu : s.gpuStore.get? key = some tensor) :
    s.read codec key = Part.some (.ok tensor, s.touch .gpu key) := by
  rw [read, hgpu]

theorem read_of_cpu (hgpu : s.gpuStore.get? key = none)
    (hcpu : s.cpuStore.get? key = some tensor) :
    s.read codec key = s.promoteCpuToGpu codec key := by
  have hin : s.cpuStore.contains key = true := by rw [Dict.contains, hcpu]; rfl
  simp only [read, hgpu, hin, if_true]

variable (hgpu : s.gpuStore.get? key = none) (hcpu : s.cpuStore.get? key = none)
include hgpu hcpu

theorem read_of_file (htier : s.tierOf key = some .nvme)
    (hfile : s.readNvmeToCpu codec key = .ok tensor) :
    s.read codec key =
      (s.ensureCapacity codec .cpu (codec.sizeBytes tensor)).bind fun s =>
        (s.stage codec key tensor).promoteCpuToGpu codec key := by
  have hout : s.cpuStore.contains key = false := by rw [Dict.contains, hcpu]; rfl
  simp only [read, hgpu, hout, htier, hfile, Bool.false_eq_true, if_false, if_true]

theorem read_of_bad_file {e : TieredFault} (htier : s.tierOf key = some .nvme)
    (hfile : s.readNvmeToCpu codec key = .error e) :
    s.read codec key = Part.some (.error e, s) := by
  have hout : s.cpuStore.contains key = false := by rw [Dict.contains, hcpu]; rfl
  simp only [read, hgpu, hout, htier, hfile, Bool.false_eq_true, if_false, if_true]

theorem read_of_missing (htier : s.tierOf key ≠ some .nvme) :
    s.read codec key = Part.some (.error (.missingBlock key), s) := by
  have hout : s.cpuStore.contains key = false := by rw [Dict.contains, hcpu]; rfl
  simp only [read, hgpu, hout, htier, Bool.false_eq_true, if_false]

end

/-! ### Allocating -/

/-- The file that the last branch creates is empty, and no read opens it: its block has no
shape. -/
def allocateBlock (s : TieredKVCache ν π) (key : BlockKey) : BlockLocation × TieredKVCache ν π :=
  match s.locations.get? key with
  | some location => (location, s.touch location.tier key)
  | none =>
    let placeholderSize : Int := 4 * 1024 * 1024
    let (location, s) : BlockLocation × TieredKVCache ν π :=
      if s.usage .gpu + placeholderSize ≤ s.gpuBudgetBytes then
        (⟨.gpu, 0, placeholderSize⟩, s.addUsage .gpu placeholderSize)
      else if s.usage .cpu + placeholderSize ≤ s.cpuBudgetBytes then
        (⟨.cpu, 0, placeholderSize⟩, s.addUsage .cpu placeholderSize)
      else
        (⟨.nvme, s.offset, placeholderSize⟩,
          { s.addUsage .nvme placeholderSize with offset := s.offset + placeholderSize })
    let s :=
      { s with
        locations := s.locations.set key location
        metadata := s.metadata.set key { shape := none, dtype := none, compressed := false } }
    (location, s.touch location.tier key)

end TieredKVCache

/-- One call of an operation of the tiered cache with its arguments. -/
inductive TieredOp (ν : Type) where
  | write (key : BlockKey) (kv : ν)
  | read (key : BlockKey)
  | evict (strategy : String) (tier : Option Tier)

namespace TieredOp
variable {ν π : Type}

/-- The cache that the call leaves behind, when it returns or raises. -/
def apply (codec : BlockCodec ν π) (s : TieredKVCache ν π) :
    TieredOp ν → Part (TieredKVCache ν π)
  | .write key kv => Part.some (s.write codec key kv)
  | .read key => (s.read codec key).map Prod.snd
  | .evict strategy tier => Part.some (s.evict codec strategy tier).2

end TieredOp

/-- A sequence of calls; a call that raises does not stop the sequence. -/
def TieredKVCache.runOps {ν π : Type} (codec : BlockCodec ν π) :
    List (TieredOp ν) → TieredKVCache ν π → Part (TieredKVCache ν π)
  | [], s => Part.some s
  | op :: ops, s => (op.apply codec s).bind (runOps codec ops)

end ResidentInference

import ResidentInference.TieredHomes

/-! The bytes that the tiered cache counts for each tier. A block that replaces one in its tier, or
whose file is left behind, is counted twice. -/
namespace ResidentInference
open StateTransition

/-- The codec never packs a block into an empty file. -/
def BlockCodec.Framed {ν π : Type} (codec : BlockCodec ν π) : Prop :=
  ∀ v, 0 < codec.payloadBytes (codec.compressBlock v)

namespace TieredKVCache
variable {ν π : Type} {codec : BlockCodec ν π} {s s' : TieredKVCache ν π}

/-- The stored size of a block that is in a file. -/
def fileBytes (location : BlockLocation) : Int :=
  if location.tier = .nvme then location.sizeBytes else 0

/-- The bytes of all the blocks of the tier. -/
def stored (codec : BlockCodec ν π) (s : TieredKVCache ν π) : Tier → Int
  | .gpu => s.gpuStore.sumBy fun tensor => (codec.sizeBytes tensor : Int)
  | .cpu => s.cpuStore.sumBy fun tensor => (codec.sizeBytes tensor : Int)
  | .nvme => s.locations.sumBy fileBytes

/-- The bytes of the key's block in the tier, zero when it has none there. -/
def heldBytes (codec : BlockCodec ν π) (s : TieredKVCache ν π) (key : BlockKey) : Tier → Int
  | .gpu => ((s.gpuStore.get? key).map fun tensor => (codec.sizeBytes tensor : Int)).getD 0
  | .cpu => ((s.cpuStore.get? key).map fun tensor => (codec.sizeBytes tensor : Int)).getD 0
  | .nvme => ((s.locations.get? key).map fileBytes).getD 0

/-- The usage of each tier is what it stores, and memory is within its budgets. -/
structure Accounts (codec : BlockCodec ν π) (s : TieredKVCache ν π) : Prop where
  usage : ∀ tier, s.usage tier = s.stored codec tier
  gpu : s.usage .gpu ≤ s.gpuBudgetBytes
  cpu : s.usage .cpu ≤ s.cpuBudgetBytes

/-- A block of the key that goes to the tier takes the place of no bytes there, nor of a file. -/
def ReplacesNothing (codec : BlockCodec ν π) (s : TieredKVCache ν π) (tier : Tier)
    (key : BlockKey) : Prop :=
  s.heldBytes codec key tier = 0 ∧ s.heldBytes codec key .nvme = 0

/-! ### A block that is put in a tier -/

/-- The usage counts the bytes in addition, and they take the place of what the tier, and the
file, had of the key. -/
structure Adds (codec : BlockCodec ν π) (s s' : TieredKVCache ν π) (tier : Tier) (key : BlockKey)
    (n : Int) : Prop where
  usage : ∀ t, s'.usage t = s.usage t + if t = tier then n else 0
  stored : ∀ t, s'.stored codec t + (if t = tier ∨ t = .nvme then s.heldBytes codec key t else 0) =
    s.stored codec t + if t = tier then n else 0
  gpuBudget : s'.gpuBudgetBytes = s.gpuBudgetBytes
  cpuBudget : s'.cpuBudgetBytes = s.cpuBudgetBytes

section
variable {tier : Tier} {key : BlockKey} {n : Int}

/-- The usage stays what is stored exactly when nothing is replaced. -/
theorem Adds.usage_iff (ha : Adds codec s s' tier key n)
    (h : ∀ t, s.usage t = s.stored codec t) :
    (∀ t, s'.usage t = s'.stored codec t) ↔ s.ReplacesNothing codec tier key := by
  have hboth (t : Tier) : s'.usage t = s'.stored codec t ↔
      (if t = tier ∨ t = .nvme then s.heldBytes codec key t else 0) = 0 := by
    have husage := ha.usage t
    have hstored := ha.stored t
    have hsame := h t
    omega
  constructor
  · intro h'
    refine ⟨?_, ?_⟩
    · simpa using (hboth tier).mp (h' tier)
    · simpa using (hboth .nvme).mp (h' .nvme)
  · intro hr t
    refine (hboth t).mpr ?_
    split
    · next ht =>
      obtain rfl | rfl := ht
      · exact hr.1
      · exact hr.2
    · rfl

theorem stored_setLocation (codec : BlockCodec ν π) (s : TieredKVCache ν π) (key : BlockKey)
    (tier : Tier) (offset n : Int) :
    (s.setLocation key tier offset n).locations.sumBy fileBytes + s.heldBytes codec key .nvme =
      s.locations.sumBy fileBytes + if tier = .nvme then n else 0 :=
  Dict.sumBy_set fileBytes s.locations key ⟨tier, offset, n⟩

theorem usage_addUsage (s : TieredKVCache ν π) (tier t : Tier) (n : Int) :
    (s.addUsage tier n).usage t = s.usage t + if t = tier then n else 0 := by
  by_cases ht : t = tier
  · subst ht
    simp [addUsage]
  · simp [addUsage, ht]

theorem adds_place (codec : BlockCodec ν π) (s : TieredKVCache ν π) (key : BlockKey) (tensor : ν) :
    Adds codec s (s.place codec key tensor) .gpu key (codec.sizeBytes tensor) where
  usage t := usage_addUsage _ .gpu t _
  stored t := by
    cases t with
    | gpu => exact Dict.sumBy_set (fun v => (codec.sizeBytes v : Int)) s.gpuStore key tensor
    | cpu => rfl
    | nvme => exact stored_setLocation codec s key .gpu 0 (codec.sizeBytes tensor)
  gpuBudget := rfl
  cpuBudget := rfl

theorem adds_stage (codec : BlockCodec ν π) (s : TieredKVCache ν π) (key : BlockKey) (tensor : ν) :
    Adds codec s (s.stage codec key tensor) .cpu key (codec.sizeBytes tensor) where
  usage t := usage_addUsage _ .cpu t _
  stored t := by
    cases t with
    | gpu => rfl
    | cpu => exact Dict.sumBy_set (fun v => (codec.sizeBytes v : Int)) s.cpuStore key tensor
    | nvme => exact stored_setLocation codec s key .cpu 0 (codec.sizeBytes tensor)
  gpuBudget := rfl
  cpuBudget := rfl

theorem adds_spill (codec : BlockCodec ν π) (s : TieredKVCache ν π) (key : BlockKey) (kv : ν) :
    Adds codec s (s.spill codec key kv) .nvme key
      (codec.payloadBytes (codec.compressBlock kv)) where
  usage t := usage_addUsage _ .nvme t _
  stored t := by
    cases t with
    | gpu => rfl
    | cpu => rfl
    | nvme => exact stored_setLocation codec s key .nvme 0 _
  gpuBudget := rfl
  cpuBudget := rfl

theorem Adds.withMetadata (ha : Adds codec s s' tier key n)
    (metadata : Dict BlockKey BlockMetadata) :
    Adds codec s { s' with metadata := metadata } tier key n where
  usage := ha.usage
  stored t := by
    cases t with
    | gpu => exact ha.stored .gpu
    | cpu => exact ha.stored .cpu
    | nvme => exact ha.stored .nvme
  gpuBudget := ha.gpuBudget
  cpuBudget := ha.cpuBudget

/-- The bytes that a block takes in the tier: its own, or those of its file. -/
def bytesIn (codec : BlockCodec ν π) (kv : ν) : Tier → Int
  | .nvme => codec.payloadBytes (codec.compressBlock kv)
  | _ => codec.sizeBytes kv

theorem adds_write (codec : BlockCodec ν π) (s : TieredKVCache ν π) (key : BlockKey) (kv : ν) :
    Adds codec s (s.write codec key kv) (s.targetTier (codec.sizeBytes kv)) key
      (bytesIn codec kv (s.targetTier (codec.sizeBytes kv))) := by
  unfold write
  dsimp only
  cases s.targetTier (codec.sizeBytes kv) with
  | gpu => exact (adds_place codec s key kv).withMetadata _
  | cpu => exact (adds_stage codec s key kv).withMetadata _
  | nvme => exact (adds_spill codec s key kv).withMetadata _

/-- A write picks a tier that has room. -/
theorem room_of_targetTier (s : TieredKVCache ν π) (n : Int) :
    (s.targetTier n = .gpu → s.usage .gpu + n ≤ s.gpuBudgetBytes) ∧
      (s.targetTier n = .cpu → s.usage .cpu + n ≤ s.cpuBudgetBytes) := by
  simp only [targetTier]
  grind

/-- A block that fits keeps the accounts exactly when it replaces nothing. -/
theorem Accounts.adds_iff (h : Accounts codec s) (ha : Adds codec s s' tier key n)
    (hgpu : tier = .gpu → s.usage .gpu + n ≤ s.gpuBudgetBytes)
    (hcpu : tier = .cpu → s.usage .cpu + n ≤ s.cpuBudgetBytes) :
    Accounts codec s' ↔ s.ReplacesNothing codec tier key := by
  refine Iff.trans ⟨Accounts.usage, fun husage => ⟨husage, ?_, ?_⟩⟩ (ha.usage_iff h.usage)
  · rw [ha.usage, ha.gpuBudget]
    split
    · next ht => exact hgpu ht.symm
    · simpa using h.gpu
  · rw [ha.usage, ha.cpuBudget]
    split
    · next ht => exact hcpu ht.symm
    · simpa using h.cpu

/-- A write keeps the accounts exactly when it replaces nothing. -/
theorem Accounts.write_iff (h : Accounts codec s) (key : BlockKey) (kv : ν) :
    Accounts codec (s.write codec key kv) ↔
      s.ReplacesNothing codec (s.targetTier (codec.sizeBytes kv)) key := by
  refine h.adds_iff (adds_write codec s key kv) (fun ht => ?_) fun ht => ?_
  · rw [ht]
    exact (s.room_of_targetTier _).1 ht
  · rw [ht]
    exact (s.room_of_targetTier _).2 ht

theorem Accounts.spill_iff (h : Accounts codec s) (key : BlockKey) (kv : ν) :
    Accounts codec (s.spill codec key kv) ↔ s.heldBytes codec key .nvme = 0 := by
  refine (h.adds_iff (adds_spill codec s key kv) (fun ht => absurd ht (by decide))
    fun ht => absurd ht (by decide)).trans ?_
  exact and_self_iff

/-! ### A block that is taken out of a tier -/

theorem Accounts.withLru (h : Accounts codec s) (lru : Tier → Dict BlockKey Unit) :
    Accounts codec { s with lru := lru } where
  usage t := by
    cases t with
    | gpu => exact h.usage .gpu
    | cpu => exact h.usage .cpu
    | nvme => exact h.usage .nvme
  gpu := h.gpu
  cpu := h.cpu

theorem Accounts.touch (h : Accounts codec s) (tier : Tier) (key : BlockKey) :
    Accounts codec (s.touch tier key) := h.withLru _

theorem Accounts.takeGpu (h : Accounts codec s) {tensor : ν}
    (hheld : s.gpuStore.get? key = some tensor) : Accounts codec (s.takeGpu codec key tensor) := by
  have herase := Dict.sumBy_erase (fun v => (codec.sizeBytes v : Int)) hheld
  have hrest : 0 ≤ (s.gpuStore.erase key).sumBy fun v => (codec.sizeBytes v : Int) :=
    Dict.sumBy_nonneg fun _ _ _ => Int.natCast_nonneg _
  have hsame : s.usage .gpu = s.gpuStore.sumBy fun v => (codec.sizeBytes v : Int) := h.usage .gpu
  have hdrop : (s.takeGpu codec key tensor).usage .gpu =
      (s.gpuStore.erase key).sumBy fun v => (codec.sizeBytes v : Int) := by
    simp only [TieredKVCache.takeGpu, dropUsage, Function.update_self]
    omega
  refine ⟨fun t => ?_, ?_, h.cpu⟩
  · cases t with
    | gpu => exact hdrop
    | cpu => exact h.usage .cpu
    | nvme => exact h.usage .nvme
  · rw [hdrop]
    have hle := h.gpu
    change _ ≤ s.gpuBudgetBytes
    omega

theorem Accounts.takeCpu (h : Accounts codec s) {tensor : ν}
    (hheld : s.cpuStore.get? key = some tensor) : Accounts codec (s.takeCpu codec key tensor) := by
  have herase := Dict.sumBy_erase (fun v => (codec.sizeBytes v : Int)) hheld
  have hrest : 0 ≤ (s.cpuStore.erase key).sumBy fun v => (codec.sizeBytes v : Int) :=
    Dict.sumBy_nonneg fun _ _ _ => Int.natCast_nonneg _
  have hsame : s.usage .cpu = s.cpuStore.sumBy fun v => (codec.sizeBytes v : Int) := h.usage .cpu
  have hdrop : (s.takeCpu codec key tensor).usage .cpu =
      (s.cpuStore.erase key).sumBy fun v => (codec.sizeBytes v : Int) := by
    simp only [TieredKVCache.takeCpu, dropUsage, Function.update_self]
    omega
  refine ⟨fun t => ?_, h.gpu, ?_⟩
  · cases t with
    | gpu => exact h.usage .gpu
    | cpu => exact hdrop
    | nvme => exact h.usage .nvme
  · rw [hdrop]
    have hle := h.cpu
    change _ ≤ s.cpuBudgetBytes
    omega

/-- The block that is next to leave the GPU replaces nothing where it goes. -/
def EvictsCleanly (codec : BlockCodec ν π) (s : TieredKVCache ν π) : Tier → Prop
  | .gpu => ∀ p ∈ s.writeBack codec,
      p.1.ReplacesNothing codec (p.1.targetTier (codec.sizeBytes p.2.2)) p.2.1
  | .cpu => ∀ p ∈ s.popLru .cpu, p.1 ∈ s.cpuStore.keys → s.heldBytes codec p.1 .nvme = 0
  | .nvme => True

/-- An eviction keeps the accounts exactly when its block replaces nothing where it goes. -/
theorem Accounts.evictLru_iff (h : Accounts codec s) (tier : Tier) :
    Accounts codec (s.evictLru codec tier) ↔ s.EvictsCleanly codec tier := by
  unfold evictLru
  cases hpop : s.popLru tier with
  | none =>
    refine iff_of_true h ?_
    cases tier with
    | gpu => simp [EvictsCleanly, writeBack, hpop]
    | cpu => simp [EvictsCleanly, hpop]
    | nvme => trivial
  | some p =>
    obtain ⟨key, s₁⟩ := p
    obtain ⟨_, hs₁⟩ := popLru_eq_some hpop
    have h₁ : Accounts codec s₁ := hs₁ ▸ h.withLru _
    have hcpu : s₁.cpuStore = s.cpuStore := by rw [hs₁]
    have hfile : s₁.heldBytes codec key .nvme = s.heldBytes codec key .nvme := by
      rw [hs₁]
      rfl
    have hlocations : s₁.locations = s.locations := by rw [hs₁]
    dsimp only
    by_cases hnone : s₁.locations.contains key = false
    · rw [if_pos hnone]
      refine iff_of_true h₁ ?_
      cases tier with
      | gpu => simp [EvictsCleanly, writeBack, hpop, hnone]
      | cpu =>
        simp only [EvictsCleanly, hpop, Option.mem_some_iff, forall_eq']
        rw [hlocations, Dict.contains, Option.isSome_eq_false_iff,
          Option.isNone_iff_eq_none] at hnone
        simp [heldBytes, hnone]
      | nvme => trivial
    · rw [if_neg hnone]
      cases tier with
      | gpu =>
        have hback : s.writeBack codec =
            (s₁.gpuStore.get? key).map
              fun tensor => (s₁.takeGpu codec key tensor, key, tensor) := by
          simp only [writeBack, hpop, if_neg hnone]
        simp only [EvictsCleanly, hback]
        cases hheld : s₁.gpuStore.get? key with
        | none => exact iff_of_true h₁ fun p hp => absurd hp (Option.not_mem_none p)
        | some tensor =>
          simp only [Option.map_some, Option.mem_some_iff, forall_eq']
          exact (h₁.takeGpu hheld).write_iff key tensor
      | cpu =>
        simp only [EvictsCleanly, hpop, Option.mem_some_iff, forall_eq', ← hcpu, ← hfile]
        cases hheld : s₁.cpuStore.get? key with
        | none => exact iff_of_true h₁ fun hin => absurd hin ((Dict.get?_eq_none_iff _ _).mp hheld)
        | some tensor =>
          rw [forall_prop_of_true (Dict.mem_keys_of_get? hheld)]
          exact (h₁.takeCpu hheld).spill_iff key tensor
      | nvme => exact iff_of_true h₁ trivial

/-! ### Making room and reading -/

/-- Within its budget the GPU has room for every block that may be promoted: without room the
eviction loop does not end. -/
theorem Accounts.room_eq (h : Accounts codec s) (ht : GpuTidy codec s) {room : TieredKVCache ν π}
    (hfit : 0 < s.gpuBudgetBytes → n ≤ s.gpuBudgetBytes)
    (hroom : room ∈ s.ensureCapacity codec .gpu n) :
    room = s ∧ (0 < s.gpuBudgetBytes → s.usage .gpu + n ≤ s.gpuBudgetBytes) := by
  have hfits : 0 < s.gpuBudgetBytes → s.usage .gpu + n ≤ s.gpuBudgetBytes := by
    intro hbudget
    by_contra hover
    have hn := hfit hbudget
    have hsame : s.usage .gpu = s.gpuStore.sumBy fun v => (codec.sizeBytes v : Int) := h.usage .gpu
    -- some block is on the GPU, and the loop would write it back for ever
    have hsome : ∃ key tensor, s.gpuStore.get? key = some tensor := by
      by_contra hno
      simp only [not_exists] at hno
      have hnone : s.gpuStore.keys = [] := by
        refine List.eq_nil_iff_forall_not_mem.mpr fun key hkey => ?_
        obtain ⟨tensor, htensor⟩ := (Dict.mem_keys_iff _ _).mp hkey
        exact hno key tensor htensor
      have hitems : s.gpuStore.items = [] := List.map_eq_nil_iff.mp hnone
      rw [Dict.sumBy, hitems, List.map_nil, List.sum_nil] at hsame
      omega
    obtain ⟨key, tensor, htensor⟩ := hsome
    have hdom := (ensureCapacity_gpu_dom_iff ht n).mp (Part.dom_iff_mem.mpr ⟨room, hroom⟩)
    refine hdom ⟨hbudget, [], _, rfl, ?_, ?_, key, ht.order key (Dict.mem_keys_of_get? htensor), ?_⟩
    · rw [EvictionLoop.View.left_nil]
      exact h.gpu
    · rw [EvictionLoop.View.left_nil]
      exact not_le.mp hover
    · simp [gpuView, htensor]
  have hnot : ¬ s.Overfull .gpu n := by
    rintro ⟨hbudget, hover, _⟩
    simp only [if_true] at hbudget hover
    have := hfits hbudget
    omega
  exact ⟨Part.mem_unique hroom (ensureCapacity_of_room hnot), hfits⟩

/-- What every write of an evicted block keeps is kept by an eviction. -/
theorem evictLru_keeps {P : TieredKVCache ν π → Prop} (tier : Tier)
    (hlru : ∀ u lru, P u → P { u with lru := lru })
    (hgpu : ∀ u key tensor, P u → u.gpuStore.get? key = some tensor →
      P ((u.takeGpu codec key tensor).write codec key tensor))
    (hcpu : ∀ u key tensor, P u → u.cpuStore.get? key = some tensor →
      P ((u.takeCpu codec key tensor).spill codec key tensor))
    (h : P s) : P (s.evictLru codec tier) := by
  unfold evictLru
  cases hpop : s.popLru tier with
  | none => exact h
  | some p =>
    obtain ⟨key, s₁⟩ := p
    obtain ⟨_, hs₁⟩ := popLru_eq_some hpop
    have h₁ : P s₁ := hs₁ ▸ hlru s _ h
    dsimp only
    split
    · exact h₁
    · cases tier with
      | gpu =>
        cases hheld : s₁.gpuStore.get? key with
        | none => exact h₁
        | some tensor => exact hgpu s₁ key tensor h₁ hheld
      | cpu =>
        cases hheld : s₁.cpuStore.get? key with
        | none => exact h₁
        | some tensor => exact hcpu s₁ key tensor h₁ hheld
      | nvme => exact h₁

/-- Every block in memory has at most that size. -/
def Fits (codec : BlockCodec ν π) (n : Int) (s : TieredKVCache ν π) : Prop :=
  ∀ key tensor, s.gpuStore.get? key = some tensor ∨ s.cpuStore.get? key = some tensor →
    (codec.sizeBytes tensor : Int) ≤ n

theorem Fits.set_gpu (h : Fits codec n s) {tensor : ν} (hn : (codec.sizeBytes tensor : Int) ≤ n)
    (key : BlockKey) : Fits codec n { s with gpuStore := s.gpuStore.set key tensor } := by
  rintro k v (hk | hk)
  · rw [Dict.get?_set] at hk
    split at hk
    · cases hk
      exact hn
    · exact h k v (Or.inl hk)
  · exact h k v (Or.inr hk)

theorem Fits.set_cpu (h : Fits codec n s) {tensor : ν} (hn : (codec.sizeBytes tensor : Int) ≤ n)
    (key : BlockKey) : Fits codec n { s with cpuStore := s.cpuStore.set key tensor } := by
  rintro k v (hk | hk)
  · exact h k v (Or.inl hk)
  · rw [Dict.get?_set] at hk
    split at hk
    · cases hk
      exact hn
    · exact h k v (Or.inr hk)

theorem Fits.write (h : Fits codec n s) (key : BlockKey) {kv : ν}
    (hn : (codec.sizeBytes kv : Int) ≤ n) : Fits codec n (s.write codec key kv) := by
  unfold TieredKVCache.write
  dsimp only
  cases s.targetTier (codec.sizeBytes kv) with
  | gpu => exact h.set_gpu hn key
  | cpu => exact h.set_cpu hn key
  | nvme => exact h

theorem Fits.takeGpu (h : Fits codec n s) (key : BlockKey) (tensor : ν) :
    Fits codec n (s.takeGpu codec key tensor) := by
  rintro k v (hk | hk)
  · have hstore : (s.takeGpu codec key tensor).gpuStore = s.gpuStore.erase key := rfl
    rw [hstore, Dict.get?_erase] at hk
    split at hk
    · cases hk
    · exact h k v (Or.inl hk)
  · exact h k v (Or.inr hk)

theorem Fits.takeCpu (h : Fits codec n s) (key : BlockKey) (tensor : ν) :
    Fits codec n (s.takeCpu codec key tensor) := by
  rintro k v (hk | hk)
  · exact h k v (Or.inl hk)
  · have hstore : (s.takeCpu codec key tensor).cpuStore = s.cpuStore.erase key := rfl
    rw [hstore, Dict.get?_erase] at hk
    split at hk
    · cases hk
    · exact h k v (Or.inr hk)

theorem Fits.evictLru (h : Fits codec n s) (tier : Tier) :
    Fits codec n (s.evictLru codec tier) := by
  refine evictLru_keeps tier (fun _ _ hu => hu) (fun u key tensor hu hheld => ?_)
    (fun u key tensor hu _ => hu.takeCpu key tensor) h
  exact (hu.takeGpu key tensor).write key (hu key tensor (Or.inl hheld))

theorem gpuBudgetBytes_evictLru (s : TieredKVCache ν π) (tier : Tier) :
    (s.evictLru codec tier).gpuBudgetBytes = s.gpuBudgetBytes := by
  refine evictLru_keeps (P := fun u => u.gpuBudgetBytes = s.gpuBudgetBytes) tier
    (fun _ _ hu => hu) (fun u key tensor hu _ => ?_) (fun u key tensor hu _ => hu) rfl
  exact (adds_write codec _ key tensor).gpuBudget.trans hu

/-- What holds beside the accounts as long as they are kept: every block in memory fits on the
GPU, if that has a budget. -/
structure Fitting (codec : BlockCodec ν π) (gpuBudgetBytes : Int) (s : TieredKVCache ν π) :
    Prop where
  tidy : GpuTidy codec s
  budget : s.gpuBudgetBytes = gpuBudgetBytes
  fits : 0 < gpuBudgetBytes → Fits codec gpuBudgetBytes s

variable {gpuBudgetBytes cpuBudgetBytes : Int}

/-- A block that CPU memory holds is promoted with the accounts kept exactly when it leaves no file
behind, and, on a GPU without a budget, is empty. -/
theorem Accounts.place_iff (h : Accounts codec s) (hf : Fitting codec gpuBudgetBytes s) {tensor : ν}
    {room : TieredKVCache ν π} (hgpu : s.gpuStore.get? key = none)
    (hcpu : s.cpuStore.get? key = some tensor)
    (hroom : room ∈ s.ensureCapacity codec .gpu (codec.sizeBytes tensor)) :
    room = s ∧ (Accounts codec (room.place codec key tensor) ↔
      s.heldBytes codec key .nvme = 0 ∧
        (0 < s.gpuBudgetBytes ∨ codec.sizeBytes tensor = 0)) := by
  have hfit : 0 < s.gpuBudgetBytes → (codec.sizeBytes tensor : Int) ≤ s.gpuBudgetBytes := by
    rw [hf.budget]
    exact fun hbudget => hf.fits hbudget key tensor (Or.inr hcpu)
  obtain ⟨rfl, hfits⟩ := h.room_eq hf.tidy hfit hroom
  have ha := adds_place codec room key tensor
  have hnone : room.heldBytes codec key .gpu = 0 := by simp [heldBytes, hgpu]
  have hpos : 0 ≤ room.usage .gpu := by
    rw [h.usage]
    exact Dict.sumBy_nonneg fun _ _ _ => Int.natCast_nonneg _
  have hbound := h.gpu
  refine ⟨rfl, fun h' => ⟨((ha.usage_iff h.usage).mp h'.usage).2, ?_⟩, fun hok => ?_⟩
  · have hle := h'.gpu
    rw [ha.usage, ha.gpuBudget, if_pos rfl] at hle
    omega
  · refine (h.adds_iff ha (fun _ => ?_) fun ht => absurd ht (by decide)).mpr ⟨hnone, hok.1⟩
    obtain hbudget | hempty := hok.2
    · exact hfits hbudget
    · rw [hempty]
      simpa using hbound

/-! ### Files that are counted twice -/

/-- The usage of the files is beyond what they store by that much at least, and no file is
empty. -/
structure Overcounts (codec : BlockCodec ν π) (n : Int) (s : TieredKVCache ν π) : Prop where
  positive : ∀ key location, s.locations.get? key = some location → location.tier = .nvme →
    0 < location.sizeBytes
  excess : s.stored codec .nvme + n ≤ s.usage .nvme

theorem heldBytes_nvme_pos (hpos : ∀ key location, s.locations.get? key = some location →
    location.tier = .nvme → 0 < location.sizeBytes) (key : BlockKey) :
    0 ≤ s.heldBytes codec key .nvme ∧
      (s.tierOf key = some .nvme → 0 < s.heldBytes codec key .nvme) := by
  simp only [heldBytes, tierOf]
  cases hlocation : s.locations.get? key with
  | none => simp
  | some location =>
    have hsize := hpos key location hlocation
    simp only [Option.map_some, Option.getD_some, fileBytes, Option.some.injEq]
    split
    · next ht => exact ⟨(hsize ht).le, hsize⟩
    · next ht => exact ⟨le_rfl, fun h => absurd h ht⟩

/-- A block that moves out of its file leaves the file counted. -/
theorem Overcounts.adds (h : Overcounts codec n s) {m offset size : Int}
    (ha : Adds codec s s' tier key m)
    (hlocation : s'.locations = s.locations.set key ⟨tier, offset, size⟩)
    (hsize : tier = .nvme → 0 < size) :
    Overcounts codec n s' ∧ (s.tierOf key = some .nvme → Overcounts codec (n+1) s') := by
  have hpos : ∀ k location, s'.locations.get? k = some location → location.tier = .nvme →
      0 < location.sizeBytes := by
    intro k location hk ht
    rw [hlocation, Dict.get?_set] at hk
    split at hk
    · cases hk
      exact hsize ht
    · exact h.positive k location hk ht
  have husage := ha.usage .nvme
  have hstored := ha.stored .nvme
  rw [if_pos (Or.inr rfl)] at hstored
  have hover := h.excess
  obtain ⟨hheld, hfile⟩ : 0 ≤ s.heldBytes codec key .nvme ∧
      (s.tierOf key = some .nvme → 0 < s.heldBytes codec key .nvme) :=
    heldBytes_nvme_pos h.positive key
  refine ⟨⟨hpos, by omega⟩, fun ht => ⟨hpos, ?_⟩⟩
  have := hfile ht
  omega

theorem Overcounts.spill (h : Overcounts codec n s) (hc : codec.Framed) (key : BlockKey) (kv : ν) :
    Overcounts codec n (s.spill codec key kv) :=
  (h.adds (adds_spill codec s key kv) rfl fun _ => Int.natCast_pos.mpr (hc kv)).1

theorem Overcounts.write (h : Overcounts codec n s) (hc : codec.Framed) (key : BlockKey) (kv : ν) :
    Overcounts codec n (s.write codec key kv) := by
  have ha := adds_write codec s key kv
  revert ha
  unfold TieredKVCache.write
  dsimp only
  cases s.targetTier (codec.sizeBytes kv) with
  | gpu => exact fun ha => (h.adds ha rfl fun ht => absurd ht (by decide)).1
  | cpu => exact fun ha => (h.adds ha rfl fun ht => absurd ht (by decide)).1
  | nvme => exact fun ha => (h.adds ha rfl fun _ => Int.natCast_pos.mpr (hc kv)).1

theorem Overcounts.evictLru (h : Overcounts codec n s) (hc : codec.Framed) (tier : Tier) :
    Overcounts codec n (s.evictLru codec tier) := by
  refine evictLru_keeps tier (fun u lru hu => ⟨hu.positive, hu.excess⟩)
    (fun u key tensor hu _ => ?_) (fun u key tensor hu _ => ?_) h
  · have htaken : Overcounts codec n (u.takeGpu codec key tensor) := ⟨hu.positive, hu.excess⟩
    exact htaken.write hc key tensor
  · have htaken : Overcounts codec n (u.takeCpu codec key tensor) := ⟨hu.positive, hu.excess⟩
    exact htaken.spill hc key tensor

theorem Overcounts.ensureCapacity (h : Overcounts codec n s) (hc : codec.Framed) {needed : Int}
    (hs' : s' ∈ s.ensureCapacity codec tier needed) : Overcounts codec n s' :=
  ensureCapacity_invariant hs' h fun _ _ _ hu => hu.evictLru hc tier

/-- Making room in CPU memory leaves a block that is not there in its file. -/
theorem tierOf_of_room {needed : Int} (hcpu : ¬ s.Holds .cpu key) (ht : s.tierOf key = some .nvme)
    (hs' : s' ∈ s.ensureCapacity codec .cpu needed) : s'.tierOf key = some .nvme := by
  refine (ensureCapacity_invariant (P := fun u => ¬ u.Holds .cpu key ∧ u.tierOf key = some .nvme)
    hs' ⟨hcpu, ht⟩ fun u _ _ hu => ?_).2
  cases evictLru_evicts codec u .cpu with
  | empty _ same =>
    rw [same]
    exact hu
  | dropped _ popped _ =>
    obtain ⟨_, hsame⟩ := popLru_eq_some popped
    rw [hsame]
    exact hu
  | moved key' home taken _ _ held takes puts =>
    have hne : key ≠ key' := fun hkey => hu.1 (hkey ▸ held)
    rw [puts.holds, puts.tierOf, takes.holds, takes.tierOf, if_neg hne]
    exact ⟨fun hholds => hholds.elim (fun hold => hne hold.2) fun hold => hu.1 hold.1, hu.2⟩

/-- A block that is read back from its file leaves the file counted. -/
theorem Accounts.not_read_of_file (h : Accounts codec s)
    (hpos : ∀ key location, s.locations.get? key = some location → location.tier = .nvme →
      0 < location.sizeBytes) (hc : codec.Framed) {tensor : ν} {staging room : TieredKVCache ν π}
    {needed needed' : Int} (hcpu : s.cpuStore.get? key = none) (ht : s.tierOf key = some .nvme)
    (hstaging : staging ∈ s.ensureCapacity codec .cpu needed)
    (hroom : room ∈ (staging.stage codec key tensor).ensureCapacity codec .gpu needed') :
    ¬ Accounts codec (room.place codec key tensor) := by
  intro h'
  have hstart : Overcounts codec 0 s := ⟨hpos, by rw [h.usage, add_zero]⟩
  have hfile : staging.tierOf key = some .nvme :=
    tierOf_of_room ((Dict.get?_eq_none_iff _ _).mp hcpu) ht hstaging
  have hstaged : Overcounts codec (0 + 1) (staging.stage codec key tensor) :=
    ((hstart.ensureCapacity hc hstaging).adds (adds_stage codec staging key tensor) rfl
      fun hno => absurd hno (by decide)).2 hfile
  have hplaced : Overcounts codec (0 + 1) (room.place codec key tensor) :=
    ((hstaged.ensureCapacity hc hroom).adds (adds_place codec room key tensor) rfl
      fun hno => absurd hno (by decide)).1
  have hover := hplaced.excess
  rw [h'.usage] at hover
  omega

end

/-! ### Whole sequences of calls -/

/-- The read finds the block on the GPU, or promotes one that fits and has no file; it reads none
back from its file. -/
def ReadsCleanly (codec : BlockCodec ν π) (s : TieredKVCache ν π) (key : BlockKey) : Prop :=
  s.gpuStore.get? key = none →
    (∀ tensor ∈ s.cpuStore.get? key, s.heldBytes codec key .nvme = 0 ∧
      (0 < s.gpuBudgetBytes ∨ codec.sizeBytes tensor = 0)) ∧
    (s.cpuStore.get? key = none → s.tierOf key = some .nvme →
      ∀ tensor, s.readNvmeToCpu codec key ≠ .ok tensor)

end TieredKVCache

/-- The call counts no bytes twice. -/
def TieredOp.KeepsAccounts {ν π : Type} (codec : BlockCodec ν π) (s : TieredKVCache ν π) :
    TieredOp ν → Prop
  | .write key kv => s.ReplacesNothing codec (s.targetTier (codec.sizeBytes kv)) key
  | .read key => s.ReadsCleanly codec key
  | .evict strategy tier => strategy = "lru" → s.EvictsCleanly codec (tier.getD .gpu)

namespace TieredKVCache
variable {ν π : Type} {codec : BlockCodec ν π} {s s' : TieredKVCache ν π}
variable {gpuBudgetBytes cpuBudgetBytes : Int} {key : BlockKey}

theorem Fitting.write (hf : Fitting codec gpuBudgetBytes s) (key : BlockKey) {kv : ν}
    (hfit : 0 < gpuBudgetBytes → (codec.sizeBytes kv : Int) ≤ gpuBudgetBytes) :
    Fitting codec gpuBudgetBytes (s.write codec key kv) where
  tidy := hf.tidy.write key kv
  budget := (adds_write codec s key kv).gpuBudget.trans hf.budget
  fits hbudget := (hf.fits hbudget).write key (hfit hbudget)

theorem Fitting.evictLru (hf : Fitting codec gpuBudgetBytes s) (tier : Tier) :
    Fitting codec gpuBudgetBytes (s.evictLru codec tier) where
  tidy := hf.tidy.evictLru tier
  budget := (gpuBudgetBytes_evictLru s tier).trans hf.budget
  fits hbudget := (hf.fits hbudget).evictLru tier

/-- A clean read keeps the accounts. -/
theorem Accounts.read (h : Accounts codec s) (hf : Fitting codec gpuBudgetBytes s)
    (hclean : s.ReadsCleanly codec key) {res : Except TieredFault ν}
    (hr : (res, s') ∈ s.read codec key) :
    Accounts codec s' ∧ Fitting codec gpuBudgetBytes s' := by
  cases read_ends hr with
  | gpu tensor held => exact ⟨h.touch .gpu key, hf.tidy.touch .gpu key, hf.budget, hf.fits⟩
  | cpu tensor room gpu held made =>
    obtain ⟨rfl, hiff⟩ := h.place_iff hf gpu held made
    refine ⟨hiff.mpr ((hclean gpu).1 tensor held), hf.tidy.place key tensor, hf.budget, ?_⟩
    exact fun hbudget => (hf.fits hbudget).set_gpu (hf.fits hbudget key tensor (Or.inr held)) key
  | nvme tensor staging room gpu cpu tier file made made' =>
    exact absurd file ((hclean gpu).2 cpu tier tensor)
  | raised e => exact ⟨h, hf⟩

/-- A read that keeps the accounts is clean. -/
theorem Accounts.read_clean (h : Accounts codec s) (hf : Fitting codec gpuBudgetBytes s)
    (hpos : ∀ key location, s.locations.get? key = some location → location.tier = .nvme →
      0 < location.sizeBytes) (hc : codec.Framed) {res : Except TieredFault ν}
    (hr : (res, s') ∈ s.read codec key) (h' : Accounts codec s') : s.ReadsCleanly codec key := by
  intro hgpu
  cases read_ends hr with
  | gpu tensor held =>
    rw [hgpu] at held
    cases held
  | cpu tensor room gpu held made =>
    obtain ⟨rfl, hiff⟩ := h.place_iff hf gpu held made
    refine ⟨fun v hv => ?_, fun hno => ?_⟩
    · cases held.symm.trans hv
      exact hiff.mp h'
    · rw [held] at hno
      cases hno
  | nvme tensor staging room gpu cpu tier file made made' =>
    exact absurd h' (h.not_read_of_file hpos hc cpu tier made made')
  | raised e =>
    obtain ⟨hcpu, hfile⟩ := read_raised hr
    refine ⟨fun v hv => ?_, fun _ ht tensor hok => ?_⟩
    · rw [hcpu] at hv
      cases hv
    · rw [hfile ht] at hok
      cases hok

/-- A call that counts no bytes twice keeps the accounts. -/
theorem Accounts.call (h : Accounts codec s) (hf : Fitting codec gpuBudgetBytes s)
    {op : TieredOp ν} (hfit : ∀ key kv, op = .write key kv → 0 < gpuBudgetBytes →
      (codec.sizeBytes kv : Int) ≤ gpuBudgetBytes)
    (hs' : op.Returns codec s s') (hkeeps : op.KeepsAccounts codec s) :
    Accounts codec s' ∧ Fitting codec gpuBudgetBytes s' := by
  cases op with
  | write key kv =>
    cases Part.mem_some_iff.mp hs'
    exact ⟨(h.write_iff key kv).mpr hkeeps, hf.write key (hfit key kv rfl)⟩
  | read key =>
    obtain ⟨p, hp, rfl⟩ := (Part.mem_map_iff _).mp hs'
    exact h.read hf hkeeps hp
  | evict strategy tier =>
    cases Part.mem_some_iff.mp hs'
    obtain ⟨hlru, heq⟩ | ⟨-, heq⟩ := evict_cases codec s strategy tier
    · rw [heq]
      exact ⟨(h.evictLru_iff _).mpr (hkeeps hlru), hf.evictLru _⟩
    · rw [heq]
      exact ⟨h, hf⟩

/-- A call that keeps the accounts counts no bytes twice. -/
theorem Accounts.call_keeps (h : Accounts codec s) (hf : Fitting codec gpuBudgetBytes s)
    (hpos : ∀ key location, s.locations.get? key = some location → location.tier = .nvme →
      0 < location.sizeBytes) (hc : codec.Framed) {op : TieredOp ν} (hs' : op.Returns codec s s')
    (h' : Accounts codec s') : op.KeepsAccounts codec s := by
  cases op with
  | write key kv =>
    cases Part.mem_some_iff.mp hs'
    exact (h.write_iff key kv).mp h'
  | read key =>
    obtain ⟨p, hp, rfl⟩ := (Part.mem_map_iff _).mp hs'
    exact h.read_clean hf hpos hc hp h'
  | evict strategy tier =>
    cases Part.mem_some_iff.mp hs'
    intro hlru
    obtain ⟨-, heq⟩ | ⟨hother, -⟩ := evict_cases codec s strategy tier
    · rw [heq] at h'
      exact (h.evictLru_iff _).mp h'
    · exact absurd hlru hother

theorem Overcounts.read {n : Int} (h : Overcounts codec n s) (hc : codec.Framed)
    {res : Except TieredFault ν} (hr : (res, s') ∈ s.read codec key) : Overcounts codec n s' := by
  have hplace {u : TieredKVCache ν π} (hu : Overcounts codec n u) (tensor : ν) :
      Overcounts codec n (u.place codec key tensor) :=
    (hu.adds (adds_place codec u key tensor) rfl fun hno => absurd hno (by decide)).1
  cases read_ends hr with
  | gpu tensor held => exact ⟨h.positive, h.excess⟩
  | cpu tensor room gpu held made => exact hplace (h.ensureCapacity hc made) tensor
  | nvme tensor staging room gpu cpu tier file made made' =>
    have hstaged : Overcounts codec n (staging.stage codec key tensor) :=
      ((h.ensureCapacity hc made).adds (adds_stage codec staging key tensor) rfl
        fun hno => absurd hno (by decide)).1
    exact hplace (hstaged.ensureCapacity hc made') tensor
  | raised e => exact h

theorem Overcounts.call {n : Int} (h : Overcounts codec n s) (hc : codec.Framed) {op : TieredOp ν}
    (hs' : op.Returns codec s s') : Overcounts codec n s' := by
  cases op with
  | write key kv =>
    cases Part.mem_some_iff.mp hs'
    exact h.write hc key kv
  | read key =>
    obtain ⟨p, hp, rfl⟩ := (Part.mem_map_iff _).mp hs'
    exact h.read hc hp
  | evict strategy tier =>
    cases Part.mem_some_iff.mp hs'
    obtain ⟨-, heq⟩ | ⟨-, heq⟩ := evict_cases codec s strategy tier
    · rw [heq]
      exact h.evictLru hc _
    · rw [heq]
      exact h

theorem accounts_new (codec : BlockCodec ν π) (hg : 0 ≤ gpuBudgetBytes) (hc : 0 ≤ cpuBudgetBytes) :
    Accounts codec (new gpuBudgetBytes cpuBudgetBytes) where
  usage tier := by cases tier <;> rfl
  gpu := hg
  cpu := hc

theorem fitting_new (codec : BlockCodec ν π) (gpuBudgetBytes cpuBudgetBytes : Int) :
    Fitting codec gpuBudgetBytes (new gpuBudgetBytes cpuBudgetBytes) where
  tidy := gpuTidy_new gpuBudgetBytes cpuBudgetBytes
  budget := rfl
  fits := by
    intro _ key tensor hk
    simp [new] at hk

/-- The accounts are right after every call when no call counts bytes twice; and, when no file is
ever empty, only then. -/
theorem accounts_kept_iff (codec : BlockCodec ν π) (gpuBudgetBytes cpuBudgetBytes : Int)
    (ops : List (TieredOp ν))
    (hfit : ∀ key kv, .write key kv ∈ ops → 0 < gpuBudgetBytes →
      (codec.sizeBytes kv : Int) ≤ gpuBudgetBytes) :
    (0 ≤ gpuBudgetBytes → 0 ≤ cpuBudgetBytes →
      Calls.EachCall (TieredOp.Returns codec) (fun s op => op.KeepsAccounts codec s)
        (new gpuBudgetBytes cpuBudgetBytes) ops →
      Calls.Throughout (TieredOp.Returns codec) (fun _ s => Accounts codec s)
        (new gpuBudgetBytes cpuBudgetBytes) ops) ∧
    (codec.Framed →
      (Calls.Throughout (TieredOp.Returns codec) (fun _ s => Accounts codec s)
          (new gpuBudgetBytes cpuBudgetBytes) ops ↔
        0 ≤ gpuBudgetBytes ∧ 0 ≤ cpuBudgetBytes ∧
          Calls.EachCall (TieredOp.Returns codec) (fun s op => op.KeepsAccounts codec s)
            (new gpuBudgetBytes cpuBudgetBytes) ops)) := by
  have hf := fitting_new codec gpuBudgetBytes cpuBudgetBytes
  have hfits : ∀ op ∈ ops, ∀ key kv, op = .write key kv → 0 < gpuBudgetBytes →
      (codec.sizeBytes kv : Int) ≤ gpuBudgetBytes := by
    rintro op hop key kv rfl
    exact hfit key kv hop
  refine ⟨fun hg hc heach => ?_, fun hframed => ?_⟩
  · have hboth : Calls.Throughout (TieredOp.Returns codec)
        (fun _ s => Accounts codec s ∧ Fitting codec gpuBudgetBytes s)
        (new gpuBudgetBytes cpuBudgetBytes) ops :=
      Calls.throughout_of_eachCall ⟨accounts_new codec hg hc, hf⟩
        (fun _ op _ _ hop h hs hkeeps => h.1.call h.2 (hfits op hop) hs hkeeps) heach
    exact fun made s hpre hrun => (hboth made s hpre hrun).1
  · have hiff (h0 : Accounts codec (new gpuBudgetBytes cpuBudgetBytes)) :
        Calls.Throughout (TieredOp.Returns codec) (fun _ s => Accounts codec s)
          (new gpuBudgetBytes cpuBudgetBytes) ops ↔
        Calls.EachCall (TieredOp.Returns codec) (fun s op => op.KeepsAccounts codec s)
          (new gpuBudgetBytes cpuBudgetBytes) ops := by
      refine Calls.throughout_iff_eachCall
        (I := fun _ s => Fitting codec gpuBudgetBytes s ∧ Overcounts codec 0 s)
        ⟨hf, by simp [new], by rw [h0.usage, add_zero]⟩ h0 fun _ op s s' hop hI h hs => ?_
      have hkeeps := fun hc => h.call hI.1 (hfits op hop) hs hc
      exact ⟨⟨h.call_keeps hI.1 hI.2.positive hframed hs, fun hc => (hkeeps hc).1⟩,
        fun hc => ⟨(hkeeps hc).2, hI.2.call hframed hs⟩⟩
    constructor
    · intro hall
      have h0 := hall [] _ (List.nil_prefix) .start
      exact ⟨h0.gpu, h0.cpu, (hiff h0).mp hall⟩
    · rintro ⟨hg, hc, heach⟩
      exact (hiff (accounts_new codec hg hc)).mpr heach

/-- A block that is written again to the GPU is counted twice. -/
theorem rewritten_block_counted_twice :
    ¬ ∀ (codec : BlockCodec (List Int) (List Int)) (gpuBudgetBytes cpuBudgetBytes : Int)
      (ops : List (TieredOp (List Int))),
      (∀ key kv, .write key kv ∈ ops → 0 < gpuBudgetBytes →
        (codec.sizeBytes kv : Int) ≤ gpuBudgetBytes) →
      (∀ key kv, .write key kv ∈ ops → 0 < cpuBudgetBytes →
        (codec.sizeBytes kv : Int) ≤ cpuBudgetBytes) →
      ∀ s ∈ runOps codec ops (new gpuBudgetBytes cpuBudgetBytes), Accounts codec s := by
  intro h
  have hrun : ((new 4 4).write halves (0, 0) [1]).write halves (0, 0) [1] ∈
      runOps halves [.write (0, 0) [1], .write (0, 0) [1]] (new 4 4) := by
    simp only [runOps, TieredOp.apply, Part.bind_some, Part.mem_some_iff]
  have hsize : ∀ key kv, .write key kv ∈ [.write (0, 0) [1], TieredOp.write (0, 0) [(1 : Int)]] →
      (0 : Int) < 4 → (halves.sizeBytes kv : Int) ≤ 4 := by
    intro key kv hkv _
    simp only [List.mem_cons, TieredOp.write.injEq, List.not_mem_nil, or_false, or_self] at hkv
    rw [hkv.2]
    decide
  have husage := (h halves 4 4 _ hsize hsize _ hrun).usage .gpu
  revert husage
  decide

/-- Blocks as lists of halves, in files with a header of one byte. -/
def framedHalves : BlockCodec (List Int) (List Int) :=
  { halves with payloadBytes := fun payload => payload.length + 1 }

theorem framedHalves_framed : framedHalves.Framed := fun payload => payload.length.succ_pos

/-- A block on the GPU is read after one in CPU memory has been spilled. -/
theorem accounts_kept_two_blocks :
    Calls.Throughout (TieredOp.Returns framedHalves) (fun _ s => Accounts framedHalves s)
      (new 4 4)
      [.write (0, 0) [1], .write (0, 1) [2, 3], .evict "lru" (some .cpu), .read (0, 0)] := by
  refine ((accounts_kept_iff framedHalves 4 4 _ fun key kv hkv _ => ?_).2
    framedHalves_framed).mpr ⟨by decide, by decide, ?_⟩
  · simp only [List.mem_cons, TieredOp.write.injEq, reduceCtorEq, List.not_mem_nil,
      or_false] at hkv
    obtain ⟨_, rfl⟩ | ⟨_, rfl⟩ := hkv
    · decide
    · decide
  · refine Calls.eachCall_cons fun s₁ h₁ => ⟨⟨by decide, by decide⟩, ?_⟩
    cases Part.mem_some_iff.mp h₁
    refine Calls.eachCall_cons fun s₂ h₂ => ⟨⟨by decide, by decide⟩, ?_⟩
    cases Part.mem_some_iff.mp h₂
    refine Calls.eachCall_cons fun s₃ h₃ => ⟨fun _ p hp _ => ?_, ?_⟩
    · cases hp
      decide
    cases Part.mem_some_iff.mp h₃
    refine Calls.eachCall_cons fun s₄ _ => ⟨fun hgpu => ?_, Calls.eachCall_nil _ _ _⟩
    cases hgpu

end TieredKVCache
end ResidentInference

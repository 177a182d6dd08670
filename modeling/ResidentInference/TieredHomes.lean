import ResidentInference.Calls
import ResidentInference.TieredCapacity

/-! Where the blocks of the tiered cache are. A write and an eviction move a block to a tier, and
a read copies it, so that a block may stay behind in a tier that is no longer its own. -/
namespace ResidentInference
open StateTransition

namespace TieredOp
variable {ν π : Type}

/-- The call returns, or raises, and leaves that cache behind. -/
def Returns (codec : BlockCodec ν π) (s : TieredKVCache ν π) (op : TieredOp ν)
    (s' : TieredKVCache ν π) : Prop :=
  s' ∈ op.apply codec s

end TieredOp

namespace TieredKVCache
variable {ν π : Type} {codec : BlockCodec ν π} {s s' : TieredKVCache ν π}

/-- The calls one after another are the run of the cache. -/
theorem run_iff (s₀ : TieredKVCache ν π) (ops : List (TieredOp ν)) :
    Calls.Run (TieredOp.Returns codec) s₀ ops s ↔ s ∈ runOps codec ops s₀ := by
  induction ops generalizing s₀ with
  | nil => rw [Calls.run_nil_iff, runOps, Part.mem_some_iff]
  | cons op ops ih =>
    rw [Calls.run_cons_iff, runOps, Part.mem_bind_iff]
    exact exists_congr fun u => and_congr Iff.rfl (ih u)

/-- The tier has the block: its tensor, or its file. -/
def Holds (s : TieredKVCache ν π) (tier : Tier) (key : BlockKey) : Prop :=
  match tier with
  | .gpu => key ∈ s.gpuStore.keys
  | .cpu => key ∈ s.cpuStore.keys
  | .nvme => key ∈ s.nvmeFiles.keys

/-- The block is in the tier of its location and in the LRU order of that tier, and in no other. -/
def AtHome (s : TieredKVCache ν π) (key : BlockKey) : Prop :=
  ∃ home, s.tierOf key = some home ∧ ∀ tier,
    (s.Holds tier key ↔ tier = home) ∧ (key ∈ (s.lru tier).keys ↔ tier = home)

/-- All blocks are at home, and what has no location is nowhere. -/
def Homes (s : TieredKVCache ν π) : Prop :=
  ∀ tier key, (s.Holds tier key ↔ s.tierOf key = some tier) ∧
    (key ∈ (s.lru tier).keys ↔ s.tierOf key = some tier)

/-- The blocks with a location are those that have been written, and nothing else is in a tier. -/
structure Recorded (written : BlockKey → Prop) (s : TieredKVCache ν π) : Prop where
  located : ∀ key, (∃ tier, s.tierOf key = some tier) ↔ written key
  held : ∀ {tier key}, s.Holds tier key → written key
  listed : ∀ {tier key}, key ∈ (s.lru tier).keys → written key

variable {written : BlockKey → Prop}

theorem Recorded.homes_iff (h : Recorded written s) :
    s.Homes ↔ ∀ key, written key → s.AtHome key := by
  constructor
  · intro hs key hw
    obtain ⟨home, hhome⟩ := (h.located key).mpr hw
    refine ⟨home, hhome, fun tier => ?_⟩
    have heq : s.tierOf key = some tier ↔ tier = home := by
      rw [hhome, Option.some.injEq, eq_comm]
    rw [← heq]
    exact hs tier key
  · intro hs tier key
    by_cases hw : written key
    · obtain ⟨home, hhome, hat⟩ := hs key hw
      rw [hhome, Option.some.injEq, eq_comm]
      exact hat tier
    · have hnone : s.tierOf key ≠ some tier := fun ht => hw ((h.located key).mp ⟨tier, ht⟩)
      exact ⟨iff_of_false (fun hh => hw (h.held hh)) hnone,
        iff_of_false (fun hl => hw (h.listed hl)) hnone⟩

/-! ### Moves of a block -/

/-- The block is put in that tier, whatever other tiers have of it. -/
structure Puts (s s' : TieredKVCache ν π) (tier : Tier) (key : BlockKey) : Prop where
  holds : ∀ t k, s'.Holds t k ↔ (t = tier ∧ k = key) ∨ s.Holds t k
  listed : ∀ t k, k ∈ (s'.lru t).keys ↔ (t = tier ∧ k = key) ∨ k ∈ (s.lru t).keys
  tierOf : ∀ k, s'.tierOf k = if k = key then some tier else s.tierOf k

/-- The block is taken out of that tier, and keeps its location. -/
structure Takes (s s' : TieredKVCache ν π) (tier : Tier) (key : BlockKey) : Prop where
  holds : ∀ t k, s'.Holds t k ↔ s.Holds t k ∧ ¬ (t = tier ∧ k = key)
  listed : ∀ t k, k ∈ (s'.lru t).keys ↔ k ∈ (s.lru t).keys ∧ ¬ (t = tier ∧ k = key)
  tierOf : ∀ k, s'.tierOf k = s.tierOf k

section
variable {tier : Tier} {key : BlockKey}

/-- A block that is put in a tier ends up in that tier only if it was in no other. -/
theorem Homes.puts_iff (h : s.Homes) (hp : Puts s s' tier key) :
    s'.Homes ↔ ∀ t, s.tierOf key = some t → t = tier := by
  constructor
  · intro h' t ht
    have hold := (hp.holds t key).mpr (Or.inr ((h t key).1.mpr ht))
    have heq := (h' t key).1.mp hold
    rw [hp.tierOf, if_pos rfl] at heq
    exact (Option.some.inj heq).symm
  · intro hnone t k
    rw [hp.holds, hp.listed, hp.tierOf]
    by_cases hk : k = key
    · subst hk
      rw [if_pos rfl, Option.some.injEq, (h t k).1, (h t k).2]
      have hiff : (t = tier ∧ k = k) ∨ s.tierOf k = some t ↔ tier = t := by
        constructor
        · rintro (⟨rfl, _⟩ | ht)
          · rfl
          · exact (hnone t ht).symm
        · exact fun heq => Or.inl ⟨heq.symm, rfl⟩
      exact ⟨hiff, hiff⟩
    · rw [if_neg hk]
      simp only [hk, and_false, false_or]
      exact h t k

/-- A block that leaves its home for a tier is at home there. -/
theorem Homes.moved (h : s.Homes) {taken : TieredKVCache ν π} {home : Tier}
    (ht : Takes s taken tier key) (hhome : s.tierOf key = some tier)
    (hp : Puts taken s' home key) : s'.Homes := by
  intro t k
  rw [hp.holds, hp.listed, hp.tierOf, ht.holds, ht.listed, ht.tierOf, (h t k).1, (h t k).2]
  by_cases hk : k = key
  · subst hk
    rw [if_pos rfl, hhome, Option.some.injEq, Option.some.injEq]
    have hiff : (t = home ∧ k = k) ∨ (tier = t ∧ ¬ (t = tier ∧ k = k)) ↔ home = t := by
      constructor
      · rintro (⟨rfl, _⟩ | ⟨rfl, hno⟩)
        · rfl
        · exact absurd ⟨rfl, rfl⟩ hno
      · exact fun heq => Or.inl ⟨heq.symm, rfl⟩
    exact ⟨hiff, hiff⟩
  · simp only [hk, and_false, false_or, not_false_eq_true, and_true, if_false, and_self]

theorem Recorded.puts (h : Recorded written s) (hp : Puts s s' tier key)
    {written' : BlockKey → Prop} (hw : ∀ k, written' k ↔ k = key ∨ written k) :
    Recorded written' s' where
  located k := by
    rw [hp.tierOf, hw]
    by_cases hk : k = key
    · simp [hk]
    · simp [hk, h.located k]
  held hk := by
    rw [hw]
    exact ((hp.holds _ _).mp hk).imp And.right h.held
  listed hk := by
    rw [hw]
    exact ((hp.listed _ _).mp hk).imp And.right h.listed

theorem Recorded.puts_old (h : Recorded written s) (hp : Puts s s' tier key) (hw : written key) :
    Recorded written s' :=
  h.puts hp fun _ => ⟨Or.inr, fun hk => hk.elim (fun heq => heq ▸ hw) id⟩

theorem Recorded.takes (h : Recorded written s) (ht : Takes s s' tier key) :
    Recorded written s' where
  located k := by
    rw [ht.tierOf]
    exact h.located k
  held hk := h.held ((ht.holds _ _).mp hk).1
  listed hk := h.listed ((ht.listed _ _).mp hk).1

/-! ### The operations -/

theorem mem_lru_touch (s : TieredKVCache ν π) (tier t : Tier) (key k : BlockKey) :
    k ∈ ((s.touch tier key).lru t).keys ↔ (t = tier ∧ k = key) ∨ k ∈ (s.lru t).keys := by
  by_cases ht : t = tier
  · subst ht
    rw [mem_keys_touch]
    simp only [true_and]
  · have hsame : (s.touch tier key).lru t = s.lru t := Function.update_of_ne ht _ _
    rw [hsame]
    simp only [ht, false_and, false_or]

theorem tierOf_set (s : TieredKVCache ν π) (key k : BlockKey) (tier : Tier) (offset n : Int) :
    (s.setLocation key tier offset n).tierOf k = if k = key then some tier else s.tierOf k := by
  simp only [tierOf, setLocation, Dict.get?_set]
  split <;> rfl

theorem puts_place (codec : BlockCodec ν π) (s : TieredKVCache ν π) (key : BlockKey) (tensor : ν) :
    Puts s (s.place codec key tensor) .gpu key where
  holds t k := by cases t <;> simp [Holds, place, touch, addUsage, setLocation, Dict.mem_keys_set]
  listed t k := mem_lru_touch _ .gpu t key k
  tierOf k := tierOf_set _ key k .gpu 0 _

theorem puts_stage (codec : BlockCodec ν π) (s : TieredKVCache ν π) (key : BlockKey) (tensor : ν) :
    Puts s (s.stage codec key tensor) .cpu key where
  holds t k := by cases t <;> simp [Holds, stage, touch, addUsage, setLocation, Dict.mem_keys_set]
  listed t k := mem_lru_touch _ .cpu t key k
  tierOf k := tierOf_set _ key k .cpu 0 _

theorem puts_spill (codec : BlockCodec ν π) (s : TieredKVCache ν π) (key : BlockKey) (kv : ν) :
    Puts s (s.spill codec key kv) .nvme key where
  holds t k := by cases t <;> simp [Holds, spill, touch, addUsage, setLocation, Dict.mem_keys_set]
  listed t k := mem_lru_touch _ .nvme t key k
  tierOf k := tierOf_set _ key k .nvme 0 _

theorem puts_write (codec : BlockCodec ν π) (s : TieredKVCache ν π) (key : BlockKey) (kv : ν) :
    Puts s (s.write codec key kv) (s.targetTier (codec.sizeBytes kv)) key := by
  unfold write
  dsimp only
  cases s.targetTier (codec.sizeBytes kv) with
  | gpu =>
    have hp := puts_place codec s key kv
    exact ⟨hp.holds, hp.listed, hp.tierOf⟩
  | cpu =>
    have hp := puts_stage codec s key kv
    exact ⟨hp.holds, hp.listed, hp.tierOf⟩
  | nvme =>
    have hp := puts_spill codec s key kv
    exact ⟨hp.holds, hp.listed, hp.tierOf⟩

theorem popLru_eq_some (h : s.popLru tier = some (key, s')) :
    key ∈ (s.lru tier).keys ∧
      s' = { s with lru := Function.update s.lru tier ((s.lru tier).erase key) } := by
  unfold popLru at h
  split at h
  · cases h
  · next hkeys =>
    cases h
    rw [hkeys]
    exact ⟨List.mem_cons_self, rfl⟩

theorem mem_lru_popLru (h : s.popLru tier = some (key, s')) (t : Tier) (k : BlockKey) :
    k ∈ (s'.lru t).keys ↔ k ∈ (s.lru t).keys ∧ ¬ (t = tier ∧ k = key) := by
  obtain ⟨_, rfl⟩ := popLru_eq_some h
  dsimp only
  by_cases ht : t = tier
  · subst ht
    simp
  · rw [Function.update_of_ne ht]
    simp only [ht, false_and, not_false_eq_true, and_true]

/-- All that an eviction can do to where the blocks are. -/
inductive Evicts (codec : BlockCodec ν π) (s : TieredKVCache ν π) (tier : Tier)
    (s' : TieredKVCache ν π) : Prop
  | empty (none : (s.lru tier).keys = []) (same : s' = s)
  | dropped (key : BlockKey) (popped : s.popLru tier = some (key, s'))
      (idle : tier = .nvme ∨ s.tierOf key = none ∨ ¬ s.Holds tier key)
  | moved (key : BlockKey) (home : Tier) (taken : TieredKVCache ν π)
      (listed : key ∈ (s.lru tier).keys) (memory : tier ≠ .nvme) (held : s.Holds tier key)
      (takes : Takes s taken tier key) (puts : Puts taken s' home key)

theorem takes_gpu (h : s.popLru .gpu = some (key, s')) (tensor : ν) :
    Takes s (s'.takeGpu codec key tensor) .gpu key where
  holds t k := by
    obtain ⟨_, rfl⟩ := popLru_eq_some h
    cases t <;> simp [Holds, takeGpu, dropUsage]
  listed t k := mem_lru_popLru h t k
  tierOf k := by
    obtain ⟨_, rfl⟩ := popLru_eq_some h
    rfl

theorem takes_cpu (h : s.popLru .cpu = some (key, s')) (tensor : ν) :
    Takes s (s'.takeCpu codec key tensor) .cpu key where
  holds t k := by
    obtain ⟨_, rfl⟩ := popLru_eq_some h
    cases t <;> simp [Holds, takeCpu, dropUsage]
  listed t k := mem_lru_popLru h t k
  tierOf k := by
    obtain ⟨_, rfl⟩ := popLru_eq_some h
    rfl

theorem tierOf_eq_none_iff (s : TieredKVCache ν π) (key : BlockKey) :
    s.tierOf key = none ↔ s.locations.contains key = false := by
  rw [tierOf, Option.map_eq_none_iff, Dict.contains, Option.isSome_eq_false_iff,
    Option.isNone_iff_eq_none]

theorem evictLru_evicts (codec : BlockCodec ν π) (s : TieredKVCache ν π) (tier : Tier) :
    Evicts codec s tier (s.evictLru codec tier) := by
  unfold evictLru
  cases hpop : s.popLru tier with
  | none =>
    refine .empty ?_ rfl
    unfold popLru at hpop
    split at hpop
    · assumption
    · cases hpop
  | some p =>
    obtain ⟨key, s₁⟩ := p
    obtain ⟨hlisted, hs₁⟩ := popLru_eq_some hpop
    have hloc : s₁.locations = s.locations := by rw [hs₁]
    dsimp only
    by_cases hnone : s₁.locations.contains key = false
    · rw [if_pos hnone]
      rw [hloc] at hnone
      exact .dropped key hpop (Or.inr (Or.inl ((s.tierOf_eq_none_iff key).mpr hnone)))
    · rw [if_neg hnone]
      rw [hloc, ← s.tierOf_eq_none_iff] at hnone
      cases tier with
      | gpu =>
        have hstore : s₁.gpuStore = s.gpuStore := by rw [hs₁]
        cases hheld : s₁.gpuStore.get? key with
        | none =>
          rw [hstore, Dict.get?_eq_none_iff] at hheld
          exact .dropped key hpop (Or.inr (Or.inr hheld))
        | some tensor =>
          exact .moved key _ _ hlisted (by decide) (Dict.mem_keys_of_get? (hstore ▸ hheld))
            (takes_gpu hpop tensor) (puts_write codec _ key tensor)
      | cpu =>
        have hstore : s₁.cpuStore = s.cpuStore := by rw [hs₁]
        cases hheld : s₁.cpuStore.get? key with
        | none =>
          rw [hstore, Dict.get?_eq_none_iff] at hheld
          exact .dropped key hpop (Or.inr (Or.inr hheld))
        | some tensor =>
          exact .moved key _ _ hlisted (by decide) (Dict.mem_keys_of_get? (hstore ▸ hheld))
            (takes_cpu hpop tensor) (puts_spill codec _ key tensor)
      | nvme => exact .dropped key hpop (Or.inl rfl)

theorem Recorded.popped (h : Recorded written s) (hp : s.popLru tier = some (key, s')) :
    Recorded written s' where
  located k := by
    obtain ⟨_, rfl⟩ := popLru_eq_some hp
    exact h.located k
  held {t k} hk := by
    obtain ⟨_, rfl⟩ := popLru_eq_some hp
    have hheld : s.Holds t k := hk
    exact h.held hheld
  listed hk := h.listed ((mem_lru_popLru hp _ _).mp hk).1

theorem Recorded.evictLru (h : Recorded written s) (tier : Tier) :
    Recorded written (s.evictLru codec tier) := by
  cases evictLru_evicts codec s tier with
  | empty _ same =>
    rw [same]
    exact h
  | dropped key popped _ => exact h.popped popped
  | moved key home taken listed _ _ takes puts =>
    exact (h.takes takes).puts_old puts (h.listed listed)

theorem Recorded.touch (h : Recorded written s) (tier : Tier) (hw : written key) :
    Recorded written (s.touch tier key) where
  located := h.located
  held hk := h.held hk
  listed hk := by
    obtain ⟨_, rfl⟩ | hold := (mem_lru_touch s tier _ key _).mp hk
    · exact hw
    · exact h.listed hold

/-- An eviction from a tier of memory keeps all blocks at home; one from the tier of the files
only loses a block from its LRU order. -/
theorem Homes.evictLru_iff (h : s.Homes) (tier : Tier) :
    (s.evictLru codec tier).Homes ↔ (tier = .nvme → (s.lru .nvme).keys = []) := by
  cases evictLru_evicts codec s tier with
  | empty none same =>
    rw [same]
    exact iff_of_true h fun ht => ht ▸ none
  | dropped key popped idle =>
    obtain ⟨hlisted, hs'⟩ := popLru_eq_some popped
    have hhome := (h tier key).2.mp hlisted
    have hnvme : tier = .nvme := by
      obtain ht | hnone | hout := idle
      · exact ht
      · rw [hhome] at hnone
        cases hnone
      · exact absurd ((h tier key).1.mpr hhome) hout
    refine iff_of_false (fun h' => ?_) fun hempty => ?_
    · have hstill : (s.evictLru codec tier).tierOf key = some tier := by
        rw [hs']
        exact hhome
      exact ((mem_lru_popLru popped tier key).mp ((h' tier key).2.mpr hstill)).2 ⟨rfl, rfl⟩
    · rw [hnvme, hempty hnvme] at hlisted
      exact List.not_mem_nil hlisted
  | moved key home taken listed memory _ takes puts =>
    have hhome := (h tier key).2.mp listed
    exact iff_of_true (h.moved takes hhome puts) fun ht => absurd ht memory

theorem Recorded.ensureCapacity (h : Recorded written s) {needed : Int}
    (hs' : s' ∈ s.ensureCapacity codec tier needed) : Recorded written s' :=
  ensureCapacity_invariant hs' h fun _ _ _ hu => hu.evictLru tier

/-- Making room on the GPU takes nothing out of CPU memory. -/
theorem holds_cpu_of_room {needed : Int} (h : s.Holds .cpu key)
    (hs' : s' ∈ s.ensureCapacity codec .gpu needed) : s'.Holds .cpu key := by
  refine ensureCapacity_invariant (P := fun u => u.Holds .cpu key) hs' h fun u _ _ hu => ?_
  cases evictLru_evicts codec u .gpu with
  | empty _ same =>
    rw [same]
    exact hu
  | dropped _ popped _ =>
    obtain ⟨_, hsame⟩ := popLru_eq_some popped
    rw [hsame]
    exact hu
  | moved key' home taken _ _ _ takes puts =>
    refine (puts.holds .cpu key).mpr (Or.inr ((takes.holds .cpu key).mpr ⟨hu, ?_⟩))
    rintro ⟨ht, _⟩
    cases ht

/-- A promoted block is in CPU memory still. -/
theorem not_homes_place {room : TieredKVCache ν π} {needed : Int} {tensor : ν}
    (h : s.Holds .cpu key) (hroom : room ∈ s.ensureCapacity codec .gpu needed) :
    ¬ (room.place codec key tensor).Homes := by
  intro h'
  have hp := puts_place codec room key tensor
  have hold := (hp.holds .cpu key).mpr (Or.inr (holds_cpu_of_room h hroom))
  have hboth := (h' .cpu key).1.mp hold
  rw [hp.tierOf, if_pos rfl] at hboth
  cases hboth

theorem Homes.touch (h : s.Homes) (ht : s.tierOf key = some tier) : (s.touch tier key).Homes := by
  intro t k
  refine ⟨(h t k).1, ?_⟩
  rw [mem_lru_touch, (h t k).2]
  constructor
  · rintro (⟨rfl, rfl⟩ | hold)
    · exact ht
    · exact hold
  · exact Or.inr

/-- A read that raises has found no block in memory, and none in a file. -/
theorem read_raised {e : TieredFault} (hr : (.error e, s') ∈ s.read codec key) :
    s.cpuStore.get? key = none ∧
      (s.tierOf key = some .nvme → s.readNvmeToCpu codec key = .error e) := by
  cases hgpu : s.gpuStore.get? key with
  | some tensor =>
    rw [read_of_gpu hgpu] at hr
    cases Part.mem_some_iff.mp hr
  | none =>
    cases hcpu : s.cpuStore.get? key with
    | some tensor =>
      rw [read_of_cpu hgpu hcpu] at hr
      cases (promoteCpuToGpu_mem hcpu hr).1
    | none =>
      refine ⟨rfl, fun htier => ?_⟩
      cases hfile : s.readNvmeToCpu codec key with
      | error e' =>
        rw [read_of_bad_file hgpu hcpu htier hfile] at hr
        cases Part.mem_some_iff.mp hr
        rfl
      | ok tensor =>
        rw [read_of_file hgpu hcpu htier hfile] at hr
        obtain ⟨staging, _, hpromote⟩ := Part.mem_bind_iff.mp hr
        cases (promoteCpuToGpu_mem (stage_held staging key tensor) hpromote).1

/-- Neither CPU memory nor a file that can be read is the home of the block. -/
def ReadsAtHome (codec : BlockCodec ν π) (s : TieredKVCache ν π) (key : BlockKey) : Prop :=
  s.tierOf key ≠ some .cpu ∧
    (s.tierOf key = some .nvme → ∀ tensor, s.readNvmeToCpu codec key ≠ .ok tensor)

/-- A read keeps all blocks at home unless it copies its own to the GPU. -/
theorem Homes.read_iff (h : s.Homes) {res : Except TieredFault ν}
    (hr : (res, s') ∈ s.read codec key) : s'.Homes ↔ s.ReadsAtHome codec key := by
  cases hends : read_ends hr with
  | gpu tensor held =>
    have hhome := (h .gpu key).1.mp (Dict.mem_keys_of_get? held)
    refine iff_of_true (h.touch hhome) ⟨?_, ?_⟩
    · rw [hhome]
      decide
    · rw [hhome]
      intro hno
      cases hno
  | cpu tensor room gpu held made =>
    have hheld := Dict.mem_keys_of_get? held
    refine iff_of_false (not_homes_place hheld made) fun hreads => ?_
    exact hreads.1 ((h .cpu key).1.mp hheld)
  | nvme tensor staging room gpu cpu tier file made made' =>
    have hstaged : (staging.stage codec key tensor).cpuStore.get? key = some tensor :=
      stage_held staging key tensor
    have hheld := Dict.mem_keys_of_get? hstaged
    exact iff_of_false (not_homes_place hheld made') fun hreads => hreads.2 tier tensor file
  | raised e =>
    obtain ⟨hcpu, hfile⟩ := read_raised hr
    refine iff_of_true h ⟨fun ht => ?_, fun ht tensor hok => ?_⟩
    · exact (Dict.get?_eq_none_iff _ _).mp hcpu ((h .cpu key).1.mpr ht)
    · rw [hfile ht] at hok
      cases hok

theorem Recorded.read (h : Recorded written s) {res : Except TieredFault ν}
    (hr : (res, s') ∈ s.read codec key) : Recorded written s' := by
  cases read_ends hr with
  | gpu tensor held =>
    have hheld : s.Holds .gpu key := Dict.mem_keys_of_get? held
    exact h.touch .gpu (h.held hheld)
  | cpu tensor room gpu held made =>
    have hheld : s.Holds .cpu key := Dict.mem_keys_of_get? held
    have hw : written key := h.held hheld
    exact (h.ensureCapacity made).puts_old (puts_place codec room key tensor) hw
  | nvme tensor staging room gpu cpu tier file made made' =>
    have hw : written key := (h.located key).mp ⟨_, tier⟩
    have hstaged := (h.ensureCapacity made).puts_old (puts_stage codec staging key tensor) hw
    exact (hstaged.ensureCapacity made').puts_old (puts_place codec room key tensor) hw
  | raised e => exact h

end
end TieredKVCache

/-! ### Whole sequences of calls -/

/-- The keys that the calls write. -/
def TieredOp.Written {ν : Type} (ops : List (TieredOp ν)) (key : BlockKey) : Prop :=
  ∃ kv, TieredOp.write key kv ∈ ops

/-- The call does not copy a block out of another tier, or write it to one, and takes none out of
the LRU order of the files. -/
def TieredOp.KeepsHomes {ν π : Type} (codec : BlockCodec ν π) (s : TieredKVCache ν π) :
    TieredOp ν → Prop
  | .write key kv => ∀ tier, s.tierOf key = some tier → tier = s.targetTier (codec.sizeBytes kv)
  | .read key => s.ReadsAtHome codec key
  | .evict strategy tier =>
    strategy = "lru" → tier.getD .gpu = .nvme → (s.lru .nvme).keys = []

namespace TieredKVCache
variable {ν π : Type} {codec : BlockCodec ν π} {s s' : TieredKVCache ν π}

theorem Homes.call_iff (h : s.Homes) {op : TieredOp ν} (hs' : op.Returns codec s s') :
    s'.Homes ↔ op.KeepsHomes codec s := by
  cases op with
  | write key kv =>
    cases Part.mem_some_iff.mp hs'
    exact h.puts_iff (puts_write codec s key kv)
  | read key =>
    obtain ⟨p, hp, rfl⟩ := (Part.mem_map_iff _).mp hs'
    exact h.read_iff hp
  | evict strategy tier =>
    cases Part.mem_some_iff.mp hs'
    obtain ⟨hlru, heq⟩ | ⟨hother, heq⟩ := evict_cases codec s strategy tier
    · rw [heq]
      simp only [TieredOp.KeepsHomes, hlru, true_imp_iff]
      exact h.evictLru_iff _
    · rw [heq]
      exact iff_of_true h fun hlru => absurd hlru hother

theorem Recorded.call {made : List (TieredOp ν)} (h : Recorded (TieredOp.Written made) s)
    {op : TieredOp ν} (hs' : op.Returns codec s s') :
    Recorded (TieredOp.Written (made ++ [op])) s' := by
  have hsame (hno : ∀ key kv, op ≠ .write key kv) :
      TieredOp.Written (made ++ [op]) = TieredOp.Written made := by
    funext key
    simp only [TieredOp.Written, List.mem_append, List.mem_singleton, exists_or, eq_iff_iff,
      or_iff_left_iff_imp]
    rintro ⟨kv, heq⟩
    exact absurd heq.symm (hno key kv)
  cases op with
  | write key kv =>
    cases Part.mem_some_iff.mp hs'
    refine h.puts (puts_write codec s key kv) fun k => ?_
    simp only [TieredOp.Written, List.mem_append, List.mem_singleton, exists_or,
      TieredOp.write.injEq, exists_and_left, exists_eq, and_true, or_comm]
  | read key =>
    obtain ⟨p, hp, rfl⟩ := (Part.mem_map_iff _).mp hs'
    rw [hsame fun _ _ => by simp]
    exact h.read hp
  | evict strategy tier =>
    cases Part.mem_some_iff.mp hs'
    rw [hsame fun _ _ => by simp]
    obtain ⟨-, heq⟩ | ⟨-, heq⟩ := evict_cases codec s strategy tier
    · rw [heq]
      exact h.evictLru _
    · rw [heq]
      exact h

theorem recorded_new (gpuBudgetBytes cpuBudgetBytes : Int) :
    Recorded (TieredOp.Written ([] : List (TieredOp ν)))
      (new gpuBudgetBytes cpuBudgetBytes : TieredKVCache ν π) where
  located key := by simp [new, tierOf, TieredOp.Written]
  held {tier key} hk := by
    cases tier <;> simp [Holds, new, Dict.keys, Dict.empty] at hk
  listed hk := by simp [new, Dict.keys, Dict.empty] at hk

/-- Every block that has been written is at home after every call exactly when no call copies one
out of its tier, writes it to another, or takes it out of the LRU order of the files. -/
theorem one_home_iff (codec : BlockCodec ν π) (gpuBudgetBytes cpuBudgetBytes : Int)
    (ops : List (TieredOp ν)) :
    Calls.Throughout (TieredOp.Returns codec)
        (fun made s => ∀ key, TieredOp.Written made key → s.AtHome key)
        (new gpuBudgetBytes cpuBudgetBytes) ops ↔
      Calls.EachCall (TieredOp.Returns codec) (fun s op => op.KeepsHomes codec s)
        (new gpuBudgetBytes cpuBudgetBytes) ops := by
  refine Calls.throughout_iff_eachCall (I := fun made s => Recorded (TieredOp.Written made) s)
    (recorded_new gpuBudgetBytes cpuBudgetBytes) (fun key hw => ?_)
    fun made op s s' _ h hhome hs => ?_
  · obtain ⟨kv, hkv⟩ := hw
    cases hkv
  · have hnext := h.call hs
    have hiff := (h.homes_iff.mpr hhome).call_iff hs
    exact ⟨hnext.homes_iff.symm.trans hiff, fun _ => hnext⟩

/-- A block that is written again when the GPU is full has a copy on the GPU and one in CPU
memory. -/
theorem rewritten_block_in_two_tiers :
    ¬ ∀ (codec : BlockCodec (List Int) (List Int)) (gpuBudgetBytes cpuBudgetBytes : Int)
      (ops : List (TieredOp (List Int))),
      ∀ s ∈ runOps codec ops (new gpuBudgetBytes cpuBudgetBytes), ∀ key,
        TieredOp.Written ops key → s.AtHome key := by
  intro h
  have hrun : ((new 2 2).write halves (0, 0) [1]).write halves (0, 0) [2] ∈
      runOps halves [.write (0, 0) [1], .write (0, 0) [2]] (new 2 2) := by
    simp only [runOps, TieredOp.apply, Part.bind_some, Part.mem_some_iff]
  obtain ⟨home, _, hat⟩ := h halves 2 2 _ _ hrun (0, 0) ⟨[1], List.mem_cons_self⟩
  have hgpu := (hat .gpu).1.mp (Dict.mem_keys_of_get? (v := [1]) (by decide))
  have hcpu := (hat .cpu).1.mp (Dict.mem_keys_of_get? (v := [2]) (by decide))
  rw [← hgpu] at hcpu
  cases hcpu

end TieredKVCache
end ResidentInference

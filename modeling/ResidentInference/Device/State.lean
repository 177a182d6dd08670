import ResidentInference.Loops
import Mathlib.Data.Rat.Defs
import Mathlib.Data.BitVec
import Mathlib.Tactic.Common
import Mathlib.Tactic.Simps.Basic

/-! The records of the device: request descriptors, flag words and the KV page table. An `int` is
a mathematical integer, since a signed overflow is undefined in the source; `/` and `%` are
`Int.tdiv` and `Int.tmod`. A flag word has 32 bits. -/
namespace ResidentInference.Device

/-- The operations of the kernels on `float`. No law is assumed, so what is proved over every
instance holds of single precision. -/
class DeviceFloat (φ : Type) where
  ofInt : Int → φ
  literal : ℚ → φ
  add : φ → φ → φ
  sub : φ → φ → φ
  mul : φ → φ → φ
  div : φ → φ → φ
  ge : φ → φ → Bool
  gt : φ → φ → Bool

/-- Exact arithmetic. -/
instance : DeviceFloat ℚ where
  ofInt := fun n => n
  literal := fun q => q
  add := (· + ·)
  sub := (· - ·)
  mul := (· * ·)
  div := (· / ·)
  ge := fun x y => decide (y ≤ x)
  gt := fun x y => decide (y < x)

/-! ## Flag words -/

abbrev FlagWord := BitVec 32

namespace FlagWord

def mask (i : Fin 32) : FlagWord := 1#32 <<< i.val
def has (w : FlagWord) (i : Fin 32) : Bool := w &&& mask i != 0#32
def set (w : FlagWord) (i : Fin 32) : FlagWord := w ||| mask i
def clear (w : FlagWord) (i : Fin 32) : FlagWord := w &&& ~~~mask i

theorem getElem_mask (i : Fin 32) (k : Nat) (hk : k < 32) : (mask i)[k] = decide (i = ⟨k, hk⟩) := by
  simp only [mask, BitVec.getElem_shiftLeft]
  grind

theorem has_eq_getElem (w : FlagWord) (i : Fin 32) : has w i = w[i.val] := by
  cases h : w[i.val] with
  | true =>
    simp only [has, bne_iff_ne]
    intro h0
    have hbit : (w &&& mask i)[i.val] = (0#32)[i.val] := by rw [h0]
    simp [getElem_mask, h] at hbit
  | false =>
    simp only [has, bne_eq_false_iff_eq]
    refine BitVec.eq_of_getElem_eq fun k hk => ?_
    by_cases hik : i = ⟨k, hk⟩
    · subst hik
      simpa using fun h1 => absurd h1 (by simp [h])
    · simp [getElem_mask, hik]

@[simp] theorem has_set (w : FlagWord) (i j : Fin 32) :
    has (set w i) j = (has w j || decide (i = j)) := by
  simp [has_eq_getElem, set, getElem_mask]

@[simp] theorem has_clear (w : FlagWord) (i j : Fin 32) :
    has (clear w i) j = (has w j && !decide (i = j)) := by
  simp [has_eq_getElem, clear, getElem_mask]

/-- Setting a flag changes the word exactly when the flag was clear. -/
theorem set_eq_self_iff (w : FlagWord) (i : Fin 32) : set w i = w ↔ has w i = true := by
  constructor
  · intro h
    rw [← h]
    simp
  · intro h
    rw [has_eq_getElem] at h
    refine BitVec.eq_of_getElem_eq fun k hk => ?_
    by_cases hik : i = ⟨k, hk⟩
    · subst hik
      have hbit : w[k] = true := h
      simp [set, hbit]
    · simp [set, getElem_mask, hik]

end FlagWord

/-! ## Request descriptors -/

inductive RequestState where
  | empty | prefillReady | prefillDone | decodeReady | draftReady | verifyReady | commitReady
  | complete | failed
  deriving DecidableEq, Repr

inductive RequestFlag where
  | speculativeEnabled | priorityHigh | hasDraft | eosSeen | kvPinned | kvPressure
  deriving DecidableEq, Repr

/-- The position of the flag's bit. -/
def RequestFlag.shift : RequestFlag → Fin 32
  | .speculativeEnabled => 0
  | .priorityHigh => 1
  | .hasDraft => 2
  | .eosSeen => 3
  | .kvPinned => 4
  | .kvPressure => 5

structure RequestDescriptor (φ : Type) where
  requestId : Int
  state : RequestState
  flags : FlagWord
  priority : Int
  promptLen : Int
  decodePos : Int
  maxNewTokens : Int
  eosTokenId : Int
  lastToken : Int
  outputTokenCount : Int
  draftOffset : Int
  draftLen : Int
  acceptedPrefixLen : Int
  kvTableOffset : Int
  kvNumPages : Int
  errorCode : Int
  emaAcceptanceRate : φ
  currentBlockSize : Int
  deriving DecidableEq, Repr

namespace RequestDescriptor
variable {φ : Type}

@[simps] def setState (req : RequestDescriptor φ) (s : RequestState) : RequestDescriptor φ :=
  { req with state := s }

def IsDone (req : RequestDescriptor φ) : Prop := req.state = .complete ∨ req.state = .failed

instance (req : RequestDescriptor φ) : Decidable req.IsDone :=
  inferInstanceAs (Decidable (_ ∨ _))

def hasFlag (req : RequestDescriptor φ) (f : RequestFlag) : Bool := req.flags.has f.shift

@[simps] def setFlag (req : RequestDescriptor φ) (f : RequestFlag) : RequestDescriptor φ :=
  { req with flags := req.flags.set f.shift }

/-- The tokens that the request may still produce. -/
def budgetLeft (req : RequestDescriptor φ) : Int := req.maxNewTokens - req.outputTokenCount

end RequestDescriptor

/-! ## Tiers -/

inductive MovementTier where
  | none | hbm | dram | ssd
  deriving DecidableEq, Repr

/-- The value of the source: a smaller tier is nearer. -/
def MovementTier.value : MovementTier → Int
  | .none => -1
  | .hbm => 0
  | .dram => 1
  | .ssd => 2

/-! ## The KV page table -/

inductive KVPageState where
  | free | draft | committed | evictable | pinned
  deriving DecidableEq, Repr

inductive KVPageFlag where
  | resident | draft | committed | pinned | evictable | selected
  deriving DecidableEq, Repr

def KVPageFlag.shift : KVPageFlag → Fin 32
  | .resident => 0
  | .draft => 1
  | .committed => 2
  | .pinned => 3
  | .evictable => 4
  | .selected => 5

structure KVPageEntry (φ : Type) where
  pageId : Int
  requestId : Int
  layerId : Int
  startToken : Int
  tokenCount : Int
  state : KVPageState
  flags : FlagWord
  score : φ
  selected : Int
  lastSelectedStep : Int
  sparseRank : Int
  deriving DecidableEq, Repr

namespace KVPageEntry
variable {φ : Type}

def hasFlag (e : KVPageEntry φ) (f : KVPageFlag) : Bool := e.flags.has f.shift

def setFlag (e : KVPageEntry φ) (f : KVPageFlag) : KVPageEntry φ :=
  { e with flags := e.flags.set f.shift }

def clearFlag (e : KVPageEntry φ) (f : KVPageFlag) : KVPageEntry φ :=
  { e with flags := e.flags.clear f.shift }

def setState (e : KVPageEntry φ) (s : KVPageState) : KVPageEntry φ := { e with state := s }

def markPageDraft (e : KVPageEntry φ) : KVPageEntry φ :=
  (((e.setState .draft).setFlag .draft).clearFlag .committed).clearFlag .pinned

def markPageCommitted (e : KVPageEntry φ) : KVPageEntry φ :=
  (((e.setState .committed).setFlag .committed).clearFlag .draft).setFlag .resident

def markPageEvictable (e : KVPageEntry φ) : KVPageEntry φ :=
  ((e.setState .evictable).setFlag .evictable).clearFlag .pinned

def markPagePinned (e : KVPageEntry φ) : KVPageEntry φ := (e.setState .pinned).setFlag .pinned

def markPageResident (e : KVPageEntry φ) : KVPageEntry φ := e.setFlag .resident

def clearPageSelected (e : KVPageEntry φ) : KVPageEntry φ :=
  { e with selected := 0, sparseRank := -1 }.clearFlag .selected

def markPageSelected (score : φ) (decodeStep rank : Int) (e : KVPageEntry φ) : KVPageEntry φ :=
  { e with
    score := score
    selected := 1
    lastSelectedStep := decodeStep
    sparseRank := rank }.setFlag .selected

end KVPageEntry

/-- A table whose entries are not null; `entries` is the memory behind the pointer. -/
structure KVPageTable (φ : Type) where
  entries : Int → KVPageEntry φ
  numEntries : Int
  pageSizeTokens : Int
  bytesPerPage : Int

namespace KVPageTable
variable {φ : Type}

@[ext] theorem ext {t u : KVPageTable φ} (he : ∀ i, t.entries i = u.entries i)
    (hn : t.numEntries = u.numEntries) (hs : t.pageSizeTokens = u.pageSizeTokens)
    (hb : t.bytesPerPage = u.bytesPerPage) : t = u := by
  cases t
  cases u
  cases funext he
  cases hn
  cases hs
  cases hb
  rfl

/-- Write the entry at `i`. -/
def modify (t : KVPageTable φ) (i : Int) (f : KVPageEntry φ → KVPageEntry φ) : KVPageTable φ :=
  { t with entries := Function.update t.entries i (f (t.entries i)) }

/-- A loop that writes the entries at the indices of a list, in its order. -/
def modifyAll (t : KVPageTable φ) (is : List Int) (f : KVPageEntry φ → KVPageEntry φ) :
    KVPageTable φ :=
  is.foldl (fun t' i => t'.modify i f) t

variable (t : KVPageTable φ) (f : KVPageEntry φ → KVPageEntry φ)

theorem modify_entries (i j : Int) :
    (t.modify i f).entries j = if j = i then f (t.entries j) else t.entries j := by
  by_cases h : j = i
  · subst h
    simp [modify]
  · simp [modify, h]

@[simp] theorem modifyAll_numEntries (is : List Int) :
    (t.modifyAll is f).numEntries = t.numEntries := by
  induction is generalizing t with
  | nil => rfl
  | cons i is ih => exact ih (t.modify i f)

@[simp] theorem modifyAll_pageSizeTokens (is : List Int) :
    (t.modifyAll is f).pageSizeTokens = t.pageSizeTokens := by
  induction is generalizing t with
  | nil => rfl
  | cons i is ih => exact ih (t.modify i f)

@[simp] theorem modifyAll_bytesPerPage (is : List Int) :
    (t.modifyAll is f).bytesPerPage = t.bytesPerPage := by
  induction is generalizing t with
  | nil => rfl
  | cons i is ih => exact ih (t.modify i f)

/-- A loop over distinct entries writes each of them once. -/
theorem modifyAll_entries {is : List Int} (hnd : is.Nodup) (j : Int) :
    (t.modifyAll is f).entries j = if j ∈ is then f (t.entries j) else t.entries j := by
  induction is generalizing t with
  | nil => rfl
  | cons i is ih =>
    obtain ⟨hi, hnd⟩ := List.nodup_cons.mp hnd
    have hstep := ih (t.modify i f) hnd
    simp only [modifyAll, List.foldl_cons] at hstep ⊢
    rw [hstep, modify_entries]
    by_cases hj : j = i
    · simp [hj, hi]
    · simp [hj]

end KVPageTable
end ResidentInference.Device

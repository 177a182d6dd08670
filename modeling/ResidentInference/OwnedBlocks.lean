import Mathlib.Data.Int.Range
import Mathlib.Data.List.Basic
import Mathlib.Logic.Function.Basic
import Mathlib.Tactic.Linarith

/-! Blocks that own cells of a memory: run one after another, in any order, each block finds its
cells as they were and leaves its result in them. -/
namespace ResidentInference.OwnedBlocks
variable {μ α β γ : Type*}

/-- The cells of block `b`, when every block has `size` cells. -/
def slotCells (size b : Int) : List Int := Int.range (b * size) (b * size + size)

theorem mem_slotCells {size b i : Int} :
    i ∈ slotCells size b ↔ b * size ≤ i ∧ i < b * size + size :=
  Int.mem_range_iff

theorem slotCells_disjoint {size b c i : Int} (hb : i ∈ slotCells size b)
    (hc : i ∈ slotCells size c) : b = c := by
  obtain ⟨h1, h2⟩ := mem_slotCells.mp hb
  obtain ⟨h3, h4⟩ := mem_slotCells.mp hc
  by_contra hne
  obtain hlt | hgt := lt_or_gt_of_ne hne
  · nlinarith
  · nlinarith

/-- The blocks of a launch; each also writes one cell of an array of results. -/
def runBlocks (block : μ → Int → μ × β) (order : List Int) (start : μ × (Int → β)) :
    μ × (Int → β) :=
  order.foldl (fun out b =>
    ((block out.1 b).1, Function.update out.2 b (block out.1 b).2)) start

/-- A block changes its own cells only, and what it does depends on them only, beside the
parameters that no block changes. -/
structure Owned (cells : μ → Int → α) (params : μ → γ) (owns : Int → Int → Prop)
    (block : μ → Int → μ × β) : Prop where
  disjoint : ∀ {b c i}, owns b i → owns c i → b = c
  frame : ∀ m b i, ¬ owns b i → cells (block m b).1 i = cells m i
  params_eq : ∀ m b, params (block m b).1 = params m
  congr : ∀ {m m' b}, params m = params m' → (∀ i, owns b i → cells m i = cells m' i) →
    (∀ i, owns b i → cells (block m b).1 i = cells (block m' b).1 i) ∧
      (block m b).2 = (block m' b).2

/-- What a launch leaves of one block. -/
structure RanAlone (cells : μ → Int → α) (owns : Int → Int → Prop) (block : μ → Int → μ × β)
    (m : μ) (b : Int) (out : μ × (Int → β)) : Prop where
  cells : ∀ i, owns b i → cells out.1 i = cells (block m b).1 i
  result : out.2 b = (block m b).2

variable {cells : μ → Int → α} {params : μ → γ} {owns : Int → Int → Prop}
  {block : μ → Int → μ × β}

theorem Owned.runBlocks_frame (h : Owned cells params owns block) {order : List Int} {i : Int}
    (hi : ∀ b ∈ order, ¬ owns b i) (start : μ × (Int → β)) :
    cells (runBlocks block order start).1 i = cells start.1 i := by
  induction order generalizing start with
  | nil => rfl
  | cons b order ih =>
    obtain ⟨hb, horder⟩ := List.forall_mem_cons.mp hi
    exact (ih horder _).trans (h.frame _ _ _ hb)

theorem runBlocks_result_of_not_mem {order : List Int} {c : Int} (hc : c ∉ order)
    (start : μ × (Int → β)) : (runBlocks block order start).2 c = start.2 c := by
  induction order generalizing start with
  | nil => rfl
  | cons b order ih =>
    obtain ⟨hcb, horder⟩ := List.ne_and_not_mem_of_not_mem_cons hc
    exact (ih horder _).trans (Function.update_of_ne hcb _ _)

/-- Every block of a launch ends as if it had run alone. -/
theorem Owned.runBlocks (h : Owned cells params owns block) {order : List Int}
    (hnd : order.Nodup) {b : Int} (hb : b ∈ order) (start : μ × (Int → β)) :
    RanAlone cells owns block start.1 b (runBlocks block order start) := by
  induction order generalizing start with
  | nil => exact absurd hb List.not_mem_nil
  | cons c order ih =>
    obtain ⟨hc, hnd⟩ := List.nodup_cons.mp hnd
    obtain rfl | hb := List.mem_cons.mp hb
    · refine ⟨fun i hi => ?_, ?_⟩
      · exact h.runBlocks_frame (fun c hco hci => hc (h.disjoint hi hci ▸ hco)) _
      · exact (runBlocks_result_of_not_mem hc _).trans (Function.update_self _ _ _)
    · obtain ⟨hcells, hresult⟩ := ih hnd hb
        ((block start.1 c).1, Function.update start.2 c (block start.1 c).2)
      -- the first block has left the cells of block `b` alone
      have hsame : ∀ i, owns b i → cells (block start.1 c).1 i = cells start.1 i := fun i hi =>
        h.frame _ _ _ fun hci => hc (h.disjoint hi hci ▸ hb)
      obtain ⟨hcells', hresult'⟩ := h.congr (h.params_eq start.1 c) hsame
      exact ⟨fun i hi => (hcells i hi).trans (hcells' i hi), hresult.trans hresult'⟩

end ResidentInference.OwnedBlocks

import ResidentInference.Quantization
import ResidentInference.TieredCache
import Mathlib.Data.Rat.Floor

/-! The codec of the blocks that are spilled to files: each row of the last axis is quantised to
bytes with a scale of its own. Pickling and the compression of the pickle lose nothing and are
left out. -/
namespace ResidentInference
open Quantization

/-! ### Rows of a tensor -/

/-- The first `n` rows of width `w` of the elements. -/
def chunks {α : Type*} (w : Nat) : Nat → List α → List (List α)
  | 0, _ => []
  | n+1, xs => xs.take w :: chunks w n (xs.drop w)

@[simp] theorem length_chunks {α : Type*} (w n : Nat) (xs : List α) :
    (chunks w n xs).length = n := by
  induction n generalizing xs with
  | zero => rfl
  | succ n ih => rw [chunks, List.length_cons, ih]

theorem length_of_mem_chunks {α : Type*} {w n : Nat} {xs row : List α} (h : xs.length = n * w)
    (hrow : row ∈ chunks w n xs) : row.length = w := by
  induction n generalizing xs with
  | zero => cases hrow
  | succ n ih =>
    rw [Nat.succ_mul] at h
    obtain rfl | hrow := List.mem_cons.mp hrow
    · rw [List.length_take]
      omega
    · exact ih (by rw [List.length_drop]; omega) hrow

theorem length_flatten_of_width {α : Type*} {w : Nat} {rows : List (List α)}
    (h : ∀ row ∈ rows, row.length = w) : rows.flatten.length = rows.length * w := by
  induction rows with
  | nil => exact (Nat.zero_mul w).symm
  | cons row rows ih =>
    rw [List.forall_mem_cons] at h
    rw [List.flatten_cons, List.length_append, h.1, ih h.2, List.length_cons, Nat.succ_mul,
      Nat.add_comm]

theorem chunks_flatten {α : Type*} {w : Nat} {rows : List (List α)}
    (h : ∀ row ∈ rows, row.length = w) : chunks w rows.length rows.flatten = rows := by
  induction rows with
  | nil => rfl
  | cons row rows ih =>
    rw [List.forall_mem_cons] at h
    rw [List.length_cons, List.flatten_cons, chunks, List.take_left' h.1, List.drop_left' h.1,
      ih h.2]

/-- A tensor as its rows along the last axis, which is not empty. -/
structure KVTensor where
  outer : List Nat
  width : Nat
  dtype : String
  rows : List (List ℚ)
  width_pos : 0 < width
  length_rows : rows.length = outer.prod
  length_row : ∀ row ∈ rows, row.length = width

namespace KVTensor

def shape (x : KVTensor) : List Nat := x.outer ++ [x.width]

def numel (x : KVTensor) : Nat := x.outer.prod * x.width

/-- The elements laid out in a shape, if there are as many as it takes. -/
def reshape (data : List ℚ) (shape : List Nat) (dtype : String) : Option KVTensor :=
  match shape.getLast? with
  | none => none
  | some width =>
    if h : 0 < width ∧ data.length = shape.dropLast.prod * width then
      some {
        outer := shape.dropLast
        width, dtype
        rows := chunks width shape.dropLast.prod data
        width_pos := h.1
        length_rows := length_chunks _ _ _
        length_row := fun _ hrow => length_of_mem_chunks h.2 hrow }
    else none

theorem reshape_flatten (x : KVTensor) : reshape x.rows.flatten x.shape x.dtype = some x := by
  have hlast : x.shape.getLast? = some x.width := List.getLast?_concat
  have hdrop : x.shape.dropLast = x.outer := List.dropLast_concat
  have hlen : x.rows.flatten.length = x.outer.prod * x.width := by
    rw [length_flatten_of_width x.length_row, x.length_rows]
  have hrows : chunks x.width x.outer.prod x.rows.flatten = x.rows := by
    rw [← x.length_rows, chunks_flatten x.length_row]
  simp only [reshape, hlast, hdrop, hlen, x.width_pos, and_self, dite_true, hrows]

/-- The tensor with every row changed to another one of the same width. -/
def mapRows (x : KVTensor) (f : List ℚ → List ℚ) (hf : ∀ row, (f row).length = row.length) :
    KVTensor :=
  { x with
    rows := x.rows.map f
    length_rows := by rw [List.length_map, x.length_rows]
    length_row := by
      intro row hrow
      obtain ⟨old, hold, rfl⟩ := List.mem_map.mp hrow
      rw [hf, x.length_row old hold] }

end KVTensor

/-! ### The codec -/

/-- The payload that is pickled. -/
structure CompressedBlock where
  shape : List Nat
  dtype : String
  scale : List ℚ
  quantized : List (List Int)

namespace Compression

/-- Rows whose largest magnitude is smaller are stored with the scale 1. -/
def threshold : ℚ := 1 / 1000000

/-- `compress_block`; `cast` converts an element to a dtype. -/
def compressBlock (cast : String → ℚ → ℚ) (kv : KVTensor) : CompressedBlock :=
  let array := kv.rows.map fun row => row.map (cast "torch.float32")
  { shape := kv.shape
    dtype := kv.dtype
    scale := array.map (Quantization.scale 127 threshold)
    quantized := array.map (quantizeRow 127 threshold) }

/-- `decompress_block`, `none` where the reshaping raises. -/
def decompressBlock (cast : String → ℚ → ℚ) (payload : CompressedBlock) (shape : List Nat)
    (dtype : String) : Option KVTensor :=
  let restored := List.zipWith restoreRow payload.scale payload.quantized
  KVTensor.reshape (restored.flatten.map (cast dtype)) shape dtype

/-- The codec of the tiered cache. The sizes are those that torch and the compressor report. -/
def codec (cast : String → ℚ → ℚ) (elementSize : String → Nat)
    (payloadBytes : CompressedBlock → Nat) : BlockCodec KVTensor CompressedBlock where
  shape := KVTensor.shape
  dtype := KVTensor.dtype
  sizeBytes := fun kv => kv.numel * elementSize kv.dtype
  compressBlock := compressBlock cast
  payloadBytes := payloadBytes
  decompressBlock := decompressBlock cast

/-! ### Spilling a block and reading it back -/

theorem length_roundTrip (row : List ℚ) :
    (roundTrip 127 threshold row).length = row.length := by
  rw [roundTrip_eq_map, List.length_map]

/-- A block as it is read back after it was spilled. -/
def reloaded (x : KVTensor) : KVTensor := x.mapRows (roundTrip 127 threshold) length_roundTrip

variable {cast : String → ℚ → ℚ} {x : KVTensor}

theorem compressBlock_of_exact (hcast : cast "torch.float32" = id) (x : KVTensor) :
    compressBlock cast x =
      { shape := x.shape
        dtype := x.dtype
        scale := x.rows.map (Quantization.scale 127 threshold)
        quantized := x.rows.map (quantizeRow 127 threshold) } := by
  simp only [compressBlock, hcast, List.map_id, List.map_id']

theorem decompressBlock_compressBlock (hcast : cast "torch.float32" = id)
    (hx : x.dtype = "torch.float32") :
    decompressBlock cast (compressBlock cast x) x.shape x.dtype = some (reloaded x) := by
  have hrestored : List.zipWith restoreRow (x.rows.map (Quantization.scale 127 threshold))
      (x.rows.map (quantizeRow 127 threshold)) = (reloaded x).rows := by
    rw [List.zipWith_map, List.zipWith_self]
    rfl
  have hreshape := KVTensor.reshape_flatten (reloaded x)
  rw [decompressBlock, compressBlock_of_exact hcast, hrestored, hx, hcast, List.map_id]
  exact hx ▸ hreshape

/-- What a block loses when it is spilled and read back: rows of largest magnitude `m` from the
threshold on are kept up to `m / 254`, the others become zero. -/
def BoundedLoss (row row' : List ℚ) : Prop :=
  (threshold ≤ maxAbs row → List.Forall₂ (fun a b => |b - a| ≤ maxAbs row / 254) row row') ∧
    (maxAbs row < threshold → List.Forall₂ (fun _ b => b = 0) row row')

theorem threshold_pos : 0 < threshold := by norm_num [threshold]

theorem threshold_le_half : threshold ≤ 1 / 2 := by norm_num [threshold]

theorem boundedLoss_roundTrip (row : List ℚ) :
    BoundedLoss row (roundTrip 127 threshold row) := by
  constructor
  · intro hrow
    have herror := roundTrip_error (n := 127) (by decide) threshold_pos hrow
    have hsteps : (2 : ℚ) * (127 : ℤ) = 254 := by norm_num
    rwa [hsteps] at herror
  · intro hrow
    have hzero := roundTrip_of_lt (n := 127) (by decide) threshold_le_half hrow
    rw [List.forall₂_iff_get]
    exact ⟨(length_roundTrip row).symm, fun i _ hi => hzero _ (List.get_mem _ ⟨i, hi⟩)⟩

theorem compressBlock_reloaded (hcast : cast "torch.float32" = id) (x : KVTensor) :
    compressBlock cast (reloaded x) = compressBlock cast x := by
  have hscale : (reloaded x).rows.map (Quantization.scale 127 threshold) =
      x.rows.map (Quantization.scale 127 threshold) := by
    rw [reloaded, KVTensor.mapRows, List.map_map]
    exact List.map_congr_left fun row _ =>
      scale_roundTrip (by decide) threshold_pos threshold_le_half row
  have hquantized : (reloaded x).rows.map (quantizeRow 127 threshold) =
      x.rows.map (quantizeRow 127 threshold) := by
    rw [reloaded, KVTensor.mapRows, List.map_map]
    exact List.map_congr_left fun row _ =>
      quantizeRow_roundTrip (by decide) threshold_pos threshold_le_half row
  rw [compressBlock_of_exact hcast, compressBlock_of_exact hcast, hscale, hquantized]
  rfl

/-- In exact arithmetic a float32 block that is spilled and read back has lost little, and it is
compressed to the same payload as before: spilling it again changes nothing. -/
theorem spill_bounded_and_stable (hcast : cast "torch.float32" = id) (elementSize : String → Nat)
    (payloadBytes : CompressedBlock → Nat) (hx : x.dtype = "torch.float32") :
    let spill (v : KVTensor) : Option KVTensor :=
      (codec cast elementSize payloadBytes).decompressBlock
        ((codec cast elementSize payloadBytes).compressBlock v) v.shape v.dtype
    ∃ y, spill x = some y ∧ y.shape = x.shape ∧ List.Forall₂ BoundedLoss x.rows y.rows ∧
      (compressBlock cast y).scale = (compressBlock cast x).scale ∧
      (compressBlock cast y).quantized = (compressBlock cast x).quantized ∧ spill y = some y := by
  have hagain := compressBlock_reloaded hcast x
  have hspill := decompressBlock_compressBlock hcast hx
  refine ⟨reloaded x, hspill, rfl, ?_, by rw [hagain], by rw [hagain], ?_⟩
  · rw [reloaded, KVTensor.mapRows, List.forall₂_map_right_iff, List.forall₂_same]
    exact fun row _ => boundedLoss_roundTrip row
  · dsimp only [codec]
    rw [hagain]
    exact hspill

theorem spill_bounded_and_stable_two_rows :
    let x : KVTensor :=
      { outer := [2], width := 2, dtype := "torch.float32", rows := [[1, -1 / 2], [0, 0]]
        width_pos := by decide, length_rows := rfl, length_row := by decide }
    let spill (v : KVTensor) : Option KVTensor :=
      (codec (fun _ => id) (fun _ => 4) fun _ => 0).decompressBlock
        ((codec (fun _ => id) (fun _ => 4) fun _ => 0).compressBlock v) v.shape v.dtype
    ∃ y, spill x = some y ∧ y.shape = x.shape ∧ List.Forall₂ BoundedLoss x.rows y.rows ∧
      (compressBlock (fun _ => id) y).scale = (compressBlock (fun _ => id) x).scale ∧
      (compressBlock (fun _ => id) y).quantized = (compressBlock (fun _ => id) x).quantized ∧
      spill y = some y :=
  spill_bounded_and_stable rfl _ _ rfl

end Compression
end ResidentInference

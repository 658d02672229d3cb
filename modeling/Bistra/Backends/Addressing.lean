import Mathlib.Algebra.Order.BigOperators.Group.List
import Bistra.Library.Interval
import Bistra.Library.RowMajor
import Bistra.Program.Syntax

/-! # Addresses in the generated code

The offset of an element in the buffer of its tensor, and the place of the buffers in the memory of
a benchmark.
-/

namespace Bistra

/-! ## Elements -/

/-- The rest of the loop of `getIndexOffsetForBuffer`: a subscript is multiplied by the dimensions
behind its own. -/
def indexOffsetFrom : BitVec 64 → List UInt32 → List (BitVec 64) → BitVec 64
  | offset, _ :: dims, dimSizeVal :: indices =>
    let dimSizeVal := dims.foldl (fun val dimSize => val * dimSize.toBitVec.zeroExtend 64) dimSizeVal
    indexOffsetFrom (offset + dimSizeVal) dims indices
  | offset, _, _ => offset

/-- `getIndexOffsetForBuffer`, for the values of the indices; nothing if its assertion fails. -/
def getIndexOffsetForBuffer (indices : List (BitVec 64)) (bufferTy : TensorType) :
    Option (BitVec 64) :=
  if bufferTy.getDims.length = indices.length then
    some (indexOffsetFrom 0 bufferTy.getDims indices)
  else none

def TensorType.numElements (t : TensorType) : Nat := (t.getDims.map (·.toNat)).prod

/-- Every subscript is inside its dimension. -/
def TensorType.InBounds (t : TensorType) (indices : List (BitVec 64)) : Prop :=
  List.Forall₂ (fun index dim => 0 ≤ index.toInt ∧ index.toInt < dim.toNat) indices t.getDims

section Offset

variable {t : TensorType} {indices : List (BitVec 64)}

def TensorType.intDims (t : TensorType) : List ℤ := t.getDims.map fun d => (d.toNat : ℤ)

theorem TensorType.prod_intDims (t : TensorType) : t.intDims.prod = (t.numElements : ℤ) := by
  rw [intDims, numElements]
  induction t.getDims with
  | nil => rfl
  | cons d dims ih =>
    rw [List.map_cons, List.map_cons, List.prod_cons, List.prod_cons, ih]
    push_cast
    rfl

theorem foldl_dims (dims : List UInt32) (x : ℤ) :
    dims.foldl (fun val dimSize => val * dimSize.toBitVec.zeroExtend 64) (BitVec.ofInt 64 x) =
      BitVec.ofInt 64 (x * (dims.map fun d => (d.toNat : ℤ)).prod) := by
  induction dims generalizing x with
  | nil => simp
  | cons d dims ih =>
    have widened : d.toBitVec.zeroExtend 64 = BitVec.ofInt 64 (d.toNat : ℤ) := by
      apply BitVec.eq_of_toNat_eq
      simp
    rw [List.foldl_cons, widened, ← BitVec.ofInt_mul, ih, List.map_cons, List.prod_cons, mul_assoc]

/-- The loop computes the place in row-major order, up to the width of the numbers. -/
theorem indexOffsetFrom_eq (offset : ℤ) (dims : List UInt32) (indices : List (BitVec 64)) :
    indexOffsetFrom (BitVec.ofInt 64 offset) dims indices = BitVec.ofInt 64
      (offset + RowMajor.offset (dims.map fun d => (d.toNat : ℤ)) (indices.map (·.toInt))) := by
  induction dims generalizing offset indices with
  | nil => simp [indexOffsetFrom, RowMajor.offset]
  | cons d dims ih =>
    cases indices with
    | nil => simp [indexOffsetFrom, RowMajor.offset]
    | cons index indices =>
      have scaled := foldl_dims dims index.toInt
      rw [BitVec.ofInt_toInt] at scaled
      rw [indexOffsetFrom]
      simp only [scaled, ← BitVec.ofInt_add, ih]
      rw [List.map_cons, List.map_cons, RowMajor.offset, add_assoc]

theorem TensorType.InBounds.inBox (inBounds : t.InBounds indices) :
    RowMajor.InBox t.intDims (indices.map (·.toInt)) := by
  rw [RowMajor.InBox, intDims, List.forall₂_map_left_iff, List.forall₂_map_right_iff]
  exact inBounds

theorem getIndexOffset_eq (inBounds : t.InBounds indices) :
    getIndexOffsetForBuffer indices t =
      some (BitVec.ofInt 64 (RowMajor.offset t.intDims (indices.map (·.toInt)))) := by
  have computed := indexOffsetFrom_eq 0 t.getDims indices
  rw [zero_add] at computed
  rw [getIndexOffsetForBuffer, if_pos inBounds.length_eq.symm]
  exact congrArg some computed

theorem toInt_ofInt_of_lt {n : ℤ} (low : 0 ≤ n) (high : n < 2 ^ 63) :
    (BitVec.ofInt 64 n).toInt = n := by
  rw [BitVec.toInt_ofInt]
  exact Int.bmod_eq_of_le (by omega) (by omega)

theorem TensorType.InBounds.offset_exact (inBounds : t.InBounds indices)
    (fits : t.numElements < 2 ^ 63) : ∃ offset, getIndexOffsetForBuffer indices t = some offset ∧
      offset.toInt = RowMajor.offset t.intDims (indices.map (·.toInt)) := by
  have low := (RowMajor.offset_nonneg inBounds.inBox).1
  have high := RowMajor.offset_lt inBounds.inBox
  rw [t.prod_intDims] at high
  exact ⟨_, getIndexOffset_eq inBounds, toInt_ofInt_of_lt low (by omega)⟩

theorem offset_move {front : List (BitVec 64)} {last : BitVec 64} {dims : List UInt32} {dim : UInt32}
    {k : Nat} (inBounds : t.InBounds (front ++ [last])) (split : t.getDims = dims ++ [dim])
    (fits : t.numElements < 2 ^ 63) (inside : last.toInt + k ≤ dim.toNat) :
    ∃ offset next, getIndexOffsetForBuffer (front ++ [last]) t = some offset ∧
      getIndexOffsetForBuffer (front ++ [last + BitVec.ofNat 64 k]) t = some next ∧
      next.toInt = offset.toInt + k := by
  have reversed := List.forall₂_reverse_iff.mpr inBounds
  rw [split, List.reverse_concat, List.reverse_concat] at reversed
  obtain _ | ⟨lastBounds, frontBounds⟩ := reversed
  have frontBox : RowMajor.InBox (dims.map fun d => (d.toNat : ℤ)) (front.map (·.toInt)) := by
    rw [RowMajor.InBox, List.forall₂_map_left_iff, List.forall₂_map_right_iff]
    exact List.forall₂_reverse_iff.mp frontBounds
  have small := dim.toNat_lt
  have moved : (last + BitVec.ofNat 64 k).toInt = last.toInt + k := by
    rw [BitVec.toInt_add, BitVec.toInt_ofNat', Int.add_bmod_bmod]
    exact Int.bmod_eq_of_le (by omega) (by omega)
  have places : ∀ x : BitVec 64, indexOffsetFrom 0 t.getDims (front ++ [x]) =
      BitVec.ofInt 64 (RowMajor.offset (dims.map fun d => (d.toNat : ℤ)) (front.map (·.toInt)) *
        dim.toNat + x.toInt) := fun x => by
    have computed := indexOffsetFrom_eq 0 t.getDims (front ++ [x])
    rw [zero_add, split, List.map_append, List.map_append, List.map_singleton, List.map_singleton,
      RowMajor.offset_concat frontBox] at computed
    rw [split]
    exact computed
  have lengths : ∀ x : BitVec 64, t.getDims.length = (front ++ [x]).length := fun x => by
    have := inBounds.length_eq
    simp only [List.length_append, List.length_singleton] at this ⊢
    omega
  -- The elements behind the last subscript are still in the tensor.
  have room : RowMajor.offset (dims.map fun d => (d.toNat : ℤ)) (front.map (·.toInt)) * dim.toNat +
      dim.toNat ≤ t.numElements := by
    have below := RowMajor.offset_lt frontBox
    have whole := t.prod_intDims
    rw [TensorType.intDims, split, List.map_append, List.map_singleton, List.prod_append,
      List.prod_singleton] at whole
    rw [← whole]
    have := mul_le_mul_of_nonneg_right (Int.add_one_le_iff.mpr below) (Int.natCast_nonneg dim.toNat)
    linarith [add_mul (RowMajor.offset (dims.map fun d => (d.toNat : ℤ)) (front.map (·.toInt))) 1
      (dim.toNat : ℤ)]
  have low := mul_nonneg (RowMajor.offset_nonneg frontBox).1 (Int.natCast_nonneg dim.toNat)
  refine ⟨_, _, if_pos (lengths last), if_pos (lengths _), ?_⟩
  rw [places, places, moved, toInt_ofInt_of_lt (by omega) (by omega),
    toInt_ofInt_of_lt (by omega) (by omega), add_assoc]

end Offset

/-- Row-major addressing. -/
theorem getIndexOffset_rowMajor (t : TensorType) (fits : t.numElements < 2 ^ 63) :
    (∀ indices, t.InBounds indices → ∃ offset, getIndexOffsetForBuffer indices t = some offset ∧
      0 ≤ offset.toInt ∧ offset.toInt ≤ t.numElements - 1) ∧
    (∀ first second, t.InBounds first → t.InBounds second →
      getIndexOffsetForBuffer first t = getIndexOffsetForBuffer second t → first = second) ∧
    (∀ (front : List (BitVec 64)) last dims dim, t.InBounds (front ++ [last]) →
      t.getDims = dims ++ [dim] → ∀ k : Nat, last.toInt + k ≤ (dim.toNat : ℤ) →
        ∃ offset next, getIndexOffsetForBuffer (front ++ [last]) t = some offset ∧
          getIndexOffsetForBuffer (front ++ [last + BitVec.ofNat 64 k]) t = some next ∧
          next.toInt = offset.toInt + k) := by
  refine ⟨?_, ?_, fun front last dims dim inBounds split k inside =>
    offset_move inBounds split fits inside⟩
  · intro indices inBounds
    obtain ⟨offset, found, exact_⟩ := inBounds.offset_exact fits
    have low := (RowMajor.offset_nonneg inBounds.inBox).1
    have high := RowMajor.offset_lt inBounds.inBox
    rw [t.prod_intDims] at high
    exact ⟨offset, found, by omega, by omega⟩
  · intro first second inBounds inBounds' same
    obtain ⟨offset, found, exact_⟩ := inBounds.offset_exact fits
    obtain ⟨offset', found', exact'⟩ := inBounds'.offset_exact fits
    rw [found, found'] at same
    cases same
    have equal := RowMajor.offset_injective inBounds.inBox inBounds'.inBox (exact_.symm.trans exact')
    exact List.map_injective_iff.mpr (fun _ _ => BitVec.eq_of_toInt_eq) equal

/-- A matrix with two rows and three columns. -/
def matrixType : TensorType := ⟨[2, 3], ["r", "c"], .float32Ty, rfl⟩

theorem getIndexOffset_rowMajor_matrix : matrixType.numElements < 2 ^ 63 ∧
    getIndexOffsetForBuffer [0#64, 2#64] matrixType ≠
      getIndexOffsetForBuffer [1#64, 0#64] matrixType := by
  have fits : matrixType.numElements < 2 ^ 63 := by decide
  have first : matrixType.InBounds [0#64, 2#64] :=
    .cons (by decide) (.cons (by decide) .nil)
  have second : matrixType.InBounds [1#64, 0#64] :=
    .cons (by decide) (.cons (by decide) .nil)
  refine ⟨fits, fun same => ?_⟩
  exact absurd ((getIndexOffset_rowMajor matrixType fits).2.1 _ _ first second same) (by decide)

/-! ## Buffers -/

/-- `Type::getElementSizeInBytes`; the table has no entries for pointers and strings. -/
def ElemKind.getElementSizeInBytes : ElemKind → Option UInt32
  | .float32Ty => some 4
  | .int8Ty => some 1
  | .indexTy => some 8
  | .ptrTy | .stringTy => none

namespace TensorType

/-- `Type::getSizeInBytes`, with products of 32 bits. -/
def getSizeInBytes (t : TensorType) : Option UInt32 := do
  let size := t.sizes.foldl (fun size d => size * d) 1
  return size * (← t.elementType.getElementSizeInBytes)

/-- The dimensions that the loop of `Type::size` comes to: its counter has eight bits. -/
def countedDims (t : TensorType) : List UInt32 :=
  t.sizes.take (UInt8.ofNat t.sizes.length).toNat

/-- `Type::size`, with products of 64 bits. -/
def size (t : TensorType) : UInt64 := t.countedDims.foldl (fun s d => s * d.toUInt64) 1

end TensorType

/-- The loop of `emitBenchmark` over the arguments: the offset of each of them with the number of
bytes up to the next, and the offset behind the last; nothing if the assertion fails. -/
def emitBenchmarkFrom : UInt64 → List Argument → Option (List (UInt64 × UInt64) × UInt64)
  | offset, [] => some ([], offset)
  | offset, arg :: args =>
    match arg.type.elementType with
    | .float32Ty => do
      let bytes := arg.type.size * (← arg.type.elementType.getElementSizeInBytes).toUInt64
      let rest ← emitBenchmarkFrom (offset + bytes) args
      return ((offset, bytes) :: rest.1, rest.2)
    | _ => none

/-- The loop of `evaluateCode` over the arguments: the size of the scratch pad. -/
def scratchPadSize : UInt64 → List Argument → Option UInt64
  | memSz, [] => some memSz
  | memSz, arg :: args => do
    scratchPadSize (memSz + (← arg.type.getSizeInBytes).toUInt64) args

def bytesOf (region : UInt64 × UInt64) : Finset Nat :=
  Finset.Ico region.1.toNat (region.1.toNat + region.2.toNat)

/-- The scratch pad is big enough: every argument gets a region that holds its elements, the regions
are pairwise disjoint and inside the scratch pad, and they end where it ends. -/
def ScratchPadFits (args : List Argument) : Prop :=
  ∃ regions offset memSz, emitBenchmarkFrom 0 args = some (regions, offset) ∧
    scratchPadSize 0 args = some memSz ∧
    List.Forall₂ (fun arg region => 4 * arg.type.numElements ≤ region.2.toNat) args regions ∧
    regions.Pairwise (fun r s => Disjoint (bytesOf r) (bytesOf s)) ∧
    (∀ region ∈ regions, region.1.toNat + region.2.toNat ≤ memSz.toNat) ∧ offset = memSz

section Buffers

variable {t : TensorType} {arg : Argument} {args : List Argument}

/-- The number of bytes that `emitBenchmark` counts for an argument. -/
def Argument.counted (arg : Argument) : Nat :=
  4 * (arg.type.countedDims.map (·.toNat)).prod % 2 ^ 64

theorem TensorType.toNat_size (t : TensorType) :
    t.size.toNat = (t.countedDims.map (·.toNat)).prod % 2 ^ 64 := by
  have fold : ∀ (dims : List UInt32) (s : UInt64),
      (dims.foldl (fun s d => s * d.toUInt64) s).toNat =
        s.toNat * (dims.map (·.toNat)).prod % 2 ^ 64 := by
    intro dims
    induction dims with
    | nil => intro s; simp [Nat.mod_eq_of_lt s.toNat_lt]
    | cons d dims ih =>
      intro s
      rw [List.foldl_cons, ih, List.map_cons, List.prod_cons, UInt64.toNat_mul, ← mul_assoc]
      simp
  simpa [size] using fold t.countedDims 1

theorem TensorType.toNat_getSizeInBytes (float : t.elementType = .float32Ty) :
    ∃ bytes, t.getSizeInBytes = some bytes ∧ bytes.toNat = 4 * t.numElements % 2 ^ 32 := by
  have fold : ∀ (dims : List UInt32) (s : UInt32),
      (dims.foldl (fun size d => size * d) s).toNat =
        s.toNat * (dims.map (·.toNat)).prod % 2 ^ 32 := by
    intro dims
    induction dims with
    | nil => intro s; simp [Nat.mod_eq_of_lt s.toNat_lt]
    | cons d dims ih =>
      intro s
      rw [List.foldl_cons, ih, List.map_cons, List.prod_cons, UInt32.toNat_mul, ← mul_assoc]
      simp
  refine ⟨_, by rw [getSizeInBytes, float]; rfl, ?_⟩
  rw [UInt32.toNat_mul, fold]
  simp [numElements, getDims, Nat.mul_comm]

theorem Argument.toNat_counted (arg : Argument) :
    (arg.type.size * (4 : UInt32).toUInt64).toNat = arg.counted := by
  rw [UInt64.toNat_mul, arg.type.toNat_size, counted, Nat.mul_comm 4]
  simp

theorem float_of_emitBenchmark {offset : UInt64} {result : List (UInt64 × UInt64) × UInt64}
    (emitted : emitBenchmarkFrom offset args = some result) :
    ∀ arg ∈ args, arg.type.elementType = .float32Ty := by
  induction args generalizing offset result with
  | nil => exact nofun
  | cons arg args ih =>
    rw [emitBenchmarkFrom] at emitted
    split at emitted
    next float =>
      simp only [float, ElemKind.getElementSizeInBytes, Option.bind_eq_bind, Option.bind_some,
        Option.bind_eq_some_iff] at emitted
      obtain ⟨rest, emitted, -⟩ := emitted
      exact List.forall_mem_cons.mpr ⟨float, ih emitted⟩
    next => cases emitted

theorem emitBenchmarkFrom_spec (float : ∀ arg ∈ args, arg.type.elementType = .float32Ty)
    (offset : UInt64) : ∃ regions final, emitBenchmarkFrom offset args = some (regions, final) ∧
      regions.map (·.2.toNat) = args.map (·.counted) ∧
      (offset.toNat + (args.map (·.counted)).sum < 2 ^ 64 →
        final.toNat = offset.toNat + (args.map (·.counted)).sum ∧
        regions.Pairwise (fun r s => Disjoint (bytesOf r) (bytesOf s)) ∧
        ∀ r ∈ regions, offset.toNat ≤ r.1.toNat ∧
          r.1.toNat + r.2.toNat ≤ offset.toNat + (args.map (·.counted)).sum) := by
  induction args generalizing offset with
  | nil => exact ⟨[], offset, rfl, rfl, fun _ => ⟨rfl, .nil, nofun⟩⟩
  | cons arg args ih =>
    obtain ⟨floatArg, float⟩ := List.forall_mem_cons.mp float
    have bytes := arg.toNat_counted
    generalize same : arg.type.size * (4 : UInt32).toUInt64 = size at bytes
    obtain ⟨regions, final, emitted, counted, layout⟩ := ih float (offset + size)
    refine ⟨(offset, size) :: regions, final, ?_, ?_, fun small => ?_⟩
    · rw [emitBenchmarkFrom]
      simp only [floatArg, ElemKind.getElementSizeInBytes, Option.bind_eq_bind, Option.bind_some,
        same, emitted]
      rfl
    · rw [List.map_cons, List.map_cons, counted, bytes]
    · rw [List.map_cons, List.sum_cons] at small ⊢
      -- Without a wrap the offset of the next region is the end of this one.
      have behind : (offset + size).toNat = offset.toNat + size.toNat := by
        rw [UInt64.toNat_add]
        exact Nat.mod_eq_of_lt (by omega)
      obtain ⟨last, disjoint, inside⟩ := layout (by omega)
      have fits : offset.toNat + size.toNat ≤
          offset.toNat + (arg.counted + (args.map (·.counted)).sum) := by omega
      refine ⟨by omega, .cons (fun r mem => ?_) disjoint,
        List.forall_mem_cons.mpr ⟨⟨le_refl _, fits⟩, fun r mem => ?_⟩⟩
      · -- The regions of the other arguments are behind this one.
        have := inside r mem
        exact Finset.disjoint_left.mpr fun x first second => by
          have below := (Finset.mem_Ico.mp first).2
          have above := (Finset.mem_Ico.mp second).1
          dsimp only at below
          omega
      · have := inside r mem
        omega

theorem scratchPadSize_spec (float : ∀ arg ∈ args, arg.type.elementType = .float32Ty)
    (memSz : UInt64) : ∃ result, scratchPadSize memSz args = some result ∧ result.toNat =
      (memSz.toNat + (args.map fun arg => 4 * arg.type.numElements % 2 ^ 32).sum) % 2 ^ 64 := by
  induction args generalizing memSz with
  | nil => exact ⟨memSz, rfl, (Nat.mod_eq_of_lt memSz.toNat_lt).symm⟩
  | cons arg args ih =>
    obtain ⟨floatArg, float⟩ := List.forall_mem_cons.mp float
    obtain ⟨bytes, known, value⟩ := TensorType.toNat_getSizeInBytes floatArg
    obtain ⟨result, computed, same⟩ := ih float (memSz + bytes.toUInt64)
    refine ⟨result, ?_, ?_⟩
    · rw [scratchPadSize, known]
      exact computed
    · rw [same, UInt64.toNat_add, UInt32.toNat_toUInt64, List.map_cons, List.sum_cons, value]
      omega

theorem regions_hold_iff {regions : List (UInt64 × UInt64)}
    (counted : regions.map (·.2.toNat) = args.map (·.counted)) :
    List.Forall₂ (fun arg region => 4 * arg.type.numElements ≤ region.2.toNat) args regions ↔
      ∀ arg ∈ args, 4 * arg.type.numElements ≤ arg.counted := by
  have right := List.forall₂_map_right_iff (l := args) (u := regions)
    (R := fun (arg : Argument) (n : Nat) => 4 * arg.type.numElements ≤ n) (f := (·.2.toNat))
  rw [counted, List.forall₂_map_right_iff, List.forall₂_same] at right
  exact right.symm

/-- Where one function is below another and the sums are the other way, they agree. -/
theorem eq_of_sum_le {α : Type} {l : List α} {f g : α → Nat} (le : ∀ a ∈ l, f a ≤ g a)
    (sum : (l.map g).sum ≤ (l.map f).sum) : ∀ a ∈ l, f a = g a := by
  induction l with
  | nil => exact nofun
  | cons a l ih =>
    obtain ⟨first, others⟩ := List.forall_mem_cons.mp le
    have rest := List.sum_le_sum others
    rw [List.map_cons, List.map_cons, List.sum_cons, List.sum_cons] at sum
    exact List.forall_mem_cons.mpr ⟨by omega, ih others (by omega)⟩

theorem scratchPadFits_iff_counted : ScratchPadFits args ↔
    (∀ arg ∈ args, arg.type.elementType = .float32Ty ∧ 4 * arg.type.numElements < 2 ^ 32 ∧
      arg.counted = 4 * arg.type.numElements) ∧
      (args.map fun arg => 4 * arg.type.numElements).sum < 2 ^ 64 := by
  constructor
  · rintro ⟨regions, offset, memSz, emitted, allocated, holds, disjoint, inside, -⟩
    have float := float_of_emitBenchmark emitted
    obtain ⟨regions', final, emitted', counted, -⟩ := emitBenchmarkFrom_spec float 0
    obtain ⟨memSz', allocated', size⟩ := scratchPadSize_spec float 0
    cases emitted.symm.trans emitted'
    cases allocated.symm.trans allocated'
    -- The regions are packed into the scratch pad, and every function here is at most the next one.
    have packed : (args.map (·.counted)).sum ≤ memSz.toNat := by
      have apart : (regions.map fun r => (r.1.toNat, r.2.toNat)).Pairwise fun r s =>
          Disjoint (Finset.Ico r.1 (r.1 + r.2)) (Finset.Ico s.1 (s.1 + s.2)) :=
        List.pairwise_map.mpr disjoint
      have packed := Interval.sum_length_le apart (List.forall_mem_map.mpr inside)
      rw [List.map_map] at packed
      exact counted ▸ packed
    have size : memSz.toNat ≤ (args.map fun arg => 4 * arg.type.numElements % 2 ^ 32).sum := by
      rw [size]
      exact le_trans (Nat.mod_le _ _) (by simp)
    have enough : ∀ arg ∈ args, 4 * arg.type.numElements ≤ arg.counted :=
      (regions_hold_iff counted).mp holds
    have narrow : ∀ arg ∈ args, 4 * arg.type.numElements % 2 ^ 32 ≤ 4 * arg.type.numElements :=
      fun _ _ => Nat.mod_le _ _
    have same := eq_of_sum_le narrow (le_trans (List.sum_le_sum enough) (le_trans packed size))
    have same' := eq_of_sum_le enough (le_trans (le_trans packed size) (List.sum_le_sum narrow))
    refine ⟨fun arg mem => ⟨float arg mem, ?_, (same' arg mem).symm⟩, ?_⟩
    · rw [← same arg mem]
      exact Nat.mod_lt _ (by decide)
    · have := memSz.toNat_lt
      have := le_trans (List.sum_le_sum enough) packed
      omega
  · rintro ⟨fits, total⟩
    have float : ∀ arg ∈ args, arg.type.elementType = .float32Ty := fun arg mem => (fits arg mem).1
    obtain ⟨regions, final, emitted, counted, layout⟩ := emitBenchmarkFrom_spec float 0
    obtain ⟨memSz, allocated, size⟩ := scratchPadSize_spec float 0
    have countedSum : (args.map (·.counted)).sum =
        (args.map fun arg => 4 * arg.type.numElements).sum :=
      congrArg List.sum (List.map_congr_left fun arg mem => (fits arg mem).2.2)
    have narrowSum : (args.map fun arg => 4 * arg.type.numElements % 2 ^ 32).sum =
        (args.map fun arg => 4 * arg.type.numElements).sum :=
      congrArg List.sum (List.map_congr_left fun arg mem => Nat.mod_eq_of_lt (fits arg mem).2.1)
    rw [countedSum] at layout
    simp only [UInt64.toNat_zero, zero_add] at layout size
    rw [narrowSum, Nat.mod_eq_of_lt total] at size
    obtain ⟨last, disjoint, inside⟩ := layout total
    refine ⟨regions, final, memSz, emitted, allocated, ?_, disjoint, fun r mem => ?_, ?_⟩
    · exact (regions_hold_iff counted).mpr fun arg mem => (fits arg mem).2.2.ge
    · rw [size]
      exact (inside r mem).2
    · exact UInt64.toNat_inj.mp (last.trans size.symm)

end Buffers

/-- When the scratch pad is big enough: the bytes of each tensor are a number of 32 bits that the
dimensions in the reach of the counter give, and all bytes together are a number of 64 bits. -/
theorem scratchPadFits_iff (args : List Argument) : ScratchPadFits args ↔
    (∀ arg ∈ args, arg.type.elementType = .float32Ty ∧ 4 * arg.type.numElements < 2 ^ 32 ∧
      4 * ((arg.type.sizes.take (arg.type.sizes.length % 256)).map (·.toNat)).prod % 2 ^ 64 =
        4 * arg.type.numElements) ∧
      (args.map fun arg => 4 * arg.type.numElements).sum < 2 ^ 64 := by
  have counted : ∀ arg : Argument, arg.counted =
      4 * ((arg.type.sizes.take (arg.type.sizes.length % 256)).map (·.toNat)).prod % 2 ^ 64 :=
    fun arg => by rw [Argument.counted, TensorType.countedDims, UInt8.toNat_ofNat']
  simp only [scratchPadFits_iff_counted, counted]

/-- A matrix whose size in bytes is no number of 32 bits: nothing is allocated for it. -/
def largeMatrix : Argument :=
  ⟨"A", ⟨[32768, 32768], ["r", "c"], .float32Ty, rfl⟩⟩

theorem scratchPad_short : scratchPadSize 0 [largeMatrix] = some 0 ∧
    emitBenchmarkFrom 0 [largeMatrix] = some ([(0, 4294967296)], 4294967296) ∧
    ¬ ScratchPadFits [largeMatrix] := by
  refine ⟨by decide, by decide, fun fits => ?_⟩
  exact absurd ((scratchPadFits_iff_counted.mp fits).1 largeMatrix List.mem_cons_self).2.1
    (by decide)

theorem scratchPadFits_of_few {args : List Argument}
    (few : ∀ arg ∈ args, arg.type.sizes.length < 256) : ScratchPadFits args ↔
      (∀ arg ∈ args, arg.type.elementType = .float32Ty ∧ 4 * arg.type.numElements < 2 ^ 32) ∧
        (args.map fun arg => 4 * arg.type.numElements).sum < 2 ^ 64 := by
  have counted : ∀ arg ∈ args, 4 * arg.type.numElements < 2 ^ 32 →
      arg.counted = 4 * arg.type.numElements := fun arg mem small => by
    have all : arg.type.countedDims = arg.type.sizes := by
      rw [TensorType.countedDims, UInt8.toNat_ofNat', Nat.mod_eq_of_lt (few arg mem),
        List.take_length]
    rw [Argument.counted, all]
    exact Nat.mod_eq_of_lt (lt_trans small (by decide))
  rw [scratchPadFits_iff_counted]
  exact and_congr_left' (forall₂_congr fun arg mem => and_congr_right fun _ =>
    and_iff_left_of_imp (counted arg mem))

end Bistra

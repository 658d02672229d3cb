import Mathlib.Algebra.Group.Int.Defs
import Mathlib.Algebra.Group.Nat.Defs
import Mathlib.Data.List.Basic

/-! # Types of tensors and of expressions

`Type` and `ExprType` of `Program/Types.h`.  The sizes of a tensor are 32-bit
unsigned numbers; the constructor of `ExprType` only admits the vector widths
`1 .. 63`, so the width is a subtype and no later proof has to check it again.
-/

namespace Bistra

/-- `ElemKind`: the type of the elements of a tensor. -/
inductive ElemKind where
  | float32Ty
  | int8Ty
  | indexTy
  | ptrTy
  | stringTy
  deriving DecidableEq, Repr

/-- The number of an enumerator of `ElemKind`. -/
def ElemKind.code : ElemKind → UInt8
  | .float32Ty => 0
  | .int8Ty => 1
  | .indexTy => 2
  | .ptrTy => 3
  | .stringTy => 4

/-- `Type`: element kind, sizes and names of the dimensions of a tensor. -/
structure TensorType where
  sizes : List UInt32
  names : List String
  elementType : ElemKind
  /-- The assertion of the constructor. -/
  namesLength : names.length = sizes.length
  deriving DecidableEq

namespace TensorType

def getNumDims (t : TensorType) : Nat := t.sizes.length

def getDims (t : TensorType) : List UInt32 := t.sizes

end TensorType

theorem oneDim : [""].length = ([0] : List UInt32).length := rfl

theorem twoDims : ["", ""].length = ([0, 0] : List UInt32).length := rfl

/-- The widths that `ExprType` accepts. -/
abbrev VecWidth := { width : Nat // 0 < width ∧ width < 64 }

def VecWidth.one : VecWidth := ⟨1, by omega⟩

theorem VecWidth.fits_four : 0 < 4 ∧ 4 < 64 := by omega

@[simp] theorem VecWidth.one_val : VecWidth.one.val = 1 := rfl

/-- `ExprType`: element kind and vector width of an expression. -/
structure ExprType where
  elementType : ElemKind
  width : VecWidth
  deriving DecidableEq

namespace ExprType

/-- The type `ExprType(kind)` of a scalar. -/
def scalar (kind : ElemKind) : ExprType := ⟨kind, .one⟩

def isIndexTy (t : ExprType) : Bool := t.elementType = .indexTy

def isVector (t : ExprType) : Bool := t.width.val ≠ 1

@[simp] theorem scalar_elementType (kind : ElemKind) : (scalar kind).elementType = kind := rfl

@[simp] theorem scalar_width (kind : ElemKind) : (scalar kind).width = .one := rfl

@[simp] theorem isVector_scalar (kind : ElemKind) : (scalar kind).isVector = false := rfl

theorem eq_scalar_of_not_isVector {t : ExprType} (scalarType : t.isVector = false) :
    t = scalar t.elementType := by
  obtain ⟨kind, width, bounds⟩ := t
  simp only [isVector, ne_eq, decide_not, Bool.not_eq_false', decide_eq_true_eq] at scalarType
  subst scalarType
  rfl

end ExprType

/-! ## Machine integers -/

/-- A 32-bit unsigned number keeps its value as a signed one exactly when it is below
`2 ^ 31`. -/
theorem toInt32_toInt (n : UInt32) :
    n.toInt32.toInt = if n.toNat < 2 ^ 31 then (n.toNat : Int) else n.toNat - 2 ^ 32 := by
  show n.toBitVec.toInt = _
  rw [BitVec.toInt_eq_toNat_cond]
  have : n.toBitVec.toNat = n.toNat := rfl
  split <;> split <;> omega

end Bistra

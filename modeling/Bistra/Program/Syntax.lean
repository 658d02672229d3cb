import Bistra.Program.Types

/-! # The program representation

The tree of `Program.h`.  What the source refers to by pointer is referred to by a
number here: a loop by the number of its `Loop` object, an argument or a local
variable by its position in the lists of the program.  The `GEPExpr` that every
`LoadExpr` and `StoreStmt` owns is stored as its two fields, so that the assertion
`dynamic_cast<GEPExpr *>(gep_)` holds by construction.  Debug locations are left out.

`F` is the type of the floating point values; the passes only need to know it where
they fold constants.
-/

namespace Bistra

/-- The identity of a `Loop` object. -/
abbrev LoopId := Nat

/-- The position of an `Argument` in `Program::args_`. -/
abbrev ArgId := Nat

/-- The position of a `LocalVar` in `Program::vars_`. -/
abbrev VarId := Nat

inductive BinOpKind where
  | mul | add | div | sub | max | min | pow
  deriving DecidableEq, Repr

/-- The number of an enumerator of `BinOpKind`. -/
def BinOpKind.code : BinOpKind → UInt8
  | .mul => 0
  | .add => 1
  | .div => 2
  | .sub => 3
  | .max => 4
  | .min => 5
  | .pow => 6

def BinOpKind.isCommutative : BinOpKind → Bool
  | .mul | .add | .max | .min => true
  | .div | .sub | .pow => false

inductive UnaryOpKind where
  | exp | log | sqrt | abs
  deriving DecidableEq, Repr

/-- The number of an enumerator of `UnaryOpKind`. -/
def UnaryOpKind.code : UnaryOpKind → UInt8
  | .exp => 0
  | .log => 1
  | .sqrt => 2
  | .abs => 3

/-- The expressions of `Program.h`.  An index, a load and a load of a local carry
their own type (`setType`, the typed constructors); the type of every other
expression is set by its constructor from its operands. -/
inductive Expr (F : Type) where
  | index (loop : LoopId) (type : ExprType)
  | const (val : Int)
  | constFP (val : F)
  | constString (val : String)
  | binary (kind : BinOpKind) (lhs rhs : Expr F)
  | unary (kind : UnaryOpKind) (val : Expr F)
  | broadcast (val : Expr F) (vf : VecWidth)
  | gep (arg : ArgId) (indices : List (Expr F))
  | load (arg : ArgId) (indices : List (Expr F)) (type : ExprType)
  | loadLocal (var : VarId) (type : ExprType)

/-- The fields of a `Loop`, without its body. -/
structure Loop where
  id : LoopId
  name : String
  end_ : UInt32
  stride : UInt32
  deriving DecidableEq

/-- The statements of `Program.h`. -/
inductive Stmt (F : Type) where
  | loop (header : Loop) (body : List (Stmt F))
  | ifRange (val : Expr F) (start end_ : Int32) (body : List (Stmt F))
  | call (name : String) (params : List (Expr F))
  | store (arg : ArgId) (indices : List (Expr F)) (value : Expr F) (accumulate : Bool)
  | storeLocal (var : VarId) (value : Expr F) (accumulate : Bool)

structure Argument where
  name : String
  type : TensorType
  deriving DecidableEq

structure LocalVar where
  name : String
  type : ExprType
  deriving DecidableEq

structure Program (F : Type) where
  name : String
  args : List Argument
  vars : List LocalVar
  body : List (Stmt F)

variable {F : Type}

def Expr.getType : Expr F → ExprType
  | .index _ type => type
  | .const _ => .scalar .indexTy
  | .constFP _ => .scalar .float32Ty
  | .constString _ => .scalar .indexTy
  | .binary _ lhs _ => lhs.getType
  | .unary _ val => val.getType
  | .broadcast val vf => ⟨val.getType.elementType, vf⟩
  | .gep _ _ => .scalar .ptrTy
  | .load _ _ type => type
  | .loadLocal _ type => type

/-- `IndexExpr(loop)`: the scalar index of a loop. -/
def Expr.indexOf (loop : LoopId) : Expr F := .index loop (.scalar .indexTy)

def Stmt.isScope : Stmt F → Bool
  | .loop _ _ | .ifRange _ _ _ _ => true
  | _ => false

/-! ## Induction over the tree

The lists of operands and statements are handled by membership, so that one
induction covers a node together with its lists. -/

/-- Induction over expressions: the subscripts of an access are given as the members
of its list. -/
theorem Expr.inductTree {motive : Expr F → Prop}
    (index : ∀ loop type, motive (.index loop type))
    (const : ∀ val, motive (.const val))
    (constFP : ∀ val, motive (.constFP val))
    (constString : ∀ val, motive (.constString val))
    (binary : ∀ kind lhs rhs, motive lhs → motive rhs → motive (.binary kind lhs rhs))
    (unary : ∀ kind val, motive val → motive (.unary kind val))
    (broadcast : ∀ val vf, motive val → motive (.broadcast val vf))
    (gep : ∀ arg indices, (∀ e ∈ indices, motive e) → motive (.gep arg indices))
    (load : ∀ arg indices type, (∀ e ∈ indices, motive e) → motive (.load arg indices type))
    (loadLocal : ∀ var type, motive (.loadLocal var type)) : ∀ e, motive e := by
  intro e
  refine @Expr.rec F motive (fun es => ∀ e ∈ es, motive e)
    index const constFP constString binary unary broadcast gep load loadLocal ?_ ?_ e
  · simp
  · intro head tail headHolds tailHold
    simpa using ⟨headHolds, tailHold⟩

/-- Induction over statements: the body of a scope is given as the members of its
list. -/
theorem Stmt.inductTree {motive : Stmt F → Prop}
    (loop : ∀ header body, (∀ s ∈ body, motive s) → motive (.loop header body))
    (ifRange : ∀ val start end_ body, (∀ s ∈ body, motive s) →
      motive (.ifRange val start end_ body))
    (call : ∀ name params, motive (.call name params))
    (store : ∀ arg indices value accumulate, motive (.store arg indices value accumulate))
    (storeLocal : ∀ var value accumulate, motive (.storeLocal var value accumulate)) :
    ∀ s, motive s := by
  intro s
  refine @Stmt.rec F motive (fun body => ∀ s ∈ body, motive s)
    loop ifRange call store storeLocal ?_ ?_ s
  · simp
  · intro head tail headHolds tailHold
    simpa using ⟨headHolds, tailHold⟩

end Bistra

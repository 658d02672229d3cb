import Bistra.Backends.LLVMRefinement
import Bistra.Backends.LLVMValues

/-! # What the code for expressions computes

A value of the generated code stands for the lanes of the value of an expression, and a memory for a
state: a buffer holds the elements of a tensor in row-major order.  Where the arithmetic on indices
stays inside 64 bits and the subscripts stay inside their tensors (`Expr.Safe`), the code for an
expression computes a value that stands for the value of the expression.
-/

namespace Bistra

open SingleAssignment

variable {F : Type}

/-! ## Values -/

/-- The lanes that a value stands for, when the buffer of an argument starts at `base`. -/
def LLVMValue.scalars (M : Machine F) (base : ArgId → Int) : LLVMValue F → List (Scalar F)
  | .int val => [.idx val.toInt]
  | .floats lanes => lanes.map .flt
  | .ptr ⟨.arg A, offset⟩ => [.idx (base A + 4 * offset.toInt)]
  | .string val => [.idx (M.stringAddr val)]
  | .ptr ⟨.var _, _⟩ | .bools _ | .void => []

/-- The value stands for these lanes of an expression of this type. -/
structure LLVMValue.Is (M : Machine F) (base : ArgId → Int) (type : ExprType) (lane : Nat → Scalar F)
    (v : LLVMValue F) : Prop where
  typed : v.type = getLLVMTypeForType type
  lanes : v.scalars M base = (List.range type.width.val).map lane

section Values

variable {M : Machine F} {base : ArgId → Int} {type : ExprType} {lane : Nat → Scalar F}
  {v : LLVMValue F}

/-- An index is a number of 64 bits. -/
theorem LLVMValue.Is.int (is : v.Is M base type lane) (index : type.elementType = .indexTy) :
    ∃ n, v = .int n ∧ lane 0 = .idx n.toInt ∧ type.isVector = false := by
  have typed := is.typed
  rw [getLLVMTypeForType, index] at typed
  cases v with
  | int n =>
    have one : 1 = type.width.val := by simpa [LLVMValue.type] using typed
    have lanes := is.lanes
    rw [← one] at lanes
    refine ⟨n, rfl, ?_, by simp [ExprType.isVector, ← one]⟩
    simpa [LLVMValue.scalars, eq_comm] using lanes
  | floats | bools | ptr | string | void => simp [LLVMValue.type] at typed

theorem LLVMValue.Is.floats (is : v.Is M base type lane) (float : type.elementType = .float32Ty) :
    ∃ xs, v = .floats xs ∧ xs.length = type.width.val ∧
      xs.map .flt = (List.range type.width.val).map lane := by
  have typed := is.typed
  rw [getLLVMTypeForType, float] at typed
  cases v with
  | floats xs =>
    have length : xs.length = type.width.val := by simpa [LLVMValue.type] using typed
    exact ⟨xs, rfl, length, is.lanes⟩
  | int | bools | ptr | string | void => simp [LLVMValue.type] at typed

theorem LLVMValue.is_floats {xs : List F} (float : type.elementType = .float32Ty)
    (lanes : xs.map .flt = (List.range type.width.val).map lane) :
    (LLVMValue.floats xs).Is M base type lane where
  typed := by
    have length := congrArg List.length lanes
    simp only [List.length_map, List.length_range] at length
    simp [LLVMValue.type, getLLVMTypeForType, float, length]
  lanes := lanes

theorem LLVMValue.is_int {n : BitVec 64} (index : type.elementType = .indexTy)
    (scalarType : type.isVector = false) (value : lane 0 = .idx n.toInt) :
    (LLVMValue.int n).Is M base type lane := by
  have one : type.width.val = 1 := by simpa [ExprType.isVector] using scalarType
  exact ⟨by simp [LLVMValue.type, getLLVMTypeForType, index, one],
    by simp [LLVMValue.scalars, one, value]⟩

theorem zipWith_lanes {xs ys : List F} {width : Nat} {lane lane' : Nat → Scalar F}
    {op : F → F → F} {op' : Scalar F → Scalar F → Scalar F}
    (same : ∀ x y, op' (.flt x) (.flt y) = .flt (op x y))
    (left : xs.map .flt = (List.range width).map lane)
    (right : ys.map .flt = (List.range width).map lane') :
    (List.zipWith op xs ys).map .flt = (List.range width).map fun k => op' (lane k) (lane' k) := by
  have pointwise : (List.zipWith op xs ys).map .flt =
      List.zipWith op' (xs.map Scalar.flt) (ys.map Scalar.flt) := by
    rw [List.map_zipWith, List.zipWith_map]
    exact congrArg (fun f => List.zipWith f xs ys) (funext fun x => funext fun y => (same x y).symm)
  rw [pointwise, left, right, List.zipWith_map, List.zipWith_self]

theorem selectLanes_eq (pick : F → F → Bool) (xs ys : List F) :
    selectLanes (List.zipWith pick xs ys) xs ys =
      List.zipWith (fun x y => if pick x y then x else y) xs ys := by
  induction xs generalizing ys with
  | nil => rfl
  | cons x xs ih =>
    cases ys with
    | nil => rfl
    | cons y ys => simp [selectLanes, ih]

end Values

/-! ## Memory -/

/-- The memory holds the buffers, the local variables and the calls of a state. -/
structure Memory.Represents (mem : Memory F) (p : Program F) (M : Machine F) (base : ArgId → Int)
    (st : State F) : Prop where
  size : ∀ {A decl}, p.args[A]? = some decl → (mem.bufs A).size = decl.type.numElements
  elems : ∀ {A decl subs}, p.args[A]? = some decl → RowMajor.InBox decl.type.intDims subs →
    st.bufs A subs =
      .flt ((mem.bufs A).elems (RowMajor.offset decl.type.intDims subs).toNat)
  locals : ∀ {V decl}, p.vars[V]? = some decl → (mem.locals V).Is M base decl.type (st.locals V)
  calls : (mem.calls.map fun call => CallRecord.mk call.1 (call.2.map (·.scalars M base))) = st.calls

/-- The machine finds the elements of a tensor one behind the other. -/
def Machine.Places (M : Machine F) (p : Program F) (base : ArgId → Int) : Prop :=
  ∀ {A decl subs}, p.args[A]? = some decl → RowMajor.InBox decl.type.intDims subs →
    M.elemAddr A subs = base A + 4 * RowMajor.offset decl.type.intDims subs

theorem offset_cellAt {dims subs : List Int} (lengths : subs.length = dims.length)
    (nonempty : subs ≠ []) (lane : Nat) :
    RowMajor.offset dims (cellAt subs lane) = RowMajor.offset dims subs + lane := by
  induction subs generalizing dims with
  | nil => exact absurd rfl nonempty
  | cons i subs ih =>
    cases dims with
    | nil => cases lengths
    | cons d dims =>
      have lengths : subs.length = dims.length := Nat.succ.inj lengths
      cases subs with
      | nil =>
        have last : dims = [] := List.length_eq_zero_iff.mp lengths.symm
        simp [cellAt, RowMajor.offset, last]
      | cons j subs =>
        rw [cellAt, RowMajor.offset, ih lengths (List.cons_ne_nil _ _), RowMajor.offset]
        omega

/-! ## Where the code is defined -/

section Safe

variable [Field F] [LinearOrder F]

def FitsInt64 (n : Int) : Prop := -2 ^ 63 ≤ n ∧ n < 2 ^ 63

instance FitsInt64.decidable (n : Int) : Decidable (FitsInt64 n) := inferInstanceAs (Decidable (_ ∧ _))

/-- The lanes of an access stay inside the tensor. -/
def Program.Inside (p : Program F) (arg : ArgId) (subs : List Int) (width : Nat) : Prop :=
  ∀ decl, p.args[arg]? = some decl → ∀ lane < width,
    RowMajor.InBox decl.type.intDims (cellAt subs lane)

mutual

/-- No arithmetic on indices leaves 64 bits or divides by zero, and no access leaves its tensor. -/
def Expr.Safe (p : Program F) (M : Machine F) (st : State F) (env : Env) : Expr F → Prop
  | .index _ _ | .constFP _ | .constString _ | .loadLocal _ _ => True
  | .const val => FitsInt64 val
  | .binary kind lhs rhs =>
    lhs.Safe p M st env ∧ rhs.Safe p M st env ∧
      (lhs.getType.elementType = .indexTy →
        FitsInt64 (kind.onInt (lhs.eval M st env 0).toInt (rhs.eval M st env 0).toInt) ∧
          (kind = .div → (rhs.eval M st env 0).toInt ≠ 0))
  | .unary _ val => val.Safe p M st env
  | .broadcast val _ => val.Safe p M st env
  | .gep arg indices =>
    Expr.SafeList p M st env indices ∧ p.Inside arg (Expr.subscripts M st env indices) 1
  | .load arg indices type =>
    Expr.SafeList p M st env indices ∧
      p.Inside arg (Expr.subscripts M st env indices) type.width.val

def Expr.SafeList (p : Program F) (M : Machine F) (st : State F) (env : Env) : List (Expr F) → Prop
  | [] => True
  | e :: es => e.Safe p M st env ∧ Expr.SafeList p M st env es

end

instance InBox.decidable (dims xs : List Int) : Decidable (RowMajor.InBox dims xs) :=
  inferInstanceAs (Decidable (List.Forall₂ _ _ _))

instance Program.decidableInside (p : Program F) (arg : ArgId) (subs : List Int) (width : Nat) :
    Decidable (p.Inside arg subs width) :=
  match known : p.args[arg]? with
  | none => .isTrue fun _ other => by rw [known] at other; cases other
  | some decl =>
    decidable_of_iff (∀ lane < width, RowMajor.InBox decl.type.intDims (cellAt subs lane))
      ⟨fun all _ other => Option.some.inj (known.symm.trans other) ▸ all, fun inside => inside decl known⟩

mutual

instance Expr.decidableSafe (p : Program F) (M : Machine F) (st : State F) (env : Env) :
    (e : Expr F) → Decidable (e.Safe p M st env)
  | .index _ _ | .constFP _ | .constString _ | .loadLocal _ _ => .isTrue trivial
  | .const _ => inferInstanceAs (Decidable (_ ∧ _))
  | .binary _ lhs rhs =>
    have := lhs.decidableSafe p M st env
    have := rhs.decidableSafe p M st env
    inferInstanceAs (Decidable (_ ∧ _ ∧ (_ → FitsInt64 _ ∧ _)))
  | .unary _ val => val.decidableSafe p M st env
  | .broadcast val _ => val.decidableSafe p M st env
  | .gep _ indices =>
    have := Expr.decidableSafeList p M st env indices
    inferInstanceAs (Decidable (_ ∧ _))
  | .load _ indices _ =>
    have := Expr.decidableSafeList p M st env indices
    inferInstanceAs (Decidable (_ ∧ _))

instance Expr.decidableSafeList (p : Program F) (M : Machine F) (st : State F) (env : Env) :
    (es : List (Expr F)) → Decidable (Expr.SafeList p M st env es)
  | [] => .isTrue trivial
  | e :: es =>
    have := e.decidableSafe p M st env
    have := Expr.decidableSafeList p M st env es
    inferInstanceAs (Decidable (_ ∧ _))

end

theorem Expr.safeList_iff {p : Program F} {M : Machine F} {st : State F} {env : Env}
    {es : List (Expr F)} : Expr.SafeList p M st env es ↔ ∀ e ∈ es, e.Safe p M st env := by
  induction es with
  | nil => simp [Expr.SafeList]
  | cons e es ih => simp [Expr.SafeList, ih]

end Safe

/-! ## What the emitter supports -/

mutual

/-- The emitter has code for the expression: no vectors of indices, and no other operators on indices
than the four of LLVM. -/
def Expr.emittable : Expr F → Bool
  | .index _ type => !type.isVector
  | .const _ | .constFP _ => true
  | .constString _ => false
  | .binary kind lhs rhs =>
    lhs.emittable && rhs.emittable &&
      match lhs.getType.elementType with
      | .float32Ty => true
      | .indexTy => kind = .add || kind = .mul || kind = .sub || kind = .div
      | _ => false
  | .unary _ val => val.emittable && decide (val.getType.elementType = .float32Ty)
  | .broadcast val vf =>
    val.emittable && decide (val.getType.elementType = .float32Ty) && decide (vf.val ≠ 1)
  | .gep _ indices => Expr.emittableList indices
  | .load _ indices type => Expr.emittableList indices && decide (type.elementType = .float32Ty)
  | .loadLocal _ _ => true

def Expr.emittableList : List (Expr F) → Bool
  | [] => true
  | e :: es => e.emittable && Expr.emittableList es

end

@[simp] theorem Expr.emittableList_eq (es : List (Expr F)) :
    Expr.emittableList es = es.all Expr.emittable := by
  induction es with
  | nil => rfl
  | cons e es ih => rw [Expr.emittableList, ih, List.all_cons]

/-- The declarations and the calls of a program that the emitter has code for. -/
structure Program.Emittable (p : Program F) : Prop where
  names : p.NamesAgree
  /-- The assertion of `emitPrototype`. -/
  floats : ∀ decl ∈ p.args, decl.type.elementType = .float32Ty
  sizes : ∀ decl ∈ p.args, decl.type.numElements < 2 ^ 63
  locals : ∀ decl ∈ p.vars, decl.type.elementType = .float32Ty ∨
    decl.type.isVector = false ∧ (decl.type.elementType = .indexTy ∨ decl.type.elementType = .ptrTy)
  callsOut : ∀ call ∈ Stmt.collectCallsBody p.body, p.callsOut call.1 = true
  /-- All calls of a function have parameters of the same types. -/
  signatures : ∀ call ∈ Stmt.collectCallsBody p.body, ∀ other ∈ Stmt.collectCallsBody p.body,
    call.1 = other.1 → call.2.mapM Expr.paramType = other.2.mapM Expr.paramType

end Bistra

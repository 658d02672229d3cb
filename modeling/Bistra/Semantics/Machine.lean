import Mathlib.Algebra.Field.Defs
import Mathlib.Algebra.Order.Group.Unbundled.Abs
import Mathlib.Algebra.Order.Ring.Int
import Bistra.Program.Syntax

/-! # Values and states

The values that expressions have and the state that statements change, with exact
arithmetic: indices are integers and floating point values are elements of an ordered
field.  A buffer is a map from subscripts to elements and different arguments are
different buffers.
-/

namespace Bistra

/-- One lane of a value. -/
inductive Scalar (F : Type) where
  | idx (val : Int)
  | flt (val : F)
  deriving DecidableEq

/-- What the program leaves to the machine: the functions of the math library and the
addresses of string constants and of buffer elements. -/
structure Machine (F : Type) where
  exp : F → F
  log : F → F
  sqrt : F → F
  pow : F → F → F
  stringAddr : String → Int
  elemAddr : ArgId → List Int → Int

/-- A call of an external function with the lanes of its parameters. -/
structure CallRecord (F : Type) where
  name : String
  params : List (List (Scalar F))
  deriving DecidableEq

/-- The buffers, the local variables (by lane) and the calls made so far. -/
@[ext] structure State (F : Type) where
  bufs : ArgId → List Int → Scalar F
  locals : VarId → Nat → Scalar F
  calls : List (CallRecord F)

variable {F : Type}

/-- A machine for programs that use nothing of the machine. -/
def Machine.bare [Zero F] : Machine F where
  exp := id
  log := id
  sqrt := id
  pow _ _ := 0
  stringAddr _ := 0
  elemAddr _ _ := 0

/-- All buffers and locals are zero and no call has been made. -/
def State.zero [Zero F] : State F where
  bufs _ _ := .flt 0
  locals _ _ := .flt 0
  calls := []

/-- The number that a scalar has as a subscript or as the operand of a guard. -/
def Scalar.toInt : Scalar F → Int
  | .idx val => val
  | .flt _ => 0

/-- The element of kind `kind` that the memory holds in a cell. -/
def Scalar.as [Zero F] : ElemKind → Scalar F → Scalar F
  | .float32Ty, .flt val => .flt val
  | .float32Ty, .idx _ => .flt 0
  | _, .idx val => .idx val
  | _, .flt _ => .idx 0

/-- The scalar is an element of kind `kind`. -/
def Scalar.HasKind : ElemKind → Scalar F → Prop
  | .float32Ty, .flt _ => True
  | .float32Ty, .idx _ => False
  | _, .idx _ => True
  | _, .flt _ => False

theorem Scalar.as_hasKind [Zero F] (kind : ElemKind) (s : Scalar F) : (s.as kind).HasKind kind := by
  cases kind <;> cases s <;> trivial

theorem Scalar.as_of_hasKind [Zero F] {kind : ElemKind} {s : Scalar F} (typed : s.HasKind kind) :
    s.as kind = s := by
  cases kind <;> cases s <;> first | rfl | exact typed.elim

/-- Integer powers, cut to an integer where the exponent is negative. -/
def intPow (base exponent : Int) : Int :=
  if 0 ≤ exponent then base ^ exponent.toNat else (1 : Int).tdiv (base ^ (-exponent).toNat)

/-- The binary operators on indices; division truncates. -/
def BinOpKind.onInt : BinOpKind → Int → Int → Int
  | .mul, a, b => a * b
  | .add, a, b => a + b
  | .div, a, b => a.tdiv b
  | .sub, a, b => a - b
  | .max, a, b => Max.max a b
  | .min, a, b => Min.min a b
  | .pow, a, b => intPow a b

section Arithmetic

variable [Field F] [LinearOrder F]

/-- The binary operators on floating point values. -/
def Machine.binOpFP (M : Machine F) : BinOpKind → F → F → F
  | .mul, a, b => a * b
  | .add, a, b => a + b
  | .div, a, b => a / b
  | .sub, a, b => a - b
  | .max, a, b => Max.max a b
  | .min, a, b => Min.min a b
  | .pow, a, b => M.pow a b

/-- The binary operators; operands of different kinds have no meaning. -/
def Machine.binOp (M : Machine F) (kind : BinOpKind) : Scalar F → Scalar F → Scalar F
  | .idx a, .idx b => .idx (kind.onInt a b)
  | .flt a, .flt b => .flt (M.binOpFP kind a b)
  | _, _ => .idx 0

/-- The unary operators; of these only the absolute value is defined on indices. -/
def Machine.unOp (M : Machine F) : UnaryOpKind → Scalar F → Scalar F
  | .exp, .flt a => .flt (M.exp a)
  | .log, .flt a => .flt (M.log a)
  | .sqrt, .flt a => .flt (M.sqrt a)
  | .abs, .flt a => .flt |a|
  | .abs, .idx a => .idx |a|
  | _, .idx _ => .idx 0

theorem Machine.binOp_hasKind (M : Machine F) (kind : BinOpKind) {elem : ElemKind}
    {a b : Scalar F} (typedA : a.HasKind elem) (typedB : b.HasKind elem) :
    (M.binOp kind a b).HasKind elem := by
  cases elem <;> cases a <;> cases b <;> trivial

theorem Machine.unOp_hasKind (M : Machine F) (kind : UnaryOpKind) {elem : ElemKind}
    {a : Scalar F} (typed : a.HasKind elem) : (M.unOp kind a).HasKind elem := by
  cases elem <;> cases a <;> cases kind <;> trivial

/-- The operators that `isCommutative` names commute, whatever the kinds of the lanes. -/
theorem Machine.binOp_comm (M : Machine F) {kind : BinOpKind} (commutative : kind.isCommutative = true)
    (a b : Scalar F) : M.binOp kind a b = M.binOp kind b a := by
  cases kind with
  | mul => cases a <;> cases b <;> simp [Machine.binOp, BinOpKind.onInt, Machine.binOpFP, mul_comm]
  | add => cases a <;> cases b <;> simp [Machine.binOp, BinOpKind.onInt, Machine.binOpFP, add_comm]
  | max => cases a <;> cases b <;> simp [Machine.binOp, BinOpKind.onInt, Machine.binOpFP, max_comm]
  | min => cases a <;> cases b <;> simp [Machine.binOp, BinOpKind.onInt, Machine.binOpFP, min_comm]
  | div => cases commutative
  | sub => cases commutative
  | pow => cases commutative

end Arithmetic

/-! ## Cells -/

/-- The cell `lane` places after the cell at the given subscripts, along the last
dimension. -/
def cellAt : List Int → Nat → List Int
  | [], _ => []
  | [i], lane => [i + lane]
  | i :: j :: rest, lane => i :: cellAt (j :: rest) lane

@[simp] theorem cellAt_zero (subs : List Int) : cellAt subs 0 = subs := by
  induction subs with
  | nil => rfl
  | cons i rest ih =>
    cases rest with
    | nil => simp [cellAt]
    | cons j rest => simp [cellAt, ih]

theorem cellAt_append_singleton (init : List Int) (i : Int) (lane : Nat) :
    cellAt (init ++ [i]) lane = init ++ [i + lane] := by
  induction init with
  | nil => rfl
  | cons j rest ih =>
    cases rest with
    | nil => simp [cellAt]
    | cons k rest => simpa [cellAt] using ih

theorem cellAt_injective {subs : List Int} (nonempty : subs ≠ []) {lane lane' : Nat}
    (same : cellAt subs lane = cellAt subs lane') : lane = lane' := by
  obtain ⟨init, last, rfl⟩ := List.eq_nil_or_concat' subs |>.resolve_left nonempty
  simp only [cellAt_append_singleton, List.append_cancel_left_eq, List.cons.injEq, and_true] at same
  omega

/-- The lane of a vector access at `subs` that touches `cell`, if one does. -/
def laneOf (subs : List Int) (width : Nat) (cell : List Int) : Option Nat :=
  (List.range width).find? fun lane => cell = cellAt subs lane

theorem laneOf_eq_some {subs cell : List Int} {width lane : Nat}
    (found : laneOf subs width cell = some lane) : lane < width ∧ cell = cellAt subs lane := by
  refine ⟨List.mem_range.mp (List.mem_of_find?_eq_some found), ?_⟩
  simpa using List.find?_some found

theorem laneOf_eq_none {subs cell : List Int} {width : Nat} :
    laneOf subs width cell = none ↔ ∀ lane < width, cell ≠ cellAt subs lane := by
  simp [laneOf, List.find?_eq_none]

theorem laneOf_one (subs cell : List Int) :
    laneOf subs 1 cell = if cell = subs then some 0 else none := by
  simp [laneOf, eq_comm]

/-- Writes the lanes of a value to consecutive cells. -/
def State.writeLanes (st : State F) (arg : ArgId) (subs : List Int) (width : Nat)
    (value : Nat → Scalar F) : State F :=
  { st with
    bufs := fun buf cell =>
      if buf = arg then
        match laneOf subs width cell with
        | some lane => value lane
        | none => st.bufs buf cell
      else st.bufs buf cell }

theorem laneOf_succ {subs : List Int} (nonempty : subs ≠ []) (width : Nat) (cell : List Int) :
    laneOf subs (width + 1) cell =
      if cell = cellAt subs width then some width else laneOf subs width cell := by
  simp only [laneOf, List.range_succ, List.find?_append]
  split
  next here =>
    have earlier : laneOf subs width cell = none := by
      rw [laneOf_eq_none]
      intro lane below same
      have := cellAt_injective nonempty (here.symm.trans same)
      omega
    rw [laneOf] at earlier
    rw [earlier]
    simp [here]
  next elsewhere => simp [elsewhere]

theorem State.writeLanes_congr {st : State F} {arg : ArgId} {subs : List Int} {width : Nat}
    {value value' : Nat → Scalar F} (same : ∀ lane < width, value lane = value' lane) :
    st.writeLanes arg subs width value = st.writeLanes arg subs width value' := by
  simp only [State.writeLanes, State.mk.injEq, and_self, and_true]
  funext buf cell
  split
  · split
    next lane found => exact same lane (laneOf_eq_some found).1
    next => rfl
  · rfl

theorem State.writeLanes_succ {st : State F} {arg : ArgId} {subs : List Int} (nonempty : subs ≠ [])
    (width : Nat) (value next : Nat → Scalar F) (same : next 0 = value width) :
    (st.writeLanes arg subs width value).writeLanes arg (cellAt subs width) 1 next =
      st.writeLanes arg subs (width + 1) value := by
  simp only [State.writeLanes, State.mk.injEq, and_self, and_true, laneOf_succ nonempty,
    laneOf_one]
  funext buf cell
  by_cases here : buf = arg
  · by_cases last : cell = cellAt subs width
    · simp [here, last, same]
    · simp [here, last]
  · simp [here]

theorem State.writeLanes_bufs_next {st : State F} {arg : ArgId} {subs : List Int}
    (nonempty : subs ≠ []) {width lane : Nat} (after : width ≤ lane) (value : Nat → Scalar F) :
    (st.writeLanes arg subs width value).bufs arg (cellAt subs lane) =
      st.bufs arg (cellAt subs lane) := by
  have untouched : laneOf subs width (cellAt subs lane) = none := by
    rw [laneOf_eq_none]
    intro other below same
    have := cellAt_injective nonempty same
    omega
  simp [State.writeLanes, untouched]

def State.writeLocal (st : State F) (var : VarId) (value : Nat → Scalar F) : State F :=
  { st with locals := Function.update st.locals var value }

def State.record (st : State F) (call : CallRecord F) : State F :=
  { st with calls := st.calls ++ [call] }

@[simp] theorem State.writeLanes_locals (st : State F) (arg : ArgId) (subs : List Int)
    (width : Nat) (value : Nat → Scalar F) :
    (st.writeLanes arg subs width value).locals = st.locals := rfl

@[simp] theorem State.writeLanes_calls (st : State F) (arg : ArgId) (subs : List Int)
    (width : Nat) (value : Nat → Scalar F) :
    (st.writeLanes arg subs width value).calls = st.calls := rfl

@[simp] theorem State.writeLocal_bufs (st : State F) (var : VarId) (value : Nat → Scalar F) :
    (st.writeLocal var value).bufs = st.bufs := rfl

@[simp] theorem State.writeLocal_calls (st : State F) (var : VarId) (value : Nat → Scalar F) :
    (st.writeLocal var value).calls = st.calls := rfl

@[simp] theorem State.record_bufs (st : State F) (call : CallRecord F) :
    (st.record call).bufs = st.bufs := rfl

@[simp] theorem State.record_locals (st : State F) (call : CallRecord F) :
    (st.record call).locals = st.locals := rfl

end Bistra

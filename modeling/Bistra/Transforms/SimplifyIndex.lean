import Mathlib.Algebra.Order.Field.Rat
import Bistra.Transforms.SimplifyExpr

/-! # Simplification of index expressions

`simplifyExpr` on the expressions that addresses are made of, with the arithmetic of `int64_t`: a
value that does not fit is undefined, like a quotient by zero.
-/

namespace Bistra

variable {F : Type}

/-- The result of an operation on `int64_t`. -/
def checkInt64 (n : Int) : Option Int := if -2 ^ 63 ≤ n ∧ n < 2 ^ 63 then some n else none

/-- The expressions of constants, loop indices and operators other than `Pow`.  The constructor of
`BinaryExpr` asserts that the operands have the same type. -/
def Expr.IsIndexArith : Expr F → Prop
  | .const _ => True
  | .index _ type => type.isIndexTy = true
  | .binary kind lhs rhs =>
    kind ≠ .pow ∧ lhs.getType = rhs.getType ∧ lhs.IsIndexArith ∧ rhs.IsIndexArith
  | _ => False

/-- The value of an index expression in a lane; `none` when a divisor is zero or a value leaves
`int64_t`. -/
def Expr.evalInt64 (env : Env) (lane : Nat) : Expr F → Option Int
  | .const val => checkInt64 val
  | .index loop type => checkInt64 (env loop + if type.isVector then lane else 0)
  | .binary kind lhs rhs =>
    (lhs.evalInt64 env lane).bind fun a =>
      (rhs.evalInt64 env lane).bind fun b =>
        if kind = .div ∧ b = 0 then none else checkInt64 (kind.onInt a b)
  | _ => none

theorem checkInt64_eq_some {n v : Int} :
    checkInt64 n = some v ↔ (-2 ^ 63 ≤ n ∧ n < 2 ^ 63) ∧ n = v := by
  rw [checkInt64, Option.ite_none_right_eq_some, Option.some.injEq]

theorem BinOpKind.foldInt_of_ne [StdPow] {kind : BinOpKind} {a b : Int} (noPow : kind ≠ .pow)
    (defined : ¬ (kind = .div ∧ b = 0)) : kind.foldInt a b = some (kind.onInt a b) := by
  rw [BinOpKind.foldInt, if_neg defined, BinOpKind.onConst_of_ne noPow]

section Value

variable {env : Env} {lane : Nat}

theorem Expr.evalInt64_binary {kind : BinOpKind} {lhs rhs : Expr F} {v : Int} :
    (Expr.binary kind lhs rhs).evalInt64 env lane = some v ↔
      ∃ a b, lhs.evalInt64 env lane = some a ∧ rhs.evalInt64 env lane = some b ∧
        ¬ (kind = .div ∧ b = 0) ∧ kind.onInt a b = v ∧ -2 ^ 63 ≤ v ∧ v < 2 ^ 63 := by
  simp only [Expr.evalInt64, Option.bind_eq_some_iff, Option.ite_none_left_eq_some,
    checkInt64_eq_some]
  constructor
  · rintro ⟨a, left, b, right, defined, fits, rfl⟩
    exact ⟨a, b, left, right, defined, rfl, fits⟩
  · rintro ⟨a, b, left, right, defined, rfl, fits⟩
    exact ⟨a, left, b, right, defined, fits, rfl⟩

theorem Expr.evalInt64_fits {e : Expr F} {v : Int} (value : e.evalInt64 env lane = some v) :
    -2 ^ 63 ≤ v ∧ v < 2 ^ 63 := by
  cases e with
  | const | index =>
    obtain ⟨fits, rfl⟩ := checkInt64_eq_some.mp value
    exact fits
  | binary kind lhs rhs =>
    obtain ⟨a, b, -, -, -, -, fits⟩ := Expr.evalInt64_binary.mp value
    exact fits
  | constFP | constString | unary | broadcast | gep | load | loadLocal => cases value

/-- A value in `int64_t` is the value of the expression. -/
theorem Expr.eval_of_evalInt64 [Field F] [LinearOrder F] {M : Machine F} {st : State F} {e : Expr F}
    {v : Int} (value : e.evalInt64 env lane = some v) : e.eval M st env lane = .idx v := by
  induction e using Expr.inductTree generalizing v with
  | const | index =>
    obtain ⟨-, rfl⟩ := checkInt64_eq_some.mp value
    rfl
  | binary kind lhs rhs ihL ihR =>
    obtain ⟨a, b, left, right, -, same, -⟩ := Expr.evalInt64_binary.mp value
    rw [Expr.eval, ihL left, ihR right, ← same]
    rfl
  | constFP | constString | unary | broadcast | gep | load | loadLocal => cases value

end Value

section Fold

variable [Field F] [LinearOrder F] {env : Env} {lane : Nat}

theorem Expr.eq_of_isZero {e : Expr F} (arith : e.IsIndexArith) (zero : e.isZero = true) :
    e = .const 0 := by
  cases e with
  | const val => rw [of_decide_eq_true zero]
  | constFP => cases arith
  | _ => cases zero

theorem Expr.eq_of_isOne {e : Expr F} (arith : e.IsIndexArith) (one : e.isOne = true) :
    e = .const 1 := by
  cases e with
  | const val => rw [of_decide_eq_true one]
  | constFP => cases arith
  | _ => cases one

theorem BinOpKind.identity_evalInt64 {kind : BinOpKind} {SL SR e : Expr F} {v : Int}
    (left : SL.IsIndexArith) (right : SR.IsIndexArith)
    (value : (Expr.binary kind SL SR).evalInt64 env lane = some v)
    (identity : kind.identity SL SR = some e) : e.evalInt64 env lane = some v := by
  obtain ⟨a, b, valueL, valueR, defined, result, -⟩ := Expr.evalInt64_binary.mp value
  -- A constant operand has the value of the constant.
  have constant : ∀ {n w : Int}, (Expr.const n : Expr F).evalInt64 env lane = some w → w = n :=
    fun known => (checkInt64_eq_some.mp known).2.symm
  cases kind with
  | mul =>
    simp only [BinOpKind.identity] at identity
    split_ifs at identity with zeroL zeroR oneL oneR
    · cases identity
      cases Expr.eq_of_isZero left zeroL
      cases constant valueL
      rw [valueL, ← result, BinOpKind.onInt, Int.zero_mul]
    · cases identity
      cases Expr.eq_of_isZero right zeroR
      cases constant valueR
      rw [valueR, ← result, BinOpKind.onInt, Int.mul_zero]
    · cases identity
      cases Expr.eq_of_isOne left oneL
      cases constant valueL
      rw [valueR, ← result, BinOpKind.onInt, Int.one_mul]
    · cases identity
      cases Expr.eq_of_isOne right oneR
      cases constant valueR
      rw [valueL, ← result, BinOpKind.onInt, Int.mul_one]
  | add =>
    simp only [BinOpKind.identity] at identity
    split_ifs at identity with zeroL zeroR
    · cases identity
      cases Expr.eq_of_isZero left zeroL
      cases constant valueL
      rw [valueR, ← result, BinOpKind.onInt, Int.zero_add]
    · cases identity
      cases Expr.eq_of_isZero right zeroR
      cases constant valueR
      rw [valueL, ← result, BinOpKind.onInt, Int.add_zero]
  | div =>
    simp only [BinOpKind.identity] at identity
    split_ifs at identity with zeroL oneR
    · cases identity
      cases Expr.eq_of_isZero left zeroL
      cases constant valueL
      rw [valueL, ← result, BinOpKind.onInt, Int.zero_tdiv]
    · cases identity
      cases Expr.eq_of_isOne right oneR
      cases constant valueR
      rw [valueL, ← result, BinOpKind.onInt, Int.tdiv_one]
  | sub | min | max | pow => cases identity

/-- `e` may be replaced with `N` where `e` has the value `v`. -/
structure Expr.KeepsInt64 (env : Env) (lane : Nat) (v : Int) (e N : Expr F) : Prop where
  arith : N.IsIndexArith
  type : N.getType = e.getType
  value : N.evalInt64 env lane = some v

/-- The end of `simplifyExpr` on operands that are simplified. -/
theorem BinOpKind.simplify_evalInt64 {kind : BinOpKind} {SL SR : Expr F} {v : Int}
    (arith : (Expr.binary kind SL SR).IsIndexArith)
    (value : (Expr.binary kind SL SR).evalInt64 env lane = some v) :
    ∃ N changed, kind.simplify SL SR = some (N, changed) ∧
      Expr.KeepsInt64 env lane v (.binary kind SL SR) N := by
  obtain ⟨noPow, types, left, right⟩ := id arith
  rw [BinOpKind.simplify.eq_def]
  split
  next a b =>
    obtain ⟨a', b', valueL, valueR, defined, rfl, fits⟩ := Expr.evalInt64_binary.mp value
    obtain ⟨-, rfl⟩ := checkInt64_eq_some.mp valueL
    obtain ⟨-, rfl⟩ := checkInt64_eq_some.mp valueR
    refine ⟨.const (kind.onInt a b), true, ?_, trivial, rfl, checkInt64_eq_some.mpr ⟨fits, rfl⟩⟩
    rw [BinOpKind.foldInt_of_ne noPow defined]
    rfl
  next => cases left
  next =>
    split
    next e identity =>
      have same := BinOpKind.identity_evalInt64 left right value identity
      cases BinOpKind.size_identity identity with
      | inl here => exact ⟨e, true, rfl, here ▸ left, here ▸ rfl, same⟩
      | inr here => exact ⟨e, true, rfl, here ▸ right, here ▸ types.symm, same⟩
    next => exact ⟨_, false, rfl, arith, rfl, value⟩

/-- **Index simplification.**  Where an index expression has a value, it is simplified, no folded
constant leaves `int64_t`, and the result has the type and the value of the expression. -/
theorem Expr.simplifyExpr_keepsInt64 {e : Expr F} {v : Int} (arith : e.IsIndexArith)
    (value : e.evalInt64 env lane = some v) :
    ∃ N changed, e.simplifyExpr = some (N, changed) ∧ e.foldsInt64 = true ∧
      Expr.KeepsInt64 env lane v e N := by
  induction e using Expr.inductTree generalizing v with
  | const | index => exact ⟨_, false, rfl, rfl, arith, rfl, value⟩
  | binary kind lhs rhs ihL ihR =>
    obtain ⟨noPow, types, arithL, arithR⟩ := arith
    obtain ⟨a, b, valueL, valueR, defined, result, fits⟩ := Expr.evalInt64_binary.mp value
    obtain ⟨SL, changedL, simplifiedL, foldsL, keepsL⟩ := ihL arithL valueL
    obtain ⟨SR, changedR, simplifiedR, foldsR, keepsR⟩ := ihR arithR valueR
    have sameTypes : SL.getType = SR.getType := by rw [keepsL.type, keepsR.type, types]
    -- Constants have values that fit, so what is computed from them is the value of the node.
    have folds : (Expr.binary kind lhs rhs).foldsInt64 = true := by
      rw [Expr.foldsInt64, foldsL, foldsR, simplifiedL, simplifiedR]
      cases SL with
      | const c =>
        cases SR with
        | const d =>
          obtain ⟨-, rfl⟩ := checkInt64_eq_some.mp keepsL.value
          obtain ⟨-, rfl⟩ := checkInt64_eq_some.mp keepsR.value
          simpa [noPow, BinOpKind.foldInt_of_ne noPow defined, result] using fits
        | _ => rfl
      | _ => rfl
    simp only [Expr.simplifyExpr, simplifiedL, simplifiedR]
    split
    -- Only commutative operators swap their operands.
    next swap =>
      simp only [Bool.and_eq_true] at swap
      have commuted : kind.onInt b a = v := by
        rw [← result]
        cases kind with
        | mul => exact Int.mul_comm b a
        | add => exact Int.add_comm b a
        | max => exact max_comm b a
        | min => exact min_comm b a
        | div | sub | pow => cases swap.2
      have notDiv : ¬ (kind = .div ∧ a = 0) := by
        intro quotient
        rw [quotient.1] at swap
        cases swap.2
      obtain ⟨N, changed, simplified, keeps⟩ := BinOpKind.simplify_evalInt64
        (show (Expr.binary kind SR SL).IsIndexArith from
          ⟨noPow, sameTypes.symm, keepsR.arith, keepsL.arith⟩)
        (Expr.evalInt64_binary.mpr ⟨b, a, keepsR.value, keepsL.value, notDiv, commuted, fits⟩)
      refine ⟨N, changed, simplified, folds, keeps.arith, ?_, keeps.value⟩
      exact keeps.type.trans (sameTypes.symm.trans keepsL.type)
    next =>
      obtain ⟨N, changed, simplified, keeps⟩ := BinOpKind.simplify_evalInt64
        (show (Expr.binary kind SL SR).IsIndexArith from
          ⟨noPow, sameTypes, keepsL.arith, keepsR.arith⟩)
        (Expr.evalInt64_binary.mpr ⟨a, b, keepsL.value, keepsR.value, defined, result, fits⟩)
      exact ⟨N, changed, simplified, folds, keeps.arith, keeps.type.trans keepsL.type, keeps.value⟩
  | constFP | constString | unary | broadcast | gep | load | loadLocal => cases value

end Fold

/-- Simplifying `(0 + i) * (8 / 2)` where `i` is 3. -/
theorem Expr.simplifyExpr_keepsInt64_scaled :
    ∃ N changed, (Expr.binary .mul (.binary .add (.const 0) (.indexOf 0))
        (.binary .div (.const 8) (.const 2)) : Expr ℚ).simplifyExpr = some (N, changed) ∧
      (Expr.binary .mul (.binary .add (.const 0) (.indexOf 0))
        (.binary .div (.const 8) (.const 2)) : Expr ℚ).foldsInt64 = true ∧
      Expr.KeepsInt64 (fun _ => 3) 0 12 (.binary .mul (.binary .add (.const 0) (.indexOf 0))
        (.binary .div (.const 8) (.const 2))) N :=
  Expr.simplifyExpr_keepsInt64 ⟨by decide, rfl, ⟨by decide, rfl, trivial, rfl⟩,
    by decide, rfl, trivial, trivial⟩ (by decide)

end Bistra

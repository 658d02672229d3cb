import Bistra.Analysis.Range

/-! # Simplification of expressions

`simplifyExpr` and the visitor `ExprSimplify` of `Simplify.cpp`.  A result `none` is a crash,
and a flag tells whether the source reports a change.
-/

namespace Bistra

variable {F : Type}

/-! ## Powers of constants -/

/-- The `double` nearest to an integer: 53 significant bits, ties to even. -/
def toDouble (n : Int) : Int :=
  let ulp := 2 ^ (n.natAbs.log2 + 1 - 53)
  let mantissa := n.natAbs / ulp
  let rest := n.natAbs % ulp
  let up := ulp < 2 * rest || (2 * rest = ulp && mantissa % 2 = 1)
  n.sign * ((if up then mantissa + 1 else mantissa) * ulp : Nat)

theorem toDouble_of_lt {n : Int} (small : n.natAbs < 2 ^ 53) : toDouble n = n := by
  have bits : n.natAbs.log2 + 1 - 53 = 0 := by
    cases Nat.eq_zero_or_pos n.natAbs with
    | inl zero => simp [zero]
    | inr positive =>
      have := (Nat.log2_lt (by omega)).mpr small
      omega
  simp only [toDouble, bits, pow_zero, Nat.div_one, Nat.mod_one]
  simpa using Int.sign_mul_natAbs n

/-- `std::pow` of two integers, which are converted to `double`; the power is rounded. -/
def stdPow (base exponent : Int) : Int :=
  toDouble (intPow (toDouble base) (toDouble exponent))

example : stdPow 3 35 = 50031545098999704 ∧ intPow 3 35 = 50031545098999707 := by decide

/-- Below `2 ^ 53` nothing is rounded. -/
theorem stdPow_of_lt {base exponent : Int} (smallB : base.natAbs < 2 ^ 53)
    (smallE : exponent.natAbs < 2 ^ 53) (small : (intPow base exponent).natAbs < 2 ^ 53) :
    stdPow base exponent = intPow base exponent := by
  rw [stdPow, toDouble_of_lt smallB, toDouble_of_lt smallE, toDouble_of_lt small]

/-- The `std::pow` of the C++ library, on integers. -/
class StdPow where
  pow : Int → Int → Int

instance StdPow.double : StdPow := ⟨stdPow⟩

def BinOpKind.onConst [StdPow] : BinOpKind → Int → Int → Int
  | .pow, a, b => StdPow.pow a b
  | kind, a, b => kind.onInt a b

theorem BinOpKind.onConst_of_ne [StdPow] {kind : BinOpKind} (noPow : kind ≠ .pow) (a b : Int) :
    kind.onConst a b = kind.onInt a b := by
  cases kind with
  | pow => exact absurd rfl noPow
  | _ => rfl

/-! ## `simplifyExpr` -/

def Expr.isConst : Expr F → Bool
  | .const _ | .constFP _ => true
  | _ => false

section Fold

variable [Field F] [LinearOrder F]

def Expr.isZero : Expr F → Bool
  | .const val => val = 0
  | .constFP val => val = 0
  | _ => false

def Expr.isOne : Expr F → Bool
  | .const val => val = 1
  | .constFP val => val = 1
  | _ => false

/-- The value of an operator on two integer constants. -/
def BinOpKind.foldInt [StdPow] (kind : BinOpKind) (a b : Int) : Option Int :=
  if kind = .div ∧ b = 0 then none else some (kind.onConst a b)

/-- The value of an operator on two FP constants.  The cases of `Min`, `Max` and `Pow` read the
integer constants, which are null pointers there. -/
def BinOpKind.foldFP (kind : BinOpKind) (a b : F) : Option F :=
  match kind with
  | .mul => some (a * b)
  | .add => some (a + b)
  | .div => some (a / b)
  | .sub => some (a - b)
  | .min | .max | .pow => none

/-- The arithmetic identities: an operand that the operation is equal to. -/
def BinOpKind.identity (kind : BinOpKind) (SL SR : Expr F) : Option (Expr F) :=
  match kind with
  | .mul =>
    if SL.isZero then some SL
    else if SR.isZero then some SR
    else if SL.isOne then some SR
    else if SR.isOne then some SL
    else none
  | .add => if SL.isZero then some SR else if SR.isZero then some SL else none
  | .div => if SL.isZero then some SL else if SR.isOne then some SL else none
  | .sub | .min | .max | .pow => none

variable [StdPow]

/-- The end of `simplifyExpr`, with the operands in their final places. -/
def BinOpKind.simplify (kind : BinOpKind) (SL SR : Expr F) : Option (Expr F × Bool) :=
  match SL, SR with
  | .const a, .const b => (kind.foldInt a b).map fun val => (.const val, true)
  | .constFP a, .constFP b => (kind.foldFP a b).map fun val => (.constFP val, true)
  | SL, SR =>
    match kind.identity SL SR with
    | some e => some (e, true)
    | none => some (.binary kind SL SR, false)

/-- `simplifyExpr`; the flag tells whether the result is another node. -/
def Expr.simplifyExpr : Expr F → Option (Expr F × Bool)
  | .binary kind lhs rhs =>
    match lhs.simplifyExpr, rhs.simplifyExpr with
    | some (SL, _), some (SR, _) =>
      -- Move constants to the RHS.
      if !SR.isConst && SL.isConst && kind.isCommutative then kind.simplify SR SL
      else kind.simplify SL SR
    | _, _ => none
  | e => some (e, false)

/-- The integer constants that `simplifyExpr` computes for the expression are defined and fit into
`int64_t`. -/
def Expr.foldsInt64 : Expr F → Bool
  | .binary kind lhs rhs => lhs.foldsInt64 && rhs.foldsInt64 &&
    match lhs.simplifyExpr, rhs.simplifyExpr with
    | some (.const a, _), some (.const b, _) =>
      !(kind = .pow && a = 0 && b < 0) &&
        (kind.foldInt a b).all fun val => -2 ^ 63 ≤ val && val < 2 ^ 63
    | _, _ => true
  | _ => true

end Fold

mutual

def Expr.size : Expr F → Nat
  | .binary _ lhs rhs => lhs.size + rhs.size + 1
  | .unary _ val => val.size + 1
  | .broadcast val _ => val.size + 1
  | .gep _ indices => Expr.sizeList indices + 1
  | .load _ indices _ => Expr.sizeList indices + 1
  | _ => 1

def Expr.sizeList : List (Expr F) → Nat
  | [] => 0
  | e :: es => e.size + Expr.sizeList es + 1

end

theorem Expr.size_pos (e : Expr F) : 0 < e.size := by
  cases e <;> simp [Expr.size]

theorem Expr.size_lt_sizeList {e : Expr F} {es : List (Expr F)} (mem : e ∈ es) :
    e.size < Expr.sizeList es := by
  induction es with
  | nil => cases mem
  | cons head tail ih =>
    simp only [Expr.sizeList]
    cases List.mem_cons.mp mem with
    | inl same => subst same; omega
    | inr later => have := ih later; omega

/-- The operator computes what it means: `std::pow` is not always exact. -/
def BinOpKind.Exact [StdPow] (kind : BinOpKind) : Expr F → Expr F → Prop
  | .const a, .const b => kind.onConst a b = kind.onInt a b
  | _, _ => True

theorem BinOpKind.exact_of_forall [StdPow] (exactly : ∀ a b, StdPow.pow a b = intPow a b)
    (kind : BinOpKind) (SL SR : Expr F) : kind.Exact SL SR := by
  unfold BinOpKind.Exact
  split
  next a b =>
    cases kind with
    | pow => exact exactly a b
    | _ => rfl
  next => trivial

theorem BinOpKind.Exact.of_not_const [StdPow] {kind : BinOpKind} {SL SR : Expr F}
    (open_ : SL.isConst = false) : kind.Exact SL SR := by
  cases SL with
  | const | constFP => cases open_
  | _ => trivial

section Fold

variable [Field F] [LinearOrder F]

theorem BinOpKind.size_identity {kind : BinOpKind} {SL SR e : Expr F}
    (identity : kind.identity SL SR = some e) : e = SL ∨ e = SR := by
  cases kind with
  | mul | add | div =>
    simp only [BinOpKind.identity] at identity
    split_ifs at identity <;> cases identity <;> simp
  | sub | max | min | pow => cases identity

section Folding

variable [StdPow]

/-- What `simplifyExpr` makes of a node: a constant, one of the operands, or the node itself. -/
theorem BinOpKind.simplify_cases {kind : BinOpKind} {SL SR N : Expr F} {changed : Bool}
    (simplified : kind.simplify SL SR = some (N, changed)) :
    (∃ val, N = .const val) ∨ (∃ val, N = .constFP val) ∨ N = SL ∨ N = SR ∨
      N = .binary kind SL SR ∧ changed = false := by
  simp only [BinOpKind.simplify] at simplified
  split at simplified
  · obtain ⟨val, -, same⟩ := Option.map_eq_some_iff.mp simplified
    cases same
    exact .inl ⟨val, rfl⟩
  · obtain ⟨val, -, same⟩ := Option.map_eq_some_iff.mp simplified
    cases same
    exact .inr (.inl ⟨val, rfl⟩)
  · split at simplified
    next e identity =>
      cases simplified
      cases BinOpKind.size_identity identity with
      | inl left => exact .inr (.inr (.inl left))
      | inr right => exact .inr (.inr (.inr (.inl right)))
    next =>
      cases simplified
      exact .inr (.inr (.inr (.inr ⟨rfl, rfl⟩)))

/-- A property that constants have, and a node exactly if its operands have it, is kept. -/
theorem Expr.simplifyExpr_keeps {P : Expr F → Prop} (const : ∀ val, P (.const val))
    (constFP : ∀ val, P (.constFP val))
    (binary : ∀ {kind lhs rhs}, P (.binary kind lhs rhs) ↔ P lhs ∧ P rhs) {e N : Expr F}
    {changed : Bool} (holds : P e) (simplified : e.simplifyExpr = some (N, changed)) : P N := by
  have remains : ∀ {kind : BinOpKind} {SL SR N : Expr F} {changed : Bool}, P SL → P SR →
      kind.simplify SL SR = some (N, changed) → P N := by
    intro kind SL SR N changed left right simplified
    obtain ⟨val, rfl⟩ | ⟨val, rfl⟩ | rfl | rfl | ⟨rfl, -⟩ := BinOpKind.simplify_cases simplified
    · exact const val
    · exact constFP val
    · exact left
    · exact right
    · exact binary.mpr ⟨left, right⟩
  induction e using Expr.inductTree generalizing N changed with
  | binary kind lhs rhs ihL ihR =>
    obtain ⟨holdsL, holdsR⟩ := binary.mp holds
    simp only [Expr.simplifyExpr] at simplified
    split at simplified
    next SL _ SR _ simplifiedL simplifiedR =>
      have left := ihL holdsL simplifiedL
      have right := ihR holdsR simplifiedR
      -- The operands may change places first.
      split at simplified
      · exact remains right left simplified
      · exact remains left right simplified
    next => cases simplified
  | index | const | constFP | constString | unary | broadcast | gep | load | loadLocal =>
    cases simplified
    exact holds

/-- Simplification produces no nodes, and another node is a smaller one. -/
theorem BinOpKind.size_simplify {kind : BinOpKind} {SL SR N : Expr F} {changed : Bool}
    (simplified : kind.simplify SL SR = some (N, changed)) :
    N.size ≤ SL.size + SR.size + 1 ∧ (changed = true → N.size < SL.size + SR.size + 1) := by
  have left := SL.size_pos
  have right := SR.size_pos
  obtain ⟨val, rfl⟩ | ⟨val, rfl⟩ | rfl | rfl | ⟨rfl, rfl⟩ := BinOpKind.simplify_cases simplified
  · simp only [Expr.size]; omega
  · simp only [Expr.size]; omega
  · omega
  · omega
  · simp [Expr.size]

theorem Expr.size_simplifyExpr {e N : Expr F} {changed : Bool}
    (simplified : e.simplifyExpr = some (N, changed)) :
    N.size ≤ e.size ∧ (changed = true → N.size < e.size) := by
  induction e using Expr.inductTree generalizing N changed with
  | binary kind lhs rhs ihL ihR =>
    simp only [Expr.simplifyExpr] at simplified
    split at simplified
    next SL _ SR _ simplifiedL simplifiedR =>
      have left := (ihL simplifiedL).1
      have right := (ihR simplifiedR).1
      simp only [Expr.size]
      split at simplified
      · have := BinOpKind.size_simplify simplified
        exact ⟨by omega, fun same => by have := this.2 same; omega⟩
      · have := BinOpKind.size_simplify simplified
        exact ⟨by omega, fun same => by have := this.2 same; omega⟩
    next => cases simplified
  | index | const | constFP | constString | unary | broadcast | gep | load | loadLocal =>
    cases simplified
    simp

mutual

/-- `ExprSimplify` on an expression: the subscripts of its loads are processed, outer loads
first. -/
def Expr.enterLoads : Expr F → Option (Expr F × Bool)
  | .binary kind lhs rhs =>
    match lhs.enterLoads, rhs.enterLoads with
    | some (lhs, changedL), some (rhs, changedR) => some (.binary kind lhs rhs, changedL || changedR)
    | _, _ => none
  | .unary kind val => val.enterLoads.map fun (val, changed) => (.unary kind val, changed)
  | .broadcast val vf => val.enterLoads.map fun (val, changed) => (.broadcast val vf, changed)
  | .gep arg indices =>
    (Expr.enterLoadsList indices).map fun (indices, changed) => (.gep arg indices, changed)
  | .load arg indices type =>
    (Expr.processList indices).map fun (indices, changed) => (.load arg indices type, changed)
  | e => some (e, false)
termination_by e => (e.size, 0)
decreasing_by all_goals simp only [Expr.size]; omega

def Expr.enterLoadsList : List (Expr F) → Option (List (Expr F) × Bool)
  | [] => some ([], false)
  | e :: es =>
    match e.enterLoads, Expr.enterLoadsList es with
    | some (e, changed), some (es, changedRest) => some (e :: es, changed || changedRest)
    | _, _ => none
termination_by es => (Expr.sizeList es, 0)
decreasing_by all_goals simp only [Expr.sizeList]; omega

/-- `process` on the handle of an expression, and the visit of the expression it leaves. -/
def Expr.process (e : Expr F) : Option (Expr F × Bool) :=
  match _simplified : e.simplifyExpr with
  | none => none
  | some (N, changed) =>
    N.enterLoads.map fun (N, changedLoads) => (N, changed || changedLoads)
termination_by (e.size, 1)
decreasing_by
  have := (Expr.size_simplifyExpr (by assumption)).1
  omega

def Expr.processList : List (Expr F) → Option (List (Expr F) × Bool)
  | [] => some ([], false)
  | e :: es =>
    match e.process, Expr.processList es with
    | some (e, changed), some (es, changedRest) => some (e :: es, changed || changedRest)
    | _, _ => none
termination_by es => (Expr.sizeList es, 1)
decreasing_by all_goals simp only [Expr.sizeList]; omega

end

/-! ### The operators that are folded -/

mutual

/-- `R` holds of every operator in reach of `process`, with its simplified operands. -/
def Expr.Folds (R : BinOpKind → Expr F → Expr F → Prop) : Expr F → Prop
  | .binary kind lhs rhs => (lhs.Folds R ∧ rhs.Folds R) ∧
      ∀ SL SR, lhs.simplifyExpr = some SL → rhs.simplifyExpr = some SR → R kind SL.1 SR.1
  -- Below another node only the subscripts of loads are processed.
  | .unary _ val => val.LoadsFold R
  | .broadcast val _ => val.LoadsFold R
  | .gep _ indices => Expr.LoadsFoldList R indices
  | .load _ indices _ => Expr.FoldsList R indices
  | _ => True

def Expr.FoldsList (R : BinOpKind → Expr F → Expr F → Prop) : List (Expr F) → Prop
  | [] => True
  | e :: es => e.Folds R ∧ Expr.FoldsList R es

def Expr.LoadsFold (R : BinOpKind → Expr F → Expr F → Prop) : Expr F → Prop
  | .binary _ lhs rhs => lhs.LoadsFold R ∧ rhs.LoadsFold R
  | .unary _ val => val.LoadsFold R
  | .broadcast val _ => val.LoadsFold R
  | .gep _ indices => Expr.LoadsFoldList R indices
  | .load _ indices _ => Expr.FoldsList R indices
  | _ => True

def Expr.LoadsFoldList (R : BinOpKind → Expr F → Expr F → Prop) : List (Expr F) → Prop
  | [] => True
  | e :: es => e.LoadsFold R ∧ Expr.LoadsFoldList R es

end

section Operators

variable {R : BinOpKind → Expr F → Expr F → Prop}

theorem Expr.LoadsFoldList.mem {e : Expr F} {es : List (Expr F)}
    (folds : Expr.LoadsFoldList R es) (mem : e ∈ es) : e.LoadsFold R := by
  induction es with
  | nil => cases mem
  | cons head tail ih =>
    cases List.mem_cons.mp mem with
    | inl same => exact same ▸ folds.1
    | inr later => exact ih folds.2 later

theorem Expr.FoldsList.mem {e : Expr F} {es : List (Expr F)}
    (folds : Expr.FoldsList R es) (mem : e ∈ es) : e.Folds R := by
  induction es with
  | nil => cases mem
  | cons head tail ih =>
    cases List.mem_cons.mp mem with
    | inl same => exact same ▸ folds.1
    | inr later => exact ih folds.2 later

theorem Expr.foldsList_of {es : List (Expr F)} (each : ∀ e ∈ es, e.Folds R ∧ e.LoadsFold R) :
    Expr.FoldsList R es ∧ Expr.LoadsFoldList R es := by
  induction es with
  | nil => exact ⟨trivial, trivial⟩
  | cons e es ih =>
    rw [List.forall_mem_cons] at each
    exact ⟨⟨each.1.1, (ih each.2).1⟩, each.1.2, (ih each.2).2⟩

theorem Expr.folds_of_forall (all : ∀ kind SL SR, R kind SL SR) (e : Expr F) :
    e.Folds R ∧ e.LoadsFold R := by
  induction e using Expr.inductTree with
  | binary kind lhs rhs ihL ihR =>
    exact ⟨⟨⟨ihL.1, ihR.1⟩, fun SL SR _ _ => all kind SL.1 SR.1⟩, ihL.2, ihR.2⟩
  | unary kind val ih | broadcast val vf ih => exact ⟨ih.2, ih.2⟩
  | gep arg indices ih => exact ⟨(Expr.foldsList_of ih).2, (Expr.foldsList_of ih).2⟩
  | load arg indices type ih => exact ⟨(Expr.foldsList_of ih).1, (Expr.foldsList_of ih).1⟩
  | index | const | constFP | constString | loadLocal => exact ⟨trivial, trivial⟩

theorem BinOpKind.loadsFold_simplify {kind : BinOpKind} {SL SR N : Expr F} {changed : Bool}
    (simplified : kind.simplify SL SR = some (N, changed)) (left : SL.LoadsFold R)
    (right : SR.LoadsFold R) : N.LoadsFold R := by
  obtain ⟨val, rfl⟩ | ⟨val, rfl⟩ | rfl | rfl | ⟨rfl, -⟩ := BinOpKind.simplify_cases simplified
  · trivial
  · trivial
  · exact left
  · exact right
  · exact ⟨left, right⟩

theorem Expr.Folds.simplifyExpr {e N : Expr F} {changed : Bool} (folds : e.Folds R)
    (simplified : e.simplifyExpr = some (N, changed)) : N.LoadsFold R := by
  induction e using Expr.inductTree generalizing N changed with
  | binary kind lhs rhs ihL ihR =>
    simp only [Expr.simplifyExpr] at simplified
    split at simplified
    next SL _ SR _ simplifiedL simplifiedR =>
      have left := ihL folds.1.1 simplifiedL
      have right := ihR folds.1.2 simplifiedR
      split at simplified
      · exact BinOpKind.loadsFold_simplify simplified right left
      · exact BinOpKind.loadsFold_simplify simplified left right
    next => cases simplified
  | unary | broadcast | gep | load =>
    cases simplified
    exact folds
  | index | const | constFP | constString | loadLocal =>
    cases simplified
    trivial

end Operators

end Folding

/-! ## Soundness -/

/-- The expression `N` may take the place of the expression `e`. -/
structure Expr.Simplified (decls : Decls) (scope : List LoopId) (e N : Expr F) : Prop where
  type : N.getType = e.getType
  verify : N.verify decls scope = true
  eval : ∀ (M : Machine F) (st : State F) (env : Env), N.eval M st env = e.eval M st env

section Simplified

variable {decls : Decls} {scope : List LoopId}

theorem Expr.Simplified.refl {e : Expr F} (verified : e.verify decls scope = true) :
    Expr.Simplified decls scope e e :=
  ⟨rfl, verified, fun _ _ _ => rfl⟩

theorem Expr.Simplified.trans {e N N' : Expr F} (first : Expr.Simplified decls scope e N)
    (second : Expr.Simplified decls scope N N') : Expr.Simplified decls scope e N' :=
  ⟨second.type.trans first.type, second.verify,
    fun M st env => (second.eval M st env).trans (first.eval M st env)⟩

theorem Expr.Simplified.binary {kind : BinOpKind} {lhs rhs SL SR : Expr F}
    (verified : (Expr.binary kind lhs rhs).verify decls scope = true)
    (left : Expr.Simplified decls scope lhs SL) (right : Expr.Simplified decls scope rhs SR) :
    Expr.Simplified decls scope (.binary kind lhs rhs) (.binary kind SL SR) := by
  simp only [Expr.verify, Bool.and_eq_true, decide_eq_true_eq] at verified
  refine ⟨left.type, ?_, fun M st env => ?_⟩
  · simp only [Expr.verify, Bool.and_eq_true, decide_eq_true_eq]
    exact ⟨⟨by rw [left.type, right.type, verified.1.1], left.verify⟩, right.verify⟩
  · funext lane
    simp only [Expr.eval, left.eval, right.eval]

theorem Expr.Simplified.swap {kind : BinOpKind} {SL SR : Expr F}
    (commutative : kind.isCommutative = true)
    (verified : (Expr.binary kind SL SR).verify decls scope = true) :
    Expr.Simplified decls scope (.binary kind SL SR) (.binary kind SR SL) := by
  simp only [Expr.verify, Bool.and_eq_true, decide_eq_true_eq] at verified
  refine ⟨verified.1.1.symm, ?_, fun M st env => ?_⟩
  · simp only [Expr.verify, Bool.and_eq_true, decide_eq_true_eq]
    exact ⟨⟨verified.1.1.symm, verified.2⟩, verified.1.2⟩
  · funext lane
    exact Machine.binOp_comm M commutative _ _

/-! ### Arithmetic identities -/

/-- The number `n`, which is zero or one, as an element of a kind. -/
def Scalar.ofBit (kind : ElemKind) (n : Bool) : Scalar F :=
  if kind = .float32Ty then .flt (if n then 1 else 0) else .idx (if n then 1 else 0)

section Identities

variable {M : Machine F} {kind : ElemKind} {a : Scalar F}

theorem Machine.zero_mul (typed : a.HasKind kind) :
    M.binOp .mul (.ofBit kind false) a = .ofBit kind false := by
  cases kind <;> cases a <;> first
    | exact typed.elim
    | simp [Scalar.ofBit, Machine.binOp, BinOpKind.onInt, Machine.binOpFP]

theorem Machine.one_mul (typed : a.HasKind kind) : M.binOp .mul (.ofBit kind true) a = a := by
  cases kind <;> cases a <;> first
    | exact typed.elim
    | simp [Scalar.ofBit, Machine.binOp, BinOpKind.onInt, Machine.binOpFP]

theorem Machine.zero_add (typed : a.HasKind kind) : M.binOp .add (.ofBit kind false) a = a := by
  cases kind <;> cases a <;> first
    | exact typed.elim
    | simp [Scalar.ofBit, Machine.binOp, BinOpKind.onInt, Machine.binOpFP]

theorem Machine.zero_div (typed : a.HasKind kind) :
    M.binOp .div (.ofBit kind false) a = .ofBit kind false := by
  cases kind <;> cases a <;> first
    | exact typed.elim
    | simp [Scalar.ofBit, Machine.binOp, BinOpKind.onInt, Machine.binOpFP]

theorem Machine.div_one (typed : a.HasKind kind) : M.binOp .div a (.ofBit kind true) = a := by
  cases kind <;> cases a <;> first
    | exact typed.elim
    | simp [Scalar.ofBit, Machine.binOp, BinOpKind.onInt, Machine.binOpFP]

theorem Machine.mul_zero (typed : a.HasKind kind) :
    M.binOp .mul a (.ofBit kind false) = .ofBit kind false := by
  rw [Machine.binOp_comm M rfl, Machine.zero_mul typed]

theorem Machine.mul_one (typed : a.HasKind kind) : M.binOp .mul a (.ofBit kind true) = a := by
  rw [Machine.binOp_comm M rfl, Machine.one_mul typed]

theorem Machine.add_zero (typed : a.HasKind kind) : M.binOp .add a (.ofBit kind false) = a := by
  rw [Machine.binOp_comm M rfl, Machine.zero_add typed]

end Identities

theorem Expr.eval_isZero {e : Expr F} (zero : e.isZero = true) (M : Machine F) (st : State F)
    (env : Env) (lane : Nat) : e.eval M st env lane = .ofBit e.getType.elementType false := by
  cases e <;> simp_all [Expr.isZero, Expr.eval, Expr.getType, Scalar.ofBit]

theorem Expr.eval_isOne {e : Expr F} (one : e.isOne = true) (M : Machine F) (st : State F)
    (env : Env) (lane : Nat) : e.eval M st env lane = .ofBit e.getType.elementType true := by
  cases e <;> simp_all [Expr.isOne, Expr.eval, Expr.getType, Scalar.ofBit]

theorem BinOpKind.identity_simplified {kind : BinOpKind} {SL SR e : Expr F}
    (verified : (Expr.binary kind SL SR).verify decls scope = true)
    (identity : kind.identity SL SR = some e) :
    Expr.Simplified decls scope (.binary kind SL SR) e := by
  simp only [Expr.verify, Bool.and_eq_true, decide_eq_true_eq] at verified
  obtain ⟨⟨types, left⟩, right⟩ := verified
  -- The operand that remains has the value of the operation.
  have keepL : ∀ (same : ∀ (M : Machine F) st env lane, SL.eval M st env lane =
      M.binOp kind (SL.eval M st env lane) (SR.eval M st env lane)),
      Expr.Simplified decls scope (.binary kind SL SR) SL := fun same =>
    ⟨rfl, left, fun M st env => funext fun lane => by rw [Expr.eval, ← same]⟩
  have keepR : ∀ (same : ∀ (M : Machine F) st env lane, SR.eval M st env lane =
      M.binOp kind (SL.eval M st env lane) (SR.eval M st env lane)),
      Expr.Simplified decls scope (.binary kind SL SR) SR := fun same =>
    ⟨types.symm, right, fun M st env => funext fun lane => by rw [Expr.eval, ← same]⟩
  have kindL : ∀ (M : Machine F) st env lane,
      (SL.eval M st env lane).HasKind SR.getType.elementType := fun M st env lane =>
    types ▸ Expr.eval_hasKind left lane
  have kindR : ∀ (M : Machine F) st env lane,
      (SR.eval M st env lane).HasKind SL.getType.elementType := fun M st env lane =>
    types ▸ Expr.eval_hasKind right lane
  cases kind with
  | mul =>
    simp only [BinOpKind.identity] at identity
    split_ifs at identity with zeroL zeroR oneL oneR
    · cases identity
      exact keepL fun M st env lane => by
        rw [Expr.eval_isZero zeroL, Machine.zero_mul (kindR M st env lane)]
    · cases identity
      exact keepR fun M st env lane => by
        rw [Expr.eval_isZero zeroR, Machine.mul_zero (kindL M st env lane)]
    · cases identity
      exact keepR fun M st env lane => by
        rw [Expr.eval_isOne oneL, Machine.one_mul (kindR M st env lane)]
    · cases identity
      exact keepL fun M st env lane => by
        rw [Expr.eval_isOne oneR, Machine.mul_one (kindL M st env lane)]
  | add =>
    simp only [BinOpKind.identity] at identity
    split_ifs at identity with zeroL zeroR
    · cases identity
      exact keepR fun M st env lane => by
        rw [Expr.eval_isZero zeroL, Machine.zero_add (kindR M st env lane)]
    · cases identity
      exact keepL fun M st env lane => by
        rw [Expr.eval_isZero zeroR, Machine.add_zero (kindL M st env lane)]
  | div =>
    simp only [BinOpKind.identity] at identity
    split_ifs at identity with zeroL oneR
    · cases identity
      exact keepL fun M st env lane => by
        rw [Expr.eval_isZero zeroL, Machine.zero_div (kindR M st env lane)]
    · cases identity
      exact keepL fun M st env lane => by
        rw [Expr.eval_isOne oneR, Machine.div_one (kindL M st env lane)]
  | sub | min | max | pow => cases identity

/-! ### The functions of the source -/

theorem BinOpKind.simplify_typed [StdPow] {kind : BinOpKind} {SL SR N : Expr F} {changed : Bool}
    (verified : (Expr.binary kind SL SR).verify decls scope = true)
    (simplified : kind.simplify SL SR = some (N, changed)) :
    N.getType = SL.getType ∧ N.verify decls scope = true := by
  have operands := verified
  simp only [Expr.verify, Bool.and_eq_true, decide_eq_true_eq] at operands
  simp only [BinOpKind.simplify] at simplified
  split at simplified
  next a b =>
    obtain ⟨val, -, same⟩ := Option.map_eq_some_iff.mp simplified
    cases same
    exact ⟨rfl, rfl⟩
  next a b =>
    obtain ⟨val, -, same⟩ := Option.map_eq_some_iff.mp simplified
    cases same
    exact ⟨rfl, rfl⟩
  next =>
    split at simplified
    next e identity =>
      cases simplified
      obtain rfl | rfl := BinOpKind.size_identity identity
      · exact ⟨rfl, operands.1.2⟩
      · exact ⟨operands.1.1.symm, operands.2⟩
    next =>
      cases simplified
      exact ⟨rfl, verified⟩

theorem Expr.simplifyExpr_typed [StdPow] {e N : Expr F} {changed : Bool}
    (verified : e.verify decls scope = true) (simplified : e.simplifyExpr = some (N, changed)) :
    N.getType = e.getType ∧ N.verify decls scope = true := by
  induction e using Expr.inductTree generalizing N changed with
  | binary kind lhs rhs ihL ihR =>
    simp only [Expr.simplifyExpr] at simplified
    simp only [Expr.verify, Bool.and_eq_true, decide_eq_true_eq] at verified
    split at simplified
    next SL _ SR _ simplifiedL simplifiedR =>
      obtain ⟨typeL, verifyL⟩ := ihL verified.1.2 simplifiedL
      obtain ⟨typeR, verifyR⟩ := ihR verified.2 simplifiedR
      have types : SL.getType = SR.getType := by rw [typeL, typeR, verified.1.1]
      split at simplified
      · have operands : (Expr.binary kind SR SL).verify decls scope = true := by
          simp [Expr.verify, types, verifyL, verifyR]
        obtain ⟨type, verify⟩ := BinOpKind.simplify_typed operands simplified
        exact ⟨type.trans (types.symm.trans typeL), verify⟩
      · have operands : (Expr.binary kind SL SR).verify decls scope = true := by
          simp [Expr.verify, types, verifyL, verifyR]
        obtain ⟨type, verify⟩ := BinOpKind.simplify_typed operands simplified
        exact ⟨type.trans typeL, verify⟩
    next => cases simplified
  | index | const | constFP | constString | unary | broadcast | gep | load | loadLocal =>
    cases simplified
    exact ⟨rfl, verified⟩

/-- What the last part of `simplifyExpr` returns has the type and the value of the
operation. -/
theorem BinOpKind.simplify_simplified [StdPow] {kind : BinOpKind} {SL SR N : Expr F}
    {changed : Bool} (exactly : kind.Exact SL SR)
    (verified : (Expr.binary kind SL SR).verify decls scope = true)
    (simplified : kind.simplify SL SR = some (N, changed)) :
    Expr.Simplified decls scope (.binary kind SL SR) N := by
  simp only [BinOpKind.simplify] at simplified
  split at simplified
  -- Two integer constants: the operator is exact, so the constant is the value.
  next a b =>
    obtain ⟨val, folded, same⟩ := Option.map_eq_some_iff.mp simplified
    cases same
    simp only [BinOpKind.foldInt] at folded
    split at folded
    · cases folded
    · cases folded
      refine ⟨rfl, rfl, fun M st env => funext fun lane => ?_⟩
      exact congrArg Scalar.idx exactly
  -- Two floating point constants: the machine folds as it runs.
  next a b =>
    obtain ⟨val, folded, same⟩ := Option.map_eq_some_iff.mp simplified
    cases same
    cases kind <;> cases folded <;> exact ⟨rfl, rfl, fun _ _ _ => rfl⟩
  -- An identity, or a node with the simplified operands.
  next =>
    split at simplified
    next e identity =>
      cases simplified
      exact BinOpKind.identity_simplified verified identity
    next =>
      cases simplified
      exact Expr.Simplified.refl verified

/-- `simplifyExpr` keeps the type and the value of a verified expression. -/
theorem Expr.simplifyExpr_simplified [StdPow] {e N : Expr F} {changed : Bool}
    (folds : e.Folds BinOpKind.Exact) (verified : e.verify decls scope = true)
    (simplified : e.simplifyExpr = some (N, changed)) : Expr.Simplified decls scope e N := by
  induction e using Expr.inductTree generalizing N changed with
  | binary kind lhs rhs ihL ihR =>
    simp only [Expr.simplifyExpr] at simplified
    have operands := verified
    simp only [Expr.verify, Bool.and_eq_true, decide_eq_true_eq] at operands
    split at simplified
    next SL _ SR _ simplifiedL simplifiedR =>
      have inner := Expr.Simplified.binary verified (ihL folds.1.1 operands.1.2 simplifiedL)
        (ihR folds.1.2 operands.2 simplifiedR)
      split at simplified
      next swap =>
        simp only [Bool.and_eq_true, Bool.not_eq_true'] at swap
        have swapped := Expr.Simplified.swap swap.2 inner.verify
        exact (inner.trans swapped).trans
          (BinOpKind.simplify_simplified (.of_not_const swap.1.1) swapped.verify simplified)
      next =>
        have exactly := folds.2 _ _ simplifiedL simplifiedR
        exact inner.trans (BinOpKind.simplify_simplified exactly inner.verify simplified)
    next => cases simplified
  | index | const | constFP | constString | unary | broadcast | gep | load | loadLocal =>
    cases simplified
    exact Expr.Simplified.refl verified

end Simplified

/-! ### The visitor -/

/-- The list `Ns` may take the place of the list `es`. -/
def Expr.SimplifiedList (es Ns : List (Expr F)) : Prop :=
  List.Forall₂ (fun e N => ∀ decls scope, e.verify decls scope = true →
    Expr.Simplified decls scope e N) es Ns

/-- What `f` returns for `e` is smaller if a change is reported, and may take the place of `e` if
what is folded is exact. -/
def Expr.SoundAt (f : Expr F → Option (Expr F × Bool)) (exactly : Expr F → Prop) (e : Expr F) :
    Prop :=
  ∀ N changed, f e = some (N, changed) →
    (N.size ≤ e.size ∧ (changed = true → N.size < e.size)) ∧
      (exactly e → ∀ decls scope, e.verify decls scope = true → Expr.Simplified decls scope e N)

def Expr.SoundAtList (f : List (Expr F) → Option (List (Expr F) × Bool))
    (exactly : List (Expr F) → Prop) (es : List (Expr F)) : Prop :=
  ∀ Ns changed, f es = some (Ns, changed) →
    (Expr.sizeList Ns ≤ Expr.sizeList es ∧
      (changed = true → Expr.sizeList Ns < Expr.sizeList es)) ∧
      (exactly es → Expr.SimplifiedList es Ns)

theorem Expr.soundAtList_cons {f : Expr F → Option (Expr F × Bool)}
    {fs : List (Expr F) → Option (List (Expr F) × Bool)} {exactly : Expr F → Prop}
    {exacts : List (Expr F) → Prop} {e : Expr F} {es : List (Expr F)}
    (parts : exacts (e :: es) → exactly e ∧ exacts es)
    (step : fs (e :: es) = match f e, fs es with
      | some (e, changed), some (es, changedRest) => some (e :: es, changed || changedRest)
      | _, _ => none)
    (head : Expr.SoundAt f exactly e) (tail : Expr.SoundAtList fs exacts es) :
    Expr.SoundAtList fs exacts (e :: es) := by
  intro Ns changed result
  rw [step] at result
  split at result
  next N changedE Ns changedRest resultE resultEs =>
    cases result
    obtain ⟨⟨le, less⟩, simplified⟩ := head N changedE resultE
    obtain ⟨⟨leRest, lessRest⟩, simplifiedRest⟩ := tail Ns changedRest resultEs
    simp only [Expr.sizeList, Bool.or_eq_true]
    refine ⟨⟨by omega, fun some => ?_⟩, fun exactly => ?_⟩
    · cases some with
      | inl first => have := less first; omega
      | inr later => have := lessRest later; omega
    · obtain ⟨first, rest⟩ := parts exactly
      exact List.Forall₂.cons (simplified first) (simplifiedRest rest)
  next => cases result

section Lists

variable {es Ns : List (Expr F)}

theorem Expr.SimplifiedList.subscripts {decls : Decls} {scope : List LoopId}
    (simplified : Expr.SimplifiedList es Ns) (verified : ∀ e ∈ es, e.verify decls scope = true)
    (M : Machine F) (st : State F) (env : Env) :
    Expr.subscripts M st env Ns = Expr.subscripts M st env es := by
  induction simplified with
  | nil => rfl
  | cons head _ ih =>
    simp only [List.mem_cons, forall_eq_or_imp] at verified
    simp only [Expr.subscripts, (head _ _ verified.1).eval, ih verified.2]

theorem Expr.SimplifiedList.verify {decls : Decls} {scope : List LoopId}
    (simplified : Expr.SimplifiedList es Ns)
    (verified : Expr.verifyIndices decls scope es = true) :
    Expr.verifyIndices decls scope Ns = true := by
  induction simplified with
  | nil => rfl
  | cons head _ ih =>
    simp only [Expr.verifyIndices, Bool.and_eq_true] at verified ⊢
    have first := head _ _ verified.1.1
    exact ⟨⟨first.verify, by rw [first.type]; exact verified.1.2⟩, ih verified.2⟩

end Lists

section Visitor

variable [StdPow]

theorem Expr.process_soundAt {e : Expr F} (enter : ∀ N : Expr F, N.size ≤ e.size →
      Expr.SoundAt Expr.enterLoads (Expr.LoadsFold BinOpKind.Exact) N) :
    Expr.SoundAt Expr.process (Expr.Folds BinOpKind.Exact) e := by
  intro N' changed result
  rw [Expr.process] at result
  split at result
  · cases result
  next N changedE simplified =>
    obtain ⟨⟨N'', changedLoads⟩, entered, same⟩ := Option.map_eq_some_iff.mp result
    cases same
    obtain ⟨le, less⟩ := Expr.size_simplifyExpr simplified
    obtain ⟨⟨leLoads, lessLoads⟩, loads⟩ := enter N le N' changedLoads entered
    refine ⟨⟨by omega, fun some => ?_⟩, fun folds decls scope verified => ?_⟩
    · simp only [Bool.or_eq_true] at some
      cases some with
      | inl first => have := less first; omega
      | inr later => have := lessLoads later; omega
    · have first := Expr.simplifyExpr_simplified folds verified simplified
      exact first.trans (loads (folds.simplifyExpr simplified) decls scope first.verify)

theorem Expr.processList_soundAt {es : List (Expr F)}
    (each : ∀ e ∈ es, Expr.SoundAt Expr.process (Expr.Folds BinOpKind.Exact) e) :
    Expr.SoundAtList Expr.processList (Expr.FoldsList BinOpKind.Exact) es := by
  induction es with
  | nil =>
    intro Ns changed result
    rw [Expr.processList] at result
    cases result
    exact ⟨by simp, fun _ => List.Forall₂.nil⟩
  | cons e es ih =>
    simp only [List.mem_cons, forall_eq_or_imp] at each
    exact Expr.soundAtList_cons id (by rw [Expr.processList]) each.1 (ih each.2)

theorem Expr.enterLoadsList_soundAt {es : List (Expr F)}
    (each : ∀ e ∈ es, Expr.SoundAt Expr.enterLoads (Expr.LoadsFold BinOpKind.Exact) e) :
    Expr.SoundAtList Expr.enterLoadsList (Expr.LoadsFoldList BinOpKind.Exact) es := by
  induction es with
  | nil =>
    intro Ns changed result
    rw [Expr.enterLoadsList] at result
    cases result
    exact ⟨by simp, fun _ => List.Forall₂.nil⟩
  | cons e es ih =>
    simp only [List.mem_cons, forall_eq_or_imp] at each
    exact Expr.soundAtList_cons id (by rw [Expr.enterLoadsList]) each.1 (ih each.2)

/-- The visitor keeps the type and the value of verified expressions, by induction on the
size. -/
theorem Expr.enterLoads_soundAt (e : Expr F) :
    Expr.SoundAt Expr.enterLoads (Expr.LoadsFold BinOpKind.Exact) e := by
  induction size : e.size using Nat.strong_induction_on generalizing e with
  | _ n ih =>
    subst size
    -- The induction is on the size: the subscripts that the visitor enters are those of the
    -- simplified expression.
    have smaller : ∀ e' : Expr F, e'.size < e.size →
        Expr.SoundAt Expr.enterLoads (Expr.LoadsFold BinOpKind.Exact) e' :=
      fun e' less => ih e'.size less e' rfl
    intro N changed result
    cases e with
    | binary kind lhs rhs =>
      rw [Expr.enterLoads] at result
      split at result
      next lhs' changedL rhs' changedR resultL resultR =>
        cases result
        obtain ⟨⟨leL, lessL⟩, left⟩ := smaller lhs (by simp only [Expr.size]; omega) _ _ resultL
        obtain ⟨⟨leR, lessR⟩, right⟩ := smaller rhs (by simp only [Expr.size]; omega) _ _ resultR
        simp only [Expr.size, Bool.or_eq_true]
        refine ⟨⟨by omega, fun some => ?_⟩, fun folds decls scope verified => ?_⟩
        · cases some with
          | inl first => have := lessL first; omega
          | inr later => have := lessR later; omega
        · have operands := verified
          simp only [Expr.verify, Bool.and_eq_true, decide_eq_true_eq] at operands
          exact Expr.Simplified.binary verified (left folds.1 _ _ operands.1.2)
            (right folds.2 _ _ operands.2)
      next => cases result
    | unary kind val =>
      rw [Expr.enterLoads] at result
      obtain ⟨⟨val', changed'⟩, entered, same⟩ := Option.map_eq_some_iff.mp result
      cases same
      obtain ⟨sizes, sound⟩ := smaller val (by simp only [Expr.size]; omega) _ _ entered
      simp only [Expr.size]
      refine ⟨⟨by omega, fun some => by have := sizes.2 some; omega⟩, fun folds decls scope verified => ?_⟩
      have inner := sound folds decls scope verified
      exact ⟨inner.type, inner.verify, fun M st env => funext fun lane => by
        rw [Expr.eval, Expr.eval, inner.eval]⟩
    | broadcast val vf =>
      rw [Expr.enterLoads] at result
      obtain ⟨⟨val', changed'⟩, entered, same⟩ := Option.map_eq_some_iff.mp result
      cases same
      obtain ⟨sizes, sound⟩ := smaller val (by simp only [Expr.size]; omega) _ _ entered
      simp only [Expr.size]
      refine ⟨⟨by omega, fun some => by have := sizes.2 some; omega⟩, fun folds decls scope verified => ?_⟩
      simp only [Expr.verify, Bool.and_eq_true] at verified
      have inner := sound folds decls scope verified.1
      refine ⟨by simp only [Expr.getType, inner.type], ?_, fun M st env => funext fun lane => by
        rw [Expr.eval, Expr.eval, inner.eval]⟩
      simp only [Expr.verify, Bool.and_eq_true]
      exact ⟨inner.verify, by rw [inner.type]; exact verified.2⟩
    | gep arg indices =>
      rw [Expr.enterLoads] at result
      obtain ⟨⟨indices', changed'⟩, entered, same⟩ := Option.map_eq_some_iff.mp result
      cases same
      obtain ⟨sizes, sound⟩ := Expr.enterLoadsList_soundAt (fun e mem => smaller e (by
        have := Expr.size_lt_sizeList mem; simp only [Expr.size]; omega)) _ _ entered
      simp only [Expr.size]
      refine ⟨⟨by omega, fun some => by have := sizes.2 some; omega⟩, fun folds decls scope verified => ?_⟩
      simp only [Expr.verify, Bool.and_eq_true] at verified
      have each : ∀ e ∈ indices, e.verify decls scope = true := by
        simp only [Expr.verifyIndices_eq, List.all_eq_true, Bool.and_eq_true] at verified
        exact fun e mem => (verified.1 e mem).1
      refine ⟨rfl, ?_, fun M st env => funext fun lane => by
        rw [Expr.eval, Expr.eval, (sound folds).subscripts each]⟩
      simp only [Expr.verify, Bool.and_eq_true]
      exact ⟨(sound folds).verify verified.1, by rw [← (sound folds).length_eq]; exact verified.2⟩
    | load arg indices type =>
      rw [Expr.enterLoads] at result
      obtain ⟨⟨indices', changed'⟩, entered, same⟩ := Option.map_eq_some_iff.mp result
      cases same
      obtain ⟨sizes, sound⟩ := Expr.processList_soundAt (fun e mem => Expr.process_soundAt
        (fun N le => smaller N (by
          have := Expr.size_lt_sizeList mem; simp only [Expr.size]; omega))) _ _ entered
      simp only [Expr.size]
      refine ⟨⟨by omega, fun some => by have := sizes.2 some; omega⟩, fun folds decls scope verified => ?_⟩
      simp only [Expr.verify, Bool.and_eq_true] at verified
      have each : ∀ e ∈ indices, e.verify decls scope = true := by
        simp only [Expr.verifyIndices_eq, List.all_eq_true, Bool.and_eq_true] at verified
        exact fun e mem => (verified.1 e mem).1
      refine ⟨rfl, ?_, fun M st env => funext fun lane => by
        rw [Expr.eval, Expr.eval, (sound folds).subscripts each]⟩
      simp only [Expr.verify, Bool.and_eq_true]
      exact ⟨(sound folds).verify verified.1, by rw [← (sound folds).length_eq]; exact verified.2⟩
    | index | const | constFP | constString | loadLocal =>
      rw [Expr.enterLoads] at result <;> try simp
      cases result
      exact ⟨by simp, fun _ _ _ verified => Expr.Simplified.refl verified⟩

end Visitor

end Fold

end Bistra

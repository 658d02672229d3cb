import Bistra.Parser.Outcome

/-! # The folding of let expressions

On which expressions `simplifyExpr` does what it does without an illegal operation.  What is known
about the operands of an operator is read off the expression, from the leaves to the root.
-/

namespace Bistra

variable {F : Type} [Field F] [LinearOrder F]

/-! ## What folding does -/

/-- No floating point number is divided by zero. -/
def Expr.dividesNonzero : Expr F → Bool
  | .binary kind lhs rhs => lhs.dividesNonzero && rhs.dividesNonzero &&
    match lhs.simplifyExpr, rhs.simplifyExpr with
    | some (.constFP _, _), some (.constFP b, _) => !(kind = .div && b = 0)
    | _, _ => true
  | _ => true

/-- `simplifyExpr` returns: it reads no constant that is not there, its integers are defined and
fit into `int64_t`, and it divides by zero nowhere. -/
def Expr.FoldsTotally (e : Expr F) : Prop :=
  (ParseStep.fold e).legal = true ∧ e.dividesNonzero = true

/-! ## What is known about an expression -/

/-- The number is known, and it is `n`. -/
def isNumber (n : Nat) : Option (Scalar F) → Bool
  | some (.idx val) => val = n
  | some (.flt val) => val = n
  | none => false

/-- What is known about the operand that an arithmetic identity leaves. -/
def BinOpKind.knownIdentity (kind : BinOpKind) (a b : Option (Scalar F)) : Option (Scalar F) :=
  match kind with
  | .mul =>
    if isNumber 0 a then a
    else if isNumber 0 b then b
    else if isNumber 1 a then b
    else if isNumber 1 b then a
    else none
  | .add => if isNumber 0 a then b else if isNumber 0 b then a else none
  | .div => if isNumber 0 a then a else if isNumber 1 b then a else none
  | .sub | .min | .max | .pow => none

/-- The number that an operator makes of what is known about its operands. -/
def BinOpKind.known (kind : BinOpKind) : Option (Scalar F) → Option (Scalar F) → Option (Scalar F)
  | some (.idx a), some (.idx b) => some (.idx (kind.onConst a b))
  | some (.flt a), some (.flt b) => (kind.foldFP a b).map .flt
  | a, b => kind.knownIdentity a b

def Expr.known : Expr F → Option (Scalar F)
  | .const val => some (.idx val)
  | .constFP val => some (.flt val)
  | .binary kind lhs rhs => kind.known lhs.known rhs.known
  | _ => none

/-- An operator may be applied to what is known about its operands: two integers have a quotient
or a power only if they are not zero where it matters, and what is computed fits into `int64_t`; of
two floating point numbers there is no minimum, no maximum and no power, and no quotient by zero. -/
def BinOpKind.foldable (kind : BinOpKind) : Option (Scalar F) → Option (Scalar F) → Bool
  | some (.idx a), some (.idx b) =>
    !(kind = .div && b = 0) && !(kind = .pow && a = 0 && b < 0) &&
      (-2 ^ 63 ≤ kind.onConst a b && kind.onConst a b < 2 ^ 63)
  | some (.flt _), some (.flt b) => kind ∉ [.min, .max, .pow] && !(kind = .div && b = 0)
  | _, _ => true

def Expr.foldable : Expr F → Bool
  | .binary kind lhs rhs =>
    lhs.foldable && rhs.foldable && kind.foldable lhs.known rhs.known
  | _ => true

/-- The number that stands at the root of an expression. -/
def Expr.number : Expr F → Option (Scalar F)
  | .const val => some (.idx val)
  | .constFP val => some (.flt val)
  | _ => none

theorem Expr.isZero_eq (e : Expr F) : e.isZero = isNumber 0 e.number := by
  cases e <;> simp [Expr.isZero, Expr.number, isNumber]

theorem Expr.isOne_eq (e : Expr F) : e.isOne = isNumber 1 e.number := by
  cases e <;> simp [Expr.isOne, Expr.number, isNumber]

omit [Field F] [LinearOrder F] in
theorem Expr.isConst_eq (e : Expr F) : e.isConst = e.number.isSome := by
  cases e <;> rfl

theorem BinOpKind.number_identity (kind : BinOpKind) (SL SR : Expr F) :
    (kind.identity SL SR).bind Expr.number = kind.knownIdentity SL.number SR.number := by
  cases kind with
  | mul | add | div =>
    simp only [BinOpKind.identity, BinOpKind.knownIdentity, Expr.isZero_eq, Expr.isOne_eq]
    split_ifs <;> rfl
  | sub | min | max | pow => rfl

theorem BinOpKind.known_comm {kind : BinOpKind} (commutative : kind.isCommutative = true)
    (a : Option (Scalar F)) : kind.known a none = kind.known none a := by
  cases kind with
  | mul | add | min | max =>
    have absent : ∀ n, isNumber n (none : Option (Scalar F)) = false := fun _ => rfl
    simp [BinOpKind.known, BinOpKind.knownIdentity, absent]
  | sub | div | pow => cases commutative

omit [Field F] [LinearOrder F] in
/-- The operands are two integers, two floating point numbers, or something else. -/
theorem Expr.operand_cases {P : Expr F → Expr F → Prop}
    (ints : ∀ a b, P (.const a) (.const b)) (fps : ∀ a b, P (.constFP a) (.constFP b))
    (other : ∀ SL SR, (∀ a b, ¬(SL = .const a ∧ SR = .const b)) →
      (∀ a b, ¬(SL = .constFP a ∧ SR = .constFP b)) → P SL SR)
    (SL SR : Expr F) : P SL SR := by
  cases SL with
  | const a =>
    cases SR with
    | const b => exact ints a b
    | _ => exact other _ _ (by simp) (by simp)
  | constFP a =>
    cases SR with
    | constFP b => exact fps a b
    | _ => exact other _ _ (by simp) (by simp)
  | _ => exact other _ _ (by simp) (by simp)

section Other

variable {SL SR : Expr F} (noInts : ∀ a b, ¬(SL = .const a ∧ SR = .const b))
  (noFPs : ∀ a b, ¬(SL = .constFP a ∧ SR = .constFP b)) (kind : BinOpKind)

include noInts noFPs

theorem BinOpKind.simplify_other : kind.simplify SL SR =
    some (((kind.identity SL SR).map (·, true)).getD (.binary kind SL SR, false)) := by
  simp only [BinOpKind.simplify]
  split
  next a b => exact (noInts a b ⟨rfl, rfl⟩).elim
  next a b => exact (noFPs a b ⟨rfl, rfl⟩).elim
  next => cases kind.identity SL SR <;> rfl

theorem BinOpKind.known_other :
    kind.known SL.number SR.number = kind.knownIdentity SL.number SR.number ∧
      kind.foldable SL.number SR.number = true := by
  cases SL, SR using Expr.operand_cases with
  | ints a b => exact (noInts a b ⟨rfl, rfl⟩).elim
  | fps a b => exact (noFPs a b ⟨rfl, rfl⟩).elim
  | other SL SR _ _ =>
    cases SL with
    | const a => cases SR <;> first | exact ⟨rfl, rfl⟩ | exact (noInts _ _ ⟨rfl, rfl⟩).elim
    | constFP a => cases SR <;> first | exact ⟨rfl, rfl⟩ | exact (noFPs _ _ ⟨rfl, rfl⟩).elim
    | _ => exact ⟨rfl, rfl⟩

end Other

theorem BinOpKind.number_simplify {kind : BinOpKind} {SL SR N : Expr F} {changed : Bool}
    (simplified : kind.simplify SL SR = some (N, changed)) :
    N.number = kind.known SL.number SR.number := by
  cases SL, SR using Expr.operand_cases with
  | ints a b =>
    obtain ⟨val, folded, same⟩ := Option.map_eq_some_iff.mp simplified
    cases same
    simp only [BinOpKind.foldInt] at folded
    split_ifs at folded
    cases folded
    rfl
  | fps a b =>
    obtain ⟨val, folded, same⟩ := Option.map_eq_some_iff.mp simplified
    cases same
    simp [Expr.number, BinOpKind.known, folded]
  | other SL SR noInts noFPs =>
    rw [BinOpKind.simplify_other noInts noFPs] at simplified
    rw [(BinOpKind.known_other noInts noFPs kind).1, ← BinOpKind.number_identity]
    cases identity : kind.identity SL SR with
    | none =>
      rw [identity] at simplified
      cases simplified
      rfl
    | some e =>
      rw [identity] at simplified
      cases simplified
      rfl

theorem Expr.number_simplifyExpr {e N : Expr F} {changed : Bool}
    (simplified : e.simplifyExpr = some (N, changed)) : N.number = e.known := by
  induction e using Expr.inductTree generalizing N changed with
  | binary kind lhs rhs ihL ihR =>
    simp only [Expr.simplifyExpr] at simplified
    split at simplified
    next SL _ SR _ simplifiedL simplifiedR =>
      rw [Expr.known, ← ihL simplifiedL, ← ihR simplifiedR]
      split at simplified
      next swapped =>
        simp only [Bool.and_eq_true, Bool.not_eq_true', Expr.isConst_eq] at swapped
        have none : SR.number = none := by simpa using swapped.1.1
        rw [BinOpKind.number_simplify simplified, none, BinOpKind.known_comm swapped.2]
      next => exact BinOpKind.number_simplify simplified
    next => cases simplified
  | index | const | constFP | constString | unary | broadcast | gep | load | loadLocal =>
    cases simplified
    rfl

/-! ## Total folding -/

/-- An operator is folded totally if its operands are, and if it may be applied to what is known
about them. -/
theorem Expr.foldsTotally_binary (kind : BinOpKind) (lhs rhs : Expr F) :
    (Expr.binary kind lhs rhs).FoldsTotally ↔
      (lhs.FoldsTotally ∧ rhs.FoldsTotally) ∧ kind.foldable lhs.known rhs.known = true := by
  simp only [Expr.FoldsTotally, ParseStep.legal, Bool.and_eq_true, Expr.foldsInt64,
    Expr.dividesNonzero, Expr.simplifyExpr]
  cases simplifiedL : lhs.simplifyExpr with
  | none => simp
  | some left =>
    cases simplifiedR : rhs.simplifyExpr with
    | none => simp
    -- Both operands have been simplified; what is left of them decides.
    | some right =>
      obtain ⟨SL, changedL⟩ := left
      obtain ⟨SR, changedR⟩ := right
      rw [← Expr.number_simplifyExpr simplifiedL, ← Expr.number_simplifyExpr simplifiedR]
      cases SL, SR using Expr.operand_cases with
      | ints a b =>
        -- Two integers: the quotient by zero is the one that is no number in any case.
        by_cases zero : kind = .div ∧ b = 0
        · simp [zero, Expr.isConst, BinOpKind.simplify, BinOpKind.foldInt, Expr.number,
            BinOpKind.foldable]
        · simp [zero, Expr.isConst, BinOpKind.simplify, BinOpKind.foldInt, Expr.number,
            BinOpKind.foldable]
          tauto
      | fps a b =>
        -- Two floating point numbers: the cases of min, max and pow read the integer constants.
        cases kind with
        | min | max | pow =>
          simp [Expr.isConst, BinOpKind.simplify, BinOpKind.foldFP, Expr.number,
            BinOpKind.foldable]
        | mul | add | sub | div =>
          simp [Expr.isConst, BinOpKind.simplify, BinOpKind.foldFP, Expr.number,
            BinOpKind.foldable]
          tauto
      | other SL SR noInts noFPs =>
        -- With another operand nothing is computed: the identities are tried, and a node is left.
        have returns : (if ((!SR.isConst) = true ∧ SL.isConst = true) ∧ kind.isCommutative = true
            then kind.simplify SR SL else kind.simplify SL SR).isSome = true := by
          split
          · rw [BinOpKind.simplify_other (fun a b both => noInts b a ⟨both.2, both.1⟩)
              fun a b both => noFPs b a ⟨both.2, both.1⟩]
            rfl
          · rw [BinOpKind.simplify_other noInts noFPs]
            rfl
        have foldable := (BinOpKind.known_other noInts noFPs kind).2
        simp only [returns, foldable, Option.isSome_some, true_and, and_true]
        split
        next same₁ same₂ =>
          cases same₁
          cases same₂
          exact (noInts _ _ ⟨rfl, rfl⟩).elim
        next =>
          split
          next same₁ same₂ =>
            cases same₁
            cases same₂
            exact (noFPs _ _ ⟨rfl, rfl⟩).elim
          next => tauto

/-- The power is computed in `double`, and the divisor is zero. -/
example : (Expr.binary .div (.const 1) (.binary .sub (.binary .pow (.const 3) (.const 35))
    (.const 50031545098999704)) : Expr ℚ).foldable = false := by
  decide

/-- The run of the parser folds an expression without success. -/
def ParseStep.foldsBadly : ParseStep F → Bool
  | .fold e => !(ParseStep.fold e).legal
  | _ => false

/-- The parser folds an expression of the text that does not become a number where it should. -/
def FoldsPartially (text : String) : Prop :=
  ∃ e : Expr ℚ, .fold e ∈ (parseText 0 text.toList [] : List (ParseStep ℚ) × _).1 ∧
    ¬ e.FoldsTotally

theorem foldsPartially_of_foldsBadly {text : String}
    (ran : (parseText 0 text.toList [] : List (ParseStep ℚ) × _).1.any ParseStep.foldsBadly =
      true) : FoldsPartially text := by
  obtain ⟨step, made, bad⟩ := List.any_eq_true.mp ran
  cases step with
  | fold e =>
    refine ⟨e, made, fun total => ?_⟩
    rw [ParseStep.foldsBadly, total.1] at bad
    exact Bool.noConfusion bad
  | _ => cases bad

end Bistra

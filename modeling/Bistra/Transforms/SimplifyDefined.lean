import Bistra.Transforms.Simplify

/-! # Where folding is defined

The folding of two constants divides by zero on some integers, and reads null pointers for
some operators on FP constants.  The expressions that do not come to that are folded.
-/

namespace Bistra

variable {F : Type}

/-- The operands are no constants that cannot be folded. -/
def BinOpKind.Defined (kind : BinOpKind) : Expr F → Expr F → Prop
  | .const _, .const b => ¬ (kind = .div ∧ b = 0)
  | .constFP _, .constFP _ => kind ≠ .min ∧ kind ≠ .max ∧ kind ≠ .pow
  | _, _ => True

theorem BinOpKind.Defined.of_not_const {kind : BinOpKind} {SL SR : Expr F}
    (open_ : SL.isConst = false) : kind.Defined SL SR := by
  cases SL with
  | const | constFP => cases open_
  | _ => trivial

section Visitor

variable [StdPow] [Field F] [LinearOrder F]

theorem BinOpKind.simplify_defined {kind : BinOpKind} {SL SR : Expr F}
    (defined : kind.Defined SL SR) : ∃ N changed, kind.simplify SL SR = some (N, changed) := by
  simp only [BinOpKind.simplify]
  split
  next a b =>
    simp only [BinOpKind.Defined] at defined
    exact ⟨.const (kind.onConst a b), true, by simp [BinOpKind.foldInt, defined]⟩
  next a b =>
    obtain ⟨noMin, noMax, noPow⟩ := defined
    cases kind with
    | mul | add | div | sub => exact ⟨_, true, rfl⟩
    | min => exact absurd rfl noMin
    | max => exact absurd rfl noMax
    | pow => exact absurd rfl noPow
  next =>
    split
    next e identity => exact ⟨e, true, rfl⟩
    next => exact ⟨_, false, rfl⟩

theorem Expr.simplifyExpr_defined {e : Expr F} (safe : e.Folds BinOpKind.Defined) :
    ∃ N changed, e.simplifyExpr = some (N, changed) := by
  induction e using Expr.inductTree with
  | binary kind lhs rhs ihL ihR =>
    obtain ⟨⟨safeL, safeR⟩, defined⟩ := safe
    obtain ⟨SL, changedL, resultL⟩ := ihL safeL
    obtain ⟨SR, changedR, resultR⟩ := ihR safeR
    simp only [Expr.simplifyExpr, resultL, resultR]
    split
    next swap =>
      simp only [Bool.and_eq_true, Bool.not_eq_true'] at swap
      exact BinOpKind.simplify_defined (.of_not_const swap.1.1)
    next => exact BinOpKind.simplify_defined (defined _ _ resultL resultR)
  | unary | broadcast | gep | load | index | const | constFP | constString | loadLocal =>
    exact ⟨_, false, rfl⟩

theorem Expr.process_defined {e : Expr F} (safe : e.Folds BinOpKind.Defined)
    (enter : ∀ N : Expr F, N.size ≤ e.size → N.LoadsFold BinOpKind.Defined →
      N.enterLoads.isSome) :
    e.process.isSome := by
  obtain ⟨N, changed, result⟩ := Expr.simplifyExpr_defined safe
  rw [Expr.process]
  split
  next crash => simp [result] at crash
  next N' changed' result' =>
    have same : (N, changed) = (N', changed') := Option.some.inj (result.symm.trans result')
    cases same
    rw [Option.isSome_map]
    exact enter N (Expr.size_simplifyExpr result).1 (safe.simplifyExpr result)

theorem Expr.processList_defined {es : List (Expr F)} (each : ∀ e ∈ es, e.process.isSome) :
    (Expr.processList es).isSome := by
  induction es with
  | nil => simp [Expr.processList]
  | cons e es ih =>
    simp only [List.mem_cons, forall_eq_or_imp] at each
    obtain ⟨N, result⟩ := Option.isSome_iff_exists.mp each.1
    obtain ⟨Ns, results⟩ := Option.isSome_iff_exists.mp (ih each.2)
    simp [Expr.processList, result, results]

theorem Expr.enterLoadsList_defined {es : List (Expr F)} (each : ∀ e ∈ es, e.enterLoads.isSome) :
    (Expr.enterLoadsList es).isSome := by
  induction es with
  | nil => simp [Expr.enterLoadsList]
  | cons e es ih =>
    simp only [List.mem_cons, forall_eq_or_imp] at each
    obtain ⟨N, result⟩ := Option.isSome_iff_exists.mp each.1
    obtain ⟨Ns, results⟩ := Option.isSome_iff_exists.mp (ih each.2)
    simp [Expr.enterLoadsList, result, results]

theorem Expr.enterLoads_defined (e : Expr F) (safe : e.LoadsFold BinOpKind.Defined) :
    e.enterLoads.isSome := by
  induction size : e.size using Nat.strong_induction_on generalizing e with
  | _ n ih =>
    subst size
    -- The induction is on the size, because the visitor goes into what has been simplified.
    have smaller : ∀ e' : Expr F, e'.size < e.size → e'.LoadsFold BinOpKind.Defined →
        e'.enterLoads.isSome :=
      fun e' less safe' => ih e'.size less e' safe' rfl
    cases e with
    | binary kind lhs rhs =>
      have left := smaller lhs (by simp only [Expr.size]; omega) safe.1
      have right := smaller rhs (by simp only [Expr.size]; omega) safe.2
      obtain ⟨L, resultL⟩ := Option.isSome_iff_exists.mp left
      obtain ⟨R, resultR⟩ := Option.isSome_iff_exists.mp right
      simp [Expr.enterLoads, resultL, resultR]
    | unary kind val =>
      rw [Expr.enterLoads, Option.isSome_map]
      exact smaller val (by simp only [Expr.size]; omega) safe
    | broadcast val vf =>
      rw [Expr.enterLoads, Option.isSome_map]
      exact smaller val (by simp only [Expr.size]; omega) safe
    | gep arg indices =>
      rw [Expr.enterLoads, Option.isSome_map]
      apply Expr.enterLoadsList_defined
      intro e mem
      have below := Expr.size_lt_sizeList mem
      exact smaller e (by simp only [Expr.size]; omega) (safe.mem mem)
    | load arg indices type =>
      rw [Expr.enterLoads, Option.isSome_map]
      apply Expr.processList_defined
      intro e mem
      have below := Expr.size_lt_sizeList mem
      apply Expr.process_defined (safe.mem mem)
      intro N le loads
      exact smaller N (by simp only [Expr.size]; omega) loads
    | index | const | constFP | constString | loadLocal =>
      rw [Expr.enterLoads] <;> simp

/-! ## Statements -/

/-- No expression of the body comes to constants that cannot be folded. -/
abbrev Stmt.FoldsSafelyBody (body : List (Stmt F)) : Prop := Stmt.FoldsBody BinOpKind.Defined body

theorem Stmt.simplifyExprsBody_defined {body : List (Stmt F)}
    (each : ∀ s ∈ body, s.simplifyExprs.isSome) : (Stmt.simplifyExprsBody body).isSome := by
  induction body with
  | nil => simp [Stmt.simplifyExprsBody]
  | cons s rest ih =>
    simp only [List.mem_cons, forall_eq_or_imp] at each
    obtain ⟨N, result⟩ := Option.isSome_iff_exists.mp each.1
    obtain ⟨Ns, results⟩ := Option.isSome_iff_exists.mp (ih each.2)
    simp [Stmt.simplifyExprsBody, result, results]

theorem Stmt.simplifyExprs_defined {s : Stmt F} (safe : s.Folds BinOpKind.Defined) :
    s.simplifyExprs.isSome := by
  have process : ∀ e : Expr F, e.Folds BinOpKind.Defined → e.process.isSome := fun e safe =>
    Expr.process_defined safe fun N _ loads => N.enterLoads_defined loads
  induction s using Stmt.inductTree with
  | loop header body ih =>
    rw [Stmt.simplifyExprs, Option.isSome_map]
    exact Stmt.simplifyExprsBody_defined fun s mem => ih s mem (safe.mem mem)
  | ifRange val start end_ body ih =>
    obtain ⟨⟨loads, folds⟩, inner⟩ := safe
    obtain ⟨visited, entered⟩ := Option.isSome_iff_exists.mp (val.enterLoads_defined loads)
    obtain ⟨N, changed, result⟩ := Expr.simplifyExpr_defined (folds visited entered)
    have rest := Stmt.simplifyExprsBody_defined fun s mem => ih s mem (inner.mem mem)
    obtain ⟨new, results⟩ := Option.isSome_iff_exists.mp rest
    simp [Stmt.simplifyExprs, entered, result, results]
  | call name params =>
    rw [Stmt.simplifyExprs, Option.isSome_map]
    exact Expr.enterLoadsList_defined fun e mem => e.enterLoads_defined (safe.mem mem)
  | store arg indices value accumulate =>
    have subscripts := Expr.processList_defined fun e mem => process e (safe.1.mem mem)
    obtain ⟨Ns, results⟩ := Option.isSome_iff_exists.mp subscripts
    obtain ⟨N, result⟩ := Option.isSome_iff_exists.mp (process value safe.2)
    simp [Stmt.simplifyExprs, results, result]
  | storeLocal var value accumulate =>
    rw [Stmt.simplifyExprs, Option.isSome_map]
    exact process value safe

end Visitor

end Bistra

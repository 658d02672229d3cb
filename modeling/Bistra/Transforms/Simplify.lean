import Bistra.Transforms.SimplifyExpr

/-! # Simplification

`simplify` of `Simplify.cpp`: rounds of expression folding, removal of empty loops, removal
of guards that the range analysis decides, and removal of loops that run once, until a
round changes nothing.
-/

namespace Bistra

variable {F : Type}

/-! ## Rebuilding bodies -/

mutual

/-- Rebuilds a statement from the rebuilt bodies of the scopes below it.  A scope may be
replaced with any statements. -/
def Stmt.rebuild (onLoop : Loop → List (Stmt F) → List (Stmt F) → List (Stmt F))
    (onIf : Expr F → Int32 → Int32 → List (Stmt F) → List (Stmt F)) : Stmt F → List (Stmt F)
  | .loop header body => onLoop header body (Stmt.rebuildBody onLoop onIf body)
  | .ifRange val start end_ body => onIf val start end_ (Stmt.rebuildBody onLoop onIf body)
  | leaf => [leaf]

def Stmt.rebuildBody (onLoop : Loop → List (Stmt F) → List (Stmt F) → List (Stmt F))
    (onIf : Expr F → Int32 → Int32 → List (Stmt F) → List (Stmt F)) :
    List (Stmt F) → List (Stmt F)
  | [] => []
  | s :: rest => s.rebuild onLoop onIf ++ Stmt.rebuildBody onLoop onIf rest

end

def removeEmptyLoops (body : List (Stmt F)) : List (Stmt F) :=
  Stmt.rebuildBody (fun header old new => if old.isEmpty then [] else [.loop header new])
    (fun val start end_ new => [.ifRange val start end_ new]) body

/-- The relation between the values of a guard and its range, as `simplifyIfs` sees it. -/
def guardRelation (loops : LoopTable) (val : Expr F) (start end_ : Int32) : RangeRelation :=
  match computeKnownIntegerRange loops none val with
  | some (some range) => getRangeRelation range (start, end_)
  | _ => .intersect

def simplifyIfs (loops : LoopTable) (body : List (Stmt F)) : List (Stmt F) :=
  Stmt.rebuildBody (fun header _ new => [.loop header new])
    (fun val start end_ new =>
      match guardRelation loops val start end_ with
      | .intersect => [.ifRange val start end_ new]
      | .disjoint => []
      | .subset => new) body

def removeTrip1Loops (body : List (Stmt F)) : List (Stmt F) :=
  Stmt.rebuildBody
    (fun header _ new =>
      if header.end_ = header.stride then Stmt.replaceIndex header.id (.const 0) new
      else [.loop header new])
    (fun val start end_ new => [.ifRange val start end_ new]) body

section Round

variable [StdPow] [Field F] [LinearOrder F]

mutual

/-- `ExprSimplify` on statements.  The value of a guard is visited before it is processed, and
the parameters of a call are only visited. -/
def Stmt.simplifyExprs : Stmt F → Option (Stmt F × Bool)
  | .loop header body =>
    (Stmt.simplifyExprsBody body).map fun (body, changed) => (.loop header body, changed)
  | .ifRange val start end_ body =>
    val.enterLoads.bind fun (val, changedLoads) =>
      val.simplifyExpr.bind fun (val, changed) =>
        (Stmt.simplifyExprsBody body).map fun (body, changedBody) =>
          (.ifRange val start end_ body, changedLoads || changed || changedBody)
  | .call name params =>
    (Expr.enterLoadsList params).map fun (params, changed) => (.call name params, changed)
  | .store arg indices value accumulate =>
    (Expr.processList indices).bind fun (indices, changedIndices) =>
      value.process.map fun (value, changed) =>
        (.store arg indices value accumulate, changedIndices || changed)
  | .storeLocal var value accumulate =>
    value.process.map fun (value, changed) => (.storeLocal var value accumulate, changed)

def Stmt.simplifyExprsBody : List (Stmt F) → Option (List (Stmt F) × Bool)
  | [] => some ([], false)
  | s :: rest =>
    s.simplifyExprs.bind fun (s, changed) =>
      (Stmt.simplifyExprsBody rest).map fun (rest, changedRest) =>
        (s :: rest, changed || changedRest)

end

mutual

/-- `R` holds of every operator that the visitor folds, with its simplified operands. -/
def Stmt.Folds (R : BinOpKind → Expr F → Expr F → Prop) : Stmt F → Prop
  | .loop _ body => Stmt.FoldsBody R body
  | .ifRange val _ _ body =>
    (val.LoadsFold R ∧ ∀ visited, val.enterLoads = some visited → visited.1.Folds R) ∧
      Stmt.FoldsBody R body
  | .call _ params => Expr.LoadsFoldList R params
  | .store _ indices value _ => Expr.FoldsList R indices ∧ value.Folds R
  | .storeLocal _ value _ => value.Folds R

def Stmt.FoldsBody (R : BinOpKind → Expr F → Expr F → Prop) : List (Stmt F) → Prop
  | [] => True
  | s :: rest => s.Folds R ∧ Stmt.FoldsBody R rest

end

theorem Stmt.FoldsBody.mem {R : BinOpKind → Expr F → Expr F → Prop} {s : Stmt F}
    {body : List (Stmt F)} (folds : Stmt.FoldsBody R body) (mem : s ∈ body) : s.Folds R := by
  induction body with
  | nil => cases mem
  | cons head rest ih =>
    cases List.mem_cons.mp mem with
    | inl same => exact same ▸ folds.1
    | inr later => exact ih folds.2 later

theorem Stmt.foldsBody_exact (exactly : ∀ a b, StdPow.pow a b = intPow a b)
    (body : List (Stmt F)) : Stmt.FoldsBody BinOpKind.Exact body := by
  have expr := fun e : Expr F => e.folds_of_forall (BinOpKind.exact_of_forall exactly)
  have lists := fun es : List (Expr F) => Expr.foldsList_of fun e (_ : e ∈ es) => expr e
  have bodies : ∀ body : List (Stmt F), (∀ s ∈ body, s.Folds BinOpKind.Exact) →
      Stmt.FoldsBody BinOpKind.Exact body := by
    intro body each
    induction body with
    | nil => trivial
    | cons s rest ih =>
      rw [List.forall_mem_cons] at each
      exact ⟨each.1, ih each.2⟩
  have each : ∀ s : Stmt F, s.Folds BinOpKind.Exact := by
    intro s
    induction s using Stmt.inductTree with
    | loop header body ih => exact bodies body ih
    | ifRange val start end_ body ih =>
      exact ⟨⟨(expr val).2, fun visited _ => (expr visited.1).1⟩, bodies body ih⟩
    | call name params => exact (lists params).2
    | store arg indices value accumulate => exact ⟨(lists indices).1, (expr value).1⟩
    | storeLocal var value accumulate => exact (expr value).1
  exact bodies body fun s _ => each s

/-- One call of `simplify`, up to the recursive call. -/
def Program.simplifyRound (p : Program F) : Option (Program F × Bool) :=
  (Stmt.simplifyExprsBody p.body).bind fun (folded, changed) =>
    let hasEmpty := (Stmt.collectLoopsBody folded).any fun loop => loop.2.isEmpty
    let filled := removeEmptyLoops folded
    let loops := Program.loopTable { p with body := filled }
    let ifs := filled.flatMap Stmt.collectIfs
    if ifs.all fun guard => (computeKnownIntegerRange loops none guard.1).isSome then
      let decided := ifs.any fun guard => guardRelation loops guard.1 guard.2.1 guard.2.2 ≠ .intersect
      let guarded := simplifyIfs loops filled
      let hasTrip1 := (Stmt.collectLoopsBody guarded).any fun loop => loop.1.end_ = loop.1.stride
      some ({ p with body := removeTrip1Loops guarded },
        changed || hasEmpty || decided || hasTrip1)
    else none

/-- `simplify`, with a bound on the number of rounds. -/
def Program.simplifyRounds : Nat → Program F → Option (Program F)
  | 0, _ => none
  | n + 1, p =>
    p.simplifyRound.bind fun (q, changed) => if changed then Program.simplifyRounds n q else some q

end Round

mutual

def Stmt.size : Stmt F → Nat
  | .loop _ body => Stmt.sizeBody body + 1
  | .ifRange val _ _ body => val.size + Stmt.sizeBody body + 1
  | .call _ params => Expr.sizeList params + 1
  | .store _ indices value _ => Expr.sizeList indices + value.size + 1
  | .storeLocal _ value _ => value.size + 1

def Stmt.sizeBody : List (Stmt F) → Nat
  | [] => 0
  | s :: rest => s.size + Stmt.sizeBody rest

end

/-- `simplify`.  Every round but the last removes a node, so the bound is not met. -/
def simplify [StdPow] [Field F] [LinearOrder F] (p : Program F) : Option (Program F) :=
  p.simplifyRounds (Stmt.sizeBody p.body + 1)

end Bistra

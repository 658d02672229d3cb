import Bistra.Parser.Statements

/-! # The stacks of the parser

`parseScope` unwinds the let stack and `parseForStmt` the loop stack.  Everything else that runs
inside a scope only adds let entries, whether the text is right or not, and expressions leave the
context alone; so what a scope finds on the two stacks is there when it returns.
-/

namespace Bistra

variable {F : Type} [Field F] [LinearOrder F] {α β : Type}

open Procedure

/-! ## Parts that leave the context alone -/

def SameContext (s s' : ParserState F) : Prop := s'.ctx = s.ctx

omit [Field F] [LinearOrder F] in
instance SameContext.instIsPreorder : IsPreorder (ParserState F) SameContext where
  refl _ := rfl
  trans _ _ _ first second := second.trans first

/-- Whenever `x` returns, the context is what it was before. -/
abbrev Keeps (x : Parse F α) : Prop := x.Moves SameContext

section Tokens

@[grind ←] theorem keeps_getTok : Keeps (getTok (F := F)) := by
  unfold getTok
  grind

@[grind ←] theorem keeps_getContext : Keeps (getContext (F := F)) := by
  unfold getContext
  grind

@[grind ←] theorem keeps_onlyIf {condition : Bool} {x : Parse F Unit} (keeps : Keeps x) :
    Keeps (onlyIf condition x) := by
  unfold onlyIf
  grind

@[grind ←] theorem moves_loop {R : ParserState F → ParserState F → Prop}
    [IsPreorder (ParserState F) R] {body : β → Parse F (β ⊕ α)} {b : β}
    (round : ∀ b, (body b).Moves R) : (loop body b).Moves R := by
  unfold loop
  exact moves_bind moves_getState fun _ => moves_iterate round _ _

@[grind ←] theorem keeps_diagnose (loc : List Char) (message : String) :
    Keeps (diagnose (F := F) loc message) :=
  moves_bind moves_check fun _ => moves_modifyState fun _ => rfl

@[grind ←] theorem keeps_diagnoseTok (message : String) : Keeps (diagnoseTok (F := F) message) := by
  unfold diagnoseTok
  grind

@[grind ←] theorem keeps_lexTok : Keeps (lexTok (F := F)) := by
  unfold lexTok
  refine moves_bind moves_getState fun s => moves_bind (keeps_onlyIf (keeps_diagnose _ _)) fun _ => ?_
  exact moves_bind moves_check fun _ => moves_modifyState fun _ => rfl

@[grind ←] theorem keeps_consumeToken : Keeps (consumeToken (F := F)) := by
  unfold consumeToken
  grind

@[grind ←] theorem keeps_consumeTokenOf (K : TokenKind) : Keeps (consumeTokenOf (F := F) K) := by
  unfold consumeTokenOf
  grind

@[grind ←] theorem keeps_consumeIf (K : TokenKind) : Keeps (consumeIf (F := F) K) := by
  unfold consumeIf
  grind

@[grind ←] theorem keeps_expect (K : TokenKind) (message : String) :
    Keeps (expect (F := F) K message) := by
  unfold expect
  grind

@[grind ←] theorem keeps_skipUntilOneOf (kinds : List TokenKind) :
    Keeps (skipUntilOneOf (F := F) kinds) := by
  unfold skipUntilOneOf
  grind

@[grind ←] theorem keeps_skipUntil (K : TokenKind) : Keeps (skipUntil (F := F) K) := by
  unfold skipUntil
  grind

@[grind ←] theorem keeps_parseIntegerLiteral : Keeps (parseIntegerLiteral (F := F)) := by
  unfold parseIntegerLiteral
  grind

@[grind ←] theorem keeps_parseStringLiteral : Keeps (parseStringLiteral (F := F)) := by
  unfold parseStringLiteral
  grind

@[grind ←] theorem keeps_parseFloatLiteral : Keeps (parseFloatLiteral (F := F)) := by
  unfold parseFloatLiteral
  grind

@[grind ←] theorem keeps_parseIdentifier : Keeps (parseIdentifier (F := F)) := by
  unfold parseIdentifier
  grind

@[grind ←] theorem keeps_parseIntegerLiteralOrLetConstant :
    Keeps (parseIntegerLiteralOrLetConstant (F := F)) := by
  unfold parseIntegerLiteralOrLetConstant
  refine moves_bind keeps_parseIntegerLiteral fun literal => ?_
  cases literal with
  | some val => exact moves_pure
  | none =>
    refine moves_bind keeps_getTok fun tok => moves_bind keeps_parseIdentifier fun name => ?_
    cases name with
    | none => exact moves_pure
    | some varName =>
      refine moves_bind keeps_getContext fun ctx => ?_
      split <;> grind

end Tokens

section Expressions

variable {expr : Parse F (Option (Expr F))}

@[grind ←] theorem keeps_parseCallArgumentList (keeps : Keeps expr) (sameTy : Bool)
    (expectedArgs : Nat) : Keeps (parseCallArgumentList expr sameTy expectedArgs) := by
  unfold parseCallArgumentList
  refine moves_bind keeps_getTok fun tok => moves_bind (keeps_expect _ _) fun found => ?_
  split
  · exact moves_pure
  · refine moves_bind keeps fun first => ?_
    cases first with
    | none => grind
    | some E =>
      refine moves_bind (moves_loop fun args => ?_) fun parsed => ?_
      · grind
      · grind

@[grind ←] theorem keeps_parseBuiltinFunction (keeps : Keeps expr) :
    Keeps (parseBuiltinFunction expr) := by
  unfold parseBuiltinFunction
  refine moves_bind keeps_getTok fun tok => moves_bind keeps_consumeToken fun _ => ?_
  split <;> grind

@[grind ←] theorem keeps_parseSubscriptList (keeps : Keeps expr) (L R : TokenKind) :
    Keeps (parseSubscriptList expr L R) := by
  unfold parseSubscriptList
  refine moves_bind (keeps_expect _ _) fun found => ?_
  split
  · exact moves_pure
  · refine moves_bind (moves_loop fun exprs => ?_) fun parsed => ?_
    · grind
    · grind

@[grind ←] theorem keeps_parseLoadWidth : Keeps (parseLoadWidth (F := F)) := by
  unfold parseLoadWidth
  grind

@[grind ←] theorem keeps_parseLoad (keeps : Keeps expr) (A : ArgId) (argLoc : List Char) :
    Keeps (parseLoad expr A argLoc) := by
  unfold parseLoad
  refine moves_bind (keeps_parseSubscriptList keeps _ _) fun exprs => ?_
  cases exprs with
  | none => exact moves_pure
  | some exprs =>
    refine moves_bind keeps_getContext fun ctx => moves_bind moves_ofOption fun arg => ?_
    split
    · grind
    · refine moves_bind keeps_parseLoadWidth fun loadWidth => moves_bind moves_check fun _ => ?_
      grind

@[grind ←] theorem keeps_parseNamedExpr (keeps : Keeps expr) : Keeps (parseNamedExpr expr) := by
  unfold parseNamedExpr
  refine moves_bind keeps_getTok fun tok => moves_bind keeps_parseIdentifier fun name => ?_
  refine moves_bind moves_ofOption fun varName => moves_bind keeps_getContext fun ctx => ?_
  split
  · exact moves_pure
  · split
    · grind
    · grind

@[grind ←] theorem keeps_parseExprPrimary (keeps : Keeps expr) : Keeps (parseExprPrimary expr) := by
  unfold parseExprPrimary
  refine moves_bind keeps_getTok fun tok => ?_
  split <;> grind

@[grind ←] theorem keeps_parseOperator {expr : Nat → Parse F (Option (Expr F))}
    (keeps : ∀ RBP, Keeps (expr RBP)) (RBP : Nat) (LHS : Option (Expr F)) :
    Keeps (parseOperator expr RBP LHS) := by
  unfold parseOperator
  refine moves_bind keeps_getTok fun tok => ?_
  by_cases loose : getBinOpPrecedence tok.kind ≤ RBP
  all_goals simp only [loose, if_true, if_false]
  · exact moves_pure
  · refine moves_bind keeps_consumeToken fun _ => moves_bind (keeps _) fun RHS => ?_
    cases RHS with
    | none => exact moves_pure
    | some RHS => grind

theorem keeps_parseExprFuel (fuel RBP : Nat) : Keeps (parseExprFuel (F := F) fuel RBP) := by
  induction fuel generalizing RBP with
  | zero =>
    unfold parseExprFuel
    exact moves_ofOption
  | succ fuel ih =>
    unfold parseExprFuel
    refine moves_bind (keeps_parseExprPrimary (ih 1)) fun LHS => ?_
    exact moves_loop fun LHS => keeps_parseOperator ih RBP LHS

@[grind ←] theorem keeps_parseExpr : Keeps (parseExpr (F := F)) := by
  unfold parseExpr
  exact moves_bind moves_getState fun s => keeps_parseExprFuel _ _

end Expressions

section Declarations

@[grind ←] theorem keeps_parseBuiltinType : Keeps (parseBuiltinType (F := F)) := by
  unfold parseBuiltinType
  refine moves_bind keeps_getTok fun tok => ?_
  split <;> grind

@[grind ←] theorem keeps_parseDeclName (message : String) :
    Keeps (parseDeclName (F := F) message) := by
  unfold parseDeclName
  grind

@[grind ←] theorem keeps_parseInit : Keeps (parseInit (F := F)) := by
  unfold parseInit
  grind

@[grind ←] theorem keeps_parseAssignOp (message : String) :
    Keeps (parseAssignOp (F := F) message) := by
  unfold parseAssignOp
  refine moves_bind keeps_getTok fun tok => ?_
  split <;> grind

@[grind ←] theorem keeps_parseLocalAssignment (var : VarId) (argLoc : List Char) :
    Keeps (parseLocalAssignment (F := F) var argLoc) := by
  unfold parseLocalAssignment
  refine moves_bind (keeps_parseAssignOp _) fun accumulate => ?_
  cases accumulate with
  | none => exact moves_pure
  | some accumulate =>
    refine moves_bind keeps_parseExpr fun storedValue => ?_
    cases storedValue with
    | none => exact moves_pure
    | some storedValue => grind

@[grind ←] theorem keeps_parseBufferAssignment (arg : ArgId) (argLoc : List Char) :
    Keeps (parseBufferAssignment (F := F) arg argLoc) := by
  unfold parseBufferAssignment
  refine moves_bind (keeps_parseSubscriptList keeps_parseExpr _ _) fun indices => ?_
  cases indices with
  | none => exact moves_pure
  | some indices =>
    refine moves_bind (keeps_parseAssignOp _) fun accumulate => ?_
    cases accumulate with
    | none => exact moves_pure
    | some accumulate =>
      refine moves_bind keeps_parseExpr fun storedValue => ?_
      cases storedValue with
      | none => exact moves_pure
      | some storedValue =>
        refine moves_bind keeps_getContext fun ctx => moves_bind moves_ofOption fun decl => ?_
        split
        · grind
        · grind

@[grind ←] theorem keeps_parseNamedStmt : Keeps (parseNamedStmt (F := F)) := by
  unfold parseNamedStmt
  refine moves_bind keeps_getTok fun tok => moves_bind keeps_parseIdentifier fun name => ?_
  refine moves_bind moves_ofOption fun varName => moves_bind keeps_getContext fun ctx => ?_
  split
  · exact keeps_parseLocalAssignment _ _
  · refine moves_bind keeps_getTok fun tok => ?_
    split <;> grind

@[grind ←] theorem keeps_parseLiteralOrDimExpr : Keeps (parseLiteralOrDimExpr (F := F)) := by
  unfold parseLiteralOrDimExpr
  refine moves_bind keeps_getTok fun tok => ?_
  split
  · grind
  · refine moves_bind keeps_parseIdentifier fun name => moves_bind moves_ofOption fun varName => ?_
    refine moves_bind keeps_getContext fun ctx => ?_
    split
    · exact moves_pure
    · split
      · grind
      · refine moves_bind (keeps_expect _ _) fun found => ?_
        split
        · exact moves_pure
        · grind
  · grind

@[grind ←] theorem keeps_parseForRange : Keeps (parseForRange (F := F)) := by
  unfold parseForRange
  refine moves_bind keeps_parseIntegerLiteral fun zero => ?_
  split
  · grind
  · refine moves_bind (keeps_expect _ _) fun range => ?_
    split
    · grind
    · refine moves_bind keeps_parseLiteralOrDimExpr fun endRange => ?_
      cases endRange with
      | none => grind
      | some endRange =>
        refine moves_bind (keeps_consumeIf _) fun stride => ?_
        split
        · refine moves_bind keeps_getTok fun tok => ?_
          grind
        · exact moves_pure

@[grind ←] theorem keeps_parseIfRange : Keeps (parseIfRange (F := F)) := by
  unfold parseIfRange
  refine moves_bind (keeps_expect _ _) fun _ => moves_bind keeps_parseExpr fun indexVal => ?_
  cases indexVal with
  | none => grind
  | some indexVal =>
    refine moves_bind (keeps_expect _ _) fun found => ?_
    split
    · grind
    · refine moves_bind keeps_parseLiteralOrDimExpr fun startRange => ?_
      cases startRange with
      | none => grind
      | some startRange =>
        refine moves_bind (keeps_expect _ _) fun range => ?_
        split
        · grind
        · refine moves_bind keeps_parseLiteralOrDimExpr fun endRange => ?_
          cases endRange with
          | none => grind
          | some endRange => exact moves_pure

end Declarations

/-! ## Parts that add let entries -/

/-- The let stack and the loop stack hold the same entries. -/
structure SameStacks (s s' : ParserState F) : Prop where
  lets : s'.ctx.letStack = s.ctx.letStack
  loops : s'.ctx.loopNextStack = s.ctx.loopNextStack

/-- The loop stack holds the same entries, and the let stack has them all below new ones. -/
structure LetsGrow (s s' : ParserState F) : Prop where
  lets : s.ctx.letStack <:+ s'.ctx.letStack
  loops : s'.ctx.loopNextStack = s.ctx.loopNextStack

section Relations

omit [Field F] [LinearOrder F]

instance SameStacks.instIsPreorder : IsPreorder (ParserState F) SameStacks where
  refl _ := ⟨rfl, rfl⟩
  trans _ _ _ first second := ⟨second.lets.trans first.lets, second.loops.trans first.loops⟩

instance LetsGrow.instIsPreorder : IsPreorder (ParserState F) LetsGrow where
  refl _ := ⟨List.suffix_refl _, rfl⟩
  trans _ _ _ first second :=
    ⟨List.IsSuffix.trans first.lets second.lets, second.loops.trans first.loops⟩

theorem SameContext.sameStacks {s s' : ParserState F} (same : SameContext s s') :
    SameStacks s s' := by
  unfold SameContext at same
  exact ⟨by rw [same], by rw [same]⟩

theorem SameStacks.letsGrow {s s' : ParserState F} (same : SameStacks s s') : LetsGrow s s' :=
  ⟨by rw [same.lets], same.loops⟩

theorem SameStacks.resolves {s s' : ParserState F} (same : SameStacks s s') (name : String) :
    s'.ctx.getLet name = s.ctx.getLet name ∧
      s'.ctx.getLoopByName name = s.ctx.getLoopByName name := by
  unfold ParserContext.getLet ParserContext.getLoopByName
  rw [same.lets, same.loops]
  exact ⟨rfl, rfl⟩

end Relations

theorem Keeps.sameStacks {x : Parse F α} (keeps : Keeps x) : x.Moves SameStacks :=
  keeps.mono fun _ _ => SameContext.sameStacks

theorem Keeps.letsGrow {x : Parse F α} (keeps : Keeps x) : x.Moves LetsGrow :=
  keeps.mono fun _ _ same => same.sameStacks.letsGrow

theorem parseLetStmt_letsGrow : (parseLetStmt (F := F)).Moves LetsGrow := by
  unfold parseLetStmt
  refine moves_bind (keeps_consumeTokenOf _).letsGrow fun _ => ?_
  refine moves_bind (keeps_parseDeclName _).letsGrow fun varName => ?_
  refine moves_bind (keeps_expect _ _).letsGrow fun _ => ?_
  refine moves_bind keeps_parseExpr.letsGrow fun storedValue => ?_
  cases storedValue with
  | none => exact moves_pure
  | some storedValue =>
    refine moves_bind moves_check fun _ => moves_bind moves_ofOption fun simplified => ?_
    exact moves_bind (moves_modifyState fun _ => ⟨List.suffix_cons _ _, rfl⟩) fun _ => moves_pure

theorem parseLets_letsGrow : (parseLets (F := F)).Moves LetsGrow := by
  refine moves_loop fun _ => moves_bind keeps_getTok.letsGrow fun tok => ?_
  split
  · refine moves_bind parseLetStmt_letsGrow fun failed => ?_
    split <;> exact moves_pure
  · exact moves_pure

theorem registerVar_sameStacks (varName : String) (type : ExprType) :
    (registerVar (F := F) varName type).Moves SameStacks := by
  unfold registerVar
  refine moves_bind moves_check fun _ => moves_bind keeps_getContext.sameStacks fun ctx => ?_
  refine moves_bind moves_assert fun _ => ?_
  exact moves_bind (moves_modifyState fun _ => ⟨rfl, rfl⟩) fun _ => moves_pure

theorem parseVarDecl_sameStacks : (parseVarDecl (F := F)).Moves SameStacks := by
  unfold parseVarDecl
  refine moves_bind (keeps_consumeTokenOf _).sameStacks fun _ => ?_
  refine moves_bind (keeps_parseDeclName _).sameStacks fun varName => ?_
  refine moves_bind (keeps_expect _ _).sameStacks fun _ => ?_
  refine moves_bind keeps_parseBuiltinType.sameStacks fun scalarsTy => ?_
  cases scalarsTy with
  | none => exact moves_pure
  | some scalarsTy =>
    refine moves_bind keeps_getTok.sameStacks fun tok => ?_
    refine moves_bind keeps_parseInit.sameStacks fun storedValue => ?_
    refine moves_bind keeps_getContext.sameStacks fun ctx => ?_
    split
    · exact moves_bind (keeps_diagnoseTok _).sameStacks fun _ => moves_pure
    · refine moves_bind (registerVar_sameStacks _ _) fun var => ?_
      cases storedValue with
      | none => exact moves_pure
      | some value => exact Keeps.sameStacks (by grind)

theorem parseVars_sameStacks (body : List (Stmt F)) : (parseVars body).Moves SameStacks := by
  refine moves_loop fun body => moves_bind keeps_getTok.sameStacks fun tok => ?_
  split
  · refine moves_bind parseVarDecl_sameStacks fun init => ?_
    split <;> exact moves_pure
  · exact moves_pure

/-! ## Statements and scopes -/

section Scopes

variable {scope : Parse F (List (Stmt F))}

/-- The loop that is pushed before the body is popped behind it. -/
theorem pushLoop_popLoop (indexName : String) (end_ stride : UInt32)
    (balanced : scope.Moves SameStacks) :
    (do
      let L ← pushLoop indexName end_ stride
      let body ← scope
      let K ← popLoop
      assert (K = L)
      pure (some (Stmt.loop L body)) : Parse F (Option (Stmt F))).Moves SameStacks := by
  intro s S s' returns
  simp only [pushLoop, popLoop, getContext, modifyContext, returns_bind, returns_pure,
    returns_getState, returns_modifyState, returns_check, returns_ofOption, returns_assert]
    at returns
  obtain ⟨L, s₂, ⟨_, _, ⟨-, rfl⟩, ctx, _, ⟨_, _, ⟨rfl, rfl⟩, rfl, rfl⟩, _, s₁, rfl, rfl, rfl⟩,
    body, s₃, inside, K, s₅, ⟨_, _, ⟨_, _, ⟨rfl, rfl⟩, rfl, rfl⟩, _, _, ⟨-, rfl⟩, _, _, rfl, -, rfl⟩,
    _, _, ⟨-, rfl⟩, -, rfl⟩ := returns
  have same := balanced _ _ _ inside
  exact ⟨same.lets, by rw [same.loops]; rfl⟩

theorem parseForStmt_sameStacks (balanced : scope.Moves SameStacks) :
    (parseForStmt scope).Moves SameStacks := by
  unfold parseForStmt
  refine moves_bind keeps_getTok.sameStacks fun tok => ?_
  refine moves_bind (keeps_consumeTokenOf _).sameStacks fun _ => ?_
  refine moves_bind (keeps_expect _ _).sameStacks fun paren => ?_
  -- The early returns come before the loop is pushed.
  split
  · exact moves_pure
  · refine moves_bind keeps_parseIdentifier.sameStacks fun indexName => ?_
    cases indexName with
    | none => exact moves_bind (keeps_diagnoseTok _).sameStacks fun _ => moves_pure
    | some indexName =>
      refine moves_bind (keeps_expect _ _).sameStacks fun found => ?_
      split
      · exact moves_pure
      · refine moves_bind keeps_parseForRange.sameStacks fun range => ?_
        refine moves_bind (keeps_expect _ _).sameStacks fun _ => moves_bind moves_check fun _ => ?_
        split
        · exact moves_bind (keeps_diagnose _ _).sameStacks fun _ => moves_pure
        · exact pushLoop_popLoop _ _ _ balanced

theorem parseIfStmt_sameStacks (balanced : scope.Moves SameStacks) :
    (parseIfStmt scope).Moves SameStacks := by
  unfold parseIfStmt
  refine moves_bind (keeps_consumeTokenOf _).sameStacks fun _ => ?_
  refine moves_bind keeps_parseIfRange.sameStacks fun range => ?_
  refine moves_bind (keeps_expect _ _).sameStacks fun _ => moves_bind moves_check fun _ => ?_
  exact moves_bind balanced fun body => moves_pure

theorem parseOneStmt_sameStacks (balanced : scope.Moves SameStacks) :
    (parseOneStmt scope).Moves SameStacks := by
  unfold parseOneStmt
  refine moves_bind keeps_getTok.sameStacks fun tok => ?_
  split
  · exact keeps_parseNamedStmt.sameStacks
  · exact parseForStmt_sameStacks balanced
  · exact parseIfStmt_sameStacks balanced
  · exact moves_bind (keeps_diagnoseTok _).sameStacks fun _ => moves_pure

/-- A round of `parseScope`, also one that recovers from an error, only adds let entries. -/
theorem parseScopeItem_letsGrow (balanced : scope.Moves SameStacks) (body : List (Stmt F)) :
    (parseScopeItem scope body).Moves LetsGrow := by
  unfold parseScopeItem
  refine moves_bind keeps_getTok.letsGrow fun tok => ?_
  split
  · exact moves_pure
  · refine moves_bind parseLets_letsGrow fun failed => ?_
    split
    · exact moves_bind (keeps_skipUntil _).letsGrow fun _ => moves_pure
    · refine moves_bind ((parseVars_sameStacks body).mono fun _ _ => SameStacks.letsGrow) fun vars => ?_
      split
      · exact moves_bind (keeps_skipUntil _).letsGrow fun _ => moves_pure
      · refine moves_bind ((parseOneStmt_sameStacks balanced).mono fun _ _ => SameStacks.letsGrow)
          fun S => ?_
        cases S with
        | some S => exact moves_pure
        | none => exact moves_bind (keeps_skipUntil _).letsGrow fun _ => moves_pure

theorem parseBraces_letsGrow (balanced : scope.Moves SameStacks) :
    (parseBraces scope).Moves LetsGrow := by
  unfold parseBraces
  refine moves_bind (keeps_expect _ _).letsGrow fun _ => ?_
  refine moves_bind (moves_loop (parseScopeItem_letsGrow balanced)) fun body => ?_
  exact moves_bind (keeps_expect _ _).letsGrow fun _ => moves_pure

theorem parseScopeFuel_sameStacks (fuel : Nat) : (parseScopeFuel (F := F) fuel).Moves SameStacks := by
  induction fuel with
  | zero =>
    unfold parseScopeFuel
    exact moves_ofOption
  | succ fuel ih =>
    intro s body s' returns
    simp only [parseScopeFuel, restoreLets, getContext, modifyContext, returns_bind, returns_pure,
      returns_getState, returns_modifyState, returns_assert] at returns
    obtain ⟨ctx, _, ⟨_, _, ⟨rfl, rfl⟩, rfl, rfl⟩, _, s₁, inside, _, s₂,
      ⟨_, _, ⟨_, _, ⟨rfl, rfl⟩, rfl, rfl⟩, _, _, ⟨-, rfl⟩, rfl⟩, -, rfl⟩ := returns
    have grown := parseBraces_letsGrow ih _ _ _ inside
    exact ⟨(List.suffix_iff_eq_drop.mp grown.lets).symm, grown.loops⟩

theorem parseScope_sameStacks : (parseScope (F := F)).Moves SameStacks := by
  unfold parseScope
  exact moves_bind moves_getState fun _ => parseScopeFuel_sameStacks _

/-- Whenever `x` returns, the let stack and the loop stack hold what they held before it, and every
name of theirs stands for what it stood for. -/
def RestoresStacks (x : Parse F α) : Prop :=
  ∀ s a s', x.Returns s a s' → SameStacks s s' ∧ ∀ name,
    s'.ctx.getLet name = s.ctx.getLet name ∧ s'.ctx.getLoopByName name = s.ctx.getLoopByName name

theorem restoresStacks_of_sameStacks {x : Parse F α} (balanced : x.Moves SameStacks) :
    RestoresStacks x := by
  intro s a s' returns
  have same := balanced s a s' returns
  exact ⟨same, same.resolves⟩

/-- Scopes, for statements and if statements leave the stacks balanced, from every context and on
every path, also where they are nested in other scopes. -/
theorem parseScope_restoresStacks
    (isScope : scope = parseScope ∨ ∃ fuel, scope = parseScopeFuel fuel) :
    RestoresStacks scope ∧ RestoresStacks (parseForStmt scope) ∧
      RestoresStacks (parseIfStmt scope) := by
  have balanced : scope.Moves SameStacks := by
    rcases isScope with rfl | ⟨fuel, rfl⟩
    · exact parseScope_sameStacks
    · exact parseScopeFuel_sameStacks fuel
  exact ⟨restoresStacks_of_sameStacks balanced,
    restoresStacks_of_sameStacks (parseForStmt_sameStacks balanced),
    restoresStacks_of_sameStacks (parseIfStmt_sameStacks balanced)⟩

end Scopes

/-- A for statement whose body stops at an error behind a let statement, in a scope with a let name
and a loop. -/
def brokenLoop : ParserState ℚ where
  curPtr := " (i in 0 .. 4) { let x = 1 y } ".toList
  tok := ⟨.kwFor, "for".toList, "for (i in 0 .. 4) { let x = 1 y } ".toList, nofun⟩
  numErrors := 0
  ctx := {
    prog := none
    pragmas := []
    argMap := []
    varMap := []
    loopNextStack := [⟨0, "j", 8, 1⟩]
    letStack := [("x", .const 5)]
    varStack := []
    nextLoop := 1 }

/-- The statement returns after reporting an error, and `x` is the outer one again. -/
theorem brokenLoop_restoresStacks : ∃ S s',
    (parseForStmt parseScope).Returns brokenLoop S s' ∧ s'.numErrors = 1 ∧
      SameStacks brokenLoop s' := by
  have errors : ((parseForStmt parseScope).run brokenLoop).2.map (·.2.numErrors) = some 1 := by
    decide +kernel
  obtain ⟨⟨S, s'⟩, returns, one⟩ := Option.map_eq_some_iff.mp errors
  have returned : (parseForStmt parseScope).Returns brokenLoop S s' := returns
  exact ⟨S, s', returned, one,
    ((parseScope_restoresStacks (.inl rfl)).2.1 brokenLoop S s' returned).1⟩

end Bistra

import Bistra.Parser.Context

/-! # Parsing expressions

The functions of `Parser.cpp` that parse expressions.  A function that returns a null pointer, or
true, in the source returns `none` here.  `expr` is `parseExpr` for the expressions inside.
-/

namespace Bistra

variable {F : Type} [Field F] [LinearOrder F]

open Procedure

/-- `getBinOpPrecedence`, with the numbers of `BinaryOps.def`. -/
def getBinOpPrecedence : TokenKind → Nat
  | .period => 100
  | .bang => 90
  | .mult | .div | .rem => 80
  | .plus | .minus => 70
  | .gt | .gte | .lt | .lte => 60
  | .notEqual | .equal => 50
  | _ => 0

/-- The operators that `parseExpr` has nodes for. -/
def operatorKind : String → Option BinOpKind
  | "+" => some .add
  | "*" => some .mul
  | "/" => some .div
  | "-" => some .sub
  | _ => none

def builtinBinary : TokenKind → Option BinOpKind
  | .builtinFuncMax => some .max
  | .builtinFuncMin => some .min
  | .builtinFuncPow => some .pow
  | _ => none

def builtinUnary : TokenKind → Option UnaryOpKind
  | .builtinFuncLog => some .log
  | .builtinFuncExp => some .exp
  | .builtinFuncSqrt => some .sqrt
  | .builtinFuncAbs => some .abs
  | _ => none

omit [Field F] [LinearOrder F] in
/-- `tryToAdjustTypes`; `none` is a failed assertion. -/
def tryToAdjustTypes (LHS RHS : Expr F) : Option (Expr F × Expr F) :=
  let LT := LHS.getType
  let RT := RHS.getType
  if LT = RT then some (LHS, RHS)
  else if 0 < LT.width.val ∧ RT.width.val = 1 then (Expr.mkBroadcast RHS LT.width).map (LHS, ·)
  else if 0 < RT.width.val ∧ LT.width.val = 1 then (Expr.mkBroadcast LHS RT.width).map (·, RHS)
  else some (LHS, RHS)

def parseCallArgumentList (expr : Parse F (Option (Expr F))) (sameTy : Bool) (expectedArgs : Nat) :
    Parse F (Option (List (Expr F))) := do
  let callLoc := (← getTok).start
  if !(← expect .lParen "expecting left paren in argument list.") then pure none
  else
    -- Parse the first mandatory argument.
    match ← expr with
    | none =>
      skipUntilOneOf [.rParen, .rBrace]
      pure none
    | some E =>
      -- Parse the remaining optional arguments.
      let parsed ← loop (fun args => do
        if (← getTok).kind = .comma then
          consumeTokenOf .comma
          match ← expr with
          | some E => pure (.inl (args ++ [E]))
          | none =>
            skipUntilOneOf [.rParen, .rBrace]
            pure (.inr none)
        else pure (.inr (some args))) [E]
      match parsed with
      | none => pure none
      | some args =>
        onlyIf (!(← expect .rParen "expecting right paren in argument list")) (skipUntil .gt)
        if expectedArgs ≠ 0 ∧ expectedArgs ≠ args.length then
          diagnoseTok ("expecting " ++ toString expectedArgs ++ " arguments")
          pure none
        else if sameTy && !(args.all fun e => e.getType = E.getType) then
          diagnose callLoc "passing arguments of different types."
          pure none
        else pure (some args)

def parseBuiltinFunction (expr : Parse F (Option (Expr F))) : Parse F (Option (Expr F)) := do
  let kind := (← getTok).kind
  consumeToken
  match builtinBinary kind, builtinUnary kind with
  | some op, _ =>
    match ← parseCallArgumentList expr true 2 with
    | none => pure none
    | some args =>
      let lhs ← ofOption args[0]?
      let rhs ← ofOption args[1]?
      let e ← ofOption (Expr.mkBinary op lhs rhs)
      pure (some e)
  | none, some op =>
    match ← parseCallArgumentList expr false 1 with
    | none => pure none
    | some args =>
      let val ← ofOption args[0]?
      pure (some (.unary op val))
  | none, none =>
    diagnoseTok "Unable to parse built-in function"
    pure none

def parseSubscriptList (expr : Parse F (Option (Expr F))) (L R : TokenKind) :
    Parse F (Option (List (Expr F))) := do
  if !(← expect L "expecting open brace for parameter list.") then pure none
  else
    let parsed ← loop (fun exprs => do
      match ← expr with
      | none => pure (.inr none)
      | some e =>
        let exprs := exprs ++ [e]
        if (← getTok).kind = R then pure (.inr (some exprs))
        else if (← getTok).kind = .comma then
          consumeTokenOf .comma
          pure (.inl exprs)
        else
          diagnoseTok "expecting comma or end of parameter list."
          pure (.inr none)) []
    match parsed with
    | none => pure none
    | some exprs =>
      consumeTokenOf R
      pure (some exprs)

/-- The width of a load, from the vector extension `.8` behind the subscripts. -/
def parseLoadWidth : Parse F Int32 := do
  if ← consumeIf .period then
    let periodLoc := (← getTok).start
    match ← parseIntegerLiteralOrLetConstant with
    | some loadWidth => pure loadWidth
    | none =>
      diagnose periodLoc "expecting vector width."
      pure 1
  else pure 1

/-- The width `n`, if `ExprType` admits it. -/
def VecWidth.ofUInt32? (n : UInt32) : Option VecWidth :=
  if bounds : 0 < n.toNat ∧ n.toNat < 64 then some ⟨n.toNat, bounds⟩ else none

/-- The load of a buffer, at the bracket behind its name. -/
def parseLoad (expr : Parse F (Option (Expr F))) (A : ArgId) (argLoc : List Char) :
    Parse F (Option (Expr F)) := do
  match ← parseSubscriptList expr .lSquare .rSquare with
  | none => pure none
  | some exprs =>
    let ctx ← getContext
    let arg ← ofOption ctx.argMap[A]?
    if arg.type.getNumDims ≠ exprs.length then
      diagnose argLoc "Invalid number of indices for buffer subscript."
      pure none
    else
      let loadWidth ← parseLoadWidth
      check (.vectorWidth loadWidth.toUInt32)
      let width ← ofOption (VecWidth.ofUInt32? loadWidth.toUInt32)
      check (.subscripts exprs)
      let gep ← ofOption (ctx.decls.mkGEP A exprs)
      let load ← ofOption (Expr.mkLoad gep ⟨arg.type.elementType, width⟩)
      pure (some load)

omit [Field F] [LinearOrder F] in
/-- `Expr::clone` on an expression that belongs to no program: `LoadLocalExpr::verify` asserts that
there is one. -/
def Expr.cloneUnowned (decls : Decls) : Expr F → Option (Expr F) :=
  Expr.rebuild decls fun
    | .loadLocal _ _ => none
    | e => e.cloneLeaf decls id

/-- The case of an identifier in `parseExprPrimary`. -/
def parseNamedExpr (expr : Parse F (Option (Expr F))) : Parse F (Option (Expr F)) := do
  let argLoc := (← getTok).start
  let varName ← ofOption (← parseIdentifier)
  let ctx ← getContext
  match ctx.getLoopByName varName with
  | some L => pure (some (.indexOf L.id))
  | none =>
    match ctx.getVar varName with
    | some LV =>
      let e ← ofOption (ctx.decls.mkLoadLocal LV)
      pure (some e)
    | none =>
      if (← getTok).kind = .lSquare then
        match ctx.getArg varName with
        | none =>
          diagnoseTok ("unknown subscript argument " ++ varName ++ ".")
          pure none
        | some A => parseLoad expr A argLoc
      else
        match ctx.getLet varName with
        | some E =>
          check (.clone E)
          let e ← ofOption (E.cloneUnowned ctx.decls)
          pure (some e)
        | none =>
          diagnoseTok ("unknown identifier: " ++ varName ++ ".")
          pure none

/-- `unescapeCString`: a backslash is dropped with the character behind it unless they form an
escape sequence. -/
def unescapeCString : List Char → List Char
  | '\\' :: c :: cs =>
    match c with
    | '\\' => '\\' :: unescapeCString cs
    | 'n' => '\n' :: unescapeCString cs
    | 't' => '\t' :: unescapeCString cs
    | _ => unescapeCString cs
  | c :: cs => c :: unescapeCString cs
  | [] => []

def parseExprPrimary (expr : Parse F (Option (Expr F))) : Parse F (Option (Expr F)) := do
  match (← getTok).kind with
  | .integerLiteral =>
    let num ← ofOption (← parseIntegerLiteral)
    pure (some (.const num.toInt))
  | .floatLiteral =>
    let num ← ofOption (← parseFloatLiteral)
    pure (some (.constFP num))
  | .stringLiteral =>
    let str ← ofOption (← parseStringLiteral)
    pure (some (.constString (String.ofList (unescapeCString str.toList))))
  | .identifier => parseNamedExpr expr
  | .lParen =>
    consumeTokenOf .lParen
    match ← expr with
    | none => pure none
    | some subExpr =>
      if (← getTok).kind ≠ .rParen then
        diagnoseTok "expected right paren to close the expression."
        pure none
      else
        consumeTokenOf .rParen
        pure (some subExpr)
  | .builtinFuncMin | .builtinFuncMax | .builtinFuncPow | .builtinFuncLog | .builtinFuncExp
  | .builtinFuncSqrt | .builtinFuncAbs => parseBuiltinFunction expr
  | _ =>
    diagnoseTok "unknown expression."
    pure none

/-- A round of the loop of `parseExpr`: an operator and its right operand. -/
def parseOperator (expr : Nat → Parse F (Option (Expr F))) (RBP : Nat) (LHS : Option (Expr F)) :
    Parse F (Option (Expr F) ⊕ Option (Expr F)) := do
  let tok ← getTok
  let LBP := getBinOpPrecedence tok.kind
  if LBP ≤ RBP then pure (.inr LHS)
  else
    consumeToken
    match ← expr LBP with
    | none => pure (.inr none)
    | some RHS =>
      match operatorKind tok.getText with
      | none =>
        diagnoseTok ("unsupported operator: '" ++ tok.getText ++ "'.")
        pure (.inr none)
      | some kind =>
        -- The left operand is only used here, and may be null.
        check (.operand LHS)
        let LHS ← ofOption LHS
        let adjusted ← ofOption (tryToAdjustTypes LHS RHS)
        if adjusted.1.getType ≠ adjusted.2.getType then
          diagnose tok.start "operator types mismatch"
          pure (.inr none)
        else
          let e ← ofOption (Expr.mkBinary kind adjusted.1 adjusted.2)
          pure (.inl (some e))

/-- `parseExpr(RBP)`, for expressions that are nested at most `fuel` deep. -/
def parseExprFuel : Nat → Nat → Parse F (Option (Expr F))
  | 0, _ => ofOption none
  | fuel + 1, RBP => do
    let LHS ← parseExprPrimary (parseExprFuel fuel 1)
    loop (parseOperator (parseExprFuel fuel) RBP) LHS

def parseExpr : Parse F (Option (Expr F)) := do
  parseExprFuel ((← getState).remaining + 1) 1

end Bistra

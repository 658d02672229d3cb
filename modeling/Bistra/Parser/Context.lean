import Mathlib.Algebra.Field.Defs
import Bistra.Library.Procedure
import Bistra.Parser.Lexer
import Bistra.Program.Clone
import Bistra.Transforms.SimplifyExpr

/-! # The state of the parser

`ParserContext`, the current token, and the steps on which a run of the parser can go wrong.
A parsing function is a `Procedure`: it stops at an illegal step and at a failed assertion.
-/

namespace Bistra

inductive PragmaKind where
  | vectorize | unroll | widen | tile | peel | hoist | sink | fuse | distribute | other
  deriving DecidableEq, Repr

structure PragmaCommand where
  kind : PragmaKind
  loopName : String
  newName : String
  param : Int32
  deriving DecidableEq

/-- `ParserContext`.  The stacks start with the value that was registered last; `nextLoop` numbers
the `Loop` objects. -/
structure ParserContext (F : Type) where
  prog : Option (Program F)
  pragmas : List PragmaCommand
  argMap : List Argument
  varMap : List LocalVar
  loopNextStack : List Loop
  letStack : List (String × Expr F)
  varStack : List (String × VarId)
  nextLoop : LoopId

/-- The parser: the pointer of the lexer, the current token, the number of errors, and the
context. -/
structure ParserState (F : Type) where
  curPtr : List Char
  tok : Token
  numErrors : Nat
  ctx : ParserContext F

variable {F : Type}

namespace ParserContext

def getLoopByName (ctx : ParserContext F) (name : String) : Option Loop :=
  ctx.loopNextStack.find? (·.name = name)

/-- `getLetStack().getByName`. -/
def getLet (ctx : ParserContext F) (name : String) : Option (Expr F) :=
  (ctx.letStack.find? (·.1 = name)).map (·.2)

/-- `getVarStack().getByName`. -/
def getVarFromStack (ctx : ParserContext F) (name : String) : Option VarId :=
  (ctx.varStack.find? (·.1 = name)).map (·.2)

/-- `getVarMap().getByName`. -/
def getVar (ctx : ParserContext F) (name : String) : Option VarId :=
  ctx.varMap.findIdx? (·.name = name)

/-- `getArgMap().getByName`. -/
def getArg (ctx : ParserContext F) (name : String) : Option ArgId :=
  ctx.argMap.findIdx? (·.name = name)

def decls (ctx : ParserContext F) : Decls := ⟨ctx.argMap, ctx.varMap⟩

def scope (ctx : ParserContext F) : List LoopId := ctx.loopNextStack.map (·.id)

end ParserContext

/-! ## Steps -/

def Expr.loadsNoLocal (e : Expr F) : Bool :=
  e.atoms.all fun
    | .loadLocal _ _ => false
    | _ => true

/-- What happens on a run of the parser: first the steps that the parser takes without making sure
that they are legal, then the declarations and statements that it creates. -/
inductive ParseStep (F : Type) where
  /-- `diagnose(Error, loc, message)`. -/
  | diagnose (loc : List Char) (message : String)
  /-- `setToken` with this text. -/
  | setToken (text : List Char)
  /-- The operand of a new node. -/
  | operand (e : Option (Expr F))
  /-- `endRange % stride`. -/
  | modulo (endRange stride : Int32)
  /-- `ExprType` with this width. -/
  | vectorWidth (width : UInt32)
  /-- `GEPExpr` with these subscripts. -/
  | subscripts (indices : List (Expr F))
  /-- `simplifyExpr`. -/
  | fold (e : Expr F)
  /-- `clone` of an expression that belongs to no program. -/
  | clone (e : Expr F)
  | newVar (name : String)
  | newLoop (end_ stride : UInt32)
  | newIfRange (start end_ : Int32)
  | newCall (params : List (Expr F))
  | newStore (elementType : ElemKind) (value : Expr F)

section Parse

variable [Field F] [LinearOrder F]

/-- The conditions of the assertions that the steps meet, and of the operations of the machine that
are not defined everywhere. -/
def ParseStep.legal : ParseStep F → Bool
  | .diagnose loc _ => !loc.isEmpty
  | .setToken text => !text.isEmpty
  | .operand e => e.isSome
  | .modulo endRange stride => stride ≠ 0 && !(endRange = Int32.minValue && stride = -1)
  | .vectorWidth width => 0 < width && width < 64
  | .subscripts indices => indices.all fun e => e.getType.isIndexTy
  | .fold e => e.simplifyExpr.isSome && e.foldsInt64
  | .clone e => e.loadsNoLocal
  | .newVar _ | .newLoop _ _ | .newIfRange _ _ | .newCall _ | .newStore _ _ => true

/-- A function of the parser. -/
abbrev Parse (F : Type) [Field F] [LinearOrder F] (α : Type) :=
  Procedure (ParseStep.legal (F := F)) (ParserState F) α

open Procedure

def getTok : Parse F Token := do return (← getState).tok

def getContext : Parse F (ParserContext F) := do return (← getState).ctx

def modifyContext (f : ParserContext F → ParserContext F) : Parse F Unit :=
  modifyState fun s => { s with ctx := f s.ctx }

/-- Runs `x` if the condition holds. -/
def onlyIf (condition : Bool) (x : Parse F Unit) : Parse F Unit :=
  if condition then x else pure ()

/-! ## Diagnostics and tokens -/

def diagnose (loc : List Char) (message : String) : Parse F Unit := do
  check (.diagnose loc message)
  modifyState fun s => { s with numErrors := s.numErrors + 1 }

/-- `ctx_.diagnose(Error, Tok.getLoc(), message)`. -/
def diagnoseTok (message : String) : Parse F Unit := do
  diagnose (← getTok).start message

/-- `L_->Lex(Tok)`. -/
def lexTok : Parse F Unit := do
  let s ← getState
  let next := lex s.curPtr
  onlyIf (next.1.kind = .unknown) (diagnose next.2 "Invalid character.")
  check (.setToken next.1.text)
  modifyState fun s => { s with tok := next.1, curPtr := next.2 }

def consumeToken : Parse F Unit := do
  assert ((← getTok).kind ≠ .eof)
  lexTok

/-- `consumeToken(K)`. -/
def consumeTokenOf (K : TokenKind) : Parse F Unit := do
  assert ((← getTok).kind = K)
  consumeToken

def consumeIf (K : TokenKind) : Parse F Bool := do
  if (← getTok).kind = K then
    consumeTokenOf K
    pure true
  else pure false

/-- `consumeIf(K)`, with an error at the token that is there instead; the result tells whether `K`
has been found. -/
def expect (K : TokenKind) (message : String) : Parse F Bool := do
  if ← consumeIf K then pure true
  else
    diagnoseTok message
    pure false

/-- An upper bound of the number of tokens that can be consumed. -/
def ParserState.remaining (s : ParserState F) : Nat :=
  if s.tok.kind = .eof then 0 else s.curPtr.length + 1

/-- A loop that consumes a token in every round. -/
def loop {α β : Type} (body : β → Parse F (β ⊕ α)) (b : β) : Parse F α := do
  iterate ((← getState).remaining + 1) body b

/-- The loop of `skipUntil` and `skipUntilOneOf`. -/
def skipUntilOneOf (kinds : List TokenKind) : Parse F Unit :=
  loop (fun _ => do
    let tok ← getTok
    if tok.kind = .eof ∨ tok.kind ∈ kinds then pure (.inr ())
    else
      consumeToken
      pure (.inl ())) ()

def skipUntil (K : TokenKind) : Parse F Unit :=
  if K = .unknown then pure () else skipUntilOneOf [K]

/-! ## Literals and names -/

/-- `std::strtol` on the text of a token, cut to `long` as the library does. -/
def strtol (text : List Char) : Int :=
  let digits := fun (cs : List Char) =>
    ((cs.takeWhile Char.isDigit).foldl (fun n c => 10 * n + (c.toNat - '0'.toNat)) 0 : Nat)
  match text with
  | '-' :: rest => max (-2 ^ 63) (-digits rest)
  | _ => min (2 ^ 63 - 1) (digits text)

def atoi (text : List Char) : Int32 := (strtol text).toInt32

/-- `std::atof` on the text of a token. -/
def atof (text : List Char) : F :=
  let digits := fun (n : Nat) (cs : List Char) =>
    (cs.takeWhile Char.isDigit).foldl (fun n c => 10 * n + (c.toNat - '0'.toNat)) n
  let unsigned := fun (cs : List Char) =>
    let whole := digits 0 cs
    match cs.dropWhile Char.isDigit with
    | '.' :: cs => ((digits whole cs : Nat) : F) / 10 ^ (cs.takeWhile Char.isDigit).length
    | _ => (whole : F)
  match text with
  | '-' :: rest => -unsigned rest
  | _ => unsigned text

/-- `parseIntegerLiteral`; the result is `none` where the source returns true. -/
def parseIntegerLiteral : Parse F (Option Int32) := do
  let tok ← getTok
  if tok.kind = .integerLiteral then
    consumeTokenOf .integerLiteral
    pure (some (atoi tok.text))
  else pure none

def parseStringLiteral : Parse F (Option String) := do
  let tok ← getTok
  if tok.kind = .stringLiteral then
    consumeTokenOf .stringLiteral
    pure (some tok.getText)
  else pure none

def parseFloatLiteral : Parse F (Option F) := do
  let tok ← getTok
  if tok.kind = .floatLiteral then
    let _ ← consumeIf .floatLiteral
    pure (some (atof tok.text))
  else pure none

def parseIdentifier : Parse F (Option String) := do
  let tok ← getTok
  if tok.kind = .identifier then
    consumeTokenOf .identifier
    pure (some tok.getText)
  else pure none

def parseIntegerLiteralOrLetConstant : Parse F (Option Int32) := do
  match ← parseIntegerLiteral with
  | some val => pure (some val)
  | none =>
    let loc := (← getTok).start
    match ← parseIdentifier with
    | none => pure none
    | some varName =>
      match (← getContext).getLet varName with
      | some (.const val) => pure (some val.toInt32)
      | some _ =>
        diagnose loc ("variable '" ++ varName ++ "' is not a simple constant")
        pure none
      | none =>
        diagnose loc ("Unknown identifier '" ++ varName ++ "'")
        pure none

end Parse

end Bistra

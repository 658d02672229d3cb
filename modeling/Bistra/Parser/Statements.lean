import Bistra.Parser.Expressions

/-! # Parsing statements, functions and scripts

The rest of `Parser.cpp`.  A function that returns a null pointer, or true, in the source returns
`none` here.  `scope` is `parseScope` for the scopes inside, and `uninit` is the value that the
variable `dimVal` of `parseNamedType` happens to have before it is set.
-/

namespace Bistra

/-- `Type(elemTy, dims, names)`. -/
def TensorType.ofNamedDims (elementType : ElemKind) (dims : List (String × UInt32)) : TensorType where
  sizes := dims.map (·.2)
  names := dims.map (·.1)
  elementType := elementType
  namesLength := by simp

def TensorType.getDimSizeByName (t : TensorType) (name : String) : UInt32 :=
  (((t.names.zip t.sizes).find? (·.1 = name)).map (·.2)).getD 0

variable {F : Type} [Field F] [LinearOrder F]

open Procedure

/-! ## Types -/

/-- `parseTypePair`: whether it fails, and the name and the value that it leaves. -/
def parseTypePair (name : String) (val : Int32) : Parse F (Bool × String × Int32) := do
  match ← parseIdentifier with
  | none =>
    diagnoseTok "expecting dimension name."
    pure (true, name, val)
  | some name =>
    if !(← expect .colon ("expecting colon after dimension name " ++ name ++ ".")) then
      pure (true, name, val)
    else
      match ← parseIntegerLiteralOrLetConstant with
      | none =>
        diagnoseTok ("expecting integer or constant after dimension name " ++ name ++ ".")
        pure (true, name, val)
      | some val => pure (false, name, val)

def parseBuiltinType : Parse F (Option ElemKind) := do
  match (← getTok).kind with
  | .builtinTypeFloat =>
    consumeToken
    pure (some .float32Ty)
  | .builtinTypeInt8 =>
    consumeToken
    pure (some .int8Ty)
  | .builtinTypeIndex =>
    consumeToken
    pure (some .indexTy)
  | _ =>
    diagnoseTok "expecting typename"
    pure none

/-- The loop of `parseNamedType` over the optional dimensions. -/
def parseDims (uninit : Int32) (dims : List (String × UInt32)) : Parse F (List (String × UInt32)) :=
  loop (fun dims => do
    if (← getTok).kind = .comma then
      consumeTokenOf .comma
      let dim ← parseTypePair "" uninit
      if dim.1 then
        skipUntil .gt
        pure (.inr dims)
      else pure (.inl (dims ++ [(dim.2.1, dim.2.2.toUInt32)]))
    else pure (.inr dims)) dims

/-- `parseNamedType`: whether it fails, and the type and the name that it leaves. -/
def parseNamedType (uninit : Int32) (T : TensorType) : Parse F (Bool × TensorType × String) := do
  let name := (← getTok).getText
  if !(← expect .identifier "expecting buffer argument name") then pure (true, T, name)
  else
    let _ ← expect .colon ("expecting colon after typename: \"" ++ name ++ "\"")
    match ← parseBuiltinType with
    | none => pure (true, T, name)
    | some scalarsTy =>
      if !(← expect .lt "expecting dimension list") then pure (true, T, name)
      else
        -- Parse the first mandatory dimension, which is registered even after an error.
        let dim ← parseTypePair "" uninit
        onlyIf dim.1 (skipUntilOneOf [.comma, .rParen])
        let dims ← parseDims uninit [(dim.2.1, dim.2.2.toUInt32)]
        onlyIf (!(← expect .gt "expecting dimension list")) (skipUntil .gt)
        pure (false, .ofNamedDims scalarsTy dims, name)

/-! ## Declarations -/

/-- The name in a declaration; it is empty after an error. -/
def parseDeclName (message : String) : Parse F String := do
  match ← parseIdentifier with
  | some varName => pure varName
  | none =>
    diagnoseTok message
    pure ""

/-- `parseLetStmt`; true is an error. -/
def parseLetStmt : Parse F Bool := do
  consumeTokenOf .kwLet
  let varName ← parseDeclName "expecting a variable name in 'let' expr"
  let _ ← expect .assign "expecting assignment in let expression"
  match ← parseExpr with
  | none => pure true
  | some storedValue =>
    -- Simplify the expression before saving it.
    check (.fold storedValue)
    let simplified ← ofOption storedValue.simplifyExpr
    modifyContext fun ctx => { ctx with letStack := (varName, simplified.1) :: ctx.letStack }
    pure false

/-- `getVarMap().registerValue(var)` and `getVarStack().registerValue(varName, var)`. -/
def registerVar (varName : String) (type : ExprType) : Parse F VarId := do
  check (.newVar varName)
  let ctx ← getContext
  assert (ctx.getVar varName).isNone
  let var := ctx.varMap.length
  modifyContext fun ctx => { ctx with
    varMap := ctx.varMap ++ [⟨varName, type⟩], varStack := (varName, var) :: ctx.varStack }
  pure var

/-- The value that is assigned in a variable declaration. -/
def parseInit : Parse F (Option (Expr F)) := do
  if ← consumeIf .assign then parseExpr else pure none

/-- `parseVarDecl`; the statements are those that it adds to the scope. -/
def parseVarDecl : Parse F (Option (List (Stmt F))) := do
  consumeTokenOf .kwVar
  let varName ← parseDeclName "expecting a variable name in var decleration"
  let _ ← expect .colon "expecting colon in var expression"
  match ← parseBuiltinType with
  | none => pure none
  | some scalarsTy =>
    let storedValLoc := (← getTok).start
    -- Parse the assignment to the variable.
    let storedValue ← parseInit
    if ((← getContext).getVar varName).isSome then
      diagnoseTok (varName ++ " variable with this name already exists")
      pure none
    else
      let type := ExprType.scalar scalarsTy
      let var ← registerVar varName type
      match storedValue with
      | none => pure (some [])
      | some value =>
        if value.getType ≠ type then
          diagnose storedValLoc "assignment types mismatch"
          pure none
        else
          let init ← ofOption ((← getContext).decls.mkStoreLocal var value false)
          pure (some [init])

/-! ## Statements -/

/-- The assignment operator behind the target of an assignment: whether it accumulates. -/
def parseAssignOp (message : String) : Parse F (Option Bool) := do
  match (← getTok).kind with
  | .plusEquals =>
    consumeToken
    pure (some true)
  | .assign =>
    consumeToken
    pure (some false)
  | _ =>
    diagnoseTok message
    pure none

/-- The assignment of a local variable, behind its name. -/
def parseLocalAssignment (var : VarId) (argLoc : List Char) : Parse F (Option (Stmt F)) := do
  match ← parseAssignOp "expecting assignment operator after local variable access." with
  | none => pure none
  | some accumulate =>
    match ← parseExpr with
    | none => pure none
    | some storedValue =>
      let ctx ← getContext
      let decl ← ofOption ctx.varMap[var]?
      if decl.type ≠ storedValue.getType then
        diagnose argLoc "invalid assignment type"
        pure none
      else
        let S ← ofOption (ctx.decls.mkStoreLocal var storedValue accumulate)
        pure (some S)

/-- The store to a buffer, at the bracket behind its name. -/
def parseBufferAssignment (arg : ArgId) (argLoc : List Char) : Parse F (Option (Stmt F)) := do
  match ← parseSubscriptList parseExpr .lSquare .rSquare with
  | none => pure none
  | some indices =>
    match ← parseAssignOp "expecting assignment operator after buffer access." with
    | none => pure none
    | some accumulate =>
      match ← parseExpr with
      | none => pure none
      | some storedValue =>
        let ctx ← getContext
        let decl ← ofOption ctx.argMap[arg]?
        if decl.type.getNumDims ≠ indices.length then
          diagnose argLoc "Invalid number of indices for argument subscript"
          pure none
        else
          check (.subscripts indices)
          let gep ← ofOption (ctx.decls.mkGEP arg indices)
          check (.newStore decl.type.elementType storedValue)
          let S ← ofOption (Stmt.mkStore gep storedValue accumulate)
          pure (some S)

/-- The statements that start with an identifier. -/
def parseNamedStmt : Parse F (Option (Stmt F)) := do
  let argLoc := (← getTok).start
  let varName ← ofOption (← parseIdentifier)
  let ctx ← getContext
  match ctx.getVarFromStack varName with
  | some var => parseLocalAssignment var argLoc
  | none =>
    -- Parse function calls.
    if (← getTok).kind = .lParen then
      match ← parseSubscriptList parseExpr .lParen .rParen with
      | none => pure none
      | some params =>
        check (.newCall params)
        pure (some (.call varName params))
    else
      match ctx.getArg varName with
      | none =>
        diagnoseTok "accessing unknown variable."
        pure none
      | some arg =>
        if (← getTok).kind = .lSquare then parseBufferAssignment arg argLoc
        else
          diagnoseTok ("expecting subscript after identifier " ++ varName ++ ".")
          pure none

def parseLiteralOrDimExpr : Parse F (Option Int32) := do
  match (← getTok).kind with
  | .integerLiteral => parseIntegerLiteral
  | .identifier =>
    let varName ← ofOption (← parseIdentifier)
    let ctx ← getContext
    match ctx.getLet varName with
    | some (.const val) => pure (some val.toInt32)
    | _ =>
      match ctx.getArg varName with
      | none =>
        diagnoseTok ("unexpected argument name in for loop range: " ++ varName)
        pure none
      | some arg =>
        if !(← expect .period ("expecting a member access in loop range: " ++ varName)) then
          pure none
        else
          match ← parseIdentifier with
          | none =>
            diagnoseTok ("expecting dimension name in loop range: " ++ varName)
            pure none
          | some dimName =>
            let decl ← ofOption ctx.argMap[arg]?
            let value := (decl.type.getDimSizeByName dimName).toInt32
            if value = 0 then
              diagnoseTok ("invalid dimension name in: " ++ varName ++ "." ++ dimName)
              pure none
            else pure (some value)
  | _ =>
    diagnoseTok "invalid expression in dimension name"
    pure none

/-- The range and the stride of a for statement; after an error they are what the variables hold
at `end_loop_decl`. -/
def parseForRange : Parse F (Int32 × Int32) := do
  let zero ← parseIntegerLiteral
  if zero ≠ some 0 then
    diagnoseTok ("expecting '0' in the for base range. Remember " ++
      "the space between the zero and '..'")
    skipUntil .rParen
    pure (0, 1)
  else if !(← expect .range ("expecting the '..' range in the for loop. " ++
      "Remember the space between the zero and '..'")) then
    skipUntil .rParen
    pure (0, 1)
  else
    match ← parseLiteralOrDimExpr with
    | none =>
      diagnoseTok "unable to parse loop range."
      skipUntil .rParen
      pure (0, 1)
    | some endRange =>
      -- Parse the stride argument.
      if ← consumeIf .comma then
        let strideLoc := (← getTok).start
        match ← parseIntegerLiteralOrLetConstant with
        | some stride => pure (endRange, stride)
        | none =>
          diagnose strideLoc "expecting stride parameter."
          pure (endRange, 1)
      else pure (endRange, 1)

/-- `pushLoop` on a new `Loop`. -/
def pushLoop (indexName : String) (end_ stride : UInt32) : Parse F Loop := do
  check (.newLoop end_ stride)
  let L : Loop := ⟨(← getContext).nextLoop, indexName, end_, stride⟩
  modifyContext fun ctx => { ctx with
    loopNextStack := L :: ctx.loopNextStack, nextLoop := ctx.nextLoop + 1 }
  pure L

def popLoop : Parse F Loop := do
  let K ← ofOption (← getContext).loopNextStack.head?
  modifyContext fun ctx => { ctx with loopNextStack := ctx.loopNextStack.tail }
  pure K

def parseForStmt (scope : Parse F (List (Stmt F))) : Parse F (Option (Stmt F)) := do
  let forLoc := (← getTok).start
  consumeTokenOf .kwFor
  if !(← expect .lParen "expecting left paren in for loop.") then pure none
  else
    match ← parseIdentifier with
    | none =>
      diagnoseTok "expecting index name in for loop."
      pure none
    | some indexName =>
      if !(← expect .kwIn "expecting 'in' keyword in the for loop.") then pure none
      else
        let range ← parseForRange
        let _ ← expect .rParen "expecting right brace in for loop."
        check (.modulo range.1 range.2)
        if range.1 % range.2 ≠ 0 then
          diagnose forLoc "loop stride must divide the loop range"
          pure none
        else
          -- Create the loop, and parse its body.
          let L ← pushLoop indexName range.1.toUInt32 range.2.toUInt32
          let body ← scope
          let K ← popLoop
          assert (K = L)
          pure (some (.loop L body))

/-- The operand and the range of an if statement; after an error they are what the variables hold
at `end_loop_decl`. -/
def parseIfRange : Parse F (Option (Expr F) × Int32 × Int32) := do
  let _ ← expect .lParen "expecting left paren in for loop."
  match ← parseExpr with
  | none =>
    skipUntil .rParen
    pure (none, 0, 0)
  | some indexVal =>
    if !(← expect .kwIn "expecting 'in' keyword in the for loop.") then
      skipUntil .rParen
      pure (some indexVal, 0, 0)
    else
      match ← parseLiteralOrDimExpr with
      | none =>
        diagnoseTok "unable to parse if-range."
        skipUntil .rParen
        pure (some indexVal, 0, 0)
      | some startRange =>
        if !(← expect .range ("expecting the '..' range in the if-range " ++
            "loop. Remember the space between the value and '..'")) then
          skipUntil .rParen
          pure (some indexVal, startRange, 0)
        else
          match ← parseLiteralOrDimExpr with
          | none =>
            diagnoseTok "unable to parse if-range."
            skipUntil .rParen
            pure (some indexVal, startRange, 0)
          | some endRange => pure (some indexVal, startRange, endRange)

/-- The null pointer that is the operand of an `IfRange` after an error in its operand.  An empty
string stands for it, which is no token and so no operand that has been parsed. -/
def Expr.nullOperand : Expr F := .constString ""

def parseIfStmt (scope : Parse F (List (Stmt F))) : Parse F (Option (Stmt F)) := do
  consumeTokenOf .kwIf
  let range ← parseIfRange
  let _ ← expect .rParen "expecting right brace in if-range."
  -- The `IfRange` is created after an error, too.
  let indexVal := range.1.getD .nullOperand
  check (.newIfRange range.2.1 range.2.2)
  let body ← scope
  pure (some (.ifRange indexVal range.2.1 range.2.2 body))

def parseOneStmt (scope : Parse F (List (Stmt F))) : Parse F (Option (Stmt F)) := do
  match (← getTok).kind with
  | .identifier => parseNamedStmt
  | .kwFor => parseForStmt scope
  | .kwIf => parseIfStmt scope
  | _ =>
    diagnoseTok "unknown statement in scope body."
    pure none

/-! ## Scopes -/

/-- The let statements at a position of a scope; true is an error. -/
def parseLets : Parse F Bool :=
  loop (fun _ => do
    if (← getTok).kind = .kwLet then
      if ← parseLetStmt then pure (.inr true) else pure (.inl ())
    else pure (.inr false)) ()

/-- The variable declarations at a position of a scope, behind `body`: whether one fails, and the
statements of the scope. -/
def parseVars (body : List (Stmt F)) : Parse F (Bool × List (Stmt F)) :=
  loop (fun body => do
    if (← getTok).kind = .kwVar then
      match ← parseVarDecl with
      | none => pure (.inr (true, body))
      | some init => pure (.inl (body ++ init))
    else pure (.inr (false, body))) body

/-- A round of the loop of `parseScope`. -/
def parseScopeItem (scope : Parse F (List (Stmt F))) (body : List (Stmt F)) :
    Parse F (List (Stmt F) ⊕ List (Stmt F)) := do
  if (← getTok).kind = .rBrace then pure (.inr body)
  else if ← parseLets then
    skipUntil .rBrace
    pure (.inr body)
  else
    let vars ← parseVars body
    if vars.1 then
      skipUntil .rBrace
      pure (.inr vars.2)
    else
      match ← parseOneStmt scope with
      | some S => pure (.inl (vars.2 ++ [S]))
      | none =>
        skipUntil .rBrace
        pure (.inr vars.2)

/-- The braces of a scope and the statements between them. -/
def parseBraces (scope : Parse F (List (Stmt F))) : Parse F (List (Stmt F)) := do
  let _ ← expect .lBrace "expecting left brace for scope body."
  let body ← loop (parseScopeItem scope) []
  let _ ← expect .rBrace "expecting closing brace to scope body."
  pure body

/-- `getLetStack().restoreStack(handle)`. -/
def restoreLets (handle : Nat) : Parse F Unit := do
  let ctx ← getContext
  assert (handle ≤ ctx.letStack.length)
  modifyContext fun ctx => { ctx with letStack := ctx.letStack.drop (ctx.letStack.length - handle) }

/-- `parseScope`, which never fails, for scopes that are nested at most `fuel` deep: the statements
that it adds to the scope. -/
def parseScopeFuel : Nat → Parse F (List (Stmt F))
  | 0 => ofOption none
  | fuel + 1 => do
    -- Remember the state of the let expression stack.
    let handle := (← getContext).letStack.length
    let body ← parseBraces (parseScopeFuel fuel)
    restoreLets handle
    pure body

def parseScope : Parse F (List (Stmt F)) := do
  parseScopeFuel ((← getState).remaining + 1)

/-! ## Functions and scripts -/

/-- `getArgMap().registerValue(arg)`. -/
def registerArg (arg : Argument) : Parse F Unit := do
  assert ((← getContext).getArg arg.name).isNone
  modifyContext fun ctx => { ctx with argMap := ctx.argMap ++ [arg] }

/-- The loop of `parseFunctionDecl` over the optional arguments; `T` is the type that was parsed
last. -/
def parseArgs (uninit : Int32) (T : TensorType) (args : List Argument) :
    Parse F (List Argument) :=
  loop (fun (parsed : TensorType × List Argument) => do
    if (← getTok).kind = .comma then
      consumeTokenOf .comma
      let named ← parseNamedType uninit parsed.1
      onlyIf named.1 (skipUntil .comma)
      let T := named.2.1
      let typeName := named.2.2
      if ((← getContext).getArg typeName).isSome then
        diagnoseTok "argument with this name already exists."
        -- Try to recover by ignoring this argument.
        pure (.inl (T, parsed.2))
      else
        registerArg ⟨typeName, T⟩
        pure (.inl (T, parsed.2 ++ [⟨typeName, T⟩]))
    else pure (.inr parsed.2)) (T, args)

/-- The name of the function, behind the keyword. -/
def parseTargetName : Parse F String := do
  match ← parseIdentifier with
  | some targetName => pure targetName
  | none =>
    diagnoseTok "expecting function name after def."
    skipUntil .lParen
    pure "prog"

def parseFunctionDecl (uninit : Int32) : Parse F (Option (Program F)) := do
  consumeTokenOf .kwFunc
  let targetName ← parseTargetName
  let _ ← expect .lParen "expecting argument list after function name."
  -- Parse the mandatory first parameter.
  let named ← parseNamedType uninit (.ofNamedDims .float32Ty [])
  if named.1 then pure none
  else
    let firstArg : Argument := ⟨named.2.2, named.2.1⟩
    registerArg firstArg
    let args ← parseArgs uninit named.2.1 [firstArg]
    onlyIf (!(← expect .rParen "expecting the end of the argument list.")) (skipUntil .lBrace)
    let body ← parseScope
    -- Register all of the variables that were declared.
    pure (some ⟨targetName, args, (← getContext).varMap, body⟩)

/-- The commands of a script. -/
def commandKind : TokenKind → Option PragmaKind
  | .kwVectorize => some .vectorize
  | .kwWiden => some .widen
  | .kwTile => some .tile
  | .kwPeel => some .peel
  | .kwUnroll => some .unroll
  | .kwHoist => some .hoist
  | .kwSink => some .sink
  | .kwFuse => some .fuse
  | .kwDistribute => some .distribute
  | _ => none

def addPragma (pc : PragmaCommand) : Parse F Unit :=
  modifyContext fun ctx => { ctx with pragmas := ctx.pragmas ++ [pc] }

/-- The parameters of a command, behind its name. -/
def parseCommand (pk : PragmaKind) : Parse F Unit := do
  match ← parseStringLiteral with
  | none =>
    diagnoseTok "expecting loop name after command."
    skipUntil .rBrace
  | some loopName =>
    -- We are not parsing any arguments for the distribute command.
    if pk = .distribute then addPragma ⟨pk, loopName, "", 0⟩
    else
      let _ ← consumeIf .kwTo
      match ← parseIntegerLiteral with
      | none =>
        diagnoseTok "expecting integer literal"
        skipUntil .rBrace
      | some arg0 =>
        let _ ← consumeIf .kwTimes
        if (← getTok).kind = .kwAs then
          consumeTokenOf .kwAs
          match ← parseStringLiteral with
          | none =>
            diagnoseTok "expecting string literal"
            skipUntil .rBrace
          | some newName => addPragma ⟨pk, loopName, newName, arg0⟩
        else addPragma ⟨pk, loopName, "", arg0⟩

/-- The loop of `parseScriptDecl`; the result is false where the source returns from it. -/
def parseCommands : Parse F Bool :=
  loop (fun _ => do
    let tok ← getTok
    if tok.kind = .rBrace then pure (.inr true)
    else
      match commandKind tok.kind with
      | none =>
        diagnoseTok "unknown command name.\n"
        skipUntil .rBrace
        pure (.inr false)
      | some pk =>
        consumeToken
        parseCommand pk
        pure (.inl ())) ()

def parseScriptDecl : Parse F Unit := do
  consumeTokenOf .kwScript
  if !(← expect .kwFor "expecting 'for' keyword.") then skipUntil .eof
  else
    let progName ← parseStringLiteral
    onlyIf progName.isNone (do
      diagnoseTok "expecting target name after script definition."
      skipUntil .lBrace)
    let _ ← expect .lBrace "expecting left brace for scope body."
    if ← parseCommands then
      let _ ← expect .rBrace "expecting right brace for scope body."
    else pure ()

def registerProgram (p : Program F) : Parse F Unit :=
  modifyContext fun ctx => { ctx with prog := some p }

/-- The function declaration of `parse`. -/
def parseFunction (uninit : Int32) : Parse F Unit := do
  match ← parseFunctionDecl uninit with
  | some func => registerProgram func
  | none => pure ()

def parse (uninit : Int32) : Parse F Unit := do
  -- Prime the lexer.
  consumeToken
  -- Parse let statements in the beginning of the program.
  if ← parseLets then pure ()
  else if (← getTok).kind = .kwFunc then
    parseFunction uninit
    onlyIf ((← getTok).kind = .kwScript) parseScriptDecl
    onlyIf ((← getTok).kind ≠ .eof) (diagnoseTok "expecting eof of file after function.")
  else diagnoseTok "expecting function decleration."

/-- The parser before `parse`, on a text that ends at its first NUL, with the constants that
`parseProgram` registers. -/
def ParserState.start (text : List Char) (lets : List (String × Int32)) : ParserState F where
  curPtr := text.takeWhile (· ≠ '\x00')
  tok := ⟨.comment, [], [], nofun⟩
  numErrors := 0
  ctx := {
    prog := none
    pragmas := []
    argMap := []
    varMap := []
    loopNextStack := []
    letStack := (lets.map fun binding => (binding.1, .const binding.2.toInt)).reverse
    varStack := []
    nextLoop := 0 }

end Bistra

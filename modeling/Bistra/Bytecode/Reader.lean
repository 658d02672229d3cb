import Mathlib.Logic.Function.Basic
import Bistra.Library.Codec
import Bistra.Library.IdTable
import Bistra.Bytecode.Writer

/-! # Reading bytecode

`Bytecode::deserialize`.  A failed assertion, a read behind the end of the stream and a cast to an
enumerator or a scope that is none are failures of the reader.  A statement is kept as an entry with
the id of its parent until all statements are read; `assemble` then hangs the entries below their
parents in the order in which they were added.
-/

namespace Bistra

open Codec (Reader readU8 readU32 iterate ofOption)

def readStr : Reader String := do
  let len ← readU8
  fun bytes =>
    if bytes.length < len.toNat then none
    else (String.fromUTF8? ⟨(bytes.take len.toNat).toArray⟩).map (·, bytes.drop len.toNat)

/-- `(ElemKind)code`. -/
def ElemKind.ofCode (code : UInt8) : Option ElemKind :=
  [.float32Ty, .int8Ty, .indexTy, .ptrTy, .stringTy].find? fun kind => kind.code = code

/-- `(BinOpKind)code`. -/
def BinOpKind.ofCode (code : UInt8) : Option BinOpKind :=
  [.mul, .add, .div, .sub, .max, .min, .pow].find? fun kind => kind.code = code

/-- `(UnaryOpKind)code`. -/
def UnaryOpKind.ofCode (code : UInt8) : Option UnaryOpKind :=
  [.exp, .log, .sqrt, .abs].find? fun kind => kind.code = code

/-- The assertion on the width in the constructor of `ExprType`. -/
def VecWidth.ofNat? (width : Nat) : Option VecWidth :=
  if fits : 0 < width ∧ width < 64 then some ⟨width, fits⟩ else none

/-! ## The header -/

structure BytecodeHeader where
  stringTable : List String
  exprTyTable : List ExprType
  tensorTypeTable : List TensorType

/-- `getStringTable().getById(readU32())`. -/
def BytecodeHeader.readString (BH : BytecodeHeader) : Reader String := do
  let id ← readU32
  ofOption BH.stringTable[id.toNat]?

/-- `getExprTyTable().getById(readU32())`. -/
def BytecodeHeader.readExprTy (BH : BytecodeHeader) : Reader ExprType := do
  let id ← readU32
  ofOption BH.exprTyTable[id.toNat]?

/-- `getTensorTypeTable().getById(readU32())`. -/
def BytecodeHeader.readTensorType (BH : BytecodeHeader) : Reader TensorType := do
  let id ← readU32
  ofOption BH.tensorTypeTable[id.toNat]?

def BytecodeHeader.addString (BH : BytecodeHeader) : Reader BytecodeHeader := do
  let str ← readStr
  return { BH with
    stringTable := (IdTable.getIdFor (fun a b => decide (a = b)) BH.stringTable str).2 }

def BytecodeHeader.addExprTy (BH : BytecodeHeader) : Reader BytecodeHeader := do
  let tp ← readU8
  let width ← readU8
  let elementType ← ofOption (ElemKind.ofCode tp)
  let width ← ofOption (VecWidth.ofNat? width.toNat)
  return { BH with
    exprTyTable :=
      (IdTable.getIdFor (fun a b => decide (a = b)) BH.exprTyTable ⟨elementType, width⟩).2 }

def BytecodeHeader.addDim (BH : BytecodeHeader) (dims : List (UInt32 × String)) :
    Reader (List (UInt32 × String)) := do
  let size ← readU32
  let name ← BH.readString
  return dims ++ [(size, name)]

/-- The type with the given dimensions. -/
def TensorType.ofDims (elementType : ElemKind) (dims : List (UInt32 × String)) : TensorType where
  sizes := dims.map (·.1)
  names := dims.map (·.2)
  elementType := elementType
  namesLength := by simp

def BytecodeHeader.addTensorType (BH : BytecodeHeader) : Reader BytecodeHeader := do
  let elemTy ← readU8
  let numDims ← readU8
  let dims ← iterate BH.addDim numDims.toNat []
  let elementType ← ofOption (ElemKind.ofCode elemTy)
  return { BH with
    tensorTypeTable := (IdTable.getIdFor TensorType.isEqual BH.tensorTypeTable
      (TensorType.ofDims elementType dims)).2 }

/-- `BytecodeHeader::deserialize`. -/
def deserializeHeader : Reader BytecodeHeader := do
  let magic ← readU32
  ofOption (if magic = 0x03070102 then some () else none)
  let n ← readU32
  let BH ← iterate BytecodeHeader.addString n.toNat ⟨[], [], []⟩
  let n ← readU32
  let BH ← iterate BytecodeHeader.addExprTy n.toNat BH
  let n ← readU32
  iterate BytecodeHeader.addTensorType n.toNat BH

/-! ## Expressions -/

/-- The expressions of `DeserializeContext`: those that are registered, and the statements that
their indices wait for. -/
structure ExprContext where
  exprMap : UInt32 → Option (Expr UInt32)
  resolveLater : List UInt32

def ExprContext.registerExpr (BC : ExprContext) (id : UInt32) (e : Expr UInt32) :
    Option ExprContext :=
  if (BC.exprMap id).isSome then none
  else some { BC with exprMap := Function.update BC.exprMap id (some e) }

/-- `getExpr(readU32())`. -/
def ExprContext.readExpr (BC : ExprContext) : Reader (Expr UInt32) := do
  let id ← readU32
  ofOption (BC.exprMap id)

def ExprContext.readExprs (BC : ExprContext) (n : Nat) : Reader (List (Expr UInt32)) :=
  iterate (fun es => do return es ++ [← BC.readExpr]) n []

def ExprContext.readBinary (BC : ExprContext) (exprId : UInt32) : Reader ExprContext := do
  let kind ← readU8
  let L ← BC.readExpr
  let R ← BC.readExpr
  let kind ← ofOption (BinOpKind.ofCode kind)
  ofOption ((Expr.mkBinary kind L R).bind (BC.registerExpr exprId))

def deserializeExpr (BH : BytecodeHeader) (decls : Decls) (BC : ExprContext) :
    Reader ExprContext := do
  let opcode ← readU32
  let exprId ← readU32
  match opcode.toNat with
  | 0 => do
    let val ← readU32
    ofOption (BC.registerExpr exprId (.const val.toNat))
  | 1 => do
    let val ← readU32
    ofOption (BC.registerExpr exprId (.constFP val))
  | 2 => do
    let val ← BH.readString
    let BC ← ofOption (BC.registerExpr exprId (.constString val))
    -- There is no `return` here: the case falls through.
    BC.readBinary exprId
  | 3 => BC.readBinary exprId
  | 4 => do
    let kind ← readU8
    let V ← BC.readExpr
    let kind ← ofOption (UnaryOpKind.ofCode kind)
    ofOption (BC.registerExpr exprId (.unary kind V))
  | 5 => do
    let exprTy ← BH.readExprTy
    let GEP ← BC.readExpr
    ofOption ((Expr.mkLoad GEP exprTy).bind (BC.registerExpr exprId))
  | 6 => do
    let var ← readU32
    ofOption ((decls.mkLoadLocal var.toNat).bind (BC.registerExpr exprId))
  | 7 => do
    let V ← BC.readExpr
    let vf ← readU8
    let vf ← ofOption (VecWidth.ofNat? vf.toNat)
    ofOption ((Expr.mkBroadcast V vf).bind (BC.registerExpr exprId))
  | 8 => do
    let loopId ← readU32
    ofOption ((BC.registerExpr exprId (.indexOf loopId.toNat)).map fun BC =>
      { BC with resolveLater := BC.resolveLater ++ [loopId] })
  | 9 => do
    let arg ← readU32
    let numIndices ← readU32
    let indices ← BC.readExprs numIndices.toNat
    ofOption ((decls.mkGEP arg.toNat indices).bind (BC.registerExpr exprId))
  | _ => ofOption none

/-! ## Statements -/

/-- A statement without the statements below it. -/
inductive EntryNode where
  | loop (name : String) (end_ stride : UInt32)
  | ifRange (val : Expr UInt32) (start end_ : Int32)
  | leaf (stmt : Stmt UInt32)

/-- A registered statement, with the id of its parent. -/
structure StmtEntry where
  id : UInt32
  parent : UInt32
  node : EntryNode

def EntryNode.isScope : EntryNode → Bool
  | .loop _ _ _ | .ifRange _ _ _ => true
  | .leaf _ => false

def EntryNode.isLoop : EntryNode → Bool
  | .loop _ _ _ => true
  | _ => false

/-- `(Scope *)getStmt(id)`; the program is registered as zero. -/
def hasScope (stmts : List StmtEntry) (id : UInt32) : Bool :=
  id = 0 || stmts.any fun entry => entry.id = id && entry.node.isScope

/-- `dynamic_cast<Loop *>(getStmt(id))`. -/
def hasLoop (stmts : List StmtEntry) (id : UInt32) : Bool :=
  stmts.any fun entry => entry.id = id && entry.node.isLoop

def registerStmt (stmts : List StmtEntry) (entry : StmtEntry) : Option (List StmtEntry) :=
  if entry.id = 0 || stmts.any (fun other => other.id = entry.id) then none
  else some (stmts ++ [entry])

/-- The fields of a statement. -/
def deserializeNode (BH : BytecodeHeader) (decls : Decls) (BC : ExprContext) (opcode : UInt32) :
    Reader EntryNode :=
  match opcode.toNat with
  | 0 => do
    let name ← BH.readString
    let end_ ← readU32
    let stride ← readU32
    return .loop name end_ stride
  | 1 => do
    let name ← BH.readString
    let numParams ← readU8
    let params ← BC.readExprs numParams.toNat
    return .leaf (.call name params)
  | 2 => do
    let accumulate ← readU8
    let storedVal ← BC.readExpr
    let GEP ← BC.readExpr
    ofOption ((Stmt.mkStore GEP storedVal (accumulate ≠ 0)).map .leaf)
  | 3 => do
    let var ← readU32
    let accumulate ← readU8
    let storedVal ← BC.readExpr
    ofOption ((decls.mkStoreLocal var.toNat storedVal (accumulate ≠ 0)).map .leaf)
  | 4 => do
    let idxVal ← BC.readExpr
    let start ← readU32
    let end_ ← readU32
    return .ifRange idxVal start.toInt32 end_.toInt32
  | _ => ofOption none

def deserializeStmt (BH : BytecodeHeader) (decls : Decls) (BC : ExprContext)
    (stmts : List StmtEntry) : Reader (List StmtEntry) := do
  let opcode ← readU32
  let stmtId ← readU32
  let parentId ← readU32
  ofOption (if hasScope stmts parentId then some () else none)
  let node ← deserializeNode BH decls BC opcode
  ofOption (registerStmt stmts ⟨stmtId, parentId, node⟩)

/-- The statement of an entry; the id of a loop stands for the new `Loop` object. -/
def StmtEntry.build (entry : StmtEntry) (body : List (Stmt UInt32)) : Stmt UInt32 :=
  match entry.node with
  | .loop name end_ stride => .loop ⟨entry.id.toNat, name, end_, stride⟩ body
  | .ifRange val start end_ => .ifRange val start end_ body
  | .leaf stmt => stmt

/-- The body of every scope: `addStmt` puts a statement at the end of the body of its parent. -/
def assemble (stmts : List StmtEntry) : UInt32 → List (Stmt UInt32) :=
  stmts.foldr (fun entry bodies =>
    Function.update bodies entry.parent (entry.build (bodies entry.id) :: bodies entry.parent))
    fun _ => []

/-! ## Programs -/

def deserializeArg (BH : BytecodeHeader) (args : List Argument) : Reader (List Argument) := do
  let name ← BH.readString
  let type ← BH.readTensorType
  return args ++ [⟨name, type⟩]

def deserializeVar (BH : BytecodeHeader) (vars : List LocalVar) : Reader (List LocalVar) := do
  let name ← BH.readString
  let type ← BH.readExprTy
  return vars ++ [⟨name, type⟩]

/-- The part of the stream behind the header. -/
def deserializeProgram (BH : BytecodeHeader) : Reader (Program UInt32) := do
  let name ← BH.readString
  let numArgs ← readU32
  let args ← iterate (deserializeArg BH) numArgs.toNat []
  let numVars ← readU32
  let vars ← iterate (deserializeVar BH) numVars.toNat []
  let numExprs ← readU32
  let BC ← iterate (deserializeExpr BH ⟨args, vars⟩) numExprs.toNat ⟨fun _ => none, []⟩
  let numStmts ← readU32
  let stmts ← iterate (deserializeStmt BH ⟨args, vars⟩ BC) numStmts.toNat []
  -- The indices are resolved when all statements are there.
  ofOption (if BC.resolveLater.all (hasLoop stmts) then
    some ⟨name, args, vars, assemble stmts 0⟩ else none)

def Bytecode.deserialize (media : List UInt8) : Option (Program UInt32) :=
  ((deserializeHeader >>= deserializeProgram) media).map (·.1)

end Bistra

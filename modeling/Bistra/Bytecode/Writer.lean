import Bistra.Library.Codec
import Bistra.Library.IdTable
import Bistra.Program.Construct

/-! # Writing bytecode

`Bytecode::serialize`.  Floating point constants are given by their bits.  A pointer to an
expression is its position in `collectExprs`, where the operands of a node come before the node; a
pointer to a statement that is no loop is its position in `collectStmts`.
-/

namespace Bistra

open Codec (writeU32)

/-- `Type::isEqual`: the names of the dimensions are not compared. -/
def TensorType.isEqual (t other : TensorType) : Bool :=
  t.elementType = other.elementType && t.sizes = other.sizes

/-- A pointer to a statement. -/
inductive StmtRef where
  | program
  | loop (id : LoopId)
  | other (pos : Nat)
  deriving DecidableEq

/-- The id tables of `BytecodeHeader` and `SerializeContext`. -/
structure Tables where
  stringTable : List String
  exprTyTable : List ExprType
  tensorTypeTable : List TensorType
  exprTable : List Nat
  stmtTable : List StmtRef
  deriving DecidableEq

/-- The tables before anything is written; the program has the first statement id. -/
def Tables.empty : Tables := ⟨[], [], [], [], [.program]⟩

/-- Writes to the stream and adds to the tables. -/
abbrev Writer := StateM Tables (List UInt8)

def writeU8 (num : UInt8) : Writer := pure [num]

def writeWord (num : UInt32) : Writer := pure (writeU32 num)

/-- An identifier that is written as a `uint32_t`. -/
def writeId (id : Nat) : List UInt8 := writeU32 (UInt32.ofNat id)

/-- `getStringTable().getIdFor(str)`. -/
def writeString (str : String) : Writer := fun t =>
  let found := IdTable.getIdFor (fun a b => decide (a = b)) t.stringTable str
  (writeId found.1, { t with stringTable := found.2 })

/-- `getExprTyTable().getIdFor(type)`. -/
def writeExprTy (type : ExprType) : Writer := fun t =>
  let found := IdTable.getIdFor (fun a b => decide (a = b)) t.exprTyTable type
  (writeId found.1, { t with exprTyTable := found.2 })

/-- `getTensorTypeTable().getIdFor(type)`. -/
def writeTensorType (type : TensorType) : Writer := fun t =>
  let found := IdTable.getIdFor TensorType.isEqual t.tensorTypeTable type
  (writeId found.1, { t with tensorTypeTable := found.2 })

/-- `exprTable_.getIdFor(expr)`. -/
def writeExpr (expr : Nat) : Writer := fun t =>
  let found := IdTable.getIdFor (fun a b => decide (a = b)) t.exprTable expr
  (writeId found.1, { t with exprTable := found.2 })

/-- `stmtTable_.getIdFor(stmt)`. -/
def writeStmt (stmt : StmtRef) : Writer := fun t =>
  let found := IdTable.getIdFor (fun a b => decide (a = b)) t.stmtTable stmt
  (writeId found.1, { t with stmtTable := found.2 })

/-- One writer after the other. -/
def Writer.andThen (first second : Writer) : Writer := do
  let bytes ← first
  let bytes' ← second
  return bytes ++ bytes'

instance : Append Writer := ⟨Writer.andThen⟩

def writeAll {α : Type} (write : α → Writer) : List α → Writer
  | [] => pure []
  | x :: xs => write x ++ writeAll write xs

/-! ## Expressions -/

/-- An expression that refers to its operands by pointers. -/
inductive ExprNode where
  | const (val : Int)
  | constFP (val : UInt32)
  | constString (val : String)
  | binary (kind : BinOpKind) (lhs rhs : Nat)
  | unary (kind : UnaryOpKind) (val : Nat)
  | load (type : ExprType) (gep : Nat)
  | loadLocal (var : VarId)
  | broadcast (val : Nat) (vf : VecWidth)
  | index (loop : LoopId)
  | gep (arg : ArgId) (indices : List Nat)

mutual

/-- The number of nodes below an expression. -/
def Expr.numBelow {F : Type} : Expr F → Nat
  | .binary _ lhs rhs => (lhs.numBelow + 1) + (rhs.numBelow + 1)
  | .unary _ val => val.numBelow + 1
  | .broadcast val _ => val.numBelow + 1
  | .gep _ indices => Expr.count indices
  -- A load owns the node of its `GEPExpr`.
  | .load _ indices _ => Expr.count indices + 1
  | _ => 0

def Expr.count {F : Type} : List (Expr F) → Nat
  | [] => 0
  | e :: es => (e.numBelow + 1) + Expr.count es

end

/-- The pointer to an expression whose first node is at `base`. -/
def Expr.pointer {F : Type} (base : Nat) (e : Expr F) : Nat := base + e.numBelow

def Expr.pointers {F : Type} (base : Nat) : List (Expr F) → List Nat
  | [] => []
  | e :: es => e.pointer base :: Expr.pointers (base + (e.numBelow + 1)) es

mutual

/-- `collectExprs` on an expression whose first node is at `base`. -/
def Expr.nodes (base : Nat) : Expr UInt32 → List ExprNode
  | .index loop _ => [.index loop]
  | .const val => [.const val]
  | .constFP val => [.constFP val]
  | .constString val => [.constString val]
  | .binary kind lhs rhs =>
    lhs.nodes base ++ rhs.nodes (base + (lhs.numBelow + 1)) ++
      [.binary kind (lhs.pointer base) (rhs.pointer (base + (lhs.numBelow + 1)))]
  | .unary kind val => val.nodes base ++ [.unary kind (val.pointer base)]
  | .broadcast val vf => val.nodes base ++ [.broadcast (val.pointer base) vf]
  | .gep arg indices => Expr.nodesList base indices ++ [.gep arg (Expr.pointers base indices)]
  | .load arg indices type =>
    Expr.nodesList base indices ++ [.gep arg (Expr.pointers base indices)] ++
      [.load type (base + Expr.count indices)]
  | .loadLocal var _ => [.loadLocal var]

def Expr.nodesList (base : Nat) : List (Expr UInt32) → List ExprNode
  | [] => []
  | e :: es => e.nodes base ++ Expr.nodesList (base + (e.numBelow + 1)) es

end

/-- The number of an enumerator of `ExprTokenKind`. -/
def ExprNode.kind : ExprNode → UInt32
  | .const _ => 0
  | .constFP _ => 1
  | .constString _ => 2
  | .binary _ _ _ => 3
  | .unary _ _ => 4
  | .load _ _ => 5
  | .loadLocal _ => 6
  | .broadcast _ _ => 7
  | .index _ => 8
  | .gep _ _ => 9

/-- `Bytecode::serialize` of an expression: the kind, the own id and the fields. -/
def serializeExpr (expr : Nat) (node : ExprNode) : Writer :=
  writeWord node.kind ++ writeExpr expr ++
    match node with
    | .const val => writeWord (UInt32.ofInt val)
    | .constFP val => writeWord val
    | .constString val => writeString val
    | .binary kind lhs rhs => writeU8 kind.code ++ writeExpr lhs ++ writeExpr rhs
    | .unary kind val => writeU8 kind.code ++ writeExpr val
    | .load type gep => writeExprTy type ++ writeExpr gep
    | .loadLocal var => writeWord (UInt32.ofNat var)
    | .broadcast val vf => writeExpr val ++ writeU8 (UInt8.ofNat vf.val)
    | .index loop => writeStmt (.loop loop)
    | .gep arg indices =>
      writeWord (UInt32.ofNat arg) ++ writeWord (UInt32.ofNat indices.length) ++
        writeAll writeExpr indices

/-- The loop of `Bytecode::serialize` over the expressions. -/
def serializeExprs (base : Nat) : List ExprNode → Writer
  | [] => pure []
  | node :: nodes => serializeExpr base node ++ serializeExprs (base + 1) nodes

/-! ## Statements -/

/-- The fields of a statement, with pointers to its expressions. -/
inductive StmtNode where
  | loop (header : Loop)
  | call (name : String) (params : List Nat)
  | store (accumulate : Bool) (value gep : Nat)
  | storeLocal (var : VarId) (accumulate : Bool) (value : Nat)
  | ifRange (val : Nat) (start end_ : Int32)

/-- A statement of `collectStmts`: its pointer, its parent and its fields. -/
structure StmtItem where
  stmt : StmtRef
  parent : StmtRef
  node : StmtNode

mutual

/-- The number of expression nodes of a statement and of the statements below it. -/
def Stmt.exprCount : Stmt UInt32 → Nat
  | .loop _ body => Stmt.exprCountBody body
  | .ifRange val _ _ body => (val.numBelow + 1) + Stmt.exprCountBody body
  | .call _ params => Expr.count params
  | .store _ indices value _ => (Expr.count indices + 1) + (value.numBelow + 1)
  | .storeLocal _ value _ => value.numBelow + 1

def Stmt.exprCountBody : List (Stmt UInt32) → Nat
  | [] => 0
  | s :: rest => s.exprCount + Stmt.exprCountBody rest

end

mutual

/-- `collectExprs` on a statement whose first expression is at `base`. -/
def Stmt.nodes (base : Nat) : Stmt UInt32 → List ExprNode
  | .loop _ body => Stmt.nodesBody base body
  | .ifRange val _ _ body => val.nodes base ++ Stmt.nodesBody (base + (val.numBelow + 1)) body
  | .call _ params => Expr.nodesList base params
  | .store arg indices value _ =>
    (Expr.gep arg indices).nodes base ++ value.nodes (base + (Expr.count indices + 1))
  | .storeLocal _ value _ => value.nodes base

def Stmt.nodesBody (base : Nat) : List (Stmt UInt32) → List ExprNode
  | [] => []
  | s :: rest => s.nodes base ++ Stmt.nodesBody (base + s.exprCount) rest

end

/-- The pointer to a statement at a position of `collectStmts`. -/
def Stmt.ref (pos : Nat) : Stmt UInt32 → StmtRef
  | .loop header _ => .loop header.id
  | _ => .other pos

mutual

/-- `collectStmts` on a statement at position `pos` whose first expression is at `base`. -/
def Stmt.items (base pos : Nat) (parent : StmtRef) : Stmt UInt32 → List StmtItem
  | .loop header body =>
    ⟨.loop header.id, parent, .loop header⟩ ::
      Stmt.itemsBody base (pos + 1) (.loop header.id) body
  | .ifRange val start end_ body =>
    ⟨.other pos, parent, .ifRange (val.pointer base) start end_⟩ ::
      Stmt.itemsBody (base + (val.numBelow + 1)) (pos + 1) (.other pos) body
  | .call name params => [⟨.other pos, parent, .call name (Expr.pointers base params)⟩]
  | .store _ indices value accumulate =>
    [⟨.other pos, parent, .store accumulate (value.pointer (base + (Expr.count indices + 1)))
      (base + Expr.count indices)⟩]
  | .storeLocal var value accumulate =>
    [⟨.other pos, parent, .storeLocal var accumulate (value.pointer base)⟩]

def Stmt.itemsBody (base pos : Nat) (parent : StmtRef) : List (Stmt UInt32) → List StmtItem
  | [] => []
  | s :: rest =>
    s.items base pos parent ++
      Stmt.itemsBody (base + s.exprCount) (pos + s.collectStmts.length) parent rest

end

/-- The number of an enumerator of `StmtTokenKind`. -/
def StmtNode.kind : StmtNode → UInt32
  | .loop _ => 0
  | .call _ _ => 1
  | .store _ _ _ => 2
  | .storeLocal _ _ _ => 3
  | .ifRange _ _ _ => 4

/-- `Bytecode::serialize` of a statement: the kind, the own id, the id of the parent and the
fields. -/
def serializeStmt (item : StmtItem) : Writer :=
  writeWord item.node.kind ++ writeStmt item.stmt ++ writeStmt item.parent ++
    match item.node with
    | .loop header => writeString header.name ++ writeWord header.end_ ++ writeWord header.stride
    | .ifRange val start _ =>
      -- The start of the range is written in the place of its end, too.
      writeExpr val ++ writeWord start.toUInt32 ++ writeWord start.toUInt32
    | .call name params =>
      writeString name ++ writeU8 (UInt8.ofNat params.length) ++ writeAll writeExpr params
    | .store accumulate value gep =>
      writeU8 accumulate.toUInt8 ++ writeExpr value ++ writeExpr gep
    | .storeLocal var accumulate value =>
      writeWord (UInt32.ofNat var) ++ writeU8 accumulate.toUInt8 ++ writeExpr value

/-! ## Programs -/

/-- The declarations: the name, the arguments and the local variables. -/
def serializeDecls (p : Program UInt32) : Writer :=
  writeString p.name ++
    writeWord (UInt32.ofNat p.args.length) ++
    writeAll (fun arg => writeString arg.name ++ writeTensorType arg.type) p.args ++
    writeWord (UInt32.ofNat p.vars.length) ++
    writeAll (fun var => writeString var.name ++ writeExprTy var.type) p.vars

/-- The part of the stream behind the header. -/
def serializeProgram (p : Program UInt32) : Writer :=
  let exprs := Stmt.nodesBody 0 p.body
  let stmts := Stmt.itemsBody 0 1 .program p.body
  serializeDecls p ++
    writeWord (UInt32.ofNat exprs.length) ++ serializeExprs 0 exprs ++
    writeWord (UInt32.ofNat stmts.length) ++ writeAll serializeStmt stmts

/-- `StreamWriter::write` of a string; `none` is a failed assertion. -/
def writeStr (str : String) : Option (List UInt8) :=
  let bytes := str.toUTF8.data.toList
  if bytes.length < 256 then some (UInt8.ofNat bytes.length :: bytes) else none

/-- The string table with the names of the dimensions of all tensor types. -/
def Tables.addNames (t : Tables) : Tables :=
  { t with
    stringTable := (t.tensorTypeTable.flatMap TensorType.names).foldl
      (fun table name => (IdTable.getIdFor (fun a b => decide (a = b)) table name).2)
      t.stringTable }

/-- The dimension of a tensor type in the header; the string table is locked. -/
def Tables.writeDim (t : Tables) (dim : UInt32 × String) : List UInt8 :=
  writeU32 dim.1 ++ writeId (IdTable.idOf (fun a b => decide (a = b)) t.stringTable dim.2)

/-- A tensor type in the header. -/
def Tables.writeType (t : Tables) (type : TensorType) : List UInt8 :=
  [type.elementType.code, UInt8.ofNat type.getNumDims] ++
    (type.sizes.zip type.names).flatMap t.writeDim

/-- `BytecodeHeader::serialize`, after the names have been added; `none` is a failed assertion. -/
def Tables.serializeHeader (t : Tables) : Option (List UInt8) :=
  (t.stringTable.mapM writeStr).map fun strings =>
    writeU32 0x03070102 ++ writeId t.stringTable.length ++ strings.flatten ++
      writeId t.exprTyTable.length ++
      t.exprTyTable.flatMap (fun type => [type.elementType.code, UInt8.ofNat type.width.val]) ++
      writeId t.tensorTypeTable.length ++ t.tensorTypeTable.flatMap t.writeType

/-- `Bytecode::serialize`; `none` is a failed assertion. -/
def Bytecode.serialize (p : Program UInt32) : Option (List UInt8) :=
  let (body, tables) := (serializeProgram p).run Tables.empty
  tables.addNames.serializeHeader.map fun header => header ++ body

end Bistra

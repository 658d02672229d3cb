import Bistra.Backends.Addressing
import Bistra.Backends.LLVMEmitter
import Bistra.Backends.NamedValues
import Bistra.Library.SingleAssignment

/-! # The code for expressions and leaf statements

What `LLVMEmitter::generate` emits for an expression and `emit` for a store, a local store or a
call: straight-line code in single-assignment form.  The instructions are those of LLVM that the
emitter uses, on the values that it uses them on; on operands of the wrong type an instruction goes
wrong, as it does where LLVM leaves the result undefined.

The type that a value of the emitter has and its number of lanes are kept together: a float is a
vector of one lane.
-/

namespace Bistra

open SingleAssignment

variable {F : Type}

/-! ## Values and memory -/

/-- The types of values, with the number of lanes. -/
inductive LLVMType where
  | int64 (width : Nat)
  | float (width : Nat)
  | ptr
  deriving DecidableEq

/-- `getLLVMTypeForType`; nothing if one of its assertions fails. -/
def getLLVMTypeForType (p : ExprType) : Option LLVMType :=
  match p.elementType with
  | .float32Ty => some (.float p.width.val)
  | .indexTy => some (.int64 p.width.val)
  | .ptrTy => if p.isVector then none else some .ptr
  | .int8Ty | .stringTy => none

/-- What a pointer points into: the buffer of an argument, which no other buffer overlaps, or the
cell of a local variable. -/
inductive Block where
  | arg (arg : ArgId)
  | var (var : VarId)
  deriving DecidableEq

/-- A place in a block, counted in elements. -/
structure Pointer where
  block : Block
  offset : BitVec 64
  deriving DecidableEq

/-- The values of instructions. -/
inductive LLVMValue (F : Type) where
  | int (val : BitVec 64)
  | floats (lanes : List F)
  | bools (lanes : List Bool)
  | ptr (pointer : Pointer)
  /-- The address of a global string. -/
  | string (val : String)
  | void

/-- The type of a value, if it is one that the emitter asks for. -/
def LLVMValue.type : LLVMValue F → Option LLVMType
  | .int _ => some (.int64 1)
  | .floats lanes => some (.float lanes.length)
  | .ptr _ | .string _ => some .ptr
  | .bools _ | .void => none

/-- The elements of an argument. -/
structure Buffer (F : Type) where
  size : Nat
  elems : Nat → F

/-- The buffers, the cells of the local variables, and the calls made so far. -/
structure Memory (F : Type) where
  bufs : ArgId → Buffer F
  locals : VarId → LLVMValue F
  calls : List (String × List (LLVMValue F))

/-- The elements from a place on; nothing past the end of the buffer. -/
def Buffer.read (buf : Buffer F) (offset width : Nat) : Option (List F) :=
  if offset + width ≤ buf.size then some ((List.range width).map fun lane => buf.elems (offset + lane))
  else none

/-- Replaces the elements from a place on. -/
def Buffer.write (buf : Buffer F) (offset : Nat) (lanes : List F) : Option (Buffer F) :=
  if offset + lanes.length ≤ buf.size then
    some { buf with elems := fun i => if offset ≤ i then lanes.getD (i - offset) (buf.elems i)
                                      else buf.elems i }
  else none

namespace Memory

/-- Loads a value of a type; loads outside of a block or of another type have no result. -/
def load (mem : Memory F) (ty : LLVMType) (ptr : Pointer) : Option (LLVMValue F) :=
  match ptr.block, ty with
  | .arg A, .float width => ((mem.bufs A).read ptr.offset.toNat width).map .floats
  | .arg _, _ => none
  | .var V, ty =>
    if ptr.offset = 0 ∧ (mem.locals V).type = some ty then some (mem.locals V) else none

/-- Stores a value; the cell of a local variable only takes values of its type. -/
def store (mem : Memory F) (val : LLVMValue F) (ptr : Pointer) : Option (Memory F) :=
  match ptr.block, val with
  | .arg A, .floats lanes =>
    ((mem.bufs A).write ptr.offset.toNat lanes).map fun buf =>
      { mem with bufs := Function.update mem.bufs A buf }
  | .arg _, _ => none
  | .var V, val =>
    if ptr.offset = 0 ∧ val.type = (mem.locals V).type then
      some { mem with locals := Function.update mem.locals V val }
    else none

@[simp] theorem load_arg (mem : Memory F) (A : ArgId) (offset : BitVec 64) (width : Nat) :
    mem.load (.float width) ⟨.arg A, offset⟩ =
      ((mem.bufs A).read offset.toNat width).map .floats := rfl

@[simp] theorem load_var (mem : Memory F) (V : VarId) (ty : LLVMType) :
    mem.load ty ⟨.var V, 0#64⟩ =
      if (mem.locals V).type = some ty then some (mem.locals V) else none := by
  cases ty <;> simp [load]

@[simp] theorem store_arg (mem : Memory F) (A : ArgId) (offset : BitVec 64) (lanes : List F) :
    mem.store (.floats lanes) ⟨.arg A, offset⟩ = ((mem.bufs A).write offset.toNat lanes).map
      fun buf => { mem with bufs := Function.update mem.bufs A buf } := rfl

@[simp] theorem store_var (mem : Memory F) (V : VarId) (val : LLVMValue F) :
    mem.store val ⟨.var V, 0#64⟩ = if val.type = (mem.locals V).type then
      some { mem with locals := Function.update mem.locals V val } else none := by
  cases val <;> simp [store]

def call (mem : Memory F) (name : String) (params : List (LLVMValue F)) : Memory F :=
  { mem with calls := mem.calls ++ [(name, params)] }

end Memory

/-! ## Instructions -/

/-- An operand: the value of an instruction before, or a constant. -/
inductive Operand (F : Type) where
  | reg (place : Nat)
  | const (val : LLVMValue F)

/-- The binary instructions and intrinsics. -/
inductive LLVMBinOp where
  | add | mul | sub | sdiv | fadd | fmul | fsub | fdiv | pow | powi
  deriving DecidableEq

/-- The predicates of `CreateFCmp`. -/
inductive FCmp where
  | oge | olt
  deriving DecidableEq

/-- The instructions that the emitter inserts for expressions and leaf statements. -/
inductive ValueInstr (F : Type) where
  | loadIndex (loop : LoopId)
  | bin (op : LLVMBinOp) (lhs rhs : Operand F)
  | fcmp (pred : FCmp) (lhs rhs : Operand F)
  | select (cond lhs rhs : Operand F)
  | intrinsic (op : UnaryOpKind) (val : Operand F)
  | splat (width : Nat) (val : Operand F)
  | gep (ptr offset : Operand F)
  | load (ty : LLVMType) (ptr : Operand F)
  | store (val ptr : Operand F)
  | call (name : String) (params : List (Operand F))

def Operand.read (regs : List (LLVMValue F)) : Operand F → Option (LLVMValue F)
  | .reg place => regs[place]?
  | .const val => some val

/-- Applies an operation to every lane of two vectors of the same type. -/
def zipLanes (op : F → F → F) (xs ys : List F) : Option (LLVMValue F) :=
  if xs.length = ys.length then some (.floats (List.zipWith op xs ys)) else none

/-- Picks every lane from one of two vectors. -/
def selectLanes : List Bool → List F → List F → List F
  | c :: cs, x :: xs, y :: ys => (if c then x else y) :: selectLanes cs xs ys
  | _, _, _ => []

section Semantics

variable [Field F] [LinearOrder F]

/-- The binary instructions on integers of 64 bits; a quotient that does not fit is undefined. -/
def LLVMBinOp.onInt (op : LLVMBinOp) (x y : BitVec 64) : Option (BitVec 64) :=
  match op with
  | .add => some (x + y)
  | .mul => some (x * y)
  | .sub => some (x - y)
  | .sdiv => if y = 0 ∨ (x = BitVec.intMin 64 ∧ y = -1) then none else some (x.sdiv y)
  | _ => none

def LLVMBinOp.onFP (M : Machine F) (op : LLVMBinOp) (x y : F) : Option F :=
  match op with
  | .fadd => some (x + y)
  | .fmul => some (x * y)
  | .fsub => some (x - y)
  | .fdiv => some (x / y)
  | .pow => some (M.pow x y)
  | _ => none

def LLVMBinOp.eval (M : Machine F) (op : LLVMBinOp) : LLVMValue F → LLVMValue F → Option (LLVMValue F)
  | .int x, .int y => (op.onInt x y).map .int
  | .floats xs, .floats ys =>
    (op.onFP M 0 0).bind fun _ => zipLanes (fun x y => (op.onFP M x y).getD 0) xs ys
  | _, _ => none

def Machine.intrinsic (M : Machine F) : UnaryOpKind → F → F
  | .exp => M.exp
  | .log => M.log
  | .sqrt => M.sqrt
  | .abs => fun x => |x|

/-- The comparison of two floats. -/
def FCmp.holds (pred : FCmp) (x y : F) : Bool :=
  match pred with
  | .oge => x ≥ y
  | .olt => x < y

/-- What an instruction does with the values `regs` before it, the index cells and the memory. -/
def ValueInstr.act (M : Machine F) (cells : Cells) (i : ValueInstr F) (regs : List (LLVMValue F))
    (mem : Memory F) : Option (LLVMValue F × Memory F) :=
  match i with
  | .loadIndex loop => some (.int (cells loop), mem)
  | .bin op lhs rhs => do
    let x ← lhs.read regs
    let y ← rhs.read regs
    (op.eval M x y).map (·, mem)
  | .fcmp pred lhs rhs =>
    match lhs.read regs, rhs.read regs with
    | some (.floats xs), some (.floats ys) =>
      if xs.length = ys.length then some (.bools (List.zipWith pred.holds xs ys), mem) else none
    | _, _ => none
  | .select cond lhs rhs =>
    match cond.read regs, lhs.read regs, rhs.read regs with
    | some (.bools cs), some (.floats xs), some (.floats ys) =>
      if cs.length = xs.length ∧ xs.length = ys.length then
        some (.floats (selectLanes cs xs ys), mem)
      else none
    | _, _, _ => none
  | .intrinsic op val =>
    match val.read regs with
    | some (.floats xs) => some (.floats (xs.map (M.intrinsic op)), mem)
    | _ => none
  | .splat width val =>
    match val.read regs with
    | some (.floats [x]) => some (.floats (List.replicate width x), mem)
    | _ => none
  | .gep ptr offset =>
    match ptr.read regs, offset.read regs with
    | some (.ptr pointer), some (.int k) =>
      some (.ptr { pointer with offset := pointer.offset + k }, mem)
    | _, _ => none
  | .load ty ptr =>
    match ptr.read regs with
    | some (.ptr pointer) => (mem.load ty pointer).map (·, mem)
    | _ => none
  | .store val ptr =>
    match val.read regs, ptr.read regs with
    | some val, some (.ptr pointer) => (mem.store val pointer).map (.void, ·)
    | _, _ => none
  | .call name params =>
    (params.mapM (Operand.read regs)).map fun vals => (.void, mem.call name vals)

end Semantics

/-! ## The emitter -/

abbrev ValueEmission (F α : Type) := Emission (ValueInstr F) α

/-- Inserts an instruction and refers to its value. -/
def createValue (i : ValueInstr F) : ValueEmission F (Operand F) := do
  return .reg (← Emission.insert i)

/-- `namedValues_[name]`: a pointer and the type of what it points to. -/
def Program.lookupValue (p : Program F) (name : String) : Option (Pointer × LLVMType) :=
  match p.namedValue name with
  | some (.arg A) => some (⟨.arg A, 0⟩, .float 1)
  | some (.var V) => do
    let var ← p.vars[V]?
    return (⟨.var V, 0⟩, ← getLLVMTypeForType var.type)
  | none => none

/-- The rest of the loop over the sizes in `getIndexOffsetForBuffer`. -/
def scaleBySizes : List UInt32 → Operand F → ValueEmission F (Operand F)
  | [], dimSizeVal => pure dimSizeVal
  | dimSize :: dims, dimSizeVal => do
    scaleBySizes dims
      (← createValue (.bin .mul dimSizeVal (.const (.int (dimSize.toBitVec.zeroExtend 64)))))

/-- The instructions for a binary expression. -/
def generateBinary (kind : BinOpKind) (isFP : Bool) (LHS RHS : Operand F) :
    ValueEmission F (Operand F) :=
  match kind with
  | .add => createValue (.bin (if isFP then .fadd else .add) LHS RHS)
  | .mul => createValue (.bin (if isFP then .fmul else .mul) LHS RHS)
  | .sub => createValue (.bin (if isFP then .fsub else .sub) LHS RHS)
  | .div => createValue (.bin (if isFP then .fdiv else .sdiv) LHS RHS)
  | .max => do
    let cond ← createValue (.fcmp .oge LHS RHS)
    createValue (.select cond LHS RHS)
  | .min => do
    let cond ← createValue (.fcmp .olt LHS RHS)
    createValue (.select cond LHS RHS)
  | .pow => createValue (.bin (if isFP then .pow else .powi) LHS RHS)

/-- The code for a `GEPExpr`: `offset` emits the offset into a buffer of the given sizes. -/
def createGEP (p : Program F) (arg : ArgId) (numIndices : Nat)
    (offset : List UInt32 → ValueEmission F (Operand F)) : ValueEmission F (Operand F) := do
  let decl ← Emission.ofOption p.args[arg]?
  -- The assertion of `getIndexOffsetForBuffer`.
  let _ ← Emission.ofOption (if decl.type.getDims.length = numIndices then some () else none)
  let offset ← offset decl.type.getDims
  let entry ← Emission.ofOption (p.lookupValue decl.name)
  createValue (.gep (.const (.ptr entry.1)) offset)

mutual

def Expr.generate (p : Program F) : Expr F → ValueEmission F (Operand F)
  | .index loop type => do
    let _ ← Emission.ofOption (getLLVMTypeForType type)
    createValue (.loadIndex loop)
  | .const val => pure (.const (.int (BitVec.ofInt 64 val)))
  | .constFP val => pure (.const (.floats [val]))
  | .constString val => pure (.const (.string val))
  | .binary kind lhs rhs => do
    let _ ← Emission.ofOption (getLLVMTypeForType lhs.getType)
    let LHS ← lhs.generate p
    let RHS ← rhs.generate p
    generateBinary kind (!lhs.getType.isIndexTy) LHS RHS
  | .unary kind val => do
    let _ ← Emission.ofOption (getLLVMTypeForType val.getType)
    createValue (.intrinsic kind (← val.generate p))
  | .broadcast val vf => do
    let _ ← Emission.ofOption (getLLVMTypeForType ⟨val.getType.elementType, vf⟩)
    createValue (.splat vf.val (← val.generate p))
  | .gep arg indices =>
    createGEP p arg indices.length fun dims =>
      Expr.generateOffset p dims (.const (.int 0)) indices
  | .load arg indices type => do
    let _ ← Emission.ofOption (getLLVMTypeForType type)
    let ptr ← createGEP p arg indices.length fun dims =>
      Expr.generateOffset p dims (.const (.int 0)) indices
    let decl ← Emission.ofOption p.args[arg]?
    let entry ← Emission.ofOption (p.lookupValue decl.name)
    -- A vector has the elements of the buffer.
    match entry.2 with
    | .float _ => createValue (.load (.float (if type.isVector then type.width.val else 1)) ptr)
    | ty => createValue (.load ty ptr)
  | .loadLocal var type => do
    let _ ← Emission.ofOption (getLLVMTypeForType type)
    let decl ← Emission.ofOption p.vars[var]?
    let entry ← Emission.ofOption (p.lookupValue decl.name)
    createValue (.load entry.2 (.const (.ptr entry.1)))

/-- The loop of `getIndexOffsetForBuffer`. -/
def Expr.generateOffset (p : Program F) :
    List UInt32 → Operand F → List (Expr F) → ValueEmission F (Operand F)
  | _, offset, [] => pure offset
  | dims, offset, e :: es => do
    let dimSizeVal ← scaleBySizes dims.tail (← e.generate p)
    Expr.generateOffset p dims.tail (← createValue (.bin .add offset dimSizeVal)) es

end

mutual

/-- The calls, in the order in which `emit` reaches them. -/
def Stmt.collectCalls : Stmt F → List (String × List (Expr F))
  | .loop _ body => Stmt.collectCallsBody body
  | .ifRange _ _ _ body => Stmt.collectCallsBody body
  | .call name params => [(name, params)]
  | .store _ _ _ _ | .storeLocal _ _ _ => []

def Stmt.collectCallsBody : List (Stmt F) → List (String × List (Expr F))
  | [] => []
  | s :: rest => s.collectCalls ++ Stmt.collectCallsBody rest

end

@[simp] theorem Stmt.collectCallsBody_eq (body : List (Stmt F)) :
    Stmt.collectCallsBody body = body.flatMap Stmt.collectCalls := by
  induction body with
  | nil => rfl
  | cons s rest ih => rw [Stmt.collectCallsBody, ih, List.flatMap_cons]

/-- The type of the parameter that is generated for an expression.  A float is cast to a double, which
no other parameter is. -/
def Expr.paramType : Expr F → Option LLVMType
  | .constString _ => some .ptr
  | e => getLLVMTypeForType e.getType

/-- A call of this name is a call of a function outside of the module: the empty name finds nothing,
the name of the program finds the program, and LLVM has its own functions. -/
def Program.callsOut (p : Program F) (name : String) : Bool :=
  name ≠ "" && name ≠ p.name && !"llvm.".toList.isPrefixOf name.toList

/-- The parameters of the function that `getFunction` finds under a name.  The first call of the name
declares it in `getOrInsertFunction`. -/
def Program.getFunction (p : Program F) (name : String) : Option (List LLVMType) :=
  if p.callsOut name then
    ((Stmt.collectCallsBody p.body).find? (·.1 = name)).bind fun call => call.2.mapM Expr.paramType
  else none

/-- The parameters of a call.  The promotion of a float to a double keeps its value. -/
def generateParams (p : Program F) : List (Expr F) → ValueEmission F (List (Operand F))
  | [] => pure []
  | e :: es => do
    let val ← e.generate p
    return val :: (← generateParams p es)

/-- `emit` on a leaf statement. -/
def Stmt.emitLeaf (p : Program F) : Stmt F → ValueEmission F Unit
  | .storeLocal var value accumulate => do
    let decl ← Emission.ofOption p.vars[var]?
    let varAlloca ← Emission.ofOption (p.lookupValue decl.name)
    let storedVal ← value.generate p
    if accumulate then
      let prev ← createValue (.load varAlloca.2 (.const (.ptr varAlloca.1)))
      let sum ← createValue (.bin .fadd prev storedVal)
      let _ ← Emission.insert (.store sum (.const (.ptr varAlloca.1)))
    else
      let _ ← Emission.insert (.store storedVal (.const (.ptr varAlloca.1)))
  | .store arg indices value accumulate => do
    let ptr ← (Expr.gep arg indices : Expr F).generate p
    let storedVal ← value.generate p
    if accumulate then
      let ty ← Emission.ofOption (getLLVMTypeForType value.getType)
      let ld ← createValue (.load ty ptr)
      let sum ← createValue (.bin .fadd ld storedVal)
      let _ ← Emission.insert (.store sum ptr)
    else
      let _ ← Emission.insert (.store storedVal ptr)
  | .call name params => do
    let params' ← generateParams p params
    let argListType ← Emission.ofOption (params.mapM Expr.paramType)
    let callee ← Emission.ofOption (p.getFunction name)
    -- The assertion of `CreateCall` on the signature of the function.
    let _ ← Emission.ofOption (if callee = argListType then some () else none)
    let _ ← Emission.insert (.call name params')
  | .loop _ _ | .ifRange _ _ _ _ => Emission.ofOption none

end Bistra

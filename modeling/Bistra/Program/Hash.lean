import Bistra.Program.Verify

/-! # Hashes

The `hash` methods of `Program.cpp`.  The hash of an index only uses the name of its loop, so the
names of the loops are a parameter, and so is the conversion of floating point constants to words.
-/

namespace Bistra

variable {F : Type}

/-- `ror`: rotates a word to the right. -/
def ror (x bits : UInt64) : UInt64 := (x >>> bits) ||| (x <<< (64 - bits))

/-- `hashJoin` of two words. -/
def hashJoin (one two : UInt64) : UInt64 := ror one 8 ^^^ ror two 16 ^^^ (one * two)

/-- `hashJoin` of three words. -/
def hashJoin3 (one two three : UInt64) : UInt64 := hashJoin one (hashJoin two three)

/-- `hashString`; a `char` is signed. -/
def hashString (str : String) : UInt64 :=
  str.toUTF8.data.toList.foldl (fun h c => hashJoin h c.toInt8.toInt64.toUInt64) 0

def TensorType.hash (t : TensorType) : UInt64 :=
  let h := hashJoin (UInt64.ofNat t.getNumDims) t.elementType.code.toUInt64
  let h := t.names.foldl (fun h name => hashJoin h (hashString name)) h
  t.getDims.foldl (fun h dim => hashJoin h dim.toUInt64) h

def ExprType.hash (t : ExprType) : UInt64 :=
  hashJoin t.elementType.code.toUInt64 (UInt64.ofNat t.width.val)

def Argument.hash (arg : Argument) : UInt64 := hashJoin (hashString arg.name) arg.type.hash

def LocalVar.hash (var : LocalVar) : UInt64 := hashJoin (hashString var.name) var.type.hash

section

variable (fpWord : F → UInt64) (decls : Decls) (names : LoopId → String)

mutual

def Expr.hash : Expr F → UInt64
  | .index loop _ => hashJoin (hashString (names loop)) 0xff
  | .const val => UInt64.ofInt val
  | .constFP val => fpWord val
  | .constString val => hashString val
  | .binary kind lhs rhs => hashJoin3 kind.code.toUInt64 lhs.hash rhs.hash
  | .unary kind val => hashJoin kind.code.toUInt64 val.hash
  | .broadcast val vf => hashJoin (Expr.broadcast val vf).getType.hash val.hash
  | .gep arg indices => Expr.hashIndices ((decls.args[arg]?).elim 0 Argument.hash) indices
  | .load arg indices type =>
    hashJoin type.hash (Expr.hashIndices ((decls.args[arg]?).elim 0 Argument.hash) indices)
  | .loadLocal var type => hashJoin type.hash ((decls.vars[var]?).elim 0 LocalVar.hash)

def Expr.hashIndices (h : UInt64) : List (Expr F) → UInt64
  | [] => h
  | e :: es => Expr.hashIndices (hashJoin h e.hash) es

end

mutual

def Stmt.hash : Stmt F → UInt64
  | .loop header body =>
    hashJoin (hashJoin3 (hashString header.name) header.end_.toUInt64 header.stride.toUInt64)
      (Stmt.hashBody (UInt64.ofNat body.length) body)
  | .ifRange val start end_ body =>
    hashJoin (hashJoin3 (val.hash fpWord decls names) start.toInt64.toUInt64 end_.toInt64.toUInt64)
      (Stmt.hashBody (UInt64.ofNat body.length) body)
  | .call name params =>
    hashJoin (Expr.hashIndices fpWord decls names (hashString name) params)
      (UInt64.ofNat params.length)
  | .store arg indices value accumulate =>
    hashJoin3 accumulate.toUInt64
      (Expr.hashIndices fpWord decls names ((decls.args[arg]?).elim 0 Argument.hash) indices)
      (value.hash fpWord decls names)
  | .storeLocal var value accumulate =>
    hashJoin3 accumulate.toUInt64 ((decls.vars[var]?).elim 0 LocalVar.hash)
      (value.hash fpWord decls names)

/-- The loop of `Scope::hash` over the statements. -/
def Stmt.hashBody (h : UInt64) : List (Stmt F) → UInt64
  | [] => h
  | s :: rest => Stmt.hashBody (hashJoin h s.hash) rest

end

end

def Program.loopName (p : Program F) (L : LoopId) : String :=
  (p.findLoop L).elim "" fun loop => loop.1.name

def Program.hash (fpWord : F → UInt64) (p : Program F) : UInt64 :=
  let hash := p.args.foldl (fun hash arg => hashJoin hash arg.hash) (hashString p.name)
  let hash := p.vars.foldl (fun hash var => hashJoin hash var.hash) hash
  hashJoin (Stmt.hashBody fpWord p.decls p.loopName (UInt64.ofNat p.body.length) p.body) hash

end Bistra

import Bistra.Library.IdTable
import Bistra.Bytecode.Stream

/-! # What loading touches

`Bytecode::deserialize` as a procedure whose steps are the bytes of the stream and the elements of
the tables that it takes.  Of the program only what the ids refer to is kept.  An enumerator is kept
as its code, and `holds` tells for the node whose fields end at the position of the reader whether
the assertions in its constructor hold.
-/

namespace Bistra

open Procedure

namespace Load

/-- Runs a function `n` times, passing a value along. -/
def iterate {α : Type} (step : α → Load α) : Nat → α → Load α
  | 0, a => pure a
  | n + 1, a => do
    let a ← step a
    iterate step n a

/-! ## Tables -/

/-- `getById` of a table, and `getArg` and `getVar` of a program. -/
def getById {α : Type} (table : List α) (id : UInt32) : Load α := do
  assert (table.length > id.toNat)
  check (.element table.length id.toNat)
  ofOption table[id.toNat]?

/-- `getExpr` and `getStmt` of `DeserializeContext`, for the ids that are in the map. -/
def getMapped (ids : List UInt32) (id : UInt32) : Load Unit := do
  assert (id ∈ ids)
  check (.key ids id)

/-- `registerExpr` and `registerStmt`. -/
def register (ids : List UInt32) (id : UInt32) : Load (List UInt32) := do
  assert (id ∉ ids)
  return ids ++ [id]

/-- A tensor type: the code of the element type, the sizes and the names. -/
structure TensorTypeRecord where
  elemTy : UInt8
  sizes : List UInt32
  names : List (List UInt8)

def TensorTypeRecord.isEqual (T other : TensorTypeRecord) : Bool :=
  T.elemTy = other.elemTy && T.sizes = other.sizes

/-- The tables of `BytecodeHeader`. -/
structure HeaderTables where
  stringTable : List (List UInt8)
  exprTyTable : List (UInt8 × UInt8)
  tensorTypeTable : List TensorTypeRecord

/-! ## The header -/

def addString (BH : HeaderTables) : Load HeaderTables := do
  let ss ← StreamReader.readStr
  return { BH with
    stringTable := (IdTable.getIdFor (fun a b => decide (a = b)) BH.stringTable ss).2 }

def addExprTy (BH : HeaderTables) : Load HeaderTables := do
  let tp ← StreamReader.readU8
  let width ← StreamReader.readU8
  -- The assertion in the constructor of `ExprType`.
  assert (0 < width && width < 64)
  return { BH with
    exprTyTable :=
      (IdTable.getIdFor (fun a b => decide (a = b)) BH.exprTyTable (tp, width)).2 }

def addDim (BH : HeaderTables) (dims : List UInt32 × List (List UInt8)) :
    Load (List UInt32 × List (List UInt8)) := do
  let size ← StreamReader.readU32
  let name ← getById BH.stringTable (← StreamReader.readU32)
  return (dims.1 ++ [size], dims.2 ++ [name])

def addTensorType (BH : HeaderTables) : Load HeaderTables := do
  let elemTy ← StreamReader.readU8
  let numDims ← StreamReader.readU8
  let dims ← iterate (addDim BH) numDims.toNat ([], [])
  return { BH with tensorTypeTable :=
    (IdTable.getIdFor TensorTypeRecord.isEqual BH.tensorTypeTable ⟨elemTy, dims.1, dims.2⟩).2 }

/-- `BytecodeHeader::deserialize` behind the strings. -/
def deserializeTypes (BH : HeaderTables) : Load HeaderTables := do
  let n ← StreamReader.readU32
  let BH ← iterate addExprTy n.toNat BH
  let n ← StreamReader.readU32
  iterate addTensorType n.toNat BH

/-- `BytecodeHeader::deserialize`. -/
def deserializeHeader : Load HeaderTables := do
  let magic ← StreamReader.readU32
  assert (magic = 0x03070102)
  let n ← StreamReader.readU32
  let BH ← iterate addString n.toNat ⟨[], [], []⟩
  deserializeTypes BH

/-! ## The program -/

/-- What the ids behind the header refer to: the arguments, the variables, the keys of `exprMap_`
and of `stmtMap_`, and the statements that indices wait for. -/
structure Known where
  args : List (List UInt8 × TensorTypeRecord)
  vars : List (List UInt8 × UInt8 × UInt8)
  exprs : List UInt32
  stmts : List UInt32
  resolveLater : List UInt32

variable (holds : StreamReader → Bool)

/-- The assertions in the constructor of a node. -/
def construct : Load Unit := do
  let SR ← getState
  assert (holds SR)

def getExprs (K : Known) (n : Nat) : Load Unit :=
  iterate (fun _ => do getMapped K.exprs (← StreamReader.readU32)) n ()

def registerExpr (K : Known) (exprId : UInt32) : Load Known := do
  construct holds
  let exprs ← register K.exprs exprId
  return { K with exprs }

/-- The case of a binary expression. -/
def deserializeBinary (K : Known) (exprId : UInt32) : Load Known := do
  let _kind ← StreamReader.readU8
  getMapped K.exprs (← StreamReader.readU32)
  getMapped K.exprs (← StreamReader.readU32)
  registerExpr holds K exprId

def deserializeExpr (BH : HeaderTables) (K : Known) : Load Known := do
  let opcode ← StreamReader.readU32
  assert (opcode < 10)
  let exprId ← StreamReader.readU32
  match opcode.toNat with
  | 0 => do
    let _val ← StreamReader.readU32
    registerExpr holds K exprId
  | 1 => do
    let _val ← StreamReader.readF32
    registerExpr holds K exprId
  | 2 => do
    let _val ← getById BH.stringTable (← StreamReader.readU32)
    let K ← registerExpr holds K exprId
    -- There is no `return` here: the case falls through.
    deserializeBinary holds K exprId
  | 3 => deserializeBinary holds K exprId
  | 4 => do
    let _kind ← StreamReader.readU8
    getMapped K.exprs (← StreamReader.readU32)
    registerExpr holds K exprId
  | 5 => do
    let _exprTy ← getById BH.exprTyTable (← StreamReader.readU32)
    getMapped K.exprs (← StreamReader.readU32)
    registerExpr holds K exprId
  | 6 => do
    let _var ← getById K.vars (← StreamReader.readU32)
    registerExpr holds K exprId
  | 7 => do
    getMapped K.exprs (← StreamReader.readU32)
    let _vf ← StreamReader.readU8
    registerExpr holds K exprId
  | 8 => do
    let loopId ← StreamReader.readU32
    let K ← registerExpr holds K exprId
    return { K with resolveLater := K.resolveLater ++ [loopId] }
  | _ => do
    let _arg ← getById K.args (← StreamReader.readU32)
    let numIndices ← StreamReader.readU32
    getExprs K numIndices.toNat
    registerExpr holds K exprId

/-- The fields of a statement. -/
def deserializeFields (BH : HeaderTables) (K : Known) (opcode : UInt32) : Load Unit :=
  match opcode.toNat with
  | 0 => do
    let _name ← getById BH.stringTable (← StreamReader.readU32)
    let _end ← StreamReader.readU32
    let _stride ← StreamReader.readU32
  | 1 => do
    let _name ← getById BH.stringTable (← StreamReader.readU32)
    let numParams ← StreamReader.readU8
    getExprs K numParams.toNat
  | 2 => do
    let _accumulate ← StreamReader.readU8
    getMapped K.exprs (← StreamReader.readU32)
    getMapped K.exprs (← StreamReader.readU32)
  | 3 => do
    let _var ← getById K.vars (← StreamReader.readU32)
    let _accumulate ← StreamReader.readU8
    getMapped K.exprs (← StreamReader.readU32)
  | _ => do
    getMapped K.exprs (← StreamReader.readU32)
    let _start ← StreamReader.readU32
    let _end ← StreamReader.readU32

def deserializeStmt (BH : HeaderTables) (K : Known) : Load Known := do
  let opcode ← StreamReader.readU32
  assert (opcode < 5)
  let stmtId ← StreamReader.readU32
  let parentId ← StreamReader.readU32
  getMapped K.stmts parentId
  deserializeFields BH K opcode
  construct holds
  let stmts ← register K.stmts stmtId
  return { K with stmts }

def deserializeArg (BH : HeaderTables) (K : Known) : Load Known := do
  let name ← getById BH.stringTable (← StreamReader.readU32)
  let type ← getById BH.tensorTypeTable (← StreamReader.readU32)
  construct holds
  return { K with args := K.args ++ [(name, type)] }

def deserializeVar (BH : HeaderTables) (K : Known) : Load Known := do
  let name ← getById BH.stringTable (← StreamReader.readU32)
  let type ← getById BH.exprTyTable (← StreamReader.readU32)
  construct holds
  return { K with vars := K.vars ++ [(name, type)] }

def resolve (K : Known) : List UInt32 → Load Unit
  | [] => pure ()
  | id :: ids => do
    getMapped K.stmts id
    resolve K ids

/-- `Bytecode::deserialize` behind the header. -/
def deserializeProgram (BH : HeaderTables) : Load Unit := do
  let _funcName ← getById BH.stringTable (← StreamReader.readU32)
  let numArgs ← StreamReader.readU32
  let K ← iterate (deserializeArg holds BH) numArgs.toNat ⟨[], [], [], [0], []⟩
  let numVars ← StreamReader.readU32
  let K ← iterate (deserializeVar holds BH) numVars.toNat K
  let numExprs ← StreamReader.readU32
  let K ← iterate (deserializeExpr holds BH) numExprs.toNat K
  let numStmts ← StreamReader.readU32
  let K ← iterate (deserializeStmt holds BH) numStmts.toNat K
  resolve K K.resolveLater

def deserialize : Load Unit := do
  let BH ← deserializeHeader
  deserializeProgram holds BH

/-! ## Guarded reads -/

section Guarded

variable {α : Type} {SR : StreamReader}

theorem safe_readU8 : StreamReader.readU8.Safe SR := by
  simp only [StreamReader.readU8, StreamReader.next, safe_bind, safe_getState, safe_assert,
    safe_check, safe_ofOption, safe_modifyState, safe_pure, returns_getState, returns_assert,
    decide_eq_true_eq, StreamAccess.inside, true_and]
  rintro _ _ ⟨rfl, rfl⟩ _ _ ⟨inside, rfl⟩ _ _ ⟨rfl, rfl⟩
  exact ⟨inside, fun _ _ _ _ _ _ _ _ _ => trivial⟩

theorem safe_readU32 : StreamReader.readU32.Safe SR := by
  simp only [StreamReader.readU32, safe_bind, safe_readU8, safe_pure, implies_true, and_self]

theorem safe_getById (table : List α) (id : UInt32) : (getById table id).Safe SR := by
  simp only [getById, safe_bind, safe_assert, safe_check, safe_ofOption, returns_assert,
    decide_eq_true_eq, StreamAccess.inside, implies_true, and_true, true_and]
  rintro _ _ ⟨inside, -⟩
  exact inside

theorem safe_getMapped (ids : List UInt32) (id : UInt32) : (getMapped ids id).Safe SR := by
  simp only [getMapped, safe_bind, safe_assert, safe_check, returns_assert, decide_eq_true_eq,
    StreamAccess.inside, true_and]
  rintro _ _ ⟨known, -⟩
  exact known

theorem safe_iterate {step : α → Load α} (safe : ∀ a SR, (step a).Safe SR) (n : Nat) (a : α) :
    (iterate step n a).Safe SR := by
  induction n generalizing a SR with
  | zero => exact safe_pure
  | succ n ih => exact safe_bind.mpr ⟨safe a SR, fun a SR' _ => ih a⟩

theorem safe_deserializeTypes (BH : HeaderTables) : (deserializeTypes BH).Safe SR := by
  have exprTy : ∀ BH SR, (addExprTy BH).Safe SR := fun BH SR => by
    simp only [addExprTy, safe_bind, safe_readU8, safe_assert, safe_pure, implies_true, and_self]
  have dim : ∀ (BH : HeaderTables) dims SR, (addDim BH dims).Safe SR := fun BH dims SR => by
    simp only [addDim, safe_bind, safe_readU32, safe_getById, safe_pure, implies_true, and_self]
  have tensorType : ∀ BH SR, (addTensorType BH).Safe SR := fun BH SR => by
    simp only [addTensorType, safe_bind, safe_readU8, safe_iterate (dim BH), safe_pure,
      implies_true, and_self]
  simp only [deserializeTypes, safe_bind, safe_readU32, safe_iterate exprTy,
    safe_iterate tensorType, implies_true, and_self]

theorem safe_registerExpr (K : Known) (exprId : UInt32) : (registerExpr holds K exprId).Safe SR := by
  simp only [registerExpr, construct, register, safe_bind, safe_getState, safe_assert, safe_pure,
    implies_true, and_self]

theorem safe_getExprs (K : Known) (n : Nat) : (getExprs K n).Safe SR :=
  safe_iterate (fun _ _ => by
    simp only [safe_bind, safe_readU32, safe_getMapped, implies_true, and_self]) n ()

theorem safe_deserializeExpr (BH : HeaderTables) (K : Known) :
    (deserializeExpr holds BH K).Safe SR := by
  have binary : ∀ K exprId SR, (deserializeBinary holds K exprId).Safe SR := fun K exprId SR => by
    simp only [deserializeBinary, safe_bind, safe_readU8, safe_readU32, safe_getMapped,
      safe_registerExpr, implies_true, and_self]
  simp only [deserializeExpr, safe_bind, safe_readU32, safe_assert, true_and]
  intro opcode _ _ _ _ _ _ _ _
  split <;> simp only [StreamReader.readF32, safe_bind, safe_readU8, safe_readU32, safe_getMapped,
    safe_getById, safe_getExprs, safe_registerExpr, binary, safe_pure, implies_true, and_self]

theorem safe_deserializeStmt (BH : HeaderTables) (K : Known) :
    (deserializeStmt holds BH K).Safe SR := by
  have fields : ∀ opcode SR, (deserializeFields BH K opcode).Safe SR := fun opcode SR => by
    rw [deserializeFields]
    split <;> simp only [safe_bind, safe_readU8, safe_readU32, safe_getMapped, safe_getById,
      safe_getExprs, safe_pure, implies_true, and_self]
  simp only [deserializeStmt, construct, register, safe_bind, safe_readU32, safe_assert,
    safe_getMapped, fields, safe_getState, safe_pure, implies_true, and_self]

theorem safe_deserializeProgram (BH : HeaderTables) : (deserializeProgram holds BH).Safe SR := by
  have arg : ∀ K SR, (deserializeArg holds BH K).Safe SR := fun K SR => by
    simp only [deserializeArg, construct, safe_bind, safe_readU32, safe_getById, safe_getState,
      safe_assert, safe_pure, implies_true, and_self]
  have var : ∀ K SR, (deserializeVar holds BH K).Safe SR := fun K SR => by
    simp only [deserializeVar, construct, safe_bind, safe_readU32, safe_getById, safe_getState,
      safe_assert, safe_pure, implies_true, and_self]
  have resolved : ∀ K ids SR, (resolve K ids).Safe SR := fun K ids => by
    induction ids with
    | nil => exact fun SR => safe_pure
    | cons id ids ih =>
      simp only [resolve, safe_bind, safe_getMapped, ih, implies_true, and_self]
  have expr : ∀ K SR, (deserializeExpr holds BH K).Safe SR :=
    fun K SR => safe_deserializeExpr holds BH K
  have stmt : ∀ K SR, (deserializeStmt holds BH K).Safe SR :=
    fun K SR => safe_deserializeStmt holds BH K
  simp only [deserializeProgram, safe_bind, safe_readU32, safe_getById, safe_iterate arg,
    safe_iterate var, safe_iterate expr, safe_iterate stmt, resolved, implies_true, and_self]

end Guarded

end Load

/-! ## Strings -/

def StreamReader.rest (SR : StreamReader) : List UInt8 := SR.stream.drop SR.pos

theorem StreamReader.rest_succ {SR : StreamReader} {byte : UInt8} {rest : List UInt8}
    (front : SR.rest = byte :: rest) :
    StreamReader.rest { SR with pos := SR.pos + 1 } = rest := by
  have tail : SR.rest.tail = rest := by rw [front, List.tail_cons]
  rwa [StreamReader.rest, List.tail_drop] at tail

/-- A reader with a position does what a reader does that takes bytes from the front. -/
def Follows {α : Type} (x : Load α) (read : Codec.Reader α) : Prop :=
  ∀ SR : StreamReader, (∀ a SR', x.Returns SR a SR' → read SR.rest = some (a, SR'.rest)) ∧
    ∀ a rest, read SR.rest = some (a, rest) → ∃ SR', x.Returns SR a SR' ∧ SR'.rest = rest

section Follows

variable {α β : Type} {SR SR' : StreamReader}

theorem Follows.pure (a : α) : Follows (Pure.pure a) (Pure.pure a) := by
  refine fun SR => ⟨fun b SR' returns => ?_, fun b rest same => ?_⟩
  · obtain ⟨rfl, rfl⟩ := returns_pure.mp returns
    rfl
  · cases same
    exact ⟨SR, returns_pure.mpr ⟨rfl, rfl⟩, rfl⟩

theorem Follows.bind {x : Load α} {f : α → Load β} {read : Codec.Reader α}
    {next : α → Codec.Reader β} (first : Follows x read) (second : ∀ a, Follows (f a) (next a)) :
    Follows (x >>= f) (read >>= next) := by
  have unfold : ∀ bytes, (read >>= next) bytes = (read bytes).bind fun r => next r.1 r.2 :=
    fun _ => rfl
  refine fun SR => ⟨fun b SR' returns => ?_, fun b rest same => ?_⟩
  · obtain ⟨a, SR₁, early, late⟩ := returns_bind.mp returns
    rw [unfold, (first SR).1 a SR₁ early, Option.bind_some]
    exact (second a SR₁).1 b SR' late
  · rw [unfold] at same
    obtain ⟨⟨a, rest₁⟩, early, late⟩ := Option.bind_eq_some_iff.mp same
    obtain ⟨SR₁, returns, rfl⟩ := (first SR).2 a rest₁ early
    obtain ⟨SR', returns', same⟩ := (second a SR₁).2 b rest late
    exact ⟨SR', returns_bind.mpr ⟨a, SR₁, returns, returns'⟩, same⟩

theorem Follows.forall_returns {x : Load α} {read : Codec.Reader α} (follows : Follows x read)
    {P : α → List UInt8 → Prop} :
    (∀ a SR', x.Returns SR a SR' → P a SR'.rest) ↔
      ∀ a rest, read SR.rest = some (a, rest) → P a rest := by
  constructor
  · intro holds a rest same
    obtain ⟨SR', returns, rfl⟩ := (follows SR).2 a rest same
    exact holds a SR' returns
  · intro holds a SR' returns
    exact holds a SR'.rest ((follows SR).1 a SR' returns)

theorem returns_next {byte : UInt8} : StreamReader.next.Returns SR byte SR' ↔
    ∃ rest, SR.rest = byte :: rest ∧ SR' = { SR with pos := SR.pos + 1 } := by
  simp only [StreamReader.next, returns_bind, returns_getState, returns_check, returns_ofOption,
    returns_modifyState, returns_pure, StreamAccess.inside, decide_eq_true_eq]
  constructor
  · rintro ⟨_, _, ⟨rfl, rfl⟩, _, _, ⟨inside, rfl⟩, b, _, ⟨found, rfl⟩, _, _, rfl, rfl, rfl⟩
    have byte := (List.getElem?_eq_some_iff.mp found).2
    exact ⟨_, by rw [StreamReader.rest, List.drop_eq_getElem_cons inside, byte], rfl⟩
  · rintro ⟨rest, front, rfl⟩
    have inside : SR.pos < SR.stream.length := by
      by_contra outside
      rw [StreamReader.rest, List.drop_of_length_le (by omega)] at front
      cases front
    have found : SR.stream[SR.pos]? = some byte := by
      rw [StreamReader.rest, List.drop_eq_getElem_cons inside] at front
      rw [List.getElem?_eq_getElem inside, (List.cons.inj front).1]
    exact ⟨_, _, ⟨rfl, rfl⟩, (), _, ⟨inside, rfl⟩, byte, _, ⟨found, rfl⟩, (), _, rfl, rfl, rfl⟩

theorem safe_next : StreamReader.next.Safe SR ↔ SR.rest ≠ [] := by
  simp only [StreamReader.next, safe_bind, safe_getState, safe_check, safe_ofOption,
    safe_modifyState, safe_pure, returns_getState, StreamAccess.inside, decide_eq_true_eq,
    implies_true, and_true, true_and, and_imp, StreamReader.rest, ne_eq, List.drop_eq_nil_iff,
    not_le]
  exact ⟨fun safe => safe SR SR rfl rfl, fun inside _ _ same _ => same ▸ inside⟩

theorem returns_readU8 {byte : UInt8} : StreamReader.readU8.Returns SR byte SR' ↔
    ∃ rest, SR.rest = byte :: rest ∧ SR' = { SR with pos := SR.pos + 1 } := by
  simp only [StreamReader.readU8, returns_bind, returns_getState, returns_assert,
    decide_eq_true_eq, returns_next]
  constructor
  · rintro ⟨_, _, ⟨rfl, rfl⟩, _, _, ⟨-, rfl⟩, front⟩
    exact front
  · rintro ⟨rest, front, same⟩
    refine ⟨_, _, ⟨rfl, rfl⟩, (), _, ⟨?_, rfl⟩, rest, front, same⟩
    by_contra outside
    rw [StreamReader.rest, List.drop_of_length_le (by omega)] at front
    cases front

theorem follows_readU8 : Follows StreamReader.readU8 Codec.readU8 := by
  refine fun SR => ⟨fun byte SR' returns => ?_, fun byte rest same => ?_⟩
  · obtain ⟨rest, front, rfl⟩ := returns_readU8.mp returns
    rw [StreamReader.rest_succ front, front]
    rfl
  · cases front : SR.rest with
    | nil => rw [front] at same; cases same
    | cons first others =>
      rw [front] at same
      cases same
      exact ⟨_, returns_readU8.mpr ⟨_, front, rfl⟩, StreamReader.rest_succ front⟩

theorem follows_readU32 : Follows StreamReader.readU32 Codec.readU32 :=
  follows_readU8.bind fun _ => follows_readU8.bind fun _ => follows_readU8.bind fun _ =>
    follows_readU8.bind fun _ => .pure _

theorem safe_readChars {len : Nat} {res : List UInt8} :
    (StreamReader.readChars len res).Safe SR ↔ len ≤ SR.rest.length := by
  induction len generalizing res SR with
  | zero => exact ⟨fun _ => Nat.zero_le _, fun _ => safe_pure⟩
  | succ len ih =>
    rw [StreamReader.readChars, safe_bind, safe_next]
    cases front : SR.rest with
    | nil => simp
    | cons byte rest =>
      have later := StreamReader.rest_succ front
      constructor
      · rintro ⟨-, safe⟩
        have := ih.mp (safe byte _ (returns_next.mpr ⟨rest, front, rfl⟩))
        rw [later] at this
        simpa using this
      · intro enough
        refine ⟨by simp, fun c SR' returns => ih.mpr ?_⟩
        obtain ⟨rest', front', rfl⟩ := returns_next.mp returns
        rw [StreamReader.rest_succ front']
        cases front.symm.trans front'
        simpa using enough

theorem rest_of_readChars {len : Nat} {res s : List UInt8}
    (returns : (StreamReader.readChars len res).Returns SR s SR') :
    SR'.rest = SR.rest.drop len := by
  induction len generalizing res SR with
  | zero =>
    obtain ⟨-, rfl⟩ := returns_pure.mp returns
    rfl
  | succ len ih =>
    obtain ⟨c, SR₁, first, later⟩ := returns_bind.mp returns
    obtain ⟨rest, front, rfl⟩ := returns_next.mp first
    rw [ih later, StreamReader.rest_succ front, front, List.drop_succ_cons]

theorem readChars_returns {len : Nat} (res : List UInt8) (enough : len ≤ SR.rest.length) :
    ∃ s SR', (StreamReader.readChars len res).Returns SR s SR' := by
  induction len generalizing res SR with
  | zero => exact ⟨res, SR, returns_pure.mpr ⟨rfl, rfl⟩⟩
  | succ len ih =>
    cases front : SR.rest with
    | nil => rw [front] at enough; cases enough
    | cons byte rest =>
      have first := returns_next.mpr ⟨rest, front, rfl⟩
      have later : len ≤ (StreamReader.rest { SR with pos := SR.pos + 1 }).length := by
        rw [StreamReader.rest_succ front]
        rw [front, List.length_cons] at enough
        omega
      obtain ⟨s, SR', returns⟩ := ih (res ++ [byte]) later
      exact ⟨s, SR', returns_bind.mpr ⟨byte, _, first, returns⟩⟩

end Follows

/-- The strings that follow each other on the stream, each behind its length, are there. -/
def stringsInside : Nat → List UInt8 → Bool
  | 0, _ => true
  -- The length is read with a check.
  | _ + 1, [] => true
  | n + 1, len :: rest => len.toNat ≤ rest.length && stringsInside n (rest.drop len.toNat)

/-- The strings of the header are there, if the loader comes to them. -/
def stringsFit (media : List UInt8) : Bool :=
  match Codec.readU32 media with
  | none => true
  | some (magic, rest) => magic ≠ 0x03070102 ||
    match Codec.readU32 rest with
    | none => true
    | some (n, rest) => stringsInside n.toNat rest

theorem safe_addStrings {n : Nat} {BH : Load.HeaderTables} {SR : StreamReader} :
    (Load.iterate Load.addString n BH).Safe SR ↔ stringsInside n SR.rest = true := by
  induction n generalizing BH SR with
  | zero => exact ⟨fun _ => rfl, fun _ => safe_pure⟩
  | succ n ih =>
    simp only [Load.iterate, Load.addString, StreamReader.readStr, safe_bind, Load.safe_readU8,
      safe_pure, safe_readChars, returns_bind, returns_pure, true_and, implies_true, and_true]
    cases front : SR.rest with
    | nil =>
      have ended : ∀ byte SR', ¬ StreamReader.readU8.Returns SR byte SR' := by
        intro byte SR' returns
        obtain ⟨rest, front', -⟩ := returns_readU8.mp returns
        cases front.symm.trans front'
      simp [stringsInside, ended]
    | cons len rest =>
      have read : StreamReader.readU8.Returns SR len { SR with pos := SR.pos + 1 } :=
        returns_readU8.mpr ⟨rest, front, rfl⟩
      have behind := StreamReader.rest_succ front
      rw [stringsInside, Bool.and_eq_true, decide_eq_true_eq]
      have readUnique : ∀ byte SR', StreamReader.readU8.Returns SR byte SR' →
          byte = len ∧ SR' = { SR with pos := SR.pos + 1 } := by
        intro byte SR' returns
        obtain ⟨rest', front', rfl⟩ := returns_readU8.mp returns
        cases front.symm.trans front'
        exact ⟨rfl, rfl⟩
      constructor
      · rintro ⟨chars, strings⟩
        have enough := chars len _ read
        -- The characters are there, so the loop goes on with the next string.
        obtain ⟨ss, SR', string⟩ := readChars_returns [] enough
        have later := ih.mp (strings _ SR' ⟨ss, SR', ⟨len, _, read, string⟩, rfl, rfl⟩)
        rw [rest_of_readChars string, behind] at later
        rw [behind] at enough
        exact ⟨enough, later⟩
      · rintro ⟨enough, inside⟩
        constructor
        · intro byte SR' returns
          obtain ⟨rfl, rfl⟩ := readUnique byte SR' returns
          rwa [behind]
        · rintro BH' SR' ⟨ss, SR₂, ⟨byte, SR₁, returns, string⟩, rfl, rfl⟩
          obtain ⟨rfl, rfl⟩ := readUnique byte SR₁ returns
          exact ih.mpr (by rwa [rest_of_readChars string, behind])

/-- Loading takes only bytes of the stream and elements of the tables exactly if the strings of the
header are on the stream. -/
theorem Load.deserialize_safe_iff (holds : StreamReader → Bool) (media : List UInt8) :
    (Load.deserialize holds).Safe ⟨media, 0⟩ ↔ stringsFit media = true := by
  simp only [Load.deserialize, Load.deserializeHeader, safe_bind, Load.safe_readU32, safe_assert,
    Load.safe_deserializeTypes, Load.safe_deserializeProgram, safe_addStrings, implies_true,
    and_true, true_and]
  have strings : ∀ SR : StreamReader,
      (∀ n SR', StreamReader.readU32.Returns SR n SR' → stringsInside n.toNat SR'.rest = true) ↔
        ∀ n rest, Codec.readU32 SR.rest = some (n, rest) → stringsInside n.toNat rest = true :=
    fun SR => follows_readU32.forall_returns
      (P := fun n rest => stringsInside n.toNat rest = true)
  simp only [strings, returns_assert, decide_eq_true_eq]
  have start : StreamReader.rest ⟨media, 0⟩ = media := rfl
  rw [stringsFit]
  constructor
  · intro safe
    cases magicRead : Codec.readU32 media with
    | none => rfl
    | some r =>
      obtain ⟨magic, rest⟩ := r
      obtain ⟨SR, returns, rfl⟩ := (follows_readU32 ⟨media, 0⟩).2 magic rest magicRead
      by_cases valid : magic = 50790658
      · have counted := safe magic SR returns () SR ⟨valid, rfl⟩
        cases countRead : Codec.readU32 SR.rest with
        | none => simp only [countRead, Bool.or_true]
        | some r => simpa [countRead, valid] using counted r.1 r.2 countRead
      · simp [valid]
  · rintro fit magic SR returns _ _ ⟨valid, rfl⟩ n rest countRead
    have magicRead := (follows_readU32 ⟨media, 0⟩).1 magic _ returns
    rw [start] at magicRead
    simpa [magicRead, countRead, valid] using fit

/-- A media with the magic number and a string of length five that is not there. -/
theorem Load.deserialize_short_string :
    ¬ (Load.deserialize fun _ => true).Safe
      ⟨Codec.writeU32 0x03070102 ++ Codec.writeU32 1 ++ [5], 0⟩ := by
  rw [Load.deserialize_safe_iff]
  decide

end Bistra

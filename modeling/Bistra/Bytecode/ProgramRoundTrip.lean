import Mathlib.Data.List.Nodup
import Mathlib.Data.List.Perm.Subperm
import Bistra.Bytecode.TableBounds

/-! # Reading a program back

`Bytecode::deserialize` on what `Bytecode::serialize` has written: the header gives the tables of
the writer, the declarations are those of the program up to the names of the dimensions, and the
body is `Stmt.readBackBody`.
-/

namespace Bistra

open Codec (Answers writeU32 readU32 answers_readU32 iterate ofOption)

/-! ## The tables of a program -/

def Program.strings (p : Program UInt32) : List String :=
  p.name :: (p.args.flatMap (fun arg => arg.name :: arg.type.names) ++ p.vars.map (·.name) ++
    (Stmt.collectStmtsBody p.body).flatMap Stmt.names ++
    (Stmt.ownedBody p.body).flatMap Expr.strings)

def Stmt.numParams {F : Type} : Stmt F → Nat
  | .call _ params => params.length
  | _ => 0

/-- Lengths and counts fit into the fields that they are written to. -/
structure Program.Fits (p : Program UInt32) : Prop where
  short : ∀ str ∈ p.strings, ShortString str
  strings : p.strings.length < 2 ^ 32
  args : p.args.length < 2 ^ 32
  vars : p.vars.length < 2 ^ 32
  dims : ∀ arg ∈ p.args, arg.type.getNumDims < 256
  params : ∀ s ∈ Stmt.collectStmtsBody p.body, s.numParams < 256
  exprs : Stmt.exprCountBody p.body < 2 ^ 32
  stmts : (Stmt.collectStmtsBody p.body).length + 1 < 2 ^ 32

/-- What the program mentions. -/
def Program.tableBounds (p : Program UInt32) : TableBounds where
  strings := p.strings
  tensorTypes := p.args.map (·.type)
  numExprs := Stmt.exprCountBody p.body
  stmts := .program :: (Stmt.itemsBody 0 1 .program p.body).map (·.stmt)

/-- The tables that are written to the header. -/
def Program.finalTables (p : Program UInt32) : Tables :=
  (serializeProgram p Tables.empty).2.addNames

theorem Tables.within_empty (p : Program UInt32) : Tables.empty.Within p.tableBounds where
  distinct := ⟨List.Pairwise.nil, List.Pairwise.nil, List.Pairwise.nil⟩
  separatedExprs := List.Pairwise.nil
  separatedStmts := List.pairwise_singleton _ _
  strings _ mem := by cases mem
  tensorTypes _ mem := by cases mem
  exprs _ mem := by cases mem
  stmts _ mem := by
    rw [List.mem_singleton.mp mem]
    exact List.mem_cons_self

theorem Tables.Within.addNames {B : TableBounds} {t : Tables} (within : t.Within B)
    (names : ∀ type ∈ B.tensorTypes, ∀ name ∈ type.names, name ∈ B.strings) :
    t.addNames.Within B := by
  have grows : ∀ (more table : List String), (∀ name ∈ more, name ∈ B.strings) →
      IdTable.Separated (fun a b => decide (a = b)) table → (∀ str ∈ table, str ∈ B.strings) →
      let final := more.foldl
        (fun table name => (IdTable.getIdFor (fun a b => decide (a = b)) table name).2) table
      IdTable.Separated (fun a b => decide (a = b)) final ∧ ∀ str ∈ final, str ∈ B.strings := by
    intro more
    induction more with
    | nil => exact fun table _ separated sub => ⟨separated, sub⟩
    | cons name more ih =>
      intro table all separated sub
      rw [List.forall_mem_cons] at all
      exact ih _ all.2 (IdTable.separated_getIdFor separated name) (forall_mem_getIdFor sub all.1)
  have added := grows (t.tensorTypeTable.flatMap TensorType.names) t.stringTable
    (by
      intro name mem
      obtain ⟨type, memType, memName⟩ := List.mem_flatMap.mp mem
      exact names type (within.tensorTypes type memType) name memName)
    within.distinct.strings within.strings
  exact { within with
    distinct := { within.distinct with strings := added.1 }
    strings := added.2 }

section Tables

variable {p : Program UInt32}

theorem Program.within_owned (loops : ∀ e ∈ Stmt.ownedBody p.body, ∀ index ∈ e.collectIndices,
      index.1 ∈ Stmt.loopIds p.body) :
    ∀ e ∈ Stmt.ownedBody p.body, e.Within p.tableBounds := by
  intro e mem
  constructor
  · intro str memStr
    apply List.mem_cons_of_mem
    exact List.mem_append_right _ (List.mem_flatMap.mpr ⟨e, mem, memStr⟩)
  · intro index memIndex
    obtain ⟨item, memItem, ref, -⟩ :=
      Stmt.loop_mem_itemsBody p.body 0 1 .program index.1 (loops e mem index memIndex)
    exact List.mem_cons_of_mem _ (List.mem_map.mpr ⟨item, memItem, ref⟩)

theorem Program.keeps_serializeProgram (loops : ∀ e ∈ Stmt.ownedBody p.body,
      ∀ index ∈ e.collectIndices, index.1 ∈ Stmt.loopIds p.body) :
    (serializeProgram p).Keeps p.tableBounds := by
  -- The strings of a program: its name, and those of arguments, variables and statements.
  have mentioned : ∀ {str : String}, (str = p.name ∨
      str ∈ p.args.flatMap (fun arg => arg.name :: arg.type.names) ∨ str ∈ p.vars.map (·.name) ∨
      str ∈ (Stmt.collectStmtsBody p.body).flatMap Stmt.names) → str ∈ p.tableBounds.strings := by
    intro str mem
    simp only [Program.tableBounds, Program.strings, List.mem_cons, List.mem_append]
    rcases mem with same | mem | mem | mem
    · exact .inl same
    · exact .inr (.inl (.inl (.inl mem)))
    · exact .inr (.inl (.inl (.inr mem)))
    · exact .inr (.inl (.inr mem))
  have args : ∀ arg ∈ p.args,
      Writer.Keeps (writeString arg.name ++ writeTensorType arg.type) p.tableBounds := by
    intro arg mem
    have name : arg.name ∈ p.tableBounds.strings :=
      mentioned (.inr (.inl (List.mem_flatMap.mpr ⟨arg, mem, List.mem_cons_self⟩)))
    exact (keeps_writeString name).append (keeps_writeTensorType (List.mem_map_of_mem mem))
  have vars : ∀ var ∈ p.vars,
      Writer.Keeps (writeString var.name ++ writeExprTy var.type) p.tableBounds := by
    intro var mem
    have name : var.name ∈ p.tableBounds.strings :=
      mentioned (.inr (.inr (.inl (List.mem_map_of_mem mem))))
    exact (keeps_writeString name).append (keeps_writeExprTy _)
  have decls : (serializeDecls p).Keeps p.tableBounds :=
    ((((keeps_writeString (mentioned (.inl rfl))).append (keeps_pure _)).append
      (keeps_writeAll args)).append (keeps_pure _)).append (keeps_writeAll vars)
  have exprs : (serializeExprs 0 (Stmt.nodesBody 0 p.body)).Keeps p.tableBounds := by
    rw [Stmt.nodesBody_eq]
    -- The ids of expressions are positions, so there are as many as nodes.
    have bound : p.tableBounds.numExprs = Expr.count (Stmt.ownedBody p.body) :=
      Stmt.exprCountBody_eq p.body
    apply keeps_serializeExprs
    · rw [Expr.length_nodesList, bound, Nat.zero_add]
    · apply Expr.within_nodesList _ _ (Program.within_owned loops)
      rw [bound, Nat.zero_add]
  have names : ∀ t ∈ Stmt.collectStmtsBody p.body, ∀ name ∈ t.names,
      name ∈ p.tableBounds.strings := fun t mem name memName =>
    mentioned (.inr (.inr (.inr (List.mem_flatMap.mpr ⟨t, mem, memName⟩))))
  have stmts : (writeAll serializeStmt (Stmt.itemsBody 0 1 .program p.body)).Keeps
      p.tableBounds := by
    apply keeps_writeAll
    intro item mem
    apply keeps_serializeStmt
    · exact List.mem_cons_of_mem _ (List.mem_map_of_mem mem)
    · exact Stmt.parent_mem_itemsBody p.body 0 1 .program item mem
    · exact Stmt.within_nodesBody p.body 0 1 .program names (by rw [Nat.zero_add]; rfl) item mem
  exact (((decls.append (keeps_pure _)).append exprs).append (keeps_pure _)).append stmts

theorem Program.within_finalTables (loops : ∀ e ∈ Stmt.ownedBody p.body,
      ∀ index ∈ e.collectIndices, index.1 ∈ Stmt.loopIds p.body) :
    p.finalTables.Within p.tableBounds := by
  apply Tables.Within.addNames (Program.keeps_serializeProgram loops _ (Tables.within_empty p))
  intro type mem name memName
  obtain ⟨arg, memArg, rfl⟩ := List.mem_map.mp mem
  simp only [Program.tableBounds, Program.strings, List.mem_cons, List.mem_append]
  exact .inr (.inl (.inl (.inl
    (List.mem_flatMap.mpr ⟨arg, memArg, List.mem_cons_of_mem _ memName⟩))))

mutual

theorem Stmt.length_items : ∀ (s : Stmt UInt32) (base pos : Nat) (parent : StmtRef),
    (s.items base pos parent).length = s.collectStmts.length
  | .loop _ body, base, pos, parent => by
    rw [Stmt.items, Stmt.collectStmts, List.length_cons, List.length_cons,
      Stmt.length_itemsBody body]
  | .ifRange _ _ _ body, base, pos, parent => by
    rw [Stmt.items, Stmt.collectStmts, List.length_cons, List.length_cons,
      Stmt.length_itemsBody body]
  | .call _ _, _, _, _ | .store _ _ _ _, _, _, _ | .storeLocal _ _ _, _, _, _ => rfl

theorem Stmt.length_itemsBody : ∀ (body : List (Stmt UInt32)) (base pos : Nat)
    (parent : StmtRef),
    (Stmt.itemsBody base pos parent body).length = (Stmt.collectStmtsBody body).length
  | [], _, _, _ => rfl
  | s :: rest, base, pos, parent => by
    rw [Stmt.itemsBody, Stmt.collectStmtsBody, List.length_append, List.length_append,
      Stmt.length_items s, Stmt.length_itemsBody rest]

end

theorem length_exprTys {types : List ExprType} (nodup : types.Nodup) : types.length ≤ 5 * 64 := by
  have injective : ∀ a ∈ types, ∀ b ∈ types,
      a.elementType.code.toNat * 64 + a.width.val = b.elementType.code.toNat * 64 + b.width.val →
      a = b := by
    intro a _ b _ same
    obtain ⟨kindA, widthA, _, boundA⟩ := a
    obtain ⟨kindB, widthB, _, boundB⟩ := b
    simp only at same
    have kinds : kindA.code.toNat = kindB.code.toNat := by omega
    have widths : widthA = widthB := by omega
    subst widths
    cases kindA <;> cases kindB <;> first | rfl | exact absurd kinds (by decide)
  have codes := nodup.map_on injective
  have below : ∀ code ∈ types.map fun a : ExprType =>
      a.elementType.code.toNat * 64 + a.width.val, code ∈ List.range (5 * 64) := by
    intro code mem
    obtain ⟨⟨kind, width, _, bound⟩, -, rfl⟩ := List.mem_map.mp mem
    rw [List.mem_range]
    have : kind.code.toNat < 5 := by cases kind <;> decide
    simp only
    omega
  have := (codes.subperm below).length_le
  rwa [List.length_map, List.length_range] at this

theorem Program.small_finalTables (fits : p.Fits)
    (within : p.finalTables.Within p.tableBounds) : p.finalTables.Small where
  strings := by
    have nodup := IdTable.nodup_of_separated within.distinct.strings
    exact (nodup.subperm within.strings).length_le.trans_lt fits.strings
  exprTys := by
    have nodup := IdTable.nodup_of_separated within.distinct.exprTys
    exact (length_exprTys nodup).trans_lt (by decide)
  tensorTypes := by
    have nodup := within.distinct.tensorTypes.nodup TensorType.isEqual_refl
    have := (nodup.subperm within.tensorTypes).length_le
    rw [Program.tableBounds, List.length_map] at this
    exact this.trans_lt fits.args
  exprs := by
    have nodup := IdTable.nodup_of_separated within.separatedExprs
    have below : ∀ expr ∈ p.finalTables.exprTable,
        expr ∈ List.range (Stmt.exprCountBody p.body) := fun expr mem =>
      List.mem_range.mpr (within.exprs expr mem)
    have := (nodup.subperm below).length_le
    rw [List.length_range] at this
    exact this.trans_lt fits.exprs
  stmts := by
    have nodup := IdTable.nodup_of_separated within.separatedStmts
    have := (nodup.subperm within.stmts).length_le
    rw [Program.tableBounds, List.length_cons, List.length_map, Stmt.length_itemsBody] at this
    exact this.trans_lt fits.stmts

theorem Program.writable_finalTables (fits : p.Fits)
    (within : p.finalTables.Within p.tableBounds) : p.finalTables.Writable where
  short str mem := fits.short str (within.strings str mem)
  dims type mem := by
    obtain ⟨arg, memArg, rfl⟩ := List.mem_map.mp (within.tensorTypes type mem)
    exact fits.dims arg memArg
  names type mem name memName :=
    IdTable.mem_foldl (List.mem_flatMap.mpr ⟨type, mem, memName⟩) _

theorem Tables.grows_addNames (t : Tables) : t.Grows t.addNames :=
  ⟨IdTable.prefix_foldl _ _, List.prefix_rfl, List.prefix_rfl, List.prefix_rfl, List.prefix_rfl⟩

end Tables

/-! ## The bytes of a program -/

def Program.declBytes (p : Program UInt32) (T : Tables) : List UInt8 :=
  writeU32 (T.stringId p.name) ++ writeU32 (UInt32.ofNat p.args.length) ++
    p.args.flatMap (fun arg => writeU32 (T.stringId arg.name) ++
      writeU32 (T.tensorTypeId arg.type)) ++
    writeU32 (UInt32.ofNat p.vars.length) ++
    p.vars.flatMap fun var => writeU32 (T.stringId var.name) ++ writeU32 (T.exprTyId var.type)

def Program.bytes (p : Program UInt32) (T : Tables) : List UInt8 :=
  p.declBytes T ++ writeU32 (UInt32.ofNat (Stmt.nodesBody 0 p.body).length) ++
    ((Stmt.nodesBody 0 p.body).zipIdx 0).flatMap (fun item => item.1.bytes T item.2) ++
    writeU32 (UInt32.ofNat (Stmt.itemsBody 0 1 .program p.body).length) ++
    (Stmt.itemsBody 0 1 .program p.body).flatMap (StmtItem.bytes T)

/-- The tables have everything that the program mentions. -/
structure Program.Known (p : Program UInt32) (T : Tables) : Prop where
  name : p.name ∈ T.stringTable
  args : ∀ arg ∈ p.args, arg.name ∈ T.stringTable ∧
    T.tensorTypeTable.any (TensorType.isEqual · arg.type) = true
  vars : ∀ var ∈ p.vars, var.name ∈ T.stringTable ∧ var.type ∈ T.exprTyTable
  exprs : ∀ item ∈ (Stmt.nodesBody 0 p.body).zipIdx 0, item.2 ∈ T.exprTable ∧ item.1.Known T
  stmts : ∀ item ∈ Stmt.itemsBody 0 1 .program p.body, item.Known T

theorem writes_serializeProgram (p : Program UInt32) :
    (serializeProgram p).Writes (fun T => p.bytes T) (fun T => p.Known T) := by
  have args := writes_writeAll fun arg (_ : arg ∈ p.args) =>
    (writes_writeString arg.name).append (writes_writeTensorType arg.type)
  have vars := writes_writeAll fun var (_ : var ∈ p.vars) =>
    (writes_writeString var.name).append (writes_writeExprTy var.type)
  have decls := ((((writes_writeString p.name).append
    (writes_pure (writeU32 (UInt32.ofNat p.args.length)))).append args).append
    (writes_pure (writeU32 (UInt32.ofNat p.vars.length)))).append vars
  have exprs := writes_serializeExprs 0 (Stmt.nodesBody 0 p.body)
  have stmts := writes_writeAll fun item (_ : item ∈ Stmt.itemsBody 0 1 .program p.body) =>
    writes_serializeStmt item
  refine ((((decls.append (writes_pure _)).append exprs).append (writes_pure _)).append
    stmts).congr (fun T => rfl) fun T has => ?_
  obtain ⟨⟨⟨⟨⟨⟨⟨⟨name, -⟩, args⟩, -⟩, vars⟩, -⟩, exprs⟩, -⟩, stmts⟩ := has
  exact ⟨name, args, vars, exprs, stmts⟩

theorem Program.serialize_eq {p : Program UInt32} (writable : p.finalTables.Writable) :
    Bytecode.serialize p = some (p.finalTables.headerBytes ++ p.bytes p.finalTables) := by
  obtain ⟨bytes, -, -⟩ := writes_serializeProgram p Tables.empty p.finalTables
    (Tables.grows_addNames _)
  show (p.finalTables.serializeHeader).map (fun header => header ++
    (serializeProgram p Tables.empty).1) = _
  rw [Tables.serializeHeader_eq writable.short, bytes]
  rfl

theorem Program.known_finalTables (p : Program UInt32) : p.Known p.finalTables :=
  (writes_serializeProgram p Tables.empty p.finalTables (Tables.grows_addNames _)).2.1

theorem Program.stmtId_program (p : Program UInt32) :
    p.finalTables.stmtId .program = 0 ∧ .program ∈ p.finalTables.stmtTable := by
  have grows := (writes_serializeProgram p Tables.empty p.finalTables (Tables.grows_addNames _)).2.2
  constructor
  · rw [Tables.stmtId, @IdTable.idOf_of_extends _ (fun a b => decide (a = b)) _ _ .program
      grows.stmts rfl]
    rfl
  · exact grows.stmts.subset List.mem_cons_self

/-! ## Reading the declarations -/

/-- The tensor type that is read back: the first one with the same kind and sizes. -/
def Tables.readType (T : Tables) (type : TensorType) : TensorType :=
  (T.tensorTypeTable[IdTable.idOf TensorType.isEqual T.tensorTypeTable type]?).getD type

def Tables.readArg (T : Tables) (arg : Argument) : Argument := ⟨arg.name, T.readType arg.type⟩

section Reading

variable {p : Program UInt32} {T : Tables}

theorem Tables.readType_spec {type : TensorType}
    (known : T.tensorTypeTable.any (TensorType.isEqual · type) = true) :
    T.tensorTypeTable[IdTable.idOf TensorType.isEqual T.tensorTypeTable type]? =
        some (T.readType type) ∧ T.readType type ∈ T.tensorTypeTable ∧
      (T.readType type).isEqual type = true := by
  obtain ⟨found, entry, same⟩ := IdTable.getElem?_idOf known
  rw [Tables.readType, entry, Option.getD_some]
  exact ⟨rfl, List.mem_of_getElem? entry, same⟩

theorem answers_readTensorType (small : T.Small) {type : TensorType}
    (known : T.tensorTypeTable.any (TensorType.isEqual · type) = true) :
    Answers T.header.readTensorType (writeU32 (T.tensorTypeId type)) (some (T.readType type)) := by
  have read : Answers T.header.readTensorType (writeU32 (T.tensorTypeId type))
      T.tensorTypeTable[(T.tensorTypeId type).toNat]? := (answers_readU32 _).bind_ofOption
  have below := (idOf_lt known).trans small.tensorTypes
  rwa [Tables.tensorTypeId, UInt32.toNat_ofNat_of_lt' below, (Tables.readType_spec known).1] at read

theorem answers_deserializeArg (small : T.Small) {arg : Argument} (args : List Argument)
    (known : arg.name ∈ T.stringTable ∧
      T.tensorTypeTable.any (TensorType.isEqual · arg.type) = true) :
    Answers (deserializeArg T.header args)
      (writeU32 (T.stringId arg.name) ++ writeU32 (T.tensorTypeId arg.type))
      (some (args ++ [T.readArg arg])) := by
  apply Answers.bind_some (answers_readString small known.1)
  exact Answers.bind_some_nil (answers_readTensorType small known.2) (Answers.pure _)

theorem answers_deserializeVar (small : T.Small) {var : LocalVar} (vars : List LocalVar)
    (known : var.name ∈ T.stringTable ∧ var.type ∈ T.exprTyTable) :
    Answers (deserializeVar T.header vars)
      (writeU32 (T.stringId var.name) ++ writeU32 (T.exprTyId var.type)) (some (vars ++ [var])) := by
  apply Answers.bind_some (answers_readString small known.1)
  exact Answers.bind_some_nil (answers_readExprTy small known.2) (Answers.pure _)

theorem Expr.isSome_of_readBackList {decls : Decls} : ∀ {es es' : List (Expr UInt32)},
    Expr.readBackList T decls es = some es' → ∀ e ∈ es, (e.readBack T decls).isSome
  | [], _, _ => by simp
  | e :: es, es', read => by
    obtain ⟨e', known, rest⟩ := Option.bind_eq_some_iff.mp read
    obtain ⟨rest', knownRest, -⟩ := Option.map_eq_some_iff.mp rest
    rw [List.forall_mem_cons]
    refine ⟨?_, Expr.isSome_of_readBackList knownRest⟩
    rw [show e.readBack T decls = some e' from known]
    rfl

theorem Expr.readBackList_isSome {decls : Decls} : ∀ {es : List (Expr UInt32)},
    (∀ e ∈ es, (e.readBack T decls).isSome) → (Expr.readBackList T decls es).isSome
  | [], _ => rfl
  | e :: es, each => by
    rw [List.forall_mem_cons] at each
    obtain ⟨e', known⟩ := Option.isSome_iff_exists.mp each.1
    obtain ⟨es', knownRest⟩ := Option.isSome_iff_exists.mp (Expr.readBackList_isSome each.2)
    rw [Option.isSome_iff_exists]
    refine ⟨e' :: es', ?_⟩
    show (e.readBack T decls).bind (fun e => (Expr.readBackList T decls es).map (e :: ·)) = _
    rw [known, knownRest]
    rfl

mutual

theorem Stmt.isSome_owned {decls : Decls} : ∀ {s s' : Stmt UInt32},
    s.readBack T decls = some s' → ∀ e ∈ s.owned, (e.readBack T decls).isSome
  | .loop _ body, _, read => by
    obtain ⟨body', known, -⟩ := Option.map_eq_some_iff.mp read
    exact Stmt.isSome_ownedBody known
  | .ifRange val _ _ body, _, read => by
    obtain ⟨val', known, rest⟩ := Option.bind_eq_some_iff.mp read
    obtain ⟨body', knownBody, -⟩ := Option.map_eq_some_iff.mp rest
    rw [Stmt.owned, List.forall_mem_cons, known]
    exact ⟨rfl, Stmt.isSome_ownedBody knownBody⟩
  | .call _ params, _, read => by
    obtain ⟨params', known, -⟩ := Option.map_eq_some_iff.mp read
    exact Expr.isSome_of_readBackList known
  | .store arg indices value _, _, read => by
    obtain ⟨value', known, rest⟩ := Option.bind_eq_some_iff.mp read
    obtain ⟨gep, knownGEP, -⟩ := Option.bind_eq_some_iff.mp rest
    rw [Stmt.owned, List.forall_mem_cons, List.forall_mem_singleton, known, knownGEP]
    exact ⟨rfl, rfl⟩
  | .storeLocal _ value _, _, read => by
    obtain ⟨value', known, -⟩ := Option.bind_eq_some_iff.mp read
    rw [Stmt.owned, List.forall_mem_singleton, known]
    rfl

theorem Stmt.isSome_ownedBody {decls : Decls} : ∀ {body body' : List (Stmt UInt32)},
    Stmt.readBackBody T decls body = some body' →
      ∀ e ∈ Stmt.ownedBody body, (e.readBack T decls).isSome
  | [], _, _ => by simp [Stmt.ownedBody]
  | s :: rest, _, read => by
    obtain ⟨s', known, others⟩ := Option.bind_eq_some_iff.mp read
    obtain ⟨rest', knownRest, -⟩ := Option.map_eq_some_iff.mp others
    rw [Stmt.ownedBody, List.forall_mem_append]
    exact ⟨Stmt.isSome_owned known, Stmt.isSome_ownedBody knownRest⟩

end

/-- What the reader relies on behind the declarations. -/
structure Program.Readable (p : Program UInt32) (T : Tables) : Prop where
  small : T.Small
  known : p.Known T
  zero : T.stmtId .program = 0
  free : FreeIds T [] (Stmt.itemsBody 0 1 .program p.body)
  loops : ∀ e ∈ Stmt.ownedBody p.body, ∀ index ∈ e.collectIndices, index.1 ∈ Stmt.loopIds p.body
  nodes : ∀ node ∈ Stmt.nodesBody 0 p.body, node.Fits
  items : ∀ item ∈ Stmt.itemsBody 0 1 .program p.body, item.node.Fits
  args : p.args.length < 2 ^ 32
  vars : p.vars.length < 2 ^ 32
  exprs : (Stmt.nodesBody 0 p.body).length < 2 ^ 32
  stmts : (Stmt.itemsBody 0 1 .program p.body).length < 2 ^ 32

/-- The reader of the expressions and the statements. -/
def deserializeBody (BH : BytecodeHeader) (name : String) (args : List Argument)
    (vars : List LocalVar) : Codec.Reader (Program UInt32) := do
  let numExprs ← readU32
  let BC ← iterate (deserializeExpr BH ⟨args, vars⟩) numExprs.toNat ⟨fun _ => none, []⟩
  let numStmts ← readU32
  let stmts ← iterate (deserializeStmt BH ⟨args, vars⟩ BC) numStmts.toNat []
  ofOption (if BC.resolveLater.all (hasLoop stmts) then
    some ⟨name, args, vars, assemble stmts 0⟩ else none)

def Program.bodyBytes (p : Program UInt32) (T : Tables) : List UInt8 :=
  writeU32 (UInt32.ofNat (Stmt.nodesBody 0 p.body).length) ++
    (((Stmt.nodesBody 0 p.body).zipIdx 0).flatMap (fun item => item.1.bytes T item.2) ++
      (writeU32 (UInt32.ofNat (Stmt.itemsBody 0 1 .program p.body).length) ++
        (Stmt.itemsBody 0 1 .program p.body).flatMap (StmtItem.bytes T)))

theorem answers_deserializeBody (readable : p.Readable T) (args : List Argument)
    (vars : List LocalVar) :
    Answers (deserializeBody T.header p.name args vars) (p.bodyBytes T)
      ((Stmt.readBackBody T ⟨args, vars⟩ p.body).map fun body => ⟨p.name, args, vars, body⟩) := by
  have small := readable.small
  have nodesEq := Stmt.nodesBody_eq p.body 0
  have count : (Stmt.nodesBody 0 p.body).length = Expr.count (Stmt.ownedBody p.body) := by
    rw [nodesEq, Expr.length_nodesList]
  -- The expressions are read first, each one by its node.
  have exprs : Answers (iterate (deserializeExpr T.header ⟨args, vars⟩)
      (Stmt.nodesBody 0 p.body).length ⟨fun _ => none, []⟩)
      (((Stmt.nodesBody 0 p.body).zipIdx 0).flatMap fun item => item.1.bytes T item.2)
      (readNodes T ⟨args, vars⟩ 0 (Stmt.nodesBody 0 p.body) ⟨fun _ => none, []⟩) :=
    answers_readNodes small (fun item mem => (readable.known.exprs item mem).2) readable.nodes _
  have fresh : ExprContext.Fresh T 0 (Expr.count (Stmt.ownedBody p.body)) ⟨fun _ => none, []⟩ := by
    refine ⟨fun i _ below => ?_, fun _ _ _ => rfl⟩
    rw [← count, Nat.zero_add] at below
    have mem : ((Stmt.nodesBody 0 p.body)[i], i) ∈ (Stmt.nodesBody 0 p.body).zipIdx 0 := by
      rw [List.mem_zipIdx_iff_getElem?]
      exact List.getElem?_eq_getElem below
    exact (readable.known.exprs _ mem).1
  have read := readNodes_holds ⟨args, vars⟩ small fresh
  rw [← nodesEq] at read
  apply Answers.bind_some (answers_readU32 _)
  rw [UInt32.toNat_ofNat_of_lt' readable.exprs]
  -- If some expression cannot be read then its statement cannot be, either.
  cases known : Expr.readBackList T ⟨args, vars⟩ (Stmt.ownedBody p.body) with
  | none =>
    have fails : Stmt.readBackBody T ⟨args, vars⟩ p.body = none := by
      rw [Option.eq_none_iff_forall_ne_some]
      intro body' readBody
      have := Expr.readBackList_isSome (Stmt.isSome_ownedBody readBody)
      rw [known] at this
      cases this
    rw [known] at read
    rw [show readNodes T ⟨args, vars⟩ 0 (Stmt.nodesBody 0 p.body) ⟨fun _ => none, []⟩ = none
      from read] at exprs
    rw [fails]
    exact exprs.bind_none _
  | some es' =>
    rw [known] at read
    obtain ⟨BC, outcome, later, holds⟩ := read
    rw [outcome] at exprs
    apply Answers.bind_some exprs
    apply Answers.bind_some (answers_readU32 _)
    rw [UInt32.toNat_ofNat_of_lt' readable.stmts]
    -- Then the statements are read, whose expressions are all registered.
    have stmts : Answers (iterate (deserializeStmt T.header ⟨args, vars⟩ BC)
        (Stmt.itemsBody 0 1 .program p.body).length [])
        ((Stmt.itemsBody 0 1 .program p.body).flatMap (StmtItem.bytes T))
        (readItems T ⟨args, vars⟩ BC (Stmt.itemsBody 0 1 .program p.body) []) :=
      Codec.answers_iterate (fun item mem => answers_deserializeStmt small
        (readable.known.stmts item mem) (readable.items item mem)) []
    have has : hasScope [] (T.stmtId .program) = true := by
      rw [readable.zero]
      rfl
    have placed := readItems_body p.body 0 1 .program [] holds has readable.free
    cases knownBody : Stmt.readBackBody T ⟨args, vars⟩ p.body with
    | none =>
      rw [knownBody] at placed
      rw [show readItems T ⟨args, vars⟩ BC (Stmt.itemsBody 0 1 .program p.body) [] = none
        from placed] at stmts
      rw [← List.append_nil (List.flatMap _ (Stmt.itemsBody 0 1 .program p.body))]
      exact stmts.bind_none []
    | some body' =>
      rw [knownBody] at placed
      obtain ⟨entries, outcome', same, hangs⟩ := placed
      rw [outcome', List.nil_append] at stmts
      apply Answers.bind_some_nil stmts
      -- At last the loops that indices wait for are looked up.
      have resolved : BC.resolveLater.all (hasLoop entries) = true := by
        rw [later, List.nil_append, List.all_eq_true]
        intro id mem
        obtain ⟨e, memE, memId⟩ := List.mem_flatMap.mp mem
        obtain ⟨index, memIndex, rfl⟩ := List.mem_map.mp memId
        exact hasLoop_of_mem_loopIds same (readable.loops e memE index memIndex)
      have body : assemble entries 0 = body' := by
        have below := hangs.below (fun _ => []) fun _ _ => rfl
        rw [readable.zero, List.append_nil] at below
        exact below
      rw [if_pos resolved, body]
      exact Answers.ofOption _

/-- The stream behind the header is read as the declarations, with the merged types, and what is
read back for the body. -/
theorem answers_deserializeProgram (readable : p.Readable T) :
    Answers (deserializeProgram T.header) (p.bytes T)
      ((Stmt.readBackBody T ⟨p.args.map T.readArg, p.vars⟩ p.body).map fun body =>
        ⟨p.name, p.args.map T.readArg, p.vars, body⟩) := by
  have small := readable.small
  have args := Codec.answers_fold (fun _ => True) (fun _ _ _ => trivial)
    (fun arg mem args _ => answers_deserializeArg small args (readable.known.args arg mem)) []
    trivial
  have vars := Codec.answers_fold (fun _ => True) (fun _ _ _ => trivial)
    (fun var mem vars _ => answers_deserializeVar small vars (readable.known.vars var mem)) []
    trivial
  rw [foldl_concat] at args
  rw [foldl_concat fun var => var, List.map_id'] at vars
  have bytes : p.bytes T = writeU32 (T.stringId p.name) ++
      (writeU32 (UInt32.ofNat p.args.length) ++
        (p.args.flatMap (fun arg => writeU32 (T.stringId arg.name) ++
            writeU32 (T.tensorTypeId arg.type)) ++
          (writeU32 (UInt32.ofNat p.vars.length) ++
            (p.vars.flatMap (fun var => writeU32 (T.stringId var.name) ++
              writeU32 (T.exprTyId var.type)) ++ p.bodyBytes T)))) := by
    simp only [Program.bytes, Program.declBytes, Program.bodyBytes, List.append_assoc]
  rw [bytes]
  apply Answers.bind_some (answers_readString small readable.known.name)
  apply Answers.bind_some (answers_readU32 _)
  rw [UInt32.toNat_ofNat_of_lt' readable.args]
  apply Answers.bind_some args
  apply Answers.bind_some (answers_readU32 _)
  rw [UInt32.toNat_ofNat_of_lt' readable.vars]
  apply Answers.bind_some vars
  exact answers_deserializeBody readable _ _

end Reading

end Bistra

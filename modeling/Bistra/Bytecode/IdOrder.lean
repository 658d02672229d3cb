import Bistra.Bytecode.RoundTrip

/-! # The order of the ids

What the body of a stream is made of: records with an id of their own and with the ids that they
use.  The operands of an expression are written before it and the scope around a statement before
the statement, so that no id is used before its record.
-/

namespace Bistra

open Codec (writeU32)
open IdTable (UsesBefore usesBefore_append)

/-! ## Records -/

/-- A field of a record: data, or the id of an expression or of a loop. -/
inductive RecordField where
  | data (bytes : List UInt8)
  | expr (id : UInt32)
  | loop (id : UInt32)

def RecordField.bytes : RecordField → List UInt8
  | .data bytes => bytes
  | .expr id | .loop id => writeU32 id

structure ExprRecord where
  kind : UInt32
  id : UInt32
  fields : List RecordField

/-- The record of a statement. -/
structure StmtRecord where
  kind : UInt32
  id : UInt32
  parent : UInt32
  fields : List RecordField

def ExprRecord.bytes (r : ExprRecord) : List UInt8 :=
  writeU32 r.kind ++ writeU32 r.id ++ r.fields.flatMap RecordField.bytes

def StmtRecord.bytes (r : StmtRecord) : List UInt8 :=
  writeU32 r.kind ++ writeU32 r.id ++ writeU32 r.parent ++ r.fields.flatMap RecordField.bytes

def exprIds (fields : List RecordField) : List UInt32 :=
  fields.filterMap fun
    | .expr id => some id
    | _ => none

def loopIds (fields : List RecordField) : List UInt32 :=
  fields.filterMap fun
    | .loop id => some id
    | _ => none

/-- The ids of the records are in order. -/
structure IdsInOrder (exprs : List ExprRecord) (stmts : List StmtRecord) : Prop where
  /-- Every id of an expression is defined once. -/
  exprOnce : (exprs.map (·.id)).Nodup
  /-- Every id of a statement is defined once, and none is the id of the program. -/
  stmtOnce : (0 :: stmts.map (·.id)).Nodup
  /-- An expression uses expressions of earlier records. -/
  operands : UsesBefore ExprRecord.id (fun r => exprIds r.fields) [] exprs
  /-- A statement uses expressions, which are all written before the statements. -/
  roots : ∀ r ∈ stmts, ∀ id ∈ exprIds r.fields, id ∈ exprs.map (·.id)
  /-- The parent of a statement is the program or a statement of an earlier record. -/
  parents : UsesBefore StmtRecord.id (fun r => [r.parent]) [0] stmts
  /-- A loop of an index has the record of a loop. -/
  loops : ∀ r ∈ exprs, ∀ id ∈ loopIds r.fields, ∃ s ∈ stmts, s.id = id ∧ s.kind = 0

/-! ## The records of a program -/

def ExprNode.record (T : Tables) (node : ExprNode) (expr : Nat) : ExprRecord where
  kind := node.kind
  id := T.exprId expr
  fields :=
    match node with
    | .const val => [.data (writeU32 (UInt32.ofInt val))]
    | .constFP val => [.data (writeU32 val)]
    | .constString val => [.data (writeU32 (T.stringId val))]
    | .binary kind lhs rhs => [.data [kind.code], .expr (T.exprId lhs), .expr (T.exprId rhs)]
    | .unary kind val => [.data [kind.code], .expr (T.exprId val)]
    | .load type access => [.data (writeU32 (T.exprTyId type)), .expr (T.exprId access)]
    | .loadLocal var => [.data (writeU32 (UInt32.ofNat var))]
    | .broadcast val vf => [.expr (T.exprId val), .data [UInt8.ofNat vf.val]]
    | .index loop => [.loop (T.stmtId (.loop loop))]
    | .gep arg indices =>
      .data (writeU32 (UInt32.ofNat arg) ++ writeU32 (UInt32.ofNat indices.length)) ::
        indices.map fun index => .expr (T.exprId index)

/-- The record of a statement. -/
def StmtItem.record (T : Tables) (item : StmtItem) : StmtRecord where
  kind := item.node.kind
  id := T.stmtId item.stmt
  parent := T.stmtId item.parent
  fields :=
    match item.node with
    | .loop header => [.data (writeU32 (T.stringId header.name) ++ writeU32 header.end_ ++
        writeU32 header.stride)]
    | .ifRange val start _ =>
      [.expr (T.exprId val), .data (writeU32 start.toUInt32 ++ writeU32 start.toUInt32)]
    | .call name params =>
      .data (writeU32 (T.stringId name) ++ [UInt8.ofNat params.length]) ::
        params.map fun param => .expr (T.exprId param)
    | .store accumulate value gep =>
      [.data [accumulate.toUInt8], .expr (T.exprId value), .expr (T.exprId gep)]
    | .storeLocal var accumulate value =>
      [.data (writeU32 (UInt32.ofNat var) ++ [accumulate.toUInt8]), .expr (T.exprId value)]

theorem ExprNode.bytes_record (T : Tables) (node : ExprNode) (expr : Nat) :
    (node.record T expr).bytes = node.bytes T expr := by
  cases node <;> simp [record, ExprRecord.bytes, bytes, fields, RecordField.bytes, List.flatMap_map]

theorem StmtItem.bytes_record (T : Tables) (item : StmtItem) :
    (item.record T).bytes = item.bytes T := by
  obtain ⟨stmt, parent, node⟩ := item
  cases node <;>
    simp [record, StmtRecord.bytes, bytes, StmtNode.fields, RecordField.bytes, List.flatMap_map]

def ExprNode.operands : ExprNode → List Nat
  | .binary _ lhs rhs => [lhs, rhs]
  | .unary _ val => [val]
  | .load _ access => [access]
  | .broadcast val _ => [val]
  | .gep _ indices => indices
  | _ => []

theorem ExprNode.exprIds_record (T : Tables) (node : ExprNode) (expr : Nat) :
    exprIds (node.record T expr).fields = node.operands.map T.exprId := by
  cases node <;> simp [record, exprIds, operands, List.filterMap_map]

/-! ## Operands before the node -/

/-- A node with its position. -/
abbrev PlacedNode := ExprNode × Nat

/-- The operands of the placed nodes are known or placed before. -/
abbrev OperandsBefore (known : List Nat) (nodes : List PlacedNode) : Prop :=
  UsesBefore Prod.snd (fun node => node.1.operands) known nodes

theorem operandsBefore_append {nodes nodes' : List ExprNode} {base : Nat} {known : List Nat}
    (first : OperandsBefore known (nodes.zipIdx base))
    (second : OperandsBefore (known ++ List.range' base nodes.length)
      (nodes'.zipIdx (base + nodes.length))) :
    OperandsBefore known ((nodes ++ nodes').zipIdx base) := by
  rw [List.zipIdx_append]
  exact usesBefore_append.mpr ⟨first, by rwa [List.zipIdx_map_snd]⟩

theorem Expr.pointers_ge : ∀ {base : Nat} {es : List (Expr UInt32)},
    ∀ pointer ∈ Expr.pointers base es, base ≤ pointer
  | _, [] => by simp [Expr.pointers]
  | base, e :: es => by
    rw [Expr.pointers, List.forall_mem_cons]
    refine ⟨Nat.le_add_right _ _, fun pointer mem => ?_⟩
    have := Expr.pointers_ge pointer mem
    omega

mutual

theorem Expr.operandsBefore : ∀ (e : Expr UInt32) (base : Nat) (known : List Nat),
    OperandsBefore known ((e.nodes base).zipIdx base)
  | .index _ _, _, _ | .const _, _, _ | .constFP _, _, _ | .constString _, _, _
  | .loadLocal _ _, _, _ => ⟨nofun, trivial⟩
  | .binary kind lhs rhs, base, known => by
    rw [Expr.nodes]
    have left := lhs.length_nodes base
    have right := rhs.length_nodes (base + (lhs.numBelow + 1))
    -- The nodes of the left operand, then those of the right one, then the node itself.
    refine operandsBefore_append (operandsBefore_append (lhs.operandsBefore base _) ?_) ?_
    · rw [left]
      exact rhs.operandsBefore _ _
    · rw [List.length_append, left, right]
      refine ⟨fun pointer mem => List.mem_append_right _ (List.mem_range'_1.mpr ?_), trivial⟩
      simp only [ExprNode.operands, Expr.pointer, List.mem_cons, List.not_mem_nil, or_false] at mem
      omega
  | .unary kind val, base, known | .broadcast val kind, base, known => by
    rw [Expr.nodes]
    refine operandsBefore_append (val.operandsBefore base _) ⟨fun pointer mem =>
      List.mem_append_right _ (List.mem_range'_1.mpr ?_), trivial⟩
    simp only [ExprNode.operands, Expr.pointer, List.mem_singleton] at mem
    rw [val.length_nodes base]
    omega
  | .gep arg indices, base, known => by
    rw [Expr.nodes]
    refine operandsBefore_append (Expr.operandsBeforeList indices base _) ⟨fun pointer mem =>
      List.mem_append_right _ (List.mem_range'_1.mpr ?_), trivial⟩
    rw [Expr.length_nodesList]
    exact ⟨Expr.pointers_ge pointer mem, Expr.pointers_lt pointer mem⟩
  | .load arg indices type, base, known => by
    rw [Expr.nodes]
    have count := Expr.length_nodesList indices base
    -- The subscripts, the access, and then the load that points to the access.
    refine operandsBefore_append (operandsBefore_append (Expr.operandsBeforeList indices base _)
      ⟨fun pointer mem => List.mem_append_right _ (List.mem_range'_1.mpr ?_), trivial⟩)
      ⟨fun pointer mem => List.mem_append_right _ (List.mem_range'_1.mpr ?_), trivial⟩
    · rw [count]
      exact ⟨Expr.pointers_ge pointer mem, Expr.pointers_lt pointer mem⟩
    · simp only [ExprNode.operands, List.mem_singleton] at mem
      rw [List.length_append, count, List.length_singleton]
      omega

theorem Expr.operandsBeforeList : ∀ (es : List (Expr UInt32)) (base : Nat) (known : List Nat),
    OperandsBefore known ((Expr.nodesList base es).zipIdx base)
  | [], _, _ => trivial
  | e :: es, base, known => by
    rw [Expr.nodesList]
    refine operandsBefore_append (e.operandsBefore base _) ?_
    rw [e.length_nodes base]
    exact Expr.operandsBeforeList es _ _

end

/-! ## Scopes before their bodies -/

/-- The parents of the items are known or are items before. -/
abbrev ParentsBefore (known : List StmtRef) (items : List StmtItem) : Prop :=
  UsesBefore StmtItem.stmt (fun item => [item.parent]) known items

mutual

theorem Stmt.parentsBefore : ∀ (s : Stmt UInt32) (base pos : Nat) (parent : StmtRef)
    (known : List StmtRef), parent ∈ known → ParentsBefore known (s.items base pos parent)
  | .loop _ body, _, _, _, _, mem =>
    ⟨List.forall_mem_singleton.mpr mem,
      Stmt.parentsBeforeBody body _ _ _ _ (List.mem_append_right _ List.mem_cons_self)⟩
  | .ifRange _ _ _ body, _, _, _, _, mem =>
    ⟨List.forall_mem_singleton.mpr mem,
      Stmt.parentsBeforeBody body _ _ _ _ (List.mem_append_right _ List.mem_cons_self)⟩
  | .call _ _, _, _, _, _, mem | .store _ _ _ _, _, _, _, _, mem
  | .storeLocal _ _ _, _, _, _, _, mem => ⟨List.forall_mem_singleton.mpr mem, trivial⟩

theorem Stmt.parentsBeforeBody : ∀ (body : List (Stmt UInt32)) (base pos : Nat)
    (parent : StmtRef) (known : List StmtRef), parent ∈ known →
      ParentsBefore known (Stmt.itemsBody base pos parent body)
  | [], _, _, _, _, _ => trivial
  | s :: rest, _, _, _, _, mem =>
    usesBefore_append.mpr ⟨s.parentsBefore _ _ _ _ mem,
      Stmt.parentsBeforeBody rest _ _ _ _ (List.mem_append_left _ mem)⟩

end

/-! ## The ids of a program -/

/-- `getIdFor` searches a table with a counter of 32 bits, so that the search for a new element only
comes to its end, and the element is only added, as long as the table stays within `2 ^ 32`
elements. -/
structure Program.Countable (p : Program UInt32) : Prop where
  exprs : Stmt.exprCountBody p.body ≤ 2 ^ 32
  stmts : (Stmt.collectStmtsBody p.body).length + 1 ≤ 2 ^ 32

def Program.exprRecords (p : Program UInt32) : List ExprRecord :=
  ((Stmt.nodesBody 0 p.body).zipIdx 0).map fun item => item.1.record p.finalTables item.2

def Program.stmtRecords (p : Program UInt32) : List StmtRecord :=
  (Stmt.itemsBody 0 1 .program p.body).map fun item => item.record p.finalTables

section Program

variable {p : Program UInt32}

theorem Program.positions (p : Program UInt32) :
    ((Stmt.nodesBody 0 p.body).zipIdx 0).map Prod.snd =
      List.range (Stmt.exprCountBody p.body) := by
  rw [List.zipIdx_map_snd, Stmt.nodesBody_eq, Expr.length_nodesList, Stmt.exprCountBody_eq,
    List.range_eq_range']

theorem Program.map_id_exprRecords (p : Program UInt32) : p.exprRecords.map (·.id) =
    (List.range (Stmt.exprCountBody p.body)).map p.finalTables.exprId := by
  rw [Program.exprRecords, ← p.positions, List.map_map, List.map_map]
  rfl

theorem Program.exprIds_nodup (verified : p.verify = true) (countable : p.Countable) :
    (p.exprRecords.map (·.id)).Nodup := by
  have within := Program.within_finalTables (Program.owned_mem_loopIds verified)
  have nodup := IdTable.nodup_of_separated within.separatedExprs
  have below : p.finalTables.exprTable ⊆ List.range (Stmt.exprCountBody p.body) :=
    fun expr mem => List.mem_range.mpr (within.exprs expr mem)
  have small : p.finalTables.exprTable.length ≤ 2 ^ 32 := by
    have := (nodup.subperm below).length_le
    rw [List.length_range] at this
    exact this.trans countable.exprs
  have inTable : ∀ expr ∈ List.range (Stmt.exprCountBody p.body),
      expr ∈ p.finalTables.exprTable := by
    intro expr mem
    rw [← p.positions] at mem
    obtain ⟨item, memItem, rfl⟩ := List.mem_map.mp mem
    exact (p.known_finalTables.exprs item memItem).1
  rw [Program.map_id_exprRecords]
  apply List.nodup_range.map_on
  intro a memA b memB same
  exact ofNat_idOf_inj (inTable a memA) (inTable b memB) small same

theorem Program.stmtIds_nodup (verified : p.verify = true) (countable : p.Countable) :
    (0 :: p.stmtRecords.map (·.id)).Nodup := by
  have within := Program.within_finalTables (Program.owned_mem_loopIds verified)
  have nodup := IdTable.nodup_of_separated within.separatedStmts
  have small : p.finalTables.stmtTable.length ≤ 2 ^ 32 := by
    have := (nodup.subperm within.stmts).length_le
    rw [Program.tableBounds, List.length_cons, List.length_map, Stmt.length_itemsBody] at this
    exact this.trans countable.stmts
  have refs : (StmtRef.program ::
      (Stmt.itemsBody 0 1 .program p.body).map fun item => item.stmt).Nodup := by
    refine List.nodup_cons.mpr ⟨fun mem => ?_,
      Stmt.nodup_itemsBody p.body 0 1 .program (Program.nodup_loopIds verified)⟩
    obtain ⟨item, memItem, same⟩ := List.mem_map.mp mem
    have place := Stmt.within_itemsBody p.body 0 1 .program item memItem
    rw [same] at place
    exact place
  have inTable : ∀ ref ∈ StmtRef.program ::
      (Stmt.itemsBody 0 1 .program p.body).map (fun item => item.stmt),
      ref ∈ p.finalTables.stmtTable := by
    refine List.forall_mem_cons.mpr ⟨p.stmtId_program.2, fun ref mem => ?_⟩
    obtain ⟨item, memItem, rfl⟩ := List.mem_map.mp mem
    exact (p.known_finalTables.stmts item memItem).stmt
  have ids := refs.map_on fun a memA b memB same =>
    ofNat_idOf_inj (inTable a memA) (inTable b memB) small same
  have zero := p.stmtId_program.1
  rw [Tables.stmtId] at zero
  rw [List.map_cons, zero, List.map_map] at ids
  rw [Program.stmtRecords, List.map_map]
  exact ids

theorem ExprNode.mem_loopIds_record {T : Tables} {node : ExprNode} {expr : Nat} {id : UInt32}
    (mem : id ∈ loopIds (node.record T expr).fields) :
    ∃ loop, node = .index loop ∧ id = T.stmtId (.loop loop) := by
  cases node <;> simp [record, loopIds] at mem
  next loop => exact ⟨loop, rfl, mem⟩

theorem StmtNode.kind_of_isLoop {node : StmtNode} (isLoop : node.isLoop = true) :
    node.kind = 0 := by
  cases node <;> simp_all [StmtNode.isLoop, StmtNode.kind]

theorem Program.loops_written (verified : p.verify = true) : ∀ r ∈ p.exprRecords,
    ∀ id ∈ loopIds r.fields, ∃ s ∈ p.stmtRecords, s.id = id ∧ s.kind = 0 := by
  intro r mem id memId
  obtain ⟨item, memItem, rfl⟩ := List.mem_map.mp mem
  obtain ⟨loop, same, rfl⟩ := ExprNode.mem_loopIds_record memId
  have within : item.1.Within p.tableBounds := by
    have owned := Program.within_owned (Program.owned_mem_loopIds verified)
    have bound : p.tableBounds.numExprs = Expr.count (Stmt.ownedBody p.body) :=
      Stmt.exprCountBody_eq p.body
    refine Expr.within_nodesList (Stmt.ownedBody p.body) 0 owned (by rw [bound, Nat.zero_add])
      item.1 ?_
    rw [← Stmt.nodesBody_eq]
    exact List.fst_mem_of_mem_zipIdx memItem
  rw [same] at within
  obtain h | h := List.mem_cons.mp within
  · cases h
  · obtain ⟨first, memFirst, ref⟩ := List.mem_map.mp h
    have place := Stmt.within_itemsBody p.body 0 1 .program first memFirst
    rw [ref] at place
    obtain ⟨found, memFound, refFound, isLoop⟩ :=
      Stmt.loop_mem_itemsBody p.body 0 1 .program loop place
    refine ⟨_, List.mem_map_of_mem memFound, congrArg p.finalTables.stmtId refFound, ?_⟩
    exact StmtNode.kind_of_isLoop isLoop

def StmtNode.operands : StmtNode → List Nat
  | .ifRange val _ _ => [val]
  | .call _ params => params
  | .store _ value gep => [value, gep]
  | .storeLocal _ _ value => [value]
  | .loop _ => []

theorem StmtItem.exprIds_record (T : Tables) (item : StmtItem) :
    exprIds (item.record T).fields = item.node.operands.map T.exprId := by
  obtain ⟨stmt, parent, node⟩ := item
  cases node <;> simp [record, exprIds, StmtNode.operands, List.filterMap_map]

theorem StmtNode.Within.operands_lt {B : TableBounds} {node : StmtNode} (within : node.Within B) :
    ∀ pointer ∈ node.operands, pointer < B.numExprs := by
  cases node <;> simp_all [StmtNode.Within, StmtNode.operands]

theorem Program.roots_written : ∀ r ∈ p.stmtRecords, ∀ id ∈ exprIds r.fields,
    id ∈ p.exprRecords.map (·.id) := by
  intro r mem id memId
  obtain ⟨item, memItem, rfl⟩ := List.mem_map.mp mem
  rw [StmtItem.exprIds_record] at memId
  obtain ⟨pointer, memPointer, rfl⟩ := List.mem_map.mp memId
  have names : ∀ t ∈ Stmt.collectStmtsBody p.body, ∀ name ∈ t.names,
      name ∈ p.tableBounds.strings := fun t mem name memName => by
    have named := List.mem_flatMap.mpr ⟨t, mem, memName⟩
    simp only [Program.tableBounds, Program.strings, List.mem_cons, List.mem_append]
    exact .inr (.inl (.inr named))
  have within := Stmt.within_nodesBody p.body 0 1 .program names
    (by rw [Nat.zero_add]; rfl) item memItem
  rw [Program.map_id_exprRecords]
  exact List.mem_map_of_mem (List.mem_range.mpr (within.operands_lt pointer memPointer))

end Program

/-- The body of the stream consists of the declarations and of records whose ids are in order. -/
theorem Program.ids_inOrder (p : Program UInt32) (verified : p.verify = true)
    (countable : p.Countable) :
    (serializeProgram p Tables.empty).1 = p.declBytes p.finalTables ++
        writeU32 (UInt32.ofNat p.exprRecords.length) ++ p.exprRecords.flatMap ExprRecord.bytes ++
        writeU32 (UInt32.ofNat p.stmtRecords.length) ++ p.stmtRecords.flatMap StmtRecord.bytes ∧
      IdsInOrder p.exprRecords p.stmtRecords := by
  constructor
  · obtain ⟨bytes, -, -⟩ := writes_serializeProgram p Tables.empty p.finalTables
      (Tables.grows_addNames _)
    rw [bytes]
    simp only [Program.bytes]
    simp only [Program.exprRecords, Program.stmtRecords, List.length_map, List.length_zipIdx,
      List.flatMap_map, ExprNode.bytes_record, StmtItem.bytes_record]
  · have operands : OperandsBefore [] ((Stmt.nodesBody 0 p.body).zipIdx 0) := by
      rw [Stmt.nodesBody_eq]
      exact Expr.operandsBeforeList _ _ _
    have parents := Stmt.parentsBeforeBody p.body 0 1 .program [.program] List.mem_cons_self
    exact {
      exprOnce := Program.exprIds_nodup verified countable
      stmtOnce := Program.stmtIds_nodup verified countable
      operands := operands.map (f := p.finalTables.exprId) (fun _ => rfl) fun node =>
        node.1.exprIds_record p.finalTables node.2
      roots := Program.roots_written
      parents := by
        have mapped : UsesBefore StmtRecord.id (fun r => [r.parent])
            ([StmtRef.program].map p.finalTables.stmtId) p.stmtRecords :=
          parents.map (fun _ => rfl) fun _ => rfl
        rwa [List.map_singleton, p.stmtId_program.1] at mapped
      loops := Program.loops_written verified }

theorem Program.ids_inOrder_sampleNest :
    IdsInOrder sampleNest.exprRecords sampleNest.stmtRecords := by
  have verified : sampleNest.verify = true := by decide +kernel
  exact (sampleNest.ids_inOrder verified ⟨by decide, by decide⟩).2

end Bistra

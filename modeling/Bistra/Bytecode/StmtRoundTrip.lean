import Bistra.Bytecode.ExprFaithful

/-! # Reading statements back

The expressions of all statements are read before the first statement.  Every statement is then
registered with the id of its parent, and `assemble` hangs the registered statements below their
parents: the result is `Stmt.readBack`.
-/

namespace Bistra

open Codec (Answers writeU32 readU32 readU8 answers_readU32 answers_readU8 iterate ofOption)

/-! ## The bytes of a statement -/

def StmtNode.fields (T : Tables) : StmtNode → List UInt8
  | .loop header =>
    writeU32 (T.stringId header.name) ++ writeU32 header.end_ ++ writeU32 header.stride
  | .ifRange val start _ =>
    writeU32 (T.exprId val) ++ writeU32 start.toUInt32 ++ writeU32 start.toUInt32
  | .call name params =>
    writeU32 (T.stringId name) ++ [UInt8.ofNat params.length] ++
      params.flatMap fun param => writeU32 (T.exprId param)
  | .store accumulate value gep =>
    [accumulate.toUInt8] ++ writeU32 (T.exprId value) ++ writeU32 (T.exprId gep)
  | .storeLocal var accumulate value =>
    writeU32 (UInt32.ofNat var) ++ [accumulate.toUInt8] ++ writeU32 (T.exprId value)

def StmtItem.bytes (T : Tables) (item : StmtItem) : List UInt8 :=
  writeU32 item.node.kind ++ writeU32 (T.stmtId item.stmt) ++ writeU32 (T.stmtId item.parent) ++
    item.node.fields T

/-- What the header has to have for the fields. -/
def StmtNode.Known (T : Tables) : StmtNode → Prop
  | .loop header => header.name ∈ T.stringTable
  | .call name _ => name ∈ T.stringTable
  | _ => True

/-- What the tables have to have for a statement. -/
structure StmtItem.Known (T : Tables) (item : StmtItem) : Prop where
  stmt : item.stmt ∈ T.stmtTable
  parent : item.parent ∈ T.stmtTable
  node : item.node.Known T

theorem writes_serializeStmt (item : StmtItem) :
    (serializeStmt item).Writes (fun T => item.bytes T) (fun T => item.Known T) := by
  have own : Writer.Writes (writeWord item.node.kind ++ writeStmt item.stmt ++
      writeStmt item.parent) (fun T => writeU32 item.node.kind ++ writeU32 (T.stmtId item.stmt) ++
        writeU32 (T.stmtId item.parent))
      (fun T => item.stmt ∈ T.stmtTable ∧ item.parent ∈ T.stmtTable) :=
    (((writes_pure _).append (writes_writeStmt item.stmt)).append
      (writes_writeStmt item.parent)).congr (fun _ => rfl) fun _ has => ⟨has.1.2, has.2⟩
  have fields : ∀ {w : Writer} {has : Tables → Prop}, w.Writes (fun T => item.node.fields T) has →
      (∀ T, has T → item.node.Known T) →
      Writer.Writes (writeWord item.node.kind ++ writeStmt item.stmt ++ writeStmt item.parent ++ w)
        (fun T => item.bytes T) (fun T => item.Known T) := fun writes known =>
    (own.append writes).congr (fun _ => rfl) fun T has => ⟨has.1.1, has.1.2, known T has.2⟩
  obtain ⟨stmt, parent, node⟩ := item
  cases node with
  | loop header =>
    exact fields (((writes_writeString header.name).append (writes_pure _)).append (writes_pure _))
      fun _ has => has.1.1
  | ifRange val start end_ =>
    exact fields (((writes_writeExpr val).append (writes_pure _)).append (writes_pure _))
      fun _ _ => trivial
  | call name params =>
    exact fields (((writes_writeString name).append (writes_pure _)).append
      (writes_writeAll fun param _ => writes_writeExpr param)) fun _ has => has.1.1
  | store accumulate value gep =>
    exact fields (((writes_pure _).append (writes_writeExpr value)).append (writes_writeExpr gep))
      fun _ _ => trivial
  | storeLocal var accumulate value =>
    exact fields (((writes_pure _).append (writes_pure _)).append (writes_writeExpr value))
      fun _ _ => trivial

/-! ## Reading a statement -/

/-- What the reader makes of the fields. -/
def StmtNode.read (T : Tables) (decls : Decls) (BC : ExprContext) : StmtNode → Option EntryNode
  | .loop header => some (.loop header.name header.end_ header.stride)
  | .ifRange val start _ =>
    -- The start of the range has been written in the place of its end.
    (BC.exprMap (T.exprId val)).map fun val => .ifRange val start start
  | .call name params =>
    (params.mapM fun param => BC.exprMap (T.exprId param)).map fun params =>
      .leaf (.call name params)
  | .store accumulate value gep =>
    (BC.exprMap (T.exprId value)).bind fun storedVal =>
      (BC.exprMap (T.exprId gep)).bind fun GEP => (Stmt.mkStore GEP storedVal accumulate).map .leaf
  | .storeLocal var accumulate value =>
    (BC.exprMap (T.exprId value)).bind fun storedVal =>
      (decls.mkStoreLocal var storedVal accumulate).map .leaf

/-- What the reader registers for a statement. -/
def StmtItem.read (T : Tables) (decls : Decls) (BC : ExprContext) (stmts : List StmtEntry)
    (item : StmtItem) : Option (List StmtEntry) :=
  if hasScope stmts (T.stmtId item.parent) then
    (item.node.read T decls BC).bind fun node =>
      registerStmt stmts ⟨T.stmtId item.stmt, T.stmtId item.parent, node⟩
  else none

def StmtNode.Fits : StmtNode → Prop
  | .call _ params => params.length < 256
  | .storeLocal var _ _ => var < 2 ^ 32
  | _ => True

theorem toUInt8_ne_zero (flag : Bool) : decide (flag.toUInt8 ≠ 0) = flag := by
  cases flag <;> rfl

theorem answers_deserializeNode {T : Tables} (small : T.Small) {decls : Decls} {BC : ExprContext}
    {node : StmtNode} (known : node.Known T) (fits : node.Fits) :
    Answers (deserializeNode T.header decls BC node.kind) (node.fields T)
      (node.read T decls BC) := by
  cases node with
  | loop header =>
    rw [StmtNode.fields, List.append_assoc]
    apply Answers.bind_some (answers_readString small known)
    apply Answers.bind_some (answers_readU32 _)
    exact Answers.bind_some_nil (answers_readU32 _) (Answers.pure _)
  | ifRange val start end_ =>
    rw [StmtNode.fields, List.append_assoc, StmtNode.read, Option.map_eq_bind]
    apply Answers.bind (answers_readExpr _)
    intro v _
    apply Answers.bind_some (answers_readU32 _)
    exact Answers.bind_some_nil (answers_readU32 _) (Answers.pure _)
  | call name params =>
    rw [StmtNode.fields, List.append_assoc, StmtNode.read, Option.map_eq_bind]
    apply Answers.bind_some (answers_readString small known)
    apply Answers.bind_some (answers_readU8 _)
    rw [UInt8.toNat_ofNat_of_lt' fits]
    apply Answers.bind_nil (answers_readExprs T params)
    intro es _
    exact Answers.pure _
  | store accumulate value gep =>
    rw [StmtNode.fields, List.append_assoc]
    apply Answers.bind_some (answers_readU8 _)
    apply Answers.bind (answers_readExpr _)
    intro v _
    apply Answers.bind_nil (answers_readExpr _)
    intro g _
    rw [toUInt8_ne_zero]
    exact Answers.ofOption _
  | storeLocal var accumulate value =>
    rw [StmtNode.fields, List.append_assoc]
    apply Answers.bind_some (answers_readU32 _)
    rw [UInt32.toNat_ofNat_of_lt' fits]
    apply Answers.bind_some (answers_readU8 _)
    apply Answers.bind_nil (answers_readExpr _)
    intro v _
    rw [toUInt8_ne_zero]
    exact Answers.ofOption _

theorem answers_deserializeStmt {T : Tables} (small : T.Small) {decls : Decls} {BC : ExprContext}
    {item : StmtItem} (known : item.Known T) (fits : item.node.Fits) (stmts : List StmtEntry) :
    Answers (deserializeStmt T.header decls BC stmts) (item.bytes T)
      (item.read T decls BC stmts) := by
  rw [StmtItem.bytes, List.append_assoc, List.append_assoc]
  apply Answers.bind_some (answers_readU32 _)
  apply Answers.bind_some (answers_readU32 _)
  apply Answers.bind_some (answers_readU32 _)
  rw [StmtItem.read]
  cases hasScope stmts (T.stmtId item.parent) with
  | false => exact fun _ => rfl
  | true =>
    apply Answers.ofOption_bind rfl
    apply Answers.bind_nil (answers_deserializeNode small known.node fits)
    intro node _
    exact Answers.ofOption _

/-! ## Hanging statements below their parents -/

/-- Puts the statement of an entry in front of the body of its parent. -/
def StmtEntry.attach (entry : StmtEntry) (bodies : UInt32 → List (Stmt UInt32)) :
    UInt32 → List (Stmt UInt32) :=
  Function.update bodies entry.parent (entry.build (bodies entry.id) :: bodies entry.parent)

/-- The entries put `body` below `parent` and leave the bodies of all other scopes alone. -/
structure Hangs (entries : List StmtEntry) (parent : UInt32) (body : List (Stmt UInt32)) :
    Prop where
  below : ∀ bodies : UInt32 → List (Stmt UInt32), (∀ entry ∈ entries, bodies entry.id = []) →
    entries.foldr StmtEntry.attach bodies parent = body ++ bodies parent
  frame : ∀ (bodies : UInt32 → List (Stmt UInt32)) (id : UInt32), id ≠ parent →
    (∀ entry ∈ entries, id ≠ entry.id) → entries.foldr StmtEntry.attach bodies id = bodies id

theorem Hangs.nil (parent : UInt32) : Hangs [] parent [] := ⟨fun _ _ => rfl, fun _ _ _ _ => rfl⟩

theorem Hangs.append {entries entries' : List StmtEntry} {parent : UInt32}
    {body body' : List (Stmt UInt32)} (first : Hangs entries parent body)
    (second : Hangs entries' parent body') (inner : ∀ entry ∈ entries, entry.id ≠ parent)
    (apart : ∀ entry ∈ entries, ∀ other ∈ entries', entry.id ≠ other.id) :
    Hangs (entries ++ entries') parent (body ++ body') where
  below bodies empty := by
    rw [List.forall_mem_append] at empty
    have kept : ∀ entry ∈ entries, entries'.foldr StmtEntry.attach bodies entry.id = [] := by
      intro entry mem
      rw [second.frame bodies entry.id (inner entry mem) (apart entry mem)]
      exact empty.1 entry mem
    rw [List.foldr_append, first.below _ kept, second.below bodies empty.2, List.append_assoc]
  frame bodies id other new := by
    rw [List.forall_mem_append] at new
    rw [List.foldr_append, first.frame _ id other new.1, second.frame _ id other new.2]

theorem Hangs.cons {entry : StmtEntry} {entries : List StmtEntry} {body : List (Stmt UInt32)}
    (inside : Hangs entries entry.id body) (own : entry.id ≠ entry.parent)
    (inner : ∀ other ∈ entries, other.id ≠ entry.parent) :
    Hangs (entry :: entries) entry.parent [entry.build body] where
  below bodies empty := by
    rw [List.forall_mem_cons] at empty
    have built := inside.below bodies empty.2
    have outside := inside.frame bodies entry.parent own.symm fun other mem =>
      (inner other mem).symm
    rw [empty.1, List.append_nil] at built
    rw [List.foldr_cons, StmtEntry.attach, Function.update_self, built, outside]
    rfl
  frame bodies id other new := by
    rw [List.forall_mem_cons] at new
    rw [List.foldr_cons, StmtEntry.attach, Function.update_of_ne other,
      inside.frame bodies id new.1 new.2]

/-! ## The expressions of a body -/

mutual

/-- The expressions that a statement and the statements below it own, in the order of their
nodes. -/
def Stmt.owned : Stmt UInt32 → List (Expr UInt32)
  | .loop _ body => Stmt.ownedBody body
  | .ifRange val _ _ body => val :: Stmt.ownedBody body
  | .call _ params => params
  | .store arg indices value _ => [.gep arg indices, value]
  | .storeLocal _ value _ => [value]

def Stmt.ownedBody : List (Stmt UInt32) → List (Expr UInt32)
  | [] => []
  | s :: rest => s.owned ++ Stmt.ownedBody rest

end

theorem Expr.count_append {F : Type} : ∀ es es' : List (Expr F),
    Expr.count (es ++ es') = Expr.count es + Expr.count es'
  | [], es' => by rw [List.nil_append, Expr.count, Nat.zero_add]
  | e :: es, es' => by
    rw [List.cons_append, Expr.count, Expr.count, Expr.count_append es]
    omega

theorem Expr.nodesList_append : ∀ (base : Nat) (es es' : List (Expr UInt32)),
    Expr.nodesList base (es ++ es') =
      Expr.nodesList base es ++ Expr.nodesList (base + Expr.count es) es'
  | base, [], es' => rfl
  | base, e :: es, es' => by
    rw [List.cons_append, Expr.nodesList, Expr.nodesList, Expr.nodesList_append _ es, Expr.count,
      List.append_assoc, Nat.add_assoc base]

theorem Expr.pointers_append {F : Type} : ∀ (base : Nat) (es es' : List (Expr F)),
    Expr.pointers base (es ++ es') =
      Expr.pointers base es ++ Expr.pointers (base + Expr.count es) es'
  | base, [], es' => rfl
  | base, e :: es, es' => by
    rw [List.cons_append, Expr.pointers, Expr.pointers, Expr.pointers_append _ es, Expr.count,
      List.cons_append, Nat.add_assoc base]

mutual

theorem Stmt.exprCount_eq : ∀ s : Stmt UInt32, s.exprCount = Expr.count s.owned
  | .loop _ body => by rw [Stmt.exprCount, Stmt.owned, Stmt.exprCountBody_eq body]
  | .ifRange _ _ _ body => by
    rw [Stmt.exprCount, Stmt.owned, Expr.count, Stmt.exprCountBody_eq body]
  | .call _ _ => rfl
  | .store _ _ _ _ => rfl
  | .storeLocal _ _ _ => rfl

theorem Stmt.exprCountBody_eq : ∀ body : List (Stmt UInt32),
    Stmt.exprCountBody body = Expr.count (Stmt.ownedBody body)
  | [] => rfl
  | s :: rest => by
    rw [Stmt.exprCountBody, Stmt.ownedBody, Expr.count_append, Stmt.exprCount_eq s,
      Stmt.exprCountBody_eq rest]

end

mutual

theorem Stmt.nodes_eq : ∀ (s : Stmt UInt32) (base : Nat),
    s.nodes base = Expr.nodesList base s.owned
  | .loop _ body, base => by rw [Stmt.nodes, Stmt.owned, Stmt.nodesBody_eq body]
  | .ifRange _ _ _ body, base => by
    rw [Stmt.nodes, Stmt.owned, Expr.nodesList, Stmt.nodesBody_eq body]
  | .call _ _, base => rfl
  | .store _ _ _ _, base => by
    rw [Stmt.nodes, Stmt.owned, Expr.nodesList, Expr.nodesList, Expr.nodesList, List.append_nil,
      Expr.numBelow]
  | .storeLocal _ _ _, base => by
    rw [Stmt.nodes, Stmt.owned, Expr.nodesList, Expr.nodesList, List.append_nil]

theorem Stmt.nodesBody_eq : ∀ (body : List (Stmt UInt32)) (base : Nat),
    Stmt.nodesBody base body = Expr.nodesList base (Stmt.ownedBody body)
  | [], _ => rfl
  | s :: rest, base => by
    rw [Stmt.nodesBody, Stmt.ownedBody, Expr.nodesList_append, Stmt.nodes_eq s,
      Stmt.nodesBody_eq rest, Stmt.exprCount_eq]

end

/-! ## What is read back for a statement -/

mutual

/-- What is read back for a statement; `none` is a failed assertion. -/
def Stmt.readBack (T : Tables) (decls : Decls) : Stmt UInt32 → Option (Stmt UInt32)
  | .loop header body =>
    (Stmt.readBackBody T decls body).map (.loop { header with id := T.loopId header.id })
  | .ifRange val start _ body =>
    (val.readBack T decls).bind fun val =>
      (Stmt.readBackBody T decls body).map (.ifRange val start start)
  | .call name params => (Expr.readBackList T decls params).map (.call name)
  | .store arg indices value accumulate =>
    (value.readBack T decls).bind fun storedVal =>
      ((Expr.gep arg indices).readBack T decls).bind fun GEP =>
        Stmt.mkStore GEP storedVal accumulate
  | .storeLocal var value accumulate =>
    (value.readBack T decls).bind fun storedVal => decls.mkStoreLocal var storedVal accumulate

def Stmt.readBackBody (T : Tables) (decls : Decls) :
    List (Stmt UInt32) → Option (List (Stmt UInt32))
  | [] => some []
  | s :: rest =>
    (s.readBack T decls).bind fun s => (Stmt.readBackBody T decls rest).map (s :: ·)

end

/-- The pointers to the expressions of a list lead to what is read back for them. -/
def ExprContext.Holds (BC : ExprContext) (T : Tables) (decls : Decls) (base : Nat)
    (es : List (Expr UInt32)) : Prop :=
  (Expr.pointers base es).map (fun i => BC.exprMap (T.exprId i)) = es.map (Expr.readBack T decls)

section Holds

variable {BC : ExprContext} {T : Tables} {decls : Decls} {base : Nat}

theorem ExprContext.holds_cons {e : Expr UInt32} {es : List (Expr UInt32)} :
    BC.Holds T decls base (e :: es) ↔
      BC.exprMap (T.exprId (e.pointer base)) = e.readBack T decls ∧
        BC.Holds T decls (base + (e.numBelow + 1)) es := by
  rw [ExprContext.Holds, Expr.pointers, List.map_cons, List.map_cons, List.cons.injEq]
  rfl

theorem ExprContext.holds_append : ∀ {es es' : List (Expr UInt32)} {base : Nat},
    BC.Holds T decls base (es ++ es') ↔
      BC.Holds T decls base es ∧ BC.Holds T decls (base + Expr.count es) es'
  | [], es', base => by simp [ExprContext.Holds, Expr.pointers, Expr.count]
  | e :: es, es', base => by
    rw [List.cons_append, ExprContext.holds_cons, ExprContext.holds_cons, ExprContext.holds_append,
      Expr.count, Nat.add_assoc base, and_assoc]

theorem ExprContext.Holds.mapM : ∀ {es : List (Expr UInt32)} {base : Nat},
    BC.Holds T decls base es →
      (Expr.pointers base es).mapM (fun i => BC.exprMap (T.exprId i)) = Expr.readBackList T decls es
  | [], _, _ => rfl
  | e :: es, base, holds => by
    rw [ExprContext.holds_cons] at holds
    rw [Expr.pointers, List.mapM_cons, holds.1, holds.2.mapM]
    show _ = (e.readBack T decls).bind fun e => (Expr.readBackList T decls es).map (e :: ·)
    cases e.readBack T decls with
    | none => rfl
    | some e' => cases Expr.readBackList T decls es <;> rfl

theorem readNodes_holds (decls : Decls) (small : T.Small) {es : List (Expr UInt32)}
    (fresh : BC.Fresh T base (Expr.count es)) :
    match Expr.readBackList T decls es with
    | none => readNodes T decls base (Expr.nodesList base es) BC = none
    | some _ => ∃ BC', readNodes T decls base (Expr.nodesList base es) BC = some BC' ∧
      BC'.resolveLater = BC.resolveLater ++ es.flatMap (Expr.waits T) ∧
      BC'.Holds T decls base es := by
  have read : ReadsBack T base (Expr.count es) (es.flatMap (Expr.waits T)) BC
      (readNodes T decls base (Expr.nodesList base es) BC) (Expr.readBackList T decls es)
      fun BC' es' => BC'.HasAll T (Expr.pointers base es) es' :=
    readNodes_list small (fun e _ => readNodes_expr small e) base BC fresh
  cases known : Expr.readBackList T decls es with
  | none =>
    rw [known] at read
    exact read
  | some es' =>
    rw [known] at read
    obtain ⟨BC', outcome, adds, all⟩ := read
    refine ⟨BC', outcome, adds.later, ?_⟩
    rw [ExprContext.Holds, show List.map _ _ = _ from all]
    exact (Expr.rebuildList_eq_some.mp known).symm

end Holds

/-! ## Reading the statements of a body -/

/-- Reads statements one after the other. -/
def readItems (T : Tables) (decls : Decls) (BC : ExprContext) (items : List StmtItem)
    (stmts : List StmtEntry) : Option (List StmtEntry) :=
  items.foldlM (fun stmts item => item.read T decls BC stmts) stmts

def StmtNode.isLoop : StmtNode → Bool
  | .loop _ => true
  | _ => false

def FreeIds (T : Tables) (stmts : List StmtEntry) (items : List StmtItem) : Prop :=
  (0 :: (stmts.map (·.id) ++ items.map fun item => T.stmtId item.stmt)).Nodup

/-- Reading the items fails if nothing is read back, and puts what is read back below `parent`
otherwise. -/
def Placed (T : Tables) (parent : UInt32) (items : List StmtItem) (stmts : List StmtEntry)
    (outcome : Option (List StmtEntry)) (back : Option (List (Stmt UInt32))) : Prop :=
  match back with
  | none => outcome = none
  | some body => ∃ entries, outcome = some (stmts ++ entries) ∧
    entries.map (fun entry => (entry.id, entry.node.isLoop)) =
      items.map (fun item => (T.stmtId item.stmt, item.node.isLoop)) ∧
    Hangs entries parent body

section Reading

variable {T : Tables} {decls : Decls} {BC : ExprContext}

theorem registerStmt_of_new {stmts : List StmtEntry} {entry : StmtEntry} (nonzero : entry.id ≠ 0)
    (new : entry.id ∉ stmts.map (·.id)) : registerStmt stmts entry = some (stmts ++ [entry]) := by
  rw [registerStmt, if_neg]
  simp only [nonzero, decide_false, Bool.false_or, List.any_eq_true, decide_eq_true_eq]
  rintro ⟨other, mem, same⟩
  exact new (List.mem_map.mpr ⟨other, mem, same⟩)

theorem hasScope_append {stmts stmts' : List StmtEntry} {id : UInt32}
    (has : hasScope stmts id = true) : hasScope (stmts ++ stmts') id = true := by
  rw [hasScope, Bool.or_eq_true] at has
  rw [hasScope, List.any_append, Bool.or_eq_true, Bool.or_eq_true]
  exact has.imp_right .inl

theorem mem_of_hasScope {stmts : List StmtEntry} {id : UInt32} (has : hasScope stmts id = true) :
    id ∈ 0 :: stmts.map (·.id) := by
  rw [hasScope, Bool.or_eq_true, decide_eq_true_eq, List.any_eq_true] at has
  rw [List.mem_cons, List.mem_map]
  refine has.imp_right ?_
  rintro ⟨entry, mem, same⟩
  rw [Bool.and_eq_true, decide_eq_true_eq] at same
  exact ⟨entry, mem, same.1⟩

theorem mem_ids_of_corresponds {entries : List StmtEntry} {items : List StmtItem}
    (same : entries.map (fun entry => (entry.id, entry.node.isLoop)) =
      items.map (fun item => (T.stmtId item.stmt, item.node.isLoop))) :
    entries.map (·.id) = items.map fun item => T.stmtId item.stmt := by
  have := congrArg (List.map Prod.fst) same
  rwa [List.map_map, List.map_map] at this

/-- The first item is registered, and what is read after it hangs below it. -/
theorem Placed.cons (item : StmtItem) (node : EntryNode) {items : List StmtItem}
    {stmts : List StmtEntry} {back : Option (List (Stmt UInt32))}
    (loops : node.isLoop = item.node.isLoop) (read : item.node.read T decls BC = some node)
    (has : hasScope stmts (T.stmtId item.parent) = true) (free : FreeIds T stmts (item :: items))
    (inside : ∀ stmts', stmts' = stmts ++ [⟨T.stmtId item.stmt, T.stmtId item.parent, node⟩] →
      FreeIds T stmts' items →
      Placed T (T.stmtId item.stmt) items stmts' (readItems T decls BC items stmts') back) :
    Placed T (T.stmtId item.parent) (item :: items) stmts
      (readItems T decls BC (item :: items) stmts)
      (back.map fun body =>
        [StmtEntry.build ⟨T.stmtId item.stmt, T.stmtId item.parent, node⟩ body]) := by
  -- The new id is neither that of the program nor one that has been read.
  have around := mem_of_hasScope has
  have distinct : (0 :: (stmts.map (·.id) ++ T.stmtId item.stmt ::
    items.map fun item => T.stmtId item.stmt)).Nodup := free
  rw [← List.cons_append, List.nodup_append] at distinct
  obtain ⟨-, -, apart⟩ := distinct
  have own : T.stmtId item.stmt ≠ T.stmtId item.parent :=
    (apart _ around _ List.mem_cons_self).symm
  have registered : registerStmt stmts ⟨T.stmtId item.stmt, T.stmtId item.parent, node⟩ =
      some (stmts ++ [⟨T.stmtId item.stmt, T.stmtId item.parent, node⟩]) := by
    apply registerStmt_of_new
    · exact (apart 0 List.mem_cons_self _ List.mem_cons_self).symm
    · exact fun mem => apart _ (List.mem_cons_of_mem _ mem) _ List.mem_cons_self rfl
  have first : readItems T decls BC (item :: items) stmts = readItems T decls BC items
      (stmts ++ [⟨T.stmtId item.stmt, T.stmtId item.parent, node⟩]) := by
    rw [readItems, List.foldlM_cons, StmtItem.read, if_pos has, read, Option.bind_some, registered]
    rfl
  have later := inside _ rfl (by
    rw [FreeIds, List.map_append, List.append_assoc]
    exact free)
  rw [first]
  -- What is read for the body is put below the new entry.
  cases back with
  | none => exact later
  | some body =>
    obtain ⟨entries, outcome, same, hangs⟩ := later
    refine ⟨⟨T.stmtId item.stmt, T.stmtId item.parent, node⟩ :: entries, ?_, ?_, ?_⟩
    · rw [outcome, List.append_assoc]
      rfl
    · rw [List.map_cons, List.map_cons, same, loops]
    · apply Hangs.cons hangs own
      intro other mem
      have memId := mem_ids_of_corresponds same ▸ List.mem_map_of_mem (f := StmtEntry.id) mem
      exact (apart _ around _ (List.mem_cons_of_mem _ memId)).symm

theorem Placed.leaf {item : StmtItem} {stmts : List StmtEntry} {back : Option (Stmt UInt32)}
    (loops : item.node.isLoop = false) (read : item.node.read T decls BC = back.map .leaf)
    (has : hasScope stmts (T.stmtId item.parent) = true) (free : FreeIds T stmts [item]) :
    Placed T (T.stmtId item.parent) [item] stmts (readItems T decls BC [item] stmts)
      (back.map fun s => [s]) := by
  cases back with
  | none =>
    show readItems T decls BC [item] stmts = none
    rw [readItems, List.foldlM_cons, StmtItem.read, if_pos has, read]
    rfl
  | some s =>
    have none_below : ∀ stmts', Placed T (T.stmtId item.stmt) [] stmts'
        (readItems T decls BC [] stmts') (some []) := fun stmts' =>
      ⟨[], by rw [List.append_nil]; rfl, rfl, Hangs.nil _⟩
    exact Placed.cons item (.leaf s) loops.symm read has free fun stmts' _ _ => none_below stmts'

theorem Placed.append {parent : UInt32} {items items' : List StmtItem} {stmts : List StmtEntry}
    {back back' : Option (List (Stmt UInt32))} (has : hasScope stmts parent = true)
    (free : FreeIds T stmts (items ++ items'))
    (first : FreeIds T stmts items →
      Placed T parent items stmts (readItems T decls BC items stmts) back)
    (second : ∀ stmts', hasScope stmts' parent = true → FreeIds T stmts' items' →
      Placed T parent items' stmts' (readItems T decls BC items' stmts') back') :
    Placed T parent (items ++ items') stmts (readItems T decls BC (items ++ items') stmts)
      (back.bind fun body => back'.map (body ++ ·)) := by
  have around := mem_of_hasScope has
  rw [FreeIds, List.map_append, ← List.append_assoc, ← List.cons_append] at free
  have distinct := free
  rw [← List.cons_append, List.nodup_append] at free
  have read : readItems T decls BC (items ++ items') stmts =
      (readItems T decls BC items stmts).bind (readItems T decls BC items') := by
    rw [readItems, List.foldlM_append]
    rfl
  have before := first free.1
  rw [read]
  -- Where the first items fail, the others are not looked at.
  cases back with
  | none =>
    rw [show readItems T decls BC items stmts = none from before]
    rfl
  | some body =>
    obtain ⟨entries, outcome, same, hangs⟩ := before
    have ids := mem_ids_of_corresponds same
    have later := second (stmts ++ entries) (hasScope_append has) (by
      rw [FreeIds, List.map_append, ids]
      exact distinct)
    rw [outcome, Option.bind_some]
    cases back' with
    | none => exact later
    | some body' =>
      obtain ⟨entries', outcome', same', hangs'⟩ := later
      have ids' := mem_ids_of_corresponds same'
      refine ⟨entries ++ entries', ?_, ?_, ?_⟩
      · rw [outcome', List.append_assoc]
      · rw [List.map_append, List.map_append, same, same']
      -- The entries of one half have no parents in the other, except the common one.
      · have memIds : ∀ entry ∈ entries, entry.id ∈ items.map fun item => T.stmtId item.stmt :=
          fun entry mem => ids ▸ List.mem_map_of_mem (f := StmtEntry.id) mem
        have memIds' : ∀ entry ∈ entries', entry.id ∈ items'.map fun item => T.stmtId item.stmt :=
          fun entry mem => ids' ▸ List.mem_map_of_mem (f := StmtEntry.id) mem
        apply hangs.append hangs'
        · intro entry mem
          have apart := (List.nodup_append.mp free.1).2.2
          exact (apart _ around _ (memIds entry mem)).symm
        · intro entry mem other memOther
          exact free.2.2 _ (List.mem_append_right _ (memIds entry mem)) _ (memIds' other memOther)

theorem hasScope_entry {stmts : List StmtEntry} {entry : StmtEntry}
    (scope : entry.node.isScope = true) : hasScope (stmts ++ [entry]) entry.id = true := by
  simp [hasScope, scope]

mutual

theorem readItems_stmt : ∀ (s : Stmt UInt32) (base pos : Nat) (parent : StmtRef)
    (stmts : List StmtEntry), BC.Holds T decls base s.owned →
    hasScope stmts (T.stmtId parent) = true → FreeIds T stmts (s.items base pos parent) →
    Placed T (T.stmtId parent) (s.items base pos parent) stmts
      (readItems T decls BC (s.items base pos parent) stmts)
      ((s.readBack T decls).map fun s => [s])
  | .loop header body, base, pos, parent, stmts, holds, has, free => by
    have read : (StmtNode.loop header).read T decls BC =
        some (.loop header.name header.end_ header.stride) := rfl
    have placed := Placed.cons ⟨.loop header.id, parent, .loop header⟩ _ rfl read has free
      fun stmts' same free' => readItems_body body base (pos + 1) (.loop header.id) stmts' holds
        (same ▸ hasScope_entry rfl) free'
    rw [Stmt.readBack, Option.map_map]
    exact placed
  | .ifRange val start end_ body, base, pos, parent, stmts, holds, has, free => by
    rw [Stmt.owned, ExprContext.holds_cons] at holds
    rw [Stmt.readBack]
    -- The value of the range check is looked up before the body is read.
    cases known : val.readBack T decls with
    | none =>
      show readItems T decls BC (_ :: _) stmts = none
      rw [readItems, List.foldlM_cons, StmtItem.read, if_pos has, StmtNode.read, holds.1, known]
      rfl
    | some v =>
      have read : (StmtNode.ifRange (val.pointer base) start end_).read T decls BC =
          some (.ifRange v start start) := by
        rw [StmtNode.read, holds.1, known]
        rfl
      have placed := Placed.cons ⟨.other pos, parent, .ifRange (val.pointer base) start end_⟩ _
        rfl read has free fun stmts' same free' =>
          readItems_body body (base + (val.numBelow + 1)) (pos + 1) (.other pos) stmts' holds.2
            (same ▸ hasScope_entry rfl) free'
      rw [Option.bind_some, Option.map_map]
      exact placed
  | .call name params, base, pos, parent, stmts, holds, has, free => by
    rw [Stmt.owned] at holds
    apply Placed.leaf rfl _ has free
    rw [StmtNode.read, holds.mapM, Stmt.readBack, Option.map_map]
    rfl
  | .store arg indices value accumulate, base, pos, parent, stmts, holds, has, free => by
    rw [Stmt.owned, ExprContext.holds_cons, ExprContext.holds_cons, Expr.numBelow] at holds
    obtain ⟨gep, val, -⟩ := holds
    apply Placed.leaf rfl _ has free
    rw [StmtNode.read, val, show base + Expr.count indices = (Expr.gep arg indices).pointer base
      from rfl, gep, Stmt.readBack]
    cases value.readBack T decls with
    | none => rfl
    | some v => cases (Expr.gep arg indices).readBack T decls <;> rfl
  | .storeLocal var value accumulate, base, pos, parent, stmts, holds, has, free => by
    rw [Stmt.owned, ExprContext.holds_cons] at holds
    apply Placed.leaf rfl _ has free
    rw [StmtNode.read, holds.1, Stmt.readBack]
    cases value.readBack T decls <;> rfl

theorem readItems_body : ∀ (body : List (Stmt UInt32)) (base pos : Nat) (parent : StmtRef)
    (stmts : List StmtEntry), BC.Holds T decls base (Stmt.ownedBody body) →
    hasScope stmts (T.stmtId parent) = true → FreeIds T stmts (Stmt.itemsBody base pos parent body) →
    Placed T (T.stmtId parent) (Stmt.itemsBody base pos parent body) stmts
      (readItems T decls BC (Stmt.itemsBody base pos parent body) stmts)
      (Stmt.readBackBody T decls body)
  | [], base, pos, parent, stmts, holds, has, free =>
    ⟨[], by rw [List.append_nil]; rfl, rfl, Hangs.nil _⟩
  | s :: rest, base, pos, parent, stmts, holds, has, free => by
    rw [Stmt.ownedBody, ExprContext.holds_append, ← Stmt.exprCount_eq] at holds
    rw [Stmt.itemsBody] at free ⊢
    have placed := Placed.append has free
      (readItems_stmt s base pos parent stmts holds.1 has)
      fun stmts' has' free' => readItems_body rest (base + s.exprCount)
        (pos + s.collectStmts.length) parent stmts' holds.2 has' free'
    rw [Stmt.readBackBody]
    cases known : s.readBack T decls <;> rwa [known] at placed

end

end Reading

end Bistra

import Bistra.Bytecode.HeaderRoundTrip
import Bistra.Bytecode.StmtRefs

/-! # How large the tables get

The tables have no entry twice and only entries that the program mentions, so they are no longer
than the program.
-/

namespace Bistra

/-- What may be written to the tables. -/
structure TableBounds where
  strings : List String
  tensorTypes : List TensorType
  numExprs : Nat
  stmts : List StmtRef

/-- The tables have every entry once, and no entry outside the bounds. -/
structure Tables.Within (B : TableBounds) (t : Tables) : Prop where
  distinct : t.Distinct
  separatedExprs : IdTable.Separated (fun a b => decide (a = b)) t.exprTable
  separatedStmts : IdTable.Separated (fun a b => decide (a = b)) t.stmtTable
  strings : ∀ str ∈ t.stringTable, str ∈ B.strings
  tensorTypes : ∀ type ∈ t.tensorTypeTable, type ∈ B.tensorTypes
  exprs : ∀ expr ∈ t.exprTable, expr < B.numExprs
  stmts : ∀ stmt ∈ t.stmtTable, stmt ∈ B.stmts

/-- A writer that keeps the tables within the bounds. -/
def Writer.Keeps (w : Writer) (B : TableBounds) : Prop := ∀ t : Tables, t.Within B → (w t).2.Within B

section Keeps

variable {B : TableBounds}

theorem Writer.Keeps.append {w w' : Writer} (first : w.Keeps B) (second : w'.Keeps B) :
    (w ++ w').Keeps B := fun t within => second _ (first t within)

theorem keeps_pure (bytes : List UInt8) : Writer.Keeps (pure bytes) B := fun _ within => within

theorem keeps_writeAll {α : Type} {write : α → Writer} : ∀ {xs : List α},
    (∀ x ∈ xs, (write x).Keeps B) → (writeAll write xs).Keeps B
  | [], _ => keeps_pure _
  | _ :: _, each => by
    rw [List.forall_mem_cons] at each
    exact each.1.append (keeps_writeAll each.2)

theorem forall_mem_getIdFor {α : Type} {eq : α → α → Bool} {P : α → Prop} {table : List α} {x : α}
    (all : ∀ y ∈ table, P y) (new : P x) : ∀ y ∈ (IdTable.getIdFor eq table x).2, P y := by
  intro y mem
  rcases IdTable.mem_getIdFor mem with mem | rfl
  · exact all y mem
  · exact new

theorem keeps_writeString {str : String} (mem : str ∈ B.strings) :
    (writeString str).Keeps B := fun _ within =>
  { within with
    distinct := { within.distinct with
      strings := IdTable.separated_getIdFor within.distinct.strings str }
    strings := forall_mem_getIdFor within.strings mem }

theorem keeps_writeExprTy (type : ExprType) : (writeExprTy type).Keeps B := fun _ within =>
  { within with
    distinct := { within.distinct with
      exprTys := IdTable.separated_getIdFor within.distinct.exprTys type } }

theorem keeps_writeTensorType {type : TensorType} (mem : type ∈ B.tensorTypes) :
    (writeTensorType type).Keeps B := fun _ within =>
  { within with
    distinct := { within.distinct with
      tensorTypes := IdTable.separated_getIdFor within.distinct.tensorTypes type }
    tensorTypes := forall_mem_getIdFor within.tensorTypes mem }

theorem keeps_writeExpr {expr : Nat} (below : expr < B.numExprs) : (writeExpr expr).Keeps B :=
  fun _ within =>
  { within with
    distinct := { within.distinct with }
    separatedExprs := IdTable.separated_getIdFor within.separatedExprs expr
    exprs := forall_mem_getIdFor within.exprs below }

theorem keeps_writeStmt {stmt : StmtRef} (mem : stmt ∈ B.stmts) : (writeStmt stmt).Keeps B :=
  fun _ within =>
  { within with
    distinct := { within.distinct with }
    separatedStmts := IdTable.separated_getIdFor within.separatedStmts stmt
    stmts := forall_mem_getIdFor within.stmts mem }

/-- What a node mentions is within the bounds. -/
def ExprNode.Within (B : TableBounds) : ExprNode → Prop
  | .constString val => val ∈ B.strings
  | .binary _ lhs rhs => lhs < B.numExprs ∧ rhs < B.numExprs
  | .unary _ val => val < B.numExprs
  | .load _ access => access < B.numExprs
  | .broadcast val _ => val < B.numExprs
  | .index loop => .loop loop ∈ B.stmts
  | .gep _ indices => ∀ index ∈ indices, index < B.numExprs
  | _ => True

theorem keeps_serializeExpr {expr : Nat} {node : ExprNode} (below : expr < B.numExprs)
    (within : node.Within B) : (serializeExpr expr node).Keeps B := by
  have own : Writer.Keeps (writeWord node.kind ++ writeExpr expr) B :=
    (keeps_pure _).append (keeps_writeExpr below)
  cases node with
  | const | constFP | loadLocal => exact own.append (keeps_pure _)
  | constString val => exact own.append (keeps_writeString within)
  | binary kind lhs rhs =>
    exact own.append (((keeps_pure _).append (keeps_writeExpr within.1)).append
      (keeps_writeExpr within.2))
  | unary kind val => exact own.append ((keeps_pure _).append (keeps_writeExpr within))
  | load type access => exact own.append ((keeps_writeExprTy type).append (keeps_writeExpr within))
  | broadcast val vf => exact own.append ((keeps_writeExpr within).append (keeps_pure _))
  | index loop => exact own.append (keeps_writeStmt within)
  | gep arg indices =>
    exact own.append (((keeps_pure _).append (keeps_pure _)).append
      (keeps_writeAll fun index mem => keeps_writeExpr (within index mem)))

theorem keeps_serializeExprs : ∀ {base : Nat} {nodes : List ExprNode},
    base + nodes.length ≤ B.numExprs → (∀ node ∈ nodes, node.Within B) →
      (serializeExprs base nodes).Keeps B
  | _, [], _, _ => keeps_pure _
  | base, node :: nodes, below, each => by
    rw [List.forall_mem_cons] at each
    rw [List.length_cons] at below
    exact (keeps_serializeExpr (by omega) each.1).append (keeps_serializeExprs (by omega) each.2)

/-- What the fields of a statement mention is within the bounds. -/
def StmtNode.Within (B : TableBounds) : StmtNode → Prop
  | .loop header => header.name ∈ B.strings
  | .call name params => name ∈ B.strings ∧ ∀ param ∈ params, param < B.numExprs
  | .store _ value gep => value < B.numExprs ∧ gep < B.numExprs
  | .storeLocal _ _ value => value < B.numExprs
  | .ifRange val _ _ => val < B.numExprs

theorem keeps_serializeStmt {item : StmtItem} (stmt : item.stmt ∈ B.stmts)
    (parent : item.parent ∈ B.stmts) (within : item.node.Within B) :
    (serializeStmt item).Keeps B := by
  have own : Writer.Keeps (writeWord item.node.kind ++ writeStmt item.stmt ++
      writeStmt item.parent) B :=
    ((keeps_pure _).append (keeps_writeStmt stmt)).append (keeps_writeStmt parent)
  obtain ⟨ref, parentRef, node⟩ := item
  cases node with
  | loop header =>
    exact own.append (((keeps_writeString within).append (keeps_pure _)).append (keeps_pure _))
  | ifRange val start end_ =>
    exact own.append (((keeps_writeExpr within).append (keeps_pure _)).append (keeps_pure _))
  | call name params =>
    exact own.append (((keeps_writeString within.1).append (keeps_pure _)).append
      (keeps_writeAll fun param mem => keeps_writeExpr (within.2 param mem)))
  | store accumulate value gep =>
    exact own.append (((keeps_pure _).append (keeps_writeExpr within.1)).append
      (keeps_writeExpr within.2))
  | storeLocal var accumulate value =>
    exact own.append (((keeps_pure _).append (keeps_pure _)).append (keeps_writeExpr within))

end Keeps

/-! ## What the nodes of an expression mention -/

def Expr.strings {F : Type} (e : Expr F) : List String :=
  e.atoms.filterMap fun
    | .constString val => some val
    | _ => none

/-- The strings and the loops of an expression are within the bounds. -/
structure Expr.Within (B : TableBounds) (e : Expr UInt32) : Prop where
  strings : ∀ str ∈ e.strings, str ∈ B.strings
  loops : ∀ index ∈ e.collectIndices, .loop index.1 ∈ B.stmts

section Mentions

variable {B : TableBounds}

theorem Expr.within_binary {kind : BinOpKind} {lhs rhs : Expr UInt32}
    (within : (Expr.binary kind lhs rhs).Within B) : lhs.Within B ∧ rhs.Within B := by
  obtain ⟨strings, loops⟩ := within
  rw [Expr.strings, Expr.atoms, List.filterMap_append, List.forall_mem_append] at strings
  rw [Expr.collectIndices, List.forall_mem_append] at loops
  exact ⟨⟨strings.1, loops.1⟩, strings.2, loops.2⟩

theorem Expr.within_gep {arg : ArgId} {indices : List (Expr UInt32)}
    (within : (Expr.gep arg indices).Within B) : ∀ e ∈ indices, e.Within B := by
  obtain ⟨strings, loops⟩ := within
  rw [Expr.strings, Expr.atoms, Expr.atomsList_eq] at strings
  rw [Expr.collectIndices, Expr.collectIndicesList_eq] at loops
  intro e mem
  constructor
  · intro str memStr
    apply strings
    rw [Expr.strings, List.mem_filterMap] at memStr
    obtain ⟨a, memA, same⟩ := memStr
    exact List.mem_filterMap.mpr ⟨a, List.mem_flatMap.mpr ⟨e, mem, memA⟩, same⟩
  · exact fun index memIndex => loops index (List.mem_flatMap.mpr ⟨e, mem, memIndex⟩)

theorem Expr.pointers_lt : ∀ {base : Nat} {es : List (Expr UInt32)},
    ∀ i ∈ Expr.pointers base es, i < base + Expr.count es
  | _, [] => by simp [Expr.pointers]
  | base, e :: es => by
    rw [Expr.pointers, List.forall_mem_cons, Expr.count]
    constructor
    · rw [Expr.pointer]
      omega
    · intro i mem
      have := Expr.pointers_lt i mem
      omega

mutual

theorem Expr.within_nodes : ∀ (e : Expr UInt32) (base : Nat), e.Within B →
    base + (e.numBelow + 1) ≤ B.numExprs → ∀ node ∈ e.nodes base, node.Within B
  | .index loop type, base, within, below => by
    rw [Expr.nodes, List.forall_mem_singleton]
    exact within.loops (loop, type) (by simp [Expr.collectIndices])
  | .const _, base, within, below | .constFP _, base, within, below
  | .loadLocal _ _, base, within, below => by
    rw [Expr.nodes, List.forall_mem_singleton]
    trivial
  | .constString val, base, within, below => by
    rw [Expr.nodes, List.forall_mem_singleton]
    exact within.strings val (by simp [Expr.strings, Expr.atoms])
  | .binary kind lhs rhs, base, within, below => by
    obtain ⟨left, right⟩ := Expr.within_binary within
    rw [Expr.numBelow] at below
    rw [Expr.nodes, List.forall_mem_append, List.forall_mem_append, List.forall_mem_singleton]
    -- The operands are written in front of the node that points to them.
    refine ⟨⟨Expr.within_nodes lhs _ left (by omega), Expr.within_nodes rhs _ right (by omega)⟩, ?_⟩
    simp only [ExprNode.Within, Expr.pointer]
    omega
  | .unary kind val, base, within, below => by
    rw [Expr.numBelow] at below
    rw [Expr.nodes, List.forall_mem_append, List.forall_mem_singleton]
    refine ⟨Expr.within_nodes val _ ⟨within.strings, within.loops⟩ (by omega), ?_⟩
    simp only [ExprNode.Within, Expr.pointer]
    omega
  | .broadcast val vf, base, within, below => by
    rw [Expr.numBelow] at below
    rw [Expr.nodes, List.forall_mem_append, List.forall_mem_singleton]
    refine ⟨Expr.within_nodes val _ ⟨within.strings, within.loops⟩ (by omega), ?_⟩
    simp only [ExprNode.Within, Expr.pointer]
    omega
  | .gep arg indices, base, within, below => by
    rw [Expr.numBelow] at below
    rw [Expr.nodes, List.forall_mem_append, List.forall_mem_singleton]
    refine ⟨Expr.within_nodesList indices _ (Expr.within_gep within) (by omega), ?_⟩
    intro i mem
    have := Expr.pointers_lt i mem
    omega
  | .load arg indices type, base, within, below => by
    have access : (Expr.gep arg indices).Within B := ⟨within.strings, within.loops⟩
    rw [Expr.numBelow] at below
    rw [Expr.nodes, List.forall_mem_append, List.forall_mem_append, List.forall_mem_singleton,
      List.forall_mem_singleton]
    refine ⟨⟨Expr.within_nodesList indices _ (Expr.within_gep access) (by omega), ?_⟩, ?_⟩
    · intro i mem
      have := Expr.pointers_lt i mem
      omega
    · simp only [ExprNode.Within]
      omega

theorem Expr.within_nodesList : ∀ (es : List (Expr UInt32)) (base : Nat), (∀ e ∈ es, e.Within B) →
    base + Expr.count es ≤ B.numExprs → ∀ node ∈ Expr.nodesList base es, node.Within B
  | [], _, _, _ => by simp [Expr.nodesList]
  | e :: es, base, each, below => by
    rw [List.forall_mem_cons] at each
    rw [Expr.count] at below
    rw [Expr.nodesList, List.forall_mem_append]
    exact ⟨Expr.within_nodes e _ each.1 (by omega),
      Expr.within_nodesList es _ each.2 (by omega)⟩

end

/-! ## What the statements of a program mention -/

def Stmt.names {F : Type} : Stmt F → List String
  | .loop header _ => [header.name]
  | .call name _ => [name]
  | _ => []

mutual

theorem Stmt.within_nodes : ∀ (s : Stmt UInt32) (base pos : Nat) (parent : StmtRef),
    (∀ t ∈ s.collectStmts, ∀ name ∈ t.names, name ∈ B.strings) →
    base + s.exprCount ≤ B.numExprs → ∀ item ∈ s.items base pos parent, item.node.Within B
  | .loop header body, base, pos, parent, names, below => by
    rw [Stmt.collectStmts, List.forall_mem_cons] at names
    rw [Stmt.exprCount] at below
    rw [Stmt.items, List.forall_mem_cons]
    exact ⟨names.1 _ (by simp [Stmt.names]), Stmt.within_nodesBody body _ _ _ names.2 below⟩
  | .ifRange val start end_ body, base, pos, parent, names, below => by
    rw [Stmt.collectStmts, List.forall_mem_cons] at names
    rw [Stmt.exprCount] at below
    rw [Stmt.items, List.forall_mem_cons]
    refine ⟨?_, Stmt.within_nodesBody body _ _ _ names.2 (by omega)⟩
    simp only [StmtNode.Within, Expr.pointer]
    omega
  | .call name params, base, pos, parent, names, below => by
    rw [Stmt.collectStmts, List.forall_mem_singleton] at names
    rw [Stmt.exprCount] at below
    rw [Stmt.items, List.forall_mem_singleton]
    refine ⟨names _ (by simp [Stmt.names]), fun i mem => ?_⟩
    have := Expr.pointers_lt i mem
    omega
  | .store arg indices value accumulate, base, pos, parent, names, below => by
    rw [Stmt.exprCount] at below
    rw [Stmt.items, List.forall_mem_singleton]
    simp only [StmtNode.Within, Expr.pointer]
    omega
  | .storeLocal var value accumulate, base, pos, parent, names, below => by
    rw [Stmt.exprCount] at below
    rw [Stmt.items, List.forall_mem_singleton]
    simp only [StmtNode.Within, Expr.pointer]
    omega

theorem Stmt.within_nodesBody : ∀ (body : List (Stmt UInt32)) (base pos : Nat) (parent : StmtRef),
    (∀ t ∈ Stmt.collectStmtsBody body, ∀ name ∈ t.names, name ∈ B.strings) →
    base + Stmt.exprCountBody body ≤ B.numExprs →
      ∀ item ∈ Stmt.itemsBody base pos parent body, item.node.Within B
  | [], _, _, _, _, _ => by simp [Stmt.itemsBody]
  | s :: rest, base, pos, parent, names, below => by
    rw [Stmt.collectStmtsBody, List.forall_mem_append] at names
    rw [Stmt.exprCountBody] at below
    rw [Stmt.itemsBody, List.forall_mem_append]
    exact ⟨Stmt.within_nodes s _ _ _ names.1 (by omega),
      Stmt.within_nodesBody rest _ _ _ names.2 (by omega)⟩

end

mutual

theorem Stmt.parent_mem_items : ∀ (s : Stmt UInt32) (base pos : Nat) (parent : StmtRef),
    ∀ item ∈ s.items base pos parent,
      item.parent ∈ parent :: (s.items base pos parent).map (·.stmt)
  | .loop header body, base, pos, parent => by
    rw [Stmt.items, List.forall_mem_cons]
    refine ⟨List.mem_cons_self, fun item mem => List.mem_cons_of_mem _ ?_⟩
    exact Stmt.parent_mem_itemsBody body _ _ _ item mem
  | .ifRange val start end_ body, base, pos, parent => by
    rw [Stmt.items, List.forall_mem_cons]
    refine ⟨List.mem_cons_self, fun item mem => List.mem_cons_of_mem _ ?_⟩
    exact Stmt.parent_mem_itemsBody body _ _ _ item mem
  | .call _ _, _, _, _ | .store _ _ _ _, _, _, _ | .storeLocal _ _ _, _, _, _ => by
    rw [Stmt.items, List.forall_mem_singleton]
    exact List.mem_cons_self

theorem Stmt.parent_mem_itemsBody : ∀ (body : List (Stmt UInt32)) (base pos : Nat)
    (parent : StmtRef), ∀ item ∈ Stmt.itemsBody base pos parent body,
      item.parent ∈ parent :: (Stmt.itemsBody base pos parent body).map (·.stmt)
  | [], _, _, _ => by simp [Stmt.itemsBody]
  | s :: rest, base, pos, parent => by
    rw [Stmt.itemsBody, List.forall_mem_append, List.map_append]
    constructor
    · intro item mem
      exact List.cons_subset_cons _ (List.subset_append_left _ _)
        (Stmt.parent_mem_items s _ _ _ item mem)
    · intro item mem
      exact List.cons_subset_cons _ (List.subset_append_right _ _)
        (Stmt.parent_mem_itemsBody rest _ _ _ item mem)

end

end Mentions

end Bistra

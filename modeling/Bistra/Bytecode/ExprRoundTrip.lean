import Bistra.Bytecode.FinalTables
import Bistra.Program.Relabel

/-! # Reading expressions back

The bytes of a node are read as `ExprNode.read`, and the nodes of an expression, read one after the
other, register `Expr.readBack`: the expression put together again from what is left of its leaves.
-/

namespace Bistra

open Codec (Answers writeU32 readU32 readU8 answers_readU32 answers_readU8 iterate ofOption)

/-! ## The bytes of a node -/

def ExprNode.fields (T : Tables) : ExprNode → List UInt8
  | .const val => writeU32 (UInt32.ofInt val)
  | .constFP val => writeU32 val
  | .constString val => writeU32 (T.stringId val)
  | .binary kind lhs rhs => [kind.code] ++ writeU32 (T.exprId lhs) ++ writeU32 (T.exprId rhs)
  | .unary kind val => [kind.code] ++ writeU32 (T.exprId val)
  | .load type access => writeU32 (T.exprTyId type) ++ writeU32 (T.exprId access)
  | .loadLocal var => writeU32 (UInt32.ofNat var)
  | .broadcast val vf => writeU32 (T.exprId val) ++ [UInt8.ofNat vf.val]
  | .index loop => writeU32 (T.stmtId (.loop loop))
  | .gep arg indices =>
    writeU32 (UInt32.ofNat arg) ++ writeU32 (UInt32.ofNat indices.length) ++
      indices.flatMap fun index => writeU32 (T.exprId index)

def ExprNode.bytes (T : Tables) (expr : Nat) (node : ExprNode) : List UInt8 :=
  writeU32 node.kind ++ writeU32 (T.exprId expr) ++ node.fields T

/-- What the header has to have for a node. -/
def ExprNode.Known (T : Tables) : ExprNode → Prop
  | .load type _ => type ∈ T.exprTyTable
  | .constString val => val ∈ T.stringTable
  | .index loop => .loop loop ∈ T.stmtTable
  | _ => True

theorem writes_serializeExpr (expr : Nat) (node : ExprNode) : (serializeExpr expr node).Writes
    (fun T => node.bytes T expr) (fun T => expr ∈ T.exprTable ∧ node.Known T) := by
  have own : Writer.Writes (writeWord node.kind ++ writeExpr expr)
      (fun T => writeU32 node.kind ++ writeU32 (T.exprId expr)) (fun T => expr ∈ T.exprTable) :=
    ((writes_pure _).append (writes_writeExpr expr)).congr (fun _ => rfl) fun _ has => has.2
  have fields : ∀ {w : Writer} {has : Tables → Prop}, w.Writes (fun T => node.fields T) has →
      (∀ T, has T → node.Known T) →
      Writer.Writes (writeWord node.kind ++ writeExpr expr ++ w) (fun T => node.bytes T expr)
        (fun T => expr ∈ T.exprTable ∧ node.Known T) := fun writes known =>
    (own.append writes).congr (fun _ => rfl) fun T has => ⟨has.1, known T has.2⟩
  cases node with
  | const val | constFP val | loadLocal var => exact fields (writes_pure _) fun _ _ => trivial
  | constString val => exact fields (writes_writeString val) fun _ has => has
  | binary kind lhs rhs =>
    exact fields (((writes_pure _).append (writes_writeExpr lhs)).append (writes_writeExpr rhs))
      fun _ _ => trivial
  | unary kind val =>
    exact fields ((writes_pure _).append (writes_writeExpr val)) fun _ _ => trivial
  | load type access =>
    exact fields ((writes_writeExprTy type).append (writes_writeExpr access)) fun _ has => has.1
  | broadcast val vf =>
    exact fields ((writes_writeExpr val).append (writes_pure _)) fun _ _ => trivial
  | index loop => exact fields (writes_writeStmt (.loop loop)) fun _ has => has
  | gep arg indices =>
    exact fields (((writes_pure _).append (writes_pure _)).append
      (writes_writeAll fun index _ => writes_writeExpr index)) fun _ _ => trivial

theorem writes_serializeExprs : ∀ (base : Nat) (nodes : List ExprNode),
    (serializeExprs base nodes).Writes
      (fun T => (nodes.zipIdx base).flatMap fun item => item.1.bytes T item.2)
      (fun T => ∀ item ∈ nodes.zipIdx base, item.2 ∈ T.exprTable ∧ item.1.Known T)
  | base, [] => fun _ _ grown => ⟨rfl, by simp, grown⟩
  | base, node :: nodes => by
    rw [serializeExprs]
    refine ((writes_serializeExpr base node).append (writes_serializeExprs (base + 1) nodes)).congr
      (fun T => by rw [List.zipIdx_cons, List.flatMap_cons]) fun T has => ?_
    rw [List.zipIdx_cons, List.forall_mem_cons]
    exact has

/-! ## Reading a node -/

/-- What the reader registers for a node. -/
def ExprNode.read (T : Tables) (decls : Decls) (BC : ExprContext) (expr : Nat) :
    ExprNode → Option ExprContext
  | .const val => BC.registerExpr (T.exprId expr) (.const (UInt32.ofInt val).toNat)
  | .constFP val => BC.registerExpr (T.exprId expr) (.constFP val)
  -- The reader goes on with a binary expression and registers the same id again.
  | .constString _ => none
  | .binary kind lhs rhs =>
    (BC.exprMap (T.exprId lhs)).bind fun L => (BC.exprMap (T.exprId rhs)).bind fun R =>
      (Expr.mkBinary kind L R).bind (BC.registerExpr (T.exprId expr))
  | .unary kind val =>
    (BC.exprMap (T.exprId val)).bind fun V => BC.registerExpr (T.exprId expr) (.unary kind V)
  | .load type access =>
    (BC.exprMap (T.exprId access)).bind fun GEP =>
      (Expr.mkLoad GEP type).bind (BC.registerExpr (T.exprId expr))
  | .loadLocal var => (decls.mkLoadLocal var).bind (BC.registerExpr (T.exprId expr))
  | .broadcast val vf =>
    (BC.exprMap (T.exprId val)).bind fun V =>
      (Expr.mkBroadcast V vf).bind (BC.registerExpr (T.exprId expr))
  | .index loop =>
    (BC.registerExpr (T.exprId expr) (.indexOf (T.stmtId (.loop loop)).toNat)).map fun BC =>
      { BC with resolveLater := BC.resolveLater ++ [T.stmtId (.loop loop)] }
  | .gep arg indices =>
    (indices.mapM fun index => BC.exprMap (T.exprId index)).bind fun es =>
      (decls.mkGEP arg es).bind (BC.registerExpr (T.exprId expr))

def ExprNode.Fits : ExprNode → Prop
  | .loadLocal var => var < 2 ^ 32
  | .gep arg indices => arg < 2 ^ 32 ∧ indices.length < 2 ^ 32
  | _ => True

theorem BinOpKind.ofCode_code (kind : BinOpKind) : BinOpKind.ofCode kind.code = some kind := by
  cases kind <;> rfl

theorem UnaryOpKind.ofCode_code (kind : UnaryOpKind) :
    UnaryOpKind.ofCode kind.code = some kind := by
  cases kind <;> rfl

theorem answers_readExpr {BC : ExprContext} (id : UInt32) :
    Answers BC.readExpr (writeU32 id) (BC.exprMap id) :=
  (answers_readU32 id).bind_ofOption

theorem answers_readExprs {BC : ExprContext} (T : Tables) (exprs : List Nat) :
    Answers (BC.readExprs exprs.length) (exprs.flatMap fun expr => writeU32 (T.exprId expr))
      (exprs.mapM fun expr => BC.exprMap (T.exprId expr)) := by
  have each : ∀ expr ∈ exprs, ∀ es : List (Expr UInt32),
      Answers (do return es ++ [← BC.readExpr]) (writeU32 (T.exprId expr))
        ((BC.exprMap (T.exprId expr)).map (es ++ [·])) := by
    intro expr _ es rest
    show (BC.readExpr (writeU32 (T.exprId expr) ++ rest)).bind _ = _
    rw [answers_readExpr]
    cases BC.exprMap (T.exprId expr) <;> rfl
  have all := Codec.answers_iterate each []
  have folds : ∀ (exprs : List Nat) (es : List (Expr UInt32)),
      exprs.foldlM (fun es expr => (BC.exprMap (T.exprId expr)).map (es ++ [·])) es =
        (exprs.mapM fun expr => BC.exprMap (T.exprId expr)).map (es ++ ·) := by
    intro exprs
    induction exprs with
    | nil => simp
    | cons expr exprs ih =>
      intro es
      rw [List.foldlM_cons, List.mapM_cons]
      cases BC.exprMap (T.exprId expr) with
      | none => rfl
      | some e =>
        show exprs.foldlM _ (es ++ [e]) = _
        rw [ih]
        cases exprs.mapM fun expr => BC.exprMap (T.exprId expr) <;> simp
  rw [folds] at all
  rw [ExprContext.readExprs]
  simpa only [List.nil_append, Option.map_id'] using all

/-- A binary expression whose id is taken is not registered. -/
theorem readBinary_of_registered {BC : ExprContext} {id : UInt32}
    (taken : (BC.exprMap id).isSome) (bytes : List UInt8) : BC.readBinary id bytes = none := by
  have refused : ∀ e, BC.registerExpr id e = none := fun e => by
    rw [ExprContext.registerExpr, if_pos taken]
  have last : ∀ (kind : UInt8) (L R : Expr UInt32) (bytes : List UInt8),
      (ofOption (BinOpKind.ofCode kind) >>= fun kind =>
        ofOption ((Expr.mkBinary kind L R).bind (BC.registerExpr id))) bytes = none := by
    intro kind L R bytes
    show (ofOption (BinOpKind.ofCode kind) bytes).bind _ = none
    rw [Option.bind_eq_none_iff]
    intro op _
    show Option.map _ ((Expr.mkBinary op.1 L R).bind (BC.registerExpr id)) = none
    rw [Option.map_eq_none_iff, Option.bind_eq_none_iff]
    exact fun e _ => refused e
  show (readU8 bytes).bind _ = none
  rw [Option.bind_eq_none_iff]
  rintro ⟨kind, bytes⟩ _
  show (BC.readExpr bytes).bind _ = none
  rw [Option.bind_eq_none_iff]
  rintro ⟨L, bytes⟩ _
  show (BC.readExpr bytes).bind _ = none
  rw [Option.bind_eq_none_iff]
  rintro ⟨R, bytes⟩ _
  exact last kind L R bytes

theorem isSome_registerExpr {BC BC' : ExprContext} {id : UInt32} {e : Expr UInt32}
    (registered : BC.registerExpr id e = some BC') : (BC'.exprMap id).isSome := by
  rw [ExprContext.registerExpr, Option.ite_none_left_eq_some] at registered
  rw [← Option.some.inj registered.2]
  simp

theorem answers_deserializeExpr {T : Tables} (small : T.Small) {decls : Decls} {BC : ExprContext}
    {expr : Nat} {node : ExprNode} (known : node.Known T) (fits : node.Fits) :
    Answers (deserializeExpr T.header decls BC) (node.bytes T expr)
      (node.read T decls BC expr) := by
  rw [ExprNode.bytes, List.append_assoc]
  apply Answers.bind_some (answers_readU32 _)
  apply Answers.bind_some (answers_readU32 _)
  cases node with
  | const val => exact (answers_readU32 _).bind_ofOption
  | constFP val => exact (answers_readU32 _).bind_ofOption
  | constString val =>
    -- The case of strings goes on with that of binary expressions, which finds the id taken.
    have fails : Answers (ofOption (BC.registerExpr (T.exprId expr) (.constString val)) >>=
        fun BC => BC.readBinary (T.exprId expr)) [] none := by
      intro rest
      show (Option.map _ (BC.registerExpr (T.exprId expr) (.constString val))).bind _ = none
      rw [Option.bind_eq_none_iff]
      intro read registered
      obtain ⟨BC', made, rfl⟩ := Option.map_eq_some_iff.mp registered
      exact readBinary_of_registered (isSome_registerExpr made) rest
    apply Answers.bind_some_nil (answers_readString small known)
    exact fails
  | binary kind lhs rhs =>
    rw [ExprNode.fields, List.append_assoc]
    apply Answers.bind_some (answers_readU8 _)
    apply Answers.bind (answers_readExpr _)
    intro L _
    apply Answers.bind_nil (answers_readExpr _)
    intro R _
    apply Answers.ofOption_bind (BinOpKind.ofCode_code kind)
    exact Answers.ofOption _
  | unary kind val =>
    apply Answers.bind_some (answers_readU8 _)
    apply Answers.bind_nil (answers_readExpr _)
    intro V _
    apply Answers.ofOption_bind (UnaryOpKind.ofCode_code kind)
    exact Answers.ofOption _
  | load type access =>
    apply Answers.bind_some (answers_readExprTy small known)
    apply Answers.bind_nil (answers_readExpr _)
    intro GEP _
    exact Answers.ofOption _
  | loadLocal var =>
    have same := UInt32.toNat_ofNat_of_lt' fits
    -- The variable has to be there before its type is asked for.
    have read : Answers (readU32 >>= fun var =>
        ofOption ((decls.mkLoadLocal var.toNat).bind (BC.registerExpr (T.exprId expr))))
        (writeU32 (UInt32.ofNat var)) ((decls.mkLoadLocal (UInt32.ofNat var).toNat).bind
          (BC.registerExpr (T.exprId expr))) := (answers_readU32 _).bind_ofOption
    rwa [same] at read
  | broadcast val vf =>
    apply Answers.bind (answers_readExpr _)
    intro V _
    apply Answers.bind_some_nil (answers_readU8 _)
    apply Answers.ofOption_bind (VecWidth.ofNat?_val vf)
    exact Answers.ofOption _
  | index loop => exact (answers_readU32 _).bind_ofOption
  | gep arg indices =>
    rw [ExprNode.fields, List.append_assoc]
    apply Answers.bind_some (answers_readU32 _)
    apply Answers.bind_some (answers_readU32 _)
    rw [UInt32.toNat_ofNat_of_lt' fits.1, UInt32.toNat_ofNat_of_lt' fits.2]
    apply Answers.bind_nil (answers_readExprs T indices)
    intro es _
    exact Answers.ofOption _

/-! ## The nodes of an expression -/

/-- What is read back for a leaf. -/
def Expr.readLeaf (T : Tables) (decls : Decls) : Expr UInt32 → Option (Expr UInt32)
  | .const val => some (.const (UInt32.ofInt val).toNat)
  | .constString _ => none
  | .index loop _ => some (.indexOf (T.stmtId (.loop loop)).toNat)
  | .loadLocal var _ => decls.mkLoadLocal var
  | e => some e

/-- What is read back for an expression; `none` is a failed assertion. -/
def Expr.readBack (T : Tables) (decls : Decls) : Expr UInt32 → Option (Expr UInt32) :=
  Expr.rebuild decls (Expr.readLeaf T decls)

def Expr.readBackList (T : Tables) (decls : Decls) :
    List (Expr UInt32) → Option (List (Expr UInt32)) :=
  Expr.rebuildList decls (Expr.readLeaf T decls)

/-- Reads nodes one after the other, the first one at `base`. -/
def readNodes (T : Tables) (decls : Decls) (base : Nat) (nodes : List ExprNode)
    (BC : ExprContext) : Option ExprContext :=
  (nodes.zipIdx base).foldlM (fun BC item => item.1.read T decls BC item.2) BC

theorem readNodes_append (T : Tables) (decls : Decls) (base : Nat) (nodes nodes' : List ExprNode)
    (BC : ExprContext) : readNodes T decls base (nodes ++ nodes') BC =
      (readNodes T decls base nodes BC).bind
        (readNodes T decls (base + nodes.length) nodes') := by
  rw [readNodes, List.zipIdx_append, List.foldlM_append]
  rfl

theorem readNodes_singleton (T : Tables) (decls : Decls) (base : Nat) (node : ExprNode)
    (BC : ExprContext) : readNodes T decls base [node] BC = node.read T decls BC base := by
  show (node.read T decls BC base).bind some = _
  rw [Option.bind_fun_some]

/-- The ids of the next `n` expressions are there and not registered. -/
structure ExprContext.Fresh (T : Tables) (base n : Nat) (BC : ExprContext) : Prop where
  has : ∀ i, base ≤ i → i < base + n → i ∈ T.exprTable
  free : ∀ i, base ≤ i → i < base + n → BC.exprMap (T.exprId i) = none

/-- Only the next `n` expressions are registered, and the statements `ids` are waited for. -/
structure ExprContext.Adds (T : Tables) (base n : Nat) (ids : List UInt32) (BC BC' : ExprContext) :
    Prop where
  kept : ∀ id, (∀ i, base ≤ i → i < base + n → id ≠ T.exprId i) → BC'.exprMap id = BC.exprMap id
  later : BC'.resolveLater = BC.resolveLater ++ ids

theorem ExprContext.Fresh.left {T : Tables} {base n n' : Nat} {BC : ExprContext}
    (fresh : BC.Fresh T base (n + n')) : BC.Fresh T base n :=
  ⟨fun i from_ below => fresh.has i from_ (by omega),
    fun i from_ below => fresh.free i from_ (by omega)⟩

theorem ExprContext.Fresh.right {T : Tables} (small : T.Small) {base n n' : Nat}
    {ids : List UInt32} {BC BC' : ExprContext} (fresh : BC.Fresh T base (n + n'))
    (adds : BC.Adds T base n ids BC') : BC'.Fresh T (base + n) n' := by
  refine ⟨fun i from_ below => fresh.has i (by omega) (by omega), fun i from_ below => ?_⟩
  rw [adds.kept]
  · exact fresh.free i (by omega) (by omega)
  · intro j fromJ belowJ same
    have := T.exprId_inj small (fresh.has i (by omega) (by omega))
      (fresh.has j fromJ (by omega)) same
    omega

theorem ExprContext.Adds.trans {T : Tables} {base n n' : Nat} {ids ids' : List UInt32}
    {BC BC' BC'' : ExprContext} (first : BC.Adds T base n ids BC')
    (second : BC'.Adds T (base + n) n' ids' BC'') :
    BC.Adds T base (n + n') (ids ++ ids') BC'' where
  kept id other := by
    rw [second.kept id fun i from_ below => other i (by omega) (by omega),
      first.kept id fun i from_ below => other i (by omega) (by omega)]
  later := by rw [second.later, first.later, List.append_assoc]

theorem ExprContext.Adds.keeps {T : Tables} {base n : Nat} {ids : List UInt32}
    {BC BC' : ExprContext} (adds : BC.Adds T base n ids BC') (fresh : BC.Fresh T base n) {i : Nat}
    {e : Expr UInt32} (registered : BC.exprMap (T.exprId i) = some e) :
    BC'.exprMap (T.exprId i) = some e := by
  rw [adds.kept, registered]
  intro j from_ below same
  rw [same, fresh.free j from_ below] at registered
  cases registered

/-- Reading fails if nothing is read back, and registers what is read back otherwise. -/
def ReadsBack {α : Type} (T : Tables) (base n : Nat) (ids : List UInt32) (BC : ExprContext)
    (outcome : Option ExprContext) (back : Option α) (found : ExprContext → α → Prop) : Prop :=
  match back with
  | none => outcome = none
  | some a => ∃ BC', outcome = some BC' ∧ BC.Adds T base n ids BC' ∧ found BC' a

section ReadsBack

variable {α β : Type} {T : Tables} {base n n' : Nat} {ids ids' : List UInt32} {BC : ExprContext}

theorem ReadsBack.bind (small : T.Small) (fresh : BC.Fresh T base (n + n'))
    {outcome : Option ExprContext} {next : ExprContext → Option ExprContext} {back : Option α}
    {back' : α → Option β} {found : ExprContext → α → Prop} {found' : ExprContext → β → Prop}
    (first : ReadsBack T base n ids BC outcome back found)
    (second : ∀ a BC', found BC' a → BC'.Fresh T (base + n) n' →
      ReadsBack T (base + n) n' ids' BC' (next BC') (back' a) found') :
    ReadsBack T base (n + n') (ids ++ ids') BC (outcome.bind next) (back.bind back') found' := by
  cases back with
  | none =>
    rw [show outcome = none from first]
    rfl
  | some a =>
    obtain ⟨BC', rfl, adds, here⟩ := first
    have later := second a BC' here (fresh.right small adds)
    show ReadsBack T base (n + n') (ids ++ ids') BC (next BC') (back' a) found'
    cases known : back' a with
    | none =>
      rw [known] at later
      exact later
    | some b =>
      rw [known] at later
      obtain ⟨BC'', read, adds', there⟩ := later
      exact ⟨BC'', read, adds.trans adds', there⟩

theorem ReadsBack.register (fresh : BC.Fresh T base 1) {outcome : Option ExprContext}
    {back : Option (Expr UInt32)}
    (registers : outcome = back.bind (BC.registerExpr (T.exprId base))) :
    ReadsBack T base 1 [] BC outcome back fun BC' e => BC'.exprMap (T.exprId base) = some e := by
  cases back with
  | none => exact registers
  | some e =>
    have free : BC.exprMap (T.exprId base) = none := fresh.free base (by omega) (by omega)
    refine ⟨{ BC with exprMap := Function.update BC.exprMap (T.exprId base) (some e) }, ?_, ?_, ?_⟩
    · rw [registers, Option.bind_some, ExprContext.registerExpr, free]
      rfl
    · refine ⟨fun id other => Function.update_of_ne (other base (by omega) (by omega)) .., ?_⟩
      rw [List.append_nil]
    · exact Function.update_self ..

end ReadsBack

theorem Expr.length_nodes : ∀ (e : Expr UInt32) (base : Nat),
    (e.nodes base).length = e.numBelow + 1 := by
  have list : ∀ {es : List (Expr UInt32)},
      (∀ e ∈ es, ∀ base, (e.nodes base).length = e.numBelow + 1) →
      ∀ base, (Expr.nodesList base es).length = Expr.count es := by
    intro es
    induction es with
    | nil => exact fun _ _ => rfl
    | cons e es ih =>
      intro each base
      rw [List.forall_mem_cons] at each
      rw [Expr.nodesList, List.length_append, each.1, ih each.2, Expr.count]
  intro e
  induction e using Expr.inductTree with
  | index | const | constFP | constString | loadLocal => exact fun _ => rfl
  | binary kind lhs rhs ihL ihR =>
    intro base
    simp only [Expr.nodes, Expr.numBelow, List.length_append, ihL, ihR, List.length_singleton]
  | unary kind val ih => simp [Expr.nodes, Expr.numBelow, ih]
  | broadcast val vf ih => simp [Expr.nodes, Expr.numBelow, ih]
  | gep arg indices ih => simp [Expr.nodes, Expr.numBelow, list ih]
  | load arg indices type ih => simp [Expr.nodes, Expr.numBelow, list ih]

theorem Expr.length_nodesList : ∀ (es : List (Expr UInt32)) (base : Nat),
    (Expr.nodesList base es).length = Expr.count es
  | [], _ => rfl
  | e :: es, base => by
    rw [Expr.nodesList, List.length_append, Expr.length_nodes, Expr.length_nodesList, Expr.count]

/-- The statements that the indices of an expression wait for. -/
def Expr.waits (T : Tables) (e : Expr UInt32) : List UInt32 :=
  e.collectIndices.map fun index => T.stmtId (.loop index.1)

/-- The pointers of a list lead to the expressions of another list. -/
def ExprContext.HasAll (T : Tables) (BC : ExprContext) (pointers : List Nat)
    (es : List (Expr UInt32)) : Prop :=
  pointers.map (fun i => BC.exprMap (T.exprId i)) = es.map some

theorem ExprContext.HasAll.mapM {T : Tables} {BC : ExprContext} {pointers : List Nat}
    {es : List (Expr UInt32)} (all : BC.HasAll T pointers es) :
    pointers.mapM (fun i => BC.exprMap (T.exprId i)) = some es := by
  induction pointers generalizing es with
  | nil =>
    cases es with
    | nil => rfl
    | cons e es => cases all
  | cons i pointers ih =>
    cases es with
    | nil => cases all
    | cons e es =>
      simp only [ExprContext.HasAll, List.map_cons, List.cons.injEq] at all
      rw [List.mapM_cons, all.1]
      show (pointers.mapM fun i => BC.exprMap (T.exprId i)).bind _ = _
      rw [ih all.2]
      rfl

theorem readNodes_list {T : Tables} (small : T.Small) {decls : Decls} {es : List (Expr UInt32)}
    (each : ∀ e ∈ es, ∀ base (BC : ExprContext), BC.Fresh T base (e.numBelow + 1) →
      ReadsBack T base (e.numBelow + 1) (e.waits T) BC (readNodes T decls base (e.nodes base) BC)
        (e.readBack T decls) fun BC' e' => BC'.exprMap (T.exprId (e.pointer base)) = some e') :
    ∀ base (BC : ExprContext), BC.Fresh T base (Expr.count es) →
      ReadsBack T base (Expr.count es) (es.flatMap (Expr.waits T)) BC
        (readNodes T decls base (Expr.nodesList base es) BC) (Expr.readBackList T decls es)
        fun BC' es' => BC'.HasAll T (Expr.pointers base es) es' := by
  induction es with
  | nil =>
    intro base BC _
    refine ⟨BC, rfl, ⟨fun _ _ => rfl, ?_⟩, rfl⟩
    rw [List.flatMap_nil, List.append_nil]
  | cons e es ih =>
    intro base BC fresh
    rw [List.forall_mem_cons] at each
    rw [Expr.count] at fresh ⊢
    rw [Expr.nodesList, readNodes_append, Expr.length_nodes, List.flatMap_cons]
    apply ReadsBack.bind small fresh (each.1 base BC fresh.left)
    intro e' BC' here fresh'
    have rest := ih each.2 _ BC' fresh'
    show ReadsBack T _ _ _ BC' _ ((Expr.readBackList T decls es).map (e' :: ·)) _
    -- The expressions that have been registered stay while the others of the list are read.
    cases known : Expr.readBackList T decls es with
    | none =>
      rw [known] at rest
      exact rest
    | some es' =>
      rw [known] at rest
      obtain ⟨BC'', read, adds, all⟩ := rest
      have headKept := adds.keeps fresh' here
      refine ⟨BC'', read, adds, ?_⟩
      show (e.pointer base :: Expr.pointers (base + (e.numBelow + 1)) es).map
        (fun i => BC''.exprMap (T.exprId i)) = some e' :: es'.map some
      rw [List.map_cons, headKept, show List.map _ _ = _ from all]

theorem readNodes_expr {T : Tables} (small : T.Small) {decls : Decls} (e : Expr UInt32) :
    ∀ base (BC : ExprContext), BC.Fresh T base (e.numBelow + 1) →
      ReadsBack T base (e.numBelow + 1) (e.waits T) BC (readNodes T decls base (e.nodes base) BC)
        (e.readBack T decls) fun BC' e' => BC'.exprMap (T.exprId (e.pointer base)) = some e' := by
  -- The node of a `GEPExpr` follows those of the subscripts.
  have access : ∀ {indices : List (Expr UInt32)}, (∀ e ∈ indices, ∀ base (BC : ExprContext),
      BC.Fresh T base (e.numBelow + 1) →
      ReadsBack T base (e.numBelow + 1) (e.waits T) BC (readNodes T decls base (e.nodes base) BC)
        (e.readBack T decls) fun BC' e' => BC'.exprMap (T.exprId (e.pointer base)) = some e') →
      ∀ (arg : ArgId) base (BC : ExprContext), BC.Fresh T base (Expr.count indices + 1) →
      ReadsBack T base (Expr.count indices + 1) ((Expr.gep arg indices).waits T) BC
        (readNodes T decls base ((Expr.gep arg indices).nodes base) BC)
        ((Expr.gep arg indices).readBack T decls)
        fun BC' e' => BC'.exprMap (T.exprId (base + Expr.count indices)) = some e' := by
    intro indices each arg base BC fresh
    have waits : (Expr.gep arg indices).waits T = indices.flatMap (Expr.waits T) ++ [] := by
      rw [Expr.waits, Expr.collectIndices, Expr.collectIndicesList_eq, List.map_flatMap,
        List.append_nil]
      rfl
    rw [Expr.nodes, readNodes_append, Expr.length_nodesList, waits]
    apply ReadsBack.bind small fresh (readNodes_list small each base BC fresh.left)
    intro es BC' all fresh'
    rw [readNodes_singleton]
    apply ReadsBack.register fresh'
    rw [ExprNode.read, all.mapM, Option.bind_some]
  induction e using Expr.inductTree with
  | index loop type =>
    intro base BC fresh
    rw [Expr.nodes, readNodes_singleton]
    have free : BC.exprMap (T.exprId base) = none :=
      fresh.free base (Nat.le_refl _) (by simp [Expr.numBelow])
    refine ⟨⟨Function.update BC.exprMap (T.exprId base)
      (some (.indexOf (T.stmtId (.loop loop)).toNat)), BC.resolveLater ++ [T.stmtId (.loop loop)]⟩,
      ?_, ?_, ?_⟩
    · rw [ExprNode.read, ExprContext.registerExpr, free]
      rfl
    · exact ⟨fun id other => Function.update_of_ne
        (other base (Nat.le_refl _) (by simp [Expr.numBelow])) .., rfl⟩
    · exact Function.update_self ..
  | const | constFP | constString | loadLocal =>
    intro base BC fresh
    rw [Expr.nodes, readNodes_singleton]
    exact ReadsBack.register fresh rfl
  | binary kind lhs rhs ihL ihR =>
    intro base BC fresh
    have waits : (Expr.binary kind lhs rhs).waits T = (lhs.waits T ++ rhs.waits T) ++ [] := by
      rw [Expr.waits, Expr.collectIndices, List.map_append, List.append_nil]
      rfl
    rw [Expr.numBelow] at fresh ⊢
    rw [Expr.nodes, readNodes_append, readNodes_append, List.length_append, Expr.length_nodes,
      Expr.length_nodes, waits]
    -- Both operands are registered when the last node is read.
    have operands : ReadsBack T base ((lhs.numBelow + 1) + (rhs.numBelow + 1))
        (lhs.waits T ++ rhs.waits T) BC
        ((readNodes T decls base (lhs.nodes base) BC).bind
          (readNodes T decls (base + (lhs.numBelow + 1)) (rhs.nodes (base + (lhs.numBelow + 1)))))
        ((lhs.readBack T decls).bind fun L => (rhs.readBack T decls).map fun R => (L, R))
        fun BC' p => BC'.exprMap (T.exprId (lhs.pointer base)) = some p.1 ∧
          BC'.exprMap (T.exprId (rhs.pointer (base + (lhs.numBelow + 1)))) = some p.2 := by
      apply ReadsBack.bind small fresh.left (ihL base BC fresh.left.left)
      intro L BC' here fresh'
      have right := ihR _ BC' fresh'
      cases known : rhs.readBack T decls with
      | none =>
        rw [known] at right
        exact right
      | some R =>
        rw [known] at right
        obtain ⟨BC'', read, adds, there⟩ := right
        exact ⟨BC'', read, adds, adds.keeps fresh' here, there⟩
    have whole : (Expr.binary kind lhs rhs).readBack T decls =
        ((lhs.readBack T decls).bind fun L => (rhs.readBack T decls).map fun R => (L, R)).bind
          fun p => Expr.mkBinary kind p.1 p.2 := by
      rw [Expr.readBack, Expr.rebuild, Option.bind_assoc]
      congr 1
      funext L
      rw [Option.bind_map]
      rfl
    rw [whole]
    apply ReadsBack.bind small fresh operands
    intro p BC' both fresh'
    rw [readNodes_singleton]
    apply ReadsBack.register fresh'
    rw [ExprNode.read, both.1, both.2, Option.bind_some, Option.bind_some]
  | unary kind val ih =>
    intro base BC fresh
    have waits : (Expr.unary kind val).waits T = val.waits T ++ [] := (List.append_nil _).symm
    have whole : (Expr.unary kind val).readBack T decls =
        (val.readBack T decls).bind fun V => some (.unary kind V) := by
      rw [Expr.readBack, Expr.rebuild, Option.map_eq_bind]
      rfl
    rw [Expr.numBelow] at fresh ⊢
    rw [Expr.nodes, readNodes_append, Expr.length_nodes, waits, whole]
    apply ReadsBack.bind small fresh (ih base BC fresh.left)
    intro V BC' here fresh'
    rw [readNodes_singleton]
    apply ReadsBack.register fresh'
    rw [ExprNode.read, here, Option.bind_some, Option.bind_some]
  | broadcast val vf ih =>
    intro base BC fresh
    have waits : (Expr.broadcast val vf).waits T = val.waits T ++ [] := (List.append_nil _).symm
    rw [Expr.numBelow] at fresh ⊢
    rw [Expr.nodes, readNodes_append, Expr.length_nodes, waits, Expr.readBack, Expr.rebuild]
    apply ReadsBack.bind small fresh (ih base BC fresh.left)
    intro V BC' here fresh'
    rw [readNodes_singleton]
    apply ReadsBack.register fresh'
    rw [ExprNode.read, here, Option.bind_some]
  | gep arg indices ih => exact access ih arg
  | load arg indices type ih =>
    intro base BC fresh
    have waits : (Expr.load arg indices type).waits T = (Expr.gep arg indices).waits T ++ [] :=
      (List.append_nil _).symm
    have nodes : (Expr.load arg indices type).nodes base =
        (Expr.gep arg indices).nodes base ++ [.load type (base + Expr.count indices)] := by
      rw [Expr.nodes, Expr.nodes]
    have length : ((Expr.gep arg indices).nodes base).length = Expr.count indices + 1 := by
      rw [Expr.length_nodes, Expr.numBelow]
    rw [Expr.numBelow] at fresh ⊢
    rw [nodes, readNodes_append, length, waits, Expr.readBack, Expr.rebuild]
    apply ReadsBack.bind small fresh (access ih arg base BC fresh.left)
    intro gep BC' here fresh'
    rw [readNodes_singleton]
    apply ReadsBack.register fresh'
    rw [ExprNode.read, here, Option.bind_some]

end Bistra

import Bistra.Bytecode.Reader

/-! # What is written, in terms of the final tables

The tables only grow, and an element keeps its id.  So the bytes that a writer produces are given by
the tables at the end of the serialization, and the reader, which starts with these tables, can be
compared with them item by item.
-/

namespace Bistra

open Codec (Answers writeU32 readU32 answers_readU32 ofOption)

/-! ## Growing tables -/

/-- The tables `T` extend the tables `t`. -/
structure Tables.Grows (t T : Tables) : Prop where
  strings : t.stringTable <+: T.stringTable
  exprTys : t.exprTyTable <+: T.exprTyTable
  tensorTypes : t.tensorTypeTable <+: T.tensorTypeTable
  exprs : t.exprTable <+: T.exprTable
  stmts : t.stmtTable <+: T.stmtTable

theorem Tables.Grows.refl (t : Tables) : t.Grows t :=
  ⟨List.prefix_rfl, List.prefix_rfl, List.prefix_rfl, List.prefix_rfl, List.prefix_rfl⟩

/-- In all later tables the bytes of the writer are `bytes`, and these tables have what it refers
to. -/
def Writer.Writes (w : Writer) (bytes : Tables → List UInt8) (has : Tables → Prop) : Prop :=
  ∀ t T, (w t).2.Grows T → (w t).1 = bytes T ∧ has T ∧ t.Grows T

theorem Writer.Writes.append {w w' : Writer} {bytes bytes' : Tables → List UInt8}
    {has has' : Tables → Prop} (first : w.Writes bytes has) (second : w'.Writes bytes' has') :
    (w ++ w').Writes (fun T => bytes T ++ bytes' T) (fun T => has T ∧ has' T) := by
  intro t T grown
  obtain ⟨same', has', grown'⟩ := second (w t).2 T grown
  obtain ⟨same, has, grown⟩ := first t T grown'
  refine ⟨?_, ⟨has, has'⟩, grown⟩
  show (w t).1 ++ (w' (w t).2).1 = _
  rw [same, same']

theorem Writer.Writes.congr {w : Writer} {bytes bytes' : Tables → List UInt8}
    {has has' : Tables → Prop} (writes : w.Writes bytes has) (same : ∀ T, bytes T = bytes' T)
    (weaker : ∀ T, has T → has' T) : w.Writes bytes' has' := by
  intro t T grown
  obtain ⟨wrote, has, grows⟩ := writes t T grown
  exact ⟨wrote.trans (same T), weaker T has, grows⟩

theorem writes_pure (bytes : List UInt8) :
    Writer.Writes (pure bytes) (fun _ => bytes) (fun _ => True) :=
  fun _ _ grown => ⟨rfl, trivial, grown⟩

theorem writes_writeAll {α : Type} {write : α → Writer} {bytes : Tables → α → List UInt8}
    {has : Tables → α → Prop} {xs : List α}
    (each : ∀ x ∈ xs, (write x).Writes (fun T => bytes T x) (fun T => has T x)) :
    (writeAll write xs).Writes (fun T => xs.flatMap (bytes T)) (fun T => ∀ x ∈ xs, has T x) := by
  induction xs with
  | nil => exact fun _ _ grown => ⟨rfl, by simp, grown⟩
  | cons x xs ih =>
    rw [List.forall_mem_cons] at each
    rw [writeAll]
    refine (each.1.append (ih each.2)).congr (fun T => by rw [List.flatMap_cons]) fun T has => ?_
    rw [List.forall_mem_cons]
    exact has

/-! ## Ids in the final tables -/

def Tables.exprId (T : Tables) (expr : Nat) : UInt32 :=
  UInt32.ofNat (IdTable.idOf (fun a b => decide (a = b)) T.exprTable expr)

def Tables.stmtId (T : Tables) (stmt : StmtRef) : UInt32 :=
  UInt32.ofNat (IdTable.idOf (fun a b => decide (a = b)) T.stmtTable stmt)

def Tables.stringId (T : Tables) (str : String) : UInt32 :=
  UInt32.ofNat (IdTable.idOf (fun a b => decide (a = b)) T.stringTable str)

def Tables.exprTyId (T : Tables) (type : ExprType) : UInt32 :=
  UInt32.ofNat (IdTable.idOf (fun a b => decide (a = b)) T.exprTyTable type)

def Tables.tensorTypeId (T : Tables) (type : TensorType) : UInt32 :=
  UInt32.ofNat (IdTable.idOf TensorType.isEqual T.tensorTypeTable type)

/-- An element that has got its id has it in every later table. -/
theorem getIdFor_spec {α : Type} [DecidableEq α] {table final : List α} {x : α}
    (grown : (IdTable.getIdFor (fun a b => decide (a = b)) table x).2 <+: final) :
    (IdTable.getIdFor (fun a b => decide (a = b)) table x).1 =
        IdTable.idOf (fun a b => decide (a = b)) final x ∧ x ∈ final ∧ table <+: final := by
  refine ⟨IdTable.getIdFor_fst (fun x => by simp) grown, ?_, (IdTable.prefix_getIdFor _ _).trans grown⟩
  obtain ⟨y, mem, same⟩ := List.any_eq_true.mp
    (@IdTable.any_getIdFor α (fun a b => decide (a = b)) (fun x => by simp) table x)
  rw [decide_eq_true_eq] at same
  exact grown.subset (same ▸ mem)

theorem writes_writeString (str : String) : (writeString str).Writes
    (fun T => writeU32 (T.stringId str)) (fun T => str ∈ T.stringTable) := by
  intro t T grown
  obtain ⟨id, mem, grows⟩ := getIdFor_spec grown.strings
  refine ⟨?_, mem, grows, grown.exprTys, grown.tensorTypes, grown.exprs, grown.stmts⟩
  show writeId _ = _
  rw [id]
  rfl

theorem writes_writeExprTy (type : ExprType) : (writeExprTy type).Writes
    (fun T => writeU32 (T.exprTyId type)) (fun T => type ∈ T.exprTyTable) := by
  intro t T grown
  obtain ⟨id, mem, grows⟩ := getIdFor_spec grown.exprTys
  refine ⟨?_, mem, grown.strings, grows, grown.tensorTypes, grown.exprs, grown.stmts⟩
  show writeId _ = _
  rw [id]
  rfl

theorem writes_writeExpr (expr : Nat) : (writeExpr expr).Writes
    (fun T => writeU32 (T.exprId expr)) (fun T => expr ∈ T.exprTable) := by
  intro t T grown
  obtain ⟨id, mem, grows⟩ := getIdFor_spec grown.exprs
  refine ⟨?_, mem, grown.strings, grown.exprTys, grown.tensorTypes, grows, grown.stmts⟩
  show writeId _ = _
  rw [id]
  rfl

theorem writes_writeStmt (stmt : StmtRef) : (writeStmt stmt).Writes
    (fun T => writeU32 (T.stmtId stmt)) (fun T => stmt ∈ T.stmtTable) := by
  intro t T grown
  obtain ⟨id, mem, grows⟩ := getIdFor_spec grown.stmts
  refine ⟨?_, mem, grown.strings, grown.exprTys, grown.tensorTypes, grown.exprs, grows⟩
  show writeId _ = _
  rw [id]
  rfl

theorem TensorType.isEqual_refl (t : TensorType) : t.isEqual t = true := by
  simp [TensorType.isEqual]

theorem writes_writeTensorType (type : TensorType) : (writeTensorType type).Writes
    (fun T => writeU32 (T.tensorTypeId type))
    (fun T => T.tensorTypeTable.any (TensorType.isEqual · type) = true) := by
  intro t T grown
  have id := IdTable.getIdFor_fst TensorType.isEqual_refl grown.tensorTypes
  have known := IdTable.any_getIdFor TensorType.isEqual_refl t.tensorTypeTable type
  refine ⟨?_, ?_, grown.strings, grown.exprTys,
    (IdTable.prefix_getIdFor _ _).trans grown.tensorTypes, grown.exprs, grown.stmts⟩
  · show writeId _ = _
    rw [id]
    rfl
  · obtain ⟨y, mem, same⟩ := List.any_eq_true.mp known
    exact List.any_eq_true.mpr ⟨y, grown.tensorTypes.subset mem, same⟩

/-! ## Reading ids -/

/-- The sizes of the tables fit into words. -/
structure Tables.Small (T : Tables) : Prop where
  strings : T.stringTable.length < 2 ^ 32
  exprTys : T.exprTyTable.length < 2 ^ 32
  tensorTypes : T.tensorTypeTable.length < 2 ^ 32
  exprs : T.exprTable.length < 2 ^ 32
  stmts : T.stmtTable.length < 2 ^ 32

def Tables.header (T : Tables) : BytecodeHeader :=
  ⟨T.stringTable, T.exprTyTable, T.tensorTypeTable⟩

theorem idOf_lt {α : Type} {eq : α → α → Bool} {table : List α} {x : α}
    (known : table.any (eq · x) = true) : IdTable.idOf eq table x < table.length := by
  rw [List.any_eq_true] at known
  exact List.findIdx_lt_length.mpr known

theorem getElem?_ofNat_idOf {α : Type} [DecidableEq α] {table : List α} {x : α} (mem : x ∈ table)
    (small : table.length ≤ 2 ^ 32) :
    table[(UInt32.ofNat (IdTable.idOf (fun a b => decide (a = b)) table x)).toNat]? = some x := by
  have known : table.any (fun y => decide (y = x)) = true := by simpa using mem
  have below := @idOf_lt α (fun a b => decide (a = b)) table x known
  obtain ⟨y, found, same⟩ := @IdTable.getElem?_idOf α (fun a b => decide (a = b)) table x known
  rw [decide_eq_true_eq] at same
  rw [UInt32.toNat_ofNat_of_lt' (below.trans_le small), found, same]

theorem ofNat_idOf_inj {α : Type} [DecidableEq α] {table : List α} {x y : α} (memX : x ∈ table)
    (memY : y ∈ table) (small : table.length ≤ 2 ^ 32)
    (same : UInt32.ofNat (IdTable.idOf (fun a b => decide (a = b)) table x) =
      UInt32.ofNat (IdTable.idOf (fun a b => decide (a = b)) table y)) : x = y := by
  have foundX := getElem?_ofNat_idOf memX small
  rw [same, getElem?_ofNat_idOf memY small] at foundX
  exact (Option.some.inj foundX).symm

theorem Tables.exprId_inj {T : Tables} (small : T.Small) {a b : Nat} (memA : a ∈ T.exprTable)
    (memB : b ∈ T.exprTable) (same : T.exprId a = T.exprId b) : a = b :=
  ofNat_idOf_inj memA memB small.exprs.le same

theorem Tables.stmtId_inj {T : Tables} (small : T.Small) {a b : StmtRef} (memA : a ∈ T.stmtTable)
    (memB : b ∈ T.stmtTable) (same : T.stmtId a = T.stmtId b) : a = b :=
  ofNat_idOf_inj memA memB small.stmts.le same

theorem answers_readString {T : Tables} (small : T.Small) {str : String}
    (mem : str ∈ T.stringTable) :
    Answers T.header.readString (writeU32 (T.stringId str)) (some str) := by
  have read : Answers T.header.readString (writeU32 (T.stringId str))
      T.stringTable[(T.stringId str).toNat]? := (answers_readU32 _).bind_ofOption
  rwa [Tables.stringId, getElem?_ofNat_idOf mem small.strings.le] at read

theorem answers_readExprTy {T : Tables} (small : T.Small) {type : ExprType}
    (mem : type ∈ T.exprTyTable) :
    Answers T.header.readExprTy (writeU32 (T.exprTyId type)) (some type) := by
  have read : Answers T.header.readExprTy (writeU32 (T.exprTyId type))
      T.exprTyTable[(T.exprTyId type).toNat]? := (answers_readU32 _).bind_ofOption
  rwa [Tables.exprTyId, getElem?_ofNat_idOf mem small.exprTys.le] at read

theorem VecWidth.ofNat?_val (width : VecWidth) :
    VecWidth.ofNat? (UInt8.ofNat width.val).toNat = some width := by
  have same : (UInt8.ofNat width.val).toNat = width.val :=
    UInt8.toNat_ofNat_of_lt' (width.2.2.trans (by decide))
  rw [same, VecWidth.ofNat?, dif_pos width.2]

end Bistra

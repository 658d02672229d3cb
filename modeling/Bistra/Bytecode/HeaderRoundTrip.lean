import Bistra.Bytecode.FinalTables

/-! # Reading the header back

The reader inserts the entries of the header one by one.  The tables of the writer have no entry
twice, so the insertion gives the same tables.
-/

namespace Bistra

open Codec (Answers Reader writeU32 readU32 readU8 answers_readU32 answers_readU8 iterate ofOption)

/-! ## Strings -/

/-- The bytes of a string that is short enough. -/
def strBytes (str : String) : List UInt8 :=
  UInt8.ofNat str.toUTF8.data.toList.length :: str.toUTF8.data.toList

/-- The length of a string fits into a byte. -/
def ShortString (str : String) : Prop := str.toUTF8.data.toList.length < 256

instance (str : String) : Decidable (ShortString str) := Nat.decLt _ _

theorem writeStr_of_short {str : String} (short : ShortString str) :
    writeStr str = some (strBytes str) := if_pos short

theorem fromUTF8?_toUTF8 (str : String) :
    String.fromUTF8? ⟨str.toUTF8.data.toList.toArray⟩ = some str := by
  rw [Array.toArray_toList]
  exact dif_pos str.isValidUTF8

theorem answers_readStr {str : String} (short : ShortString str) :
    Answers readStr (strBytes str) (some str) := by
  apply Answers.bind_some (answers_readU8 _)
  intro rest
  have length : (UInt8.ofNat str.toUTF8.data.toList.length).toNat = str.toUTF8.data.toList.length :=
    UInt8.toNat_ofNat_of_lt' short
  show (if (str.toUTF8.data.toList ++ rest).length < _ then none else _) = _
  rw [length, if_neg (by rw [List.length_append]; omega), List.take_left, List.drop_left,
    fromUTF8?_toUTF8]

theorem mapM_writeStr : ∀ {table : List String}, (∀ str ∈ table, ShortString str) →
    table.mapM writeStr = some (table.map strBytes)
  | [], _ => rfl
  | str :: table, short => by
    rw [List.forall_mem_cons] at short
    rw [List.mapM_cons, writeStr_of_short short.1, mapM_writeStr short.2]
    rfl

/-! ## Types -/

theorem ElemKind.ofCode_code (kind : ElemKind) : ElemKind.ofCode kind.code = some kind := by
  cases kind <;> rfl

def exprTyBytes (type : ExprType) : List UInt8 :=
  [type.elementType.code, UInt8.ofNat type.width.val]

/-- The header after an entry has been added. -/
def BytecodeHeader.insertString (BH : BytecodeHeader) (str : String) : BytecodeHeader :=
  { BH with stringTable := (IdTable.getIdFor (fun a b => decide (a = b)) BH.stringTable str).2 }

def BytecodeHeader.insertExprTy (BH : BytecodeHeader) (type : ExprType) : BytecodeHeader :=
  { BH with exprTyTable := (IdTable.getIdFor (fun a b => decide (a = b)) BH.exprTyTable type).2 }

def BytecodeHeader.insertTensorType (BH : BytecodeHeader) (type : TensorType) : BytecodeHeader :=
  { BH with tensorTypeTable := (IdTable.getIdFor TensorType.isEqual BH.tensorTypeTable type).2 }

theorem answers_addString (BH : BytecodeHeader) {str : String} (short : ShortString str) :
    Answers BH.addString (strBytes str) (some (BH.insertString str)) :=
  Answers.bind_some_nil (answers_readStr short) (Answers.pure _)

theorem answers_addExprTy (BH : BytecodeHeader) (type : ExprType) :
    Answers BH.addExprTy (exprTyBytes type) (some (BH.insertExprTy type)) := by
  apply Answers.bind_some (answers_readU8 type.elementType.code)
  apply Answers.bind_some_nil (answers_readU8 _)
  apply Answers.ofOption_bind (ElemKind.ofCode_code _)
  apply Answers.ofOption_bind (VecWidth.ofNat?_val _)
  exact Answers.pure _

theorem readString_congr {BH BH' : BytecodeHeader} (same : BH.stringTable = BH'.stringTable) :
    BH.readString = BH'.readString := by
  rw [BytecodeHeader.readString, BytecodeHeader.readString, same]

theorem foldl_concat {α β : Type} (f : α → β) (xs : List α) :
    xs.foldl (fun ys x => ys ++ [f x]) [] = xs.map f := by
  suffices ∀ ys : List β, xs.foldl (fun ys x => ys ++ [f x]) ys = ys ++ xs.map f from this []
  induction xs with
  | nil => simp
  | cons x xs ih => simp [ih]

theorem TensorType.ofDims_zip (type : TensorType) :
    TensorType.ofDims type.elementType (type.sizes.zip type.names) = type := by
  obtain ⟨sizes, names, elementType, namesLength⟩ := type
  simp only [TensorType.ofDims, TensorType.mk.injEq, and_true]
  exact ⟨List.map_fst_zip namesLength.ge, List.map_snd_zip namesLength.le⟩

theorem answers_addTensorType {T : Tables} (small : T.Small) {BH : BytecodeHeader}
    (strings : BH.stringTable = T.stringTable) {type : TensorType} (dims : type.getNumDims < 256)
    (known : ∀ name ∈ type.names, name ∈ T.stringTable) :
    Answers BH.addTensorType (T.writeType type) (some (BH.insertTensorType type)) := by
  have each : ∀ dim ∈ type.sizes.zip type.names, ∀ dims, True →
      Answers (BH.addDim dims) (T.writeDim dim) (some (dims ++ [dim])) := by
    intro dim mem dims _
    have read := answers_readString small (known dim.2 (List.of_mem_zip mem).2)
    rw [← readString_congr (show BH.stringTable = T.header.stringTable from strings)] at read
    apply Answers.bind_some (answers_readU32 _)
    exact Answers.bind_some_nil read (Answers.pure _)
  have all := Codec.answers_fold (fun _ => True) (fun _ _ _ => trivial) each [] trivial
  have length : (type.sizes.zip type.names).length = type.getNumDims := by
    rw [List.length_zip, type.namesLength, Nat.min_self, TensorType.getNumDims]
  have numDims : (UInt8.ofNat type.getNumDims).toNat = type.getNumDims :=
    UInt8.toNat_ofNat_of_lt' dims
  rw [length, foldl_concat fun dim => dim, List.map_id'] at all
  apply Answers.bind_some (answers_readU8 type.elementType.code)
  apply Answers.bind_some (answers_readU8 _)
  rw [numDims]
  apply Answers.bind_some_nil all
  apply Answers.ofOption_bind (ElemKind.ofCode_code _)
  rw [TensorType.ofDims_zip]
  exact Answers.pure _

/-! ## The header -/

/-- The tables have no entry twice. -/
structure Tables.Distinct (T : Tables) : Prop where
  strings : IdTable.Separated (fun a b => decide (a = b)) T.stringTable
  exprTys : IdTable.Separated (fun a b => decide (a = b)) T.exprTyTable
  tensorTypes : IdTable.Separated TensorType.isEqual T.tensorTypeTable

/-- What the format of the header requires of the tables. -/
structure Tables.Writable (T : Tables) : Prop where
  short : ∀ str ∈ T.stringTable, ShortString str
  dims : ∀ type ∈ T.tensorTypeTable, type.getNumDims < 256
  names : ∀ type ∈ T.tensorTypeTable, ∀ name ∈ type.names, name ∈ T.stringTable

def Tables.headerBytes (T : Tables) : List UInt8 :=
  writeU32 0x03070102 ++ (writeId T.stringTable.length ++ (T.stringTable.flatMap strBytes ++
    (writeId T.exprTyTable.length ++ (T.exprTyTable.flatMap exprTyBytes ++
      (writeId T.tensorTypeTable.length ++ T.tensorTypeTable.flatMap T.writeType)))))

theorem Tables.serializeHeader_eq {T : Tables} (short : ∀ str ∈ T.stringTable, ShortString str) :
    T.serializeHeader = some T.headerBytes := by
  rw [Tables.serializeHeader, mapM_writeStr short, Option.map_some, Tables.headerBytes,
    ← List.flatMap_def]
  simp only [List.append_assoc]
  rfl

section Fold

variable (BH : BytecodeHeader)

theorem foldl_insertString (table : List String) : table.foldl BytecodeHeader.insertString BH =
    { BH with stringTable := table.foldl (fun t str =>
        (IdTable.getIdFor (fun a b => decide (a = b)) t str).2) BH.stringTable } := by
  induction table generalizing BH with
  | nil => rfl
  | cons str table ih => rw [List.foldl_cons, ih, List.foldl_cons, BytecodeHeader.insertString]

theorem foldl_insertExprTy (table : List ExprType) :
    table.foldl BytecodeHeader.insertExprTy BH =
      { BH with exprTyTable := table.foldl (fun t type =>
          (IdTable.getIdFor (fun a b => decide (a = b)) t type).2) BH.exprTyTable } := by
  induction table generalizing BH with
  | nil => rfl
  | cons type table ih => rw [List.foldl_cons, ih, List.foldl_cons, BytecodeHeader.insertExprTy]

theorem foldl_insertTensorType (table : List TensorType) :
    table.foldl BytecodeHeader.insertTensorType BH =
      { BH with tensorTypeTable := table.foldl (fun t type =>
          (IdTable.getIdFor TensorType.isEqual t type).2) BH.tensorTypeTable } := by
  induction table generalizing BH with
  | nil => rfl
  | cons type table ih =>
    rw [List.foldl_cons, ih, List.foldl_cons, BytecodeHeader.insertTensorType]

end Fold

theorem answers_deserializeHeader {T : Tables} (small : T.Small) (distinct : T.Distinct)
    (writable : T.Writable) : Answers deserializeHeader T.headerBytes (some T.header) := by
  have count : ∀ {α : Type} {table : List α}, table.length < 2 ^ 32 →
      (UInt32.ofNat table.length).toNat = table.length := UInt32.toNat_ofNat_of_lt'
  have strings := Codec.answers_fold (fun _ => True) (fun _ _ _ => trivial)
    (fun str mem BH _ => answers_addString BH (writable.short str mem)) ⟨[], [], []⟩ trivial
  have exprTys : ∀ BH : BytecodeHeader,
      Answers (iterate BytecodeHeader.addExprTy T.exprTyTable.length BH)
        (T.exprTyTable.flatMap exprTyBytes)
        (some (T.exprTyTable.foldl BytecodeHeader.insertExprTy BH)) := fun BH =>
    Codec.answers_fold (fun _ => True) (fun _ _ _ => trivial)
      (fun type _ BH _ => answers_addExprTy BH type) BH trivial
  have tensorTypes : ∀ BH : BytecodeHeader, BH.stringTable = T.stringTable →
      Answers (iterate BytecodeHeader.addTensorType T.tensorTypeTable.length BH)
        (T.tensorTypeTable.flatMap T.writeType)
        (some (T.tensorTypeTable.foldl BytecodeHeader.insertTensorType BH)) := fun BH same =>
    -- The names are looked up in the strings, which are complete.
    Codec.answers_fold (fun BH => BH.stringTable = T.stringTable) (fun BH type same =>
      show (BH.insertTensorType type).stringTable = T.stringTable from same)
      (fun type mem BH same =>
        answers_addTensorType small same (writable.dims type mem) (writable.names type mem)) BH same
  rw [foldl_insertString, IdTable.foldl_getIdFor distinct.strings] at strings
  apply Answers.bind_some (answers_readU32 _)
  apply Answers.ofOption_bind (if_pos rfl)
  apply Answers.bind_some (answers_readU32 _)
  rw [count small.strings]
  apply Answers.bind_some strings
  apply Answers.bind_some (answers_readU32 _)
  rw [count small.exprTys]
  apply Answers.bind_some (exprTys _)
  rw [foldl_insertExprTy, IdTable.foldl_getIdFor distinct.exprTys]
  apply Answers.bind_some (answers_readU32 _)
  rw [count small.tensorTypes]
  have read := tensorTypes ⟨T.stringTable, T.exprTyTable, []⟩ rfl
  rw [foldl_insertTensorType, IdTable.foldl_getIdFor distinct.tensorTypes] at read
  exact read

end Bistra

import Bistra.Program.Verify

/-! # Constructors

The assertions of the constructors of `Program.h`, and `Expr.rebuild`, which puts an expression
together again from new leaves.  Cloning and reading bytecode are both of this form.
-/

namespace Bistra

variable {F : Type}

/-! ## Constructors with assertions -/

/-- `BinaryExpr(LHS, RHS, kind, loc)`. -/
def Expr.mkBinary (kind : BinOpKind) (lhs rhs : Expr F) : Option (Expr F) :=
  if lhs.getType = rhs.getType then some (.binary kind lhs rhs) else none

/-- `BroadcastExpr(val, vf)`: `asVector` asserts that the value is no vector. -/
def Expr.mkBroadcast (val : Expr F) (vf : VecWidth) : Option (Expr F) :=
  if val.getType.isVector then none else some (.broadcast val vf)

/-- The assertions of `GEPExpr(arg, indices, loc)`. -/
def Decls.allowsGEP (decls : Decls) (arg : ArgId) (indices : List (Expr F)) : Bool :=
  indices.all (fun e => e.getType.isIndexTy) &&
    (decls.args[arg]?).any fun decl => decl.type.getNumDims = indices.length

/-- `GEPExpr(arg, indices, loc)`. -/
def Decls.mkGEP (decls : Decls) (arg : ArgId) (indices : List (Expr F)) : Option (Expr F) :=
  if decls.allowsGEP arg indices then some (.gep arg indices) else none

/-- `LoadExpr(gep, elemTy, loc)`. -/
def Expr.mkLoad (gep : Expr F) (elemTy : ExprType) : Option (Expr F) :=
  match gep with
  | .gep arg indices => some (.load arg indices elemTy)
  | _ => none

/-- `LoadLocalExpr(var, loc)`: the type is that of the variable. -/
def Decls.mkLoadLocal (decls : Decls) (var : VarId) : Option (Expr F) :=
  (decls.vars[var]?).map fun decl => .loadLocal var decl.type

/-- `StoreStmt(gep, value, accumulate, loc)`. -/
def Stmt.mkStore (gep value : Expr F) (accumulate : Bool) : Option (Stmt F) :=
  match gep with
  | .gep arg indices => some (.store arg indices value accumulate)
  | _ => none

/-- `StoreLocalStmt(var, value, accumulate, loc)`. -/
def Decls.mkStoreLocal (decls : Decls) (var : VarId) (value : Expr F) (accumulate : Bool) :
    Option (Stmt F) :=
  if (decls.vars[var]?).any fun decl => value.getType = decl.type then
    some (.storeLocal var value accumulate)
  else none

theorem Expr.mkBinary_eq_some {kind : BinOpKind} {lhs rhs e : Expr F} :
    Expr.mkBinary kind lhs rhs = some e ↔
      lhs.getType = rhs.getType ∧ Expr.binary kind lhs rhs = e := by
  simp [Expr.mkBinary]

theorem Expr.mkBroadcast_eq_some {val e : Expr F} {vf : VecWidth} :
    Expr.mkBroadcast val vf = some e ↔ val.getType.isVector = false ∧ Expr.broadcast val vf = e := by
  simp [Expr.mkBroadcast]

theorem Decls.mkGEP_eq_some {decls : Decls} {arg : ArgId} {indices : List (Expr F)} {e : Expr F} :
    decls.mkGEP arg indices = some e ↔
      decls.allowsGEP arg indices = true ∧ Expr.gep arg indices = e := by
  simp [Decls.mkGEP]

theorem Decls.allowsGEP_of_verify {decls : Decls} {scope : List LoopId} {arg : ArgId}
    {indices : List (Expr F)} {kind : Option ElemKind}
    (verified : Expr.verifyIndices decls scope indices = true)
    (access : decls.verifyAccess arg indices.length kind = true) :
    decls.allowsGEP arg indices = true := by
  simp only [Expr.verifyIndices_eq, List.all_eq_true, Bool.and_eq_true] at verified
  simp only [Decls.verifyAccess] at access
  split at access
  next decl known =>
    simp only [Bool.and_eq_true, decide_eq_true_eq] at access
    simp only [Decls.allowsGEP, Bool.and_eq_true, List.all_eq_true, known, Option.any_some,
      decide_eq_true_eq]
    exact ⟨fun e mem => (verified e mem).2, access.1.2⟩
  next => cases access

/-! ## Leaves of expressions -/

mutual

/-- The leaves of an expression: the nodes without operands. -/
def Expr.atoms : Expr F → List (Expr F)
  | .binary _ lhs rhs => lhs.atoms ++ rhs.atoms
  | .unary _ val => val.atoms
  | .broadcast val _ => val.atoms
  | .gep _ indices => Expr.atomsList indices
  | .load _ indices _ => Expr.atomsList indices
  | e => [e]

def Expr.atomsList : List (Expr F) → List (Expr F)
  | [] => []
  | e :: es => e.atoms ++ Expr.atomsList es

end

@[simp] theorem Expr.atomsList_eq (es : List (Expr F)) :
    Expr.atomsList es = es.flatMap Expr.atoms := by
  induction es with
  | nil => rfl
  | cons e es ih => simp [Expr.atomsList, ih]

mutual

/-- Replaces the leaves of an expression. -/
def Expr.mapAtoms (f : Expr F → Expr F) : Expr F → Expr F
  | .binary kind lhs rhs => .binary kind (lhs.mapAtoms f) (rhs.mapAtoms f)
  | .unary kind val => .unary kind (val.mapAtoms f)
  | .broadcast val vf => .broadcast (val.mapAtoms f) vf
  | .gep arg indices => .gep arg (Expr.mapAtomsList f indices)
  | .load arg indices type => .load arg (Expr.mapAtomsList f indices) type
  | e => f e

def Expr.mapAtomsList (f : Expr F → Expr F) : List (Expr F) → List (Expr F)
  | [] => []
  | e :: es => e.mapAtoms f :: Expr.mapAtomsList f es

end

@[simp] theorem Expr.mapAtomsList_eq (f : Expr F → Expr F) (es : List (Expr F)) :
    Expr.mapAtomsList f es = es.map (Expr.mapAtoms f) := by
  induction es with
  | nil => rfl
  | cons e es ih => simp [Expr.mapAtomsList, ih]

theorem Expr.mapAtoms_inj {f g : Expr F → Expr F} {e : Expr F} :
    e.mapAtoms f = e.mapAtoms g ↔ ∀ a ∈ e.atoms, f a = g a := by
  induction e using Expr.inductTree with
  | index | const | constFP | constString | loadLocal => simp [Expr.mapAtoms, Expr.atoms]
  | binary kind lhs rhs ihL ihR =>
    simp [Expr.mapAtoms, Expr.atoms, ihL, ihR, or_imp, forall_and]
  | unary kind val ih => simp [Expr.mapAtoms, Expr.atoms, ih]
  | broadcast val vf ih => simp [Expr.mapAtoms, Expr.atoms, ih]
  | gep arg indices ih | load arg indices type ih =>
    simp only [Expr.mapAtoms, Expr.mapAtomsList_eq, Expr.atoms, Expr.atomsList_eq,
      List.mem_flatMap, Expr.gep.injEq, Expr.load.injEq, true_and, and_true, List.map_inj_left]
    constructor
    · rintro same a ⟨e, mem, memA⟩
      exact (ih e mem).mp (same e mem) a memA
    · intro same e mem
      exact (ih e mem).mpr fun a memA => same a ⟨e, mem, memA⟩

theorem Expr.mapIndex_eq_mapAtoms (f : LoopId → ExprType → Expr F) (e : Expr F) :
    e.mapIndex f = e.mapAtoms fun
      | .index loop type => f loop type
      | a => a := by
  induction e using Expr.inductTree with
  | index | const | constFP | constString | loadLocal => rfl
  | binary kind lhs rhs ihL ihR => rw [Expr.mapIndex, Expr.mapAtoms, ihL, ihR]
  | unary kind val ih => rw [Expr.mapIndex, Expr.mapAtoms, ih]
  | broadcast val vf ih => rw [Expr.mapIndex, Expr.mapAtoms, ih]
  | gep arg indices ih | load arg indices type ih =>
    rw [Expr.mapIndex, Expr.mapAtoms, Expr.mapIndexList_eq, Expr.mapAtomsList_eq,
      List.map_congr_left ih]

theorem Expr.mem_collectIndices_of_mem_atoms {e : Expr F} {loop : LoopId} {type : ExprType}
    (mem : .index loop type ∈ e.atoms) : (loop, type) ∈ e.collectIndices := by
  induction e using Expr.inductTree with
  | index => simpa [Expr.atoms, Expr.collectIndices] using mem
  | const | constFP | constString | loadLocal => simp [Expr.atoms] at mem
  | binary kind lhs rhs ihL ihR =>
    rw [Expr.atoms, List.mem_append] at mem
    rw [Expr.collectIndices, List.mem_append]
    exact mem.imp ihL ihR
  | unary kind val ih => exact ih mem
  | broadcast val vf ih => exact ih mem
  | gep arg indices ih | load arg indices loadType ih =>
    rw [Expr.atoms, Expr.atomsList_eq, List.mem_flatMap] at mem
    rw [Expr.collectIndices, Expr.collectIndicesList_eq, List.mem_flatMap]
    obtain ⟨e, memE, memI⟩ := mem
    exact ⟨e, memE, ih e memE memI⟩

/-! ## Rebuilding -/

mutual

/-- Calls the constructors of an expression again, with new leaves; `none` is a failed
assertion. -/
def Expr.rebuild (decls : Decls) (atom : Expr F → Option (Expr F)) : Expr F → Option (Expr F)
  | .binary kind lhs rhs =>
    (lhs.rebuild decls atom).bind fun lhs =>
      (rhs.rebuild decls atom).bind fun rhs => Expr.mkBinary kind lhs rhs
  | .unary kind val => (val.rebuild decls atom).map (.unary kind)
  | .broadcast val vf => (val.rebuild decls atom).bind fun val => Expr.mkBroadcast val vf
  | .gep arg indices => (Expr.rebuildList decls atom indices).bind (decls.mkGEP arg)
  | .load arg indices type =>
    ((Expr.rebuildList decls atom indices).bind (decls.mkGEP arg)).bind fun gep =>
      Expr.mkLoad gep type
  | e => atom e

def Expr.rebuildList (decls : Decls) (atom : Expr F → Option (Expr F)) :
    List (Expr F) → Option (List (Expr F))
  | [] => some []
  | e :: es =>
    (e.rebuild decls atom).bind fun e => (Expr.rebuildList decls atom es).map (e :: ·)

end

/-- Lists are rebuilt element by element. -/
theorem Expr.rebuildList_eq_some {decls : Decls} {atom : Expr F → Option (Expr F)} :
    ∀ {es es' : List (Expr F)}, Expr.rebuildList decls atom es = some es' ↔
      es.map (Expr.rebuild decls atom) = es'.map some
  | [], es' => by cases es' <;> simp [Expr.rebuildList]
  | e :: es, [] => by
    simp only [Expr.rebuildList, Option.bind_eq_some_iff, Option.map_eq_some_iff]
    simp
  | e :: es, e' :: es' => by
    simp only [Expr.rebuildList, Option.bind_eq_some_iff, Option.map_eq_some_iff, List.cons.injEq,
      List.map_cons, Expr.rebuildList_eq_some]
    constructor
    · rintro ⟨_, rebuilt, _, rest, rfl, rfl⟩
      exact ⟨rebuilt, rest⟩
    · rintro ⟨rebuilt, rest⟩
      exact ⟨e', rebuilt, es', rest, rfl, rfl⟩

theorem Expr.rebuildList_eq_map {decls : Decls} {atom : Expr F → Option (Expr F)}
    {f : Expr F → Expr F} {es : List (Expr F)}
    (each : ∀ e ∈ es, e.rebuild decls atom = some (f e)) :
    Expr.rebuildList decls atom es = some (es.map f) := by
  rw [Expr.rebuildList_eq_some, List.map_map]
  exact List.map_congr_left each

theorem Expr.rebuildList_of_eq_some {decls : Decls} {atom : Expr F → Option (Expr F)}
    {f : Expr F → Expr F} {es es' : List (Expr F)}
    (each : ∀ e ∈ es, ∀ e', e.rebuild decls atom = some e' → e' = f e)
    (rebuilt : Expr.rebuildList decls atom es = some es') : es' = es.map f := by
  rw [Expr.rebuildList_eq_some] at rebuilt
  induction es generalizing es' with
  | nil =>
    rw [List.map_nil, eq_comm, List.map_eq_nil_iff] at rebuilt
    rw [rebuilt, List.map_nil]
  | cons e es ih =>
    cases es' with
    | nil => cases rebuilt
    | cons e' es' =>
      rw [List.map_cons, List.map_cons, List.cons.injEq] at rebuilt
      rw [List.map_cons, each e List.mem_cons_self e' rebuilt.1,
        ih (fun e mem => each e (List.mem_cons_of_mem _ mem)) rebuilt.2]

theorem Expr.eq_mapAtoms_of_rebuild {decls : Decls} {atom : Expr F → Option (Expr F)}
    {f : Expr F → Expr F} {e e' : Expr F} (leaf : ∀ a ∈ e.atoms, ∀ a', atom a = some a' → a' = f a)
    (rebuilt : e.rebuild decls atom = some e') : e' = e.mapAtoms f := by
  induction e using Expr.inductTree generalizing e' with
  | index | const | constFP | constString | loadLocal =>
    exact leaf _ (by simp [Expr.atoms]) e' rebuilt
  | binary kind lhs rhs ihL ihR =>
    rw [Expr.atoms] at leaf
    obtain ⟨lhs', rebuiltL, rebuilt⟩ := Option.bind_eq_some_iff.mp rebuilt
    obtain ⟨rhs', rebuiltR, rebuilt⟩ := Option.bind_eq_some_iff.mp rebuilt
    obtain ⟨-, rfl⟩ := Expr.mkBinary_eq_some.mp rebuilt
    rw [Expr.mapAtoms, ihL (fun a mem => leaf a (List.mem_append_left _ mem)) rebuiltL,
      ihR (fun a mem => leaf a (List.mem_append_right _ mem)) rebuiltR]
  | unary kind val ih =>
    obtain ⟨val', rebuiltVal, rfl⟩ := Option.map_eq_some_iff.mp rebuilt
    rw [Expr.mapAtoms, ih leaf rebuiltVal]
  | broadcast val vf ih =>
    obtain ⟨val', rebuiltVal, built⟩ := Option.bind_eq_some_iff.mp rebuilt
    obtain ⟨-, rfl⟩ := Expr.mkBroadcast_eq_some.mp built
    rw [Expr.mapAtoms, ih leaf rebuiltVal]
  | gep arg indices ih =>
    rw [Expr.atoms, Expr.atomsList_eq] at leaf
    obtain ⟨indices', rebuiltList, built⟩ := Option.bind_eq_some_iff.mp rebuilt
    obtain ⟨-, rfl⟩ := Decls.mkGEP_eq_some.mp built
    rw [Expr.mapAtoms, Expr.mapAtomsList_eq, Expr.rebuildList_of_eq_some (fun e mem e' =>
      ih e mem fun a memA => leaf a (List.mem_flatMap.mpr ⟨e, mem, memA⟩)) rebuiltList]
  | load arg indices type ih =>
    rw [Expr.atoms, Expr.atomsList_eq] at leaf
    obtain ⟨gep, rebuiltGEP, built⟩ := Option.bind_eq_some_iff.mp rebuilt
    obtain ⟨indices', rebuiltList, builtGEP⟩ := Option.bind_eq_some_iff.mp rebuiltGEP
    obtain ⟨-, rfl⟩ := Decls.mkGEP_eq_some.mp builtGEP
    cases built
    rw [Expr.mapAtoms, Expr.mapAtomsList_eq, Expr.rebuildList_of_eq_some (fun e mem e' =>
      ih e mem fun a memA => leaf a (List.mem_flatMap.mpr ⟨e, mem, memA⟩)) rebuiltList]

theorem Expr.rebuild_of_verify {decls : Decls} {scope : List LoopId}
    {atom : Expr F → Option (Expr F)} {f : Expr F → Expr F} {e : Expr F}
    (leaf : ∀ a ∈ e.atoms, atom a = some (f a))
    (verified : (e.mapAtoms f).verify decls scope = true) :
    e.rebuild decls atom = some (e.mapAtoms f) := by
  induction e using Expr.inductTree with
  | index | const | constFP | constString | loadLocal => exact leaf _ (by simp [Expr.atoms])
  | binary kind lhs rhs ihL ihR =>
    rw [Expr.atoms] at leaf
    simp only [Expr.mapAtoms, Expr.verify, Bool.and_eq_true, decide_eq_true_eq] at verified
    rw [Expr.rebuild, ihL (fun a mem => leaf a (List.mem_append_left _ mem)) verified.1.2,
      Option.bind_some, ihR (fun a mem => leaf a (List.mem_append_right _ mem)) verified.2,
      Option.bind_some, Expr.mapAtoms]
    exact if_pos verified.1.1
  | unary kind val ih => rw [Expr.rebuild, ih leaf verified, Option.map_some, Expr.mapAtoms]
  | broadcast val vf ih =>
    simp only [Expr.mapAtoms, Expr.verify, Bool.and_eq_true, Bool.not_eq_true'] at verified
    rw [Expr.rebuild, ih leaf verified.1, Option.bind_some, Expr.mapAtoms,
      Expr.mkBroadcast_eq_some]
    exact ⟨verified.2, rfl⟩
  | gep arg indices ih | load arg indices type ih =>
    rw [Expr.atoms, Expr.atomsList_eq] at leaf
    simp only [Expr.mapAtoms, Expr.mapAtomsList_eq, Expr.verify, Bool.and_eq_true] at verified
    have allowed := Decls.allowsGEP_of_verify verified.1 verified.2
    simp only [Expr.verifyIndices_eq, List.all_eq_true, List.mem_map, forall_exists_index, and_imp,
      forall_apply_eq_imp_iff₂, Bool.and_eq_true] at verified
    have rebuilt := Expr.rebuildList_eq_map (fun e mem =>
      ih e mem (fun a memA => leaf a (List.mem_flatMap.mpr ⟨e, mem, memA⟩)) (verified.1 e mem).1)
    simp only [Expr.rebuild, rebuilt, Option.bind_some, Expr.mapAtoms, Expr.mapAtomsList_eq,
      Decls.mkGEP, if_pos allowed, Expr.mkLoad]

end Bistra

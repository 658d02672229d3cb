import Mathlib.Data.List.Nodup
import Bistra.Program.Traversal

/-! # `Program::verify`

The checks of the `verify` methods.  `scope` holds the loops around a node, which is where
`IndexExpr::verify` looks for the loop of an index.  `EH.verify()` asserts that every node
is owned by the handle that refers to it, so no loop occurs twice in the tree.
-/

namespace Bistra

variable {F : Type}

def isLegalName (name : String) : Bool :=
  name.toList.all fun c => c.isAlphanum || c = '_'

/-- The declarations that expressions refer to. -/
structure Decls where
  args : List Argument
  vars : List LocalVar

def Program.decls (p : Program F) : Decls := ⟨p.args, p.vars⟩

/-- `prog->getVar(var->getName()) == var`. -/
def Decls.isUniqued (decls : Decls) (var : VarId) (decl : LocalVar) : Bool :=
  decls.vars.findIdx? (fun other => other.name = decl.name) = some var

/-- The declaration of a local variable, if the checks of `LoadLocalExpr::verify` and
`StoreLocalStmt::verify` on the variable and the accessed type hold. -/
def Decls.verifyLocal (decls : Decls) (var : VarId) (type : ExprType) : Bool :=
  match decls.vars[var]? with
  | some decl => decls.isUniqued var decl && decide (type = decl.type)
  | none => false

/-- The checks of `GEPExpr::verify` on the buffer and of `LoadExpr::verify` and
`StoreStmt::verify` on the element kind. -/
def Decls.verifyAccess (decls : Decls) (arg : ArgId) (numIndices : Nat)
    (kind : Option ElemKind) : Bool :=
  match decls.args[arg]? with
  | some decl => decide (numIndices ≠ 0) && decide (decl.type.getNumDims = numIndices) &&
      kind.all fun kind => decide (kind = decl.type.elementType)
  | none => false

mutual

def Expr.verify (decls : Decls) (scope : List LoopId) : Expr F → Bool
  | .index loop type => type.isIndexTy && decide (loop ∈ scope)
  | .const _ | .constFP _ | .constString _ => true
  | .binary _ lhs rhs =>
    decide (lhs.getType = rhs.getType) && lhs.verify decls scope && rhs.verify decls scope
  | .unary _ val => val.verify decls scope
  | .broadcast val _ => val.verify decls scope && !val.getType.isVector
  | .gep arg indices =>
    Expr.verifyIndices decls scope indices && decls.verifyAccess arg indices.length none
  | .load arg indices type =>
    Expr.verifyIndices decls scope indices &&
      decls.verifyAccess arg indices.length (some type.elementType)
  | .loadLocal var type => decls.verifyLocal var type

/-- The checks of `GEPExpr::verify` on its subscripts. -/
def Expr.verifyIndices (decls : Decls) (scope : List LoopId) : List (Expr F) → Bool
  | [] => true
  | e :: es => e.verify decls scope && e.getType.isIndexTy && Expr.verifyIndices decls scope es

end

@[simp] theorem Expr.verifyIndices_eq (decls : Decls) (scope : List LoopId)
    (indices : List (Expr F)) :
    Expr.verifyIndices decls scope indices =
      indices.all fun e => e.verify decls scope && e.getType.isIndexTy := by
  induction indices with
  | nil => rfl
  | cons e es ih => simp [Expr.verifyIndices, ih]

/-- The checks of `Loop::verify` on its own fields. -/
def Loop.verify (header : Loop) : Bool :=
  decide (0 < header.end_) && decide (header.end_ % header.stride = 0) &&
    decide (0 < header.stride) && decide (header.stride < 1024) && isLegalName header.name

mutual

def Stmt.verify (decls : Decls) (scope : List LoopId) : Stmt F → Bool
  | .loop header body => header.verify && Stmt.verifyBody decls (header.id :: scope) body
  | .ifRange val start end_ body =>
    decide (start ≤ end_) && val.verify decls scope && Stmt.verifyBody decls scope body
  | .call _ params => params.all fun e => e.verify decls scope && e.getType.isIndexTy
  | .store arg indices value _ =>
    Expr.verifyIndices decls scope indices &&
      decls.verifyAccess arg indices.length (some value.getType.elementType) &&
      value.verify decls scope
  | .storeLocal var value _ =>
    decls.verifyLocal var value.getType && value.verify decls scope

/-- `Scope::verify`. -/
def Stmt.verifyBody (decls : Decls) (scope : List LoopId) : List (Stmt F) → Bool
  | [] => true
  | s :: rest => s.verify decls scope && Stmt.verifyBody decls scope rest

end

@[simp] theorem Stmt.verifyBody_eq (decls : Decls) (scope : List LoopId)
    (body : List (Stmt F)) :
    Stmt.verifyBody decls scope body = body.all fun s => s.verify decls scope := by
  induction body with
  | nil => rfl
  | cons s rest ih => simp [Stmt.verifyBody, ih]

def Program.verify (p : Program F) : Bool :=
  p.args.all (fun arg => isLegalName arg.name) && p.vars.all (fun var => isLegalName var.name) &&
    isLegalName p.name && Stmt.verifyBody p.decls [] p.body && decide (Stmt.loopIds p.body).Nodup

/-! ## What verification says about indices and loops -/

theorem Expr.scoped_of_verify {decls : Decls} {scope : List LoopId} {e : Expr F}
    (verified : e.verify decls scope = true) :
    ∀ index ∈ e.collectIndices, index.1 ∈ scope ∧ index.2.isIndexTy = true := by
  induction e using Expr.inductTree with
  | index loop type =>
    simp only [Expr.verify, Bool.and_eq_true, decide_eq_true_eq] at verified
    simpa [Expr.collectIndices] using ⟨verified.2, verified.1⟩
  | const | constFP | constString | loadLocal => simp [Expr.collectIndices]
  | binary kind lhs rhs ihL ihR =>
    simp only [Expr.verify, Bool.and_eq_true] at verified
    simp only [Expr.collectIndices, List.mem_append]
    rintro index (mem | mem)
    · exact ihL verified.1.2 index mem
    · exact ihR verified.2 index mem
  | unary kind val ih => exact ih verified
  | broadcast val vf ih =>
    simp only [Expr.verify, Bool.and_eq_true] at verified
    exact ih verified.1
  | gep arg indices ih | load arg indices type ih =>
    simp only [Expr.verify, Bool.and_eq_true, Expr.verifyIndices_eq, List.all_eq_true] at verified
    simp only [Expr.collectIndices, Expr.collectIndicesList_eq, List.mem_flatMap]
    rintro index ⟨e, mem, memIndex⟩
    exact ih e mem (verified.1 e mem).1 index memIndex

theorem Stmt.verify_roots {decls : Decls} {scope : List LoopId} {s : Stmt F}
    (verified : s.verify decls scope = true) : ∀ e ∈ s.roots, e.verify decls scope = true := by
  cases s with
  | loop header body => simp [Stmt.roots]
  | ifRange val start end_ body =>
    simp only [Stmt.verify, Bool.and_eq_true] at verified
    simpa [Stmt.roots] using verified.1.2
  | call name params =>
    simp only [Stmt.verify, List.all_eq_true, Bool.and_eq_true] at verified
    exact fun e mem => (verified e mem).1
  | store arg indices value accumulate =>
    simp only [Stmt.verify, Bool.and_eq_true, Expr.verifyIndices_eq, List.all_eq_true] at verified
    simp only [Stmt.roots, List.mem_append, List.mem_singleton]
    rintro e (mem | rfl)
    · exact (verified.1.1 e mem).1
    · exact verified.2
  | storeLocal var value accumulate =>
    simp only [Stmt.verify, Bool.and_eq_true] at verified
    simpa [Stmt.roots] using verified.2

theorem Expr.verify_loads {decls : Decls} {scope : List LoopId} {e : Expr F}
    (verified : e.verify decls scope = true) : ∀ access ∈ e.collectLoads,
      (Expr.load access.arg access.indices access.type).verify decls scope = true := by
  induction e using Expr.inductTree with
  | index | const | constFP | constString | loadLocal =>
    intro access mem
    cases mem
  | binary kind lhs rhs ihL ihR =>
    simp only [Expr.verify, Bool.and_eq_true] at verified
    intro access mem
    rcases List.mem_append.mp mem with left | right
    · exact ihL verified.1.2 access left
    · exact ihR verified.2 access right
  | unary kind val ih => exact ih verified
  | broadcast val vf ih =>
    simp only [Expr.verify, Bool.and_eq_true] at verified
    exact ih verified.1
  | gep arg indices ih =>
    simp only [Expr.verify, Bool.and_eq_true, Expr.verifyIndices_eq, List.all_eq_true] at verified
    intro access mem
    simp only [Expr.collectLoads, Expr.collectLoadsList_eq, List.mem_flatMap] at mem
    obtain ⟨e, memE, mem⟩ := mem
    exact ih e memE (verified.1 e memE).1 access mem
  | load arg indices type ih =>
    intro access mem
    simp only [Expr.collectLoads, Expr.collectLoadsList_eq, List.mem_cons, List.mem_flatMap] at mem
    rcases mem with rfl | ⟨e, memE, mem⟩
    · exact verified
    · simp only [Expr.verify, Bool.and_eq_true, Expr.verifyIndices_eq, List.all_eq_true] at verified
      exact ih e memE (verified.1 e memE).1 access mem

theorem Stmt.verify_accesses {decls : Decls} {scope : List LoopId} {s : Stmt F}
    (verified : s.verify decls scope = true) : ∀ access ∈ s.stores ++ s.loads,
      (Expr.load access.arg access.indices access.type).verify decls scope = true := by
  intro access mem
  rcases List.mem_append.mp mem with store | load
  · cases s with
    | loop | ifRange | call | storeLocal => cases store
    | store arg indices value accumulate =>
      rw [List.mem_singleton.mp store]
      simp only [Stmt.verify, Bool.and_eq_true] at verified
      simpa only [Expr.verify, Bool.and_eq_true] using verified.1
  · obtain ⟨e, memE, mem⟩ := List.mem_flatMap.mp load
    exact Expr.verify_loads (Stmt.verify_roots verified e memE) access mem

theorem Stmt.scoped_of_verify {decls : Decls} {s : Stmt F} : ∀ {scope : List LoopId},
    s.verify decls scope = true → ∀ e ∈ s.collectRoots, ∀ index ∈ e.collectIndices,
      (index.1 ∈ scope ∨ index.1 ∈ s.collectLoops.map (·.1.id)) ∧ index.2.isIndexTy = true := by
  induction s using Stmt.inductTree with
  | loop header body ih =>
    intro scope verified e memRoot index memIndex
    simp only [Stmt.verify, Bool.and_eq_true, Stmt.verifyBody_eq, List.all_eq_true] at verified
    simp only [Stmt.collectRoots_loop, List.mem_flatMap] at memRoot
    obtain ⟨s, mem, memRoot⟩ := memRoot
    obtain ⟨known, isIndex⟩ := ih s mem (verified.2 s mem) e memRoot index memIndex
    refine ⟨?_, isIndex⟩
    simp only [List.mem_cons, Stmt.collectLoops_loop, List.map_cons, List.mem_map,
      List.mem_flatMap] at known ⊢
    -- The loop of the index is this loop, one around it, or one below it.
    rcases known with (same | around) | ⟨loop, memLoop, same⟩
    · exact .inr (.inl same)
    · exact .inl around
    · exact .inr (.inr ⟨loop, ⟨s, mem, memLoop⟩, same⟩)
  | ifRange val start end_ body ih =>
    intro scope verified e memRoot index memIndex
    have owned := Stmt.verify_roots verified
    simp only [Stmt.verify, Bool.and_eq_true, Stmt.verifyBody_eq, List.all_eq_true] at verified
    simp only [Stmt.collectRoots_ifRange, List.mem_cons, List.mem_flatMap] at memRoot
    rcases memRoot with rfl | ⟨s, mem, memRoot⟩
    · obtain ⟨known, isIndex⟩ := Expr.scoped_of_verify (owned e (by simp [Stmt.roots])) index memIndex
      exact ⟨.inl known, isIndex⟩
    · obtain ⟨known, isIndex⟩ := ih s mem (verified.2 s mem) e memRoot index memIndex
      refine ⟨known.imp_right ?_, isIndex⟩
      simp only [Stmt.collectLoops_ifRange, List.mem_map, List.mem_flatMap]
      -- A range check adds no loop.
      rintro ⟨loop, memLoop, same⟩
      exact ⟨loop, ⟨s, mem, memLoop⟩, same⟩
  | call name params =>
    intro scope verified e memRoot index memIndex
    obtain ⟨known, isIndex⟩ := Expr.scoped_of_verify
      (Stmt.verify_roots verified e (by simpa [Stmt.roots] using memRoot)) index memIndex
    exact ⟨.inl known, isIndex⟩
  | store arg indices value accumulate =>
    intro scope verified e memRoot index memIndex
    obtain ⟨known, isIndex⟩ := Expr.scoped_of_verify
      (Stmt.verify_roots verified e (by simpa [Stmt.roots] using memRoot)) index memIndex
    exact ⟨.inl known, isIndex⟩
  | storeLocal var value accumulate =>
    intro scope verified e memRoot index memIndex
    obtain ⟨known, isIndex⟩ := Expr.scoped_of_verify
      (Stmt.verify_roots verified e (by simpa [Stmt.roots] using memRoot)) index memIndex
    exact ⟨.inl known, isIndex⟩

theorem Loop.verify_iff {header : Loop} : header.verify = true ↔
    0 < header.end_.toNat ∧ header.stride.toNat ∣ header.end_.toNat ∧ 0 < header.stride.toNat ∧
      header.stride.toNat < 1024 ∧ isLegalName header.name = true := by
  simp only [Loop.verify, Bool.and_eq_true, decide_eq_true_eq, UInt32.lt_iff_toNat_lt,
    ← UInt32.toNat_inj, UInt32.toNat_mod, UInt32.toNat_zero, and_assoc]
  rw [Nat.dvd_iff_mod_eq_zero]
  rfl

theorem Stmt.verify_loops {decls : Decls} {s : Stmt F} : ∀ {scope : List LoopId},
    s.verify decls scope = true → ∀ loop ∈ s.collectLoops, loop.1.verify = true := by
  induction s using Stmt.inductTree with
  | loop header body ih =>
    intro scope verified
    simp only [Stmt.verify, Bool.and_eq_true, Stmt.verifyBody_eq, List.all_eq_true] at verified
    simp only [Stmt.collectLoops_loop, List.mem_cons, List.mem_flatMap]
    rintro loop (rfl | ⟨s, mem, memLoop⟩)
    · exact verified.1
    · exact ih s mem (verified.2 s mem) loop memLoop
  | ifRange val start end_ body ih =>
    intro scope verified
    simp only [Stmt.verify, Bool.and_eq_true, Stmt.verifyBody_eq, List.all_eq_true] at verified
    simp only [Stmt.collectLoops_ifRange, List.mem_flatMap]
    rintro loop ⟨s, mem, memLoop⟩
    exact ih s mem (verified.2 s mem) loop memLoop
  | call | store | storeLocal => simp

theorem Stmt.verify_collectStmts {decls : Decls} {s t : Stmt F} : ∀ {scope : List LoopId},
    s.verify decls scope = true → t ∈ s.collectStmts →
      ∃ inner, t.verify decls inner = true := by
  induction s using Stmt.inductTree with
  | loop header body ih =>
    intro scope verified mem
    simp only [Stmt.collectStmts, Stmt.collectStmtsBody_eq, List.mem_cons, List.mem_flatMap] at mem
    rcases mem with rfl | ⟨s, memBody, mem⟩
    · exact ⟨scope, verified⟩
    · simp only [Stmt.verify, Bool.and_eq_true, Stmt.verifyBody_eq, List.all_eq_true] at verified
      exact ih s memBody (verified.2 s memBody) mem
  | ifRange val start end_ body ih =>
    intro scope verified mem
    simp only [Stmt.collectStmts, Stmt.collectStmtsBody_eq, List.mem_cons, List.mem_flatMap] at mem
    rcases mem with rfl | ⟨s, memBody, mem⟩
    · exact ⟨scope, verified⟩
    · simp only [Stmt.verify, Bool.and_eq_true, Stmt.verifyBody_eq, List.all_eq_true] at verified
      exact ih s memBody (verified.2 s memBody) mem
  | call | store | storeLocal =>
    intro scope verified mem
    rw [List.mem_singleton.mp mem]
    exact ⟨scope, verified⟩

section Program

variable {p : Program F}

theorem Program.verify_body (verified : p.verify = true) :
    ∀ s ∈ p.body, s.verify p.decls [] = true := by
  simp only [Program.verify, Bool.and_eq_true, Stmt.verifyBody_eq, List.all_eq_true] at verified
  exact verified.1.2

theorem Program.nodup_loopIds (verified : p.verify = true) : (Stmt.loopIds p.body).Nodup := by
  simp only [Program.verify, Bool.and_eq_true, decide_eq_true_eq] at verified
  exact verified.2

theorem Program.verify_loop (verified : p.verify = true) {loop : Loop × List (Stmt F)}
    (mem : loop ∈ p.collectLoops) : loop.1.verify = true := by
  obtain ⟨s, memBody, memLoop⟩ := List.mem_flatMap.mp mem
  exact Stmt.verify_loops (Program.verify_body verified s memBody) loop memLoop

theorem Program.index_mem_loopIds (verified : p.verify = true) {s : Stmt F} (mem : s ∈ p.body)
    {e : Expr F} (memRoot : e ∈ s.collectRoots) {index : LoopId × ExprType}
    (memIndex : index ∈ e.collectIndices) : index.1 ∈ Stmt.loopIds p.body := by
  have known := (Stmt.scoped_of_verify (Program.verify_body verified s mem) e memRoot index
    memIndex).1
  simp only [List.not_mem_nil, false_or, List.mem_map] at known
  obtain ⟨loop, memLoop, same⟩ := known
  simp only [Stmt.loopIds, Stmt.collectLoopsBody, List.mem_map, List.mem_flatMap]
  exact ⟨loop, ⟨s, mem, memLoop⟩, same⟩

theorem Program.collectLoops_sublist {loop : Loop × List (Stmt F)} (mem : loop ∈ p.collectLoops) :
    (loop :: Stmt.collectLoopsBody loop.2).Sublist p.collectLoops := by
  obtain ⟨s, memBody, memLoop⟩ := List.mem_flatMap.mp mem
  refine (Stmt.collectLoops_sublist memLoop).trans ?_
  rw [Program.collectLoops, Stmt.collectLoopsBody, List.flatMap_def]
  exact List.sublist_flatten_of_mem (List.mem_map_of_mem memBody)

theorem Program.verify_stmt (verified : p.verify = true) {loop : Loop × List (Stmt F)}
    (mem : loop ∈ p.collectLoops) {t : Stmt F} (memT : t ∈ Stmt.collectStmtsBody loop.2) :
    ∃ scope, t.verify p.decls scope = true := by
  obtain ⟨s, memBody, memLoop⟩ := List.mem_flatMap.mp mem
  apply Stmt.verify_collectStmts (Program.verify_body verified s memBody)
  apply (Stmt.collectStmts_sublist (Stmt.mem_collectLoops.mp memLoop)).subset
  rw [Stmt.collectStmts]
  exact List.mem_cons_of_mem _ memT

theorem Program.collectLoops_body {loop inner : Loop × List (Stmt F)}
    (mem : loop ∈ p.collectLoops) (memInner : inner ∈ Stmt.collectLoopsBody loop.2) :
    inner ∈ p.collectLoops :=
  (Program.collectLoops_sublist mem).subset (List.mem_cons_of_mem _ memInner)

theorem Program.loopIds_sublist {loop : Loop × List (Stmt F)} (mem : loop ∈ p.collectLoops) :
    (loop.1.id :: Stmt.loopIds loop.2).Sublist (Stmt.loopIds p.body) := by
  have below := Program.collectLoops_sublist mem
  exact below.map (·.1.id)

theorem Program.id_not_mem_body (verified : p.verify = true) {loop : Loop × List (Stmt F)}
    (mem : loop ∈ p.collectLoops) : loop.1.id ∉ Stmt.loopIds loop.2 :=
  (List.nodup_cons.mp ((Program.nodup_loopIds verified).sublist (Program.loopIds_sublist mem))).1

theorem Program.body_index_mem_loopIds (verified : p.verify = true) {loop : Loop × List (Stmt F)}
    (mem : loop ∈ p.collectLoops) {s : Stmt F} (memBody : s ∈ loop.2) {e : Expr F}
    (memRoot : e ∈ s.collectRoots) {index : LoopId × ExprType}
    (memIndex : index ∈ e.collectIndices) : index.1 ∈ Stmt.loopIds p.body := by
  obtain ⟨top, memTop, memLoop⟩ := List.mem_flatMap.mp mem
  exact Program.index_mem_loopIds verified memTop
    (Stmt.collectRoots_of_loop memLoop memBody memRoot) memIndex

theorem Program.findLoop_of_mem (verified : p.verify = true) {loop : Loop × List (Stmt F)}
    (mem : loop ∈ p.collectLoops) : p.findLoop loop.1.id = some loop := by
  cases found : p.findLoop loop.1.id with
  | none => simpa using List.find?_eq_none.mp found loop mem
  | some other =>
    have same : other.1.id = loop.1.id := by simpa using List.find?_some found
    rw [List.inj_on_of_nodup_map (Program.nodup_loopIds verified)
      (List.mem_of_find?_eq_some found) mem same]

theorem Program.findLoop_mem {L : LoopId} {loop : Loop × List (Stmt F)}
    (found : p.findLoop L = some loop) : loop ∈ p.collectLoops ∧ loop.1.id = L :=
  ⟨List.mem_of_find?_eq_some found, by simpa using List.find?_some found⟩

theorem Program.lt_freshLoop {L : LoopId} (mem : L ∈ Stmt.loopIds p.body) : L < p.freshLoop := by
  have bound : ∀ (ids : List LoopId) (start : Nat),
      start ≤ ids.foldl (fun bound id => max bound (id + 1)) start ∧
        ∀ id ∈ ids, id < ids.foldl (fun bound id => max bound (id + 1)) start := by
    intro ids
    induction ids with
    | nil => simp
    | cons id ids ih =>
      intro start
      obtain ⟨start_le, below⟩ := ih (max start (id + 1))
      simp only [List.foldl_cons, List.mem_cons, forall_eq_or_imp]
      exact ⟨Nat.le_trans (Nat.le_max_left _ _) start_le,
        Nat.lt_of_lt_of_le (Nat.lt_succ_self id) (Nat.le_trans (Nat.le_max_right _ _) start_le),
        below⟩
  exact (bound _ 0).2 L mem

end Program

end Bistra

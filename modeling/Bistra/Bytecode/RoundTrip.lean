import Bistra.Bytecode.ProgramRoundTrip

/-! # What survives bytecode

A verified program that fits is read back up to five defects: the end of an `IfRange`, negative and
wide integers, strings, index vectors, and the dimension names of arguments of one shape.
-/

namespace Bistra

open Codec (Answers)

/-! ## Verified programs are readable -/

section Verified

variable {decls : Decls}

theorem Decls.verifyAccess_none {arg : ArgId} {n : Nat} {kind : Option ElemKind}
    (access : decls.verifyAccess arg n kind = true) : decls.verifyAccess arg n none = true := by
  rw [Decls.verifyAccess] at access ⊢
  cases known : decls.args[arg]? with
  | none =>
    rw [known] at access
    cases access
  | some decl =>
    simp only [known, Bool.and_eq_true] at access
    simp only [Bool.and_eq_true, Option.all_none, and_true]
    exact access.1

mutual

theorem Stmt.verify_owned : ∀ {s : Stmt UInt32} {scope : List LoopId},
    s.verify decls scope = true → ∀ e ∈ s.owned, ∃ inner, e.verify decls inner = true
  | .loop _ body, _, verified => by
    rw [Stmt.verify, Bool.and_eq_true] at verified
    exact Stmt.verify_ownedBody verified.2
  | .ifRange val _ _ body, scope, verified => by
    rw [Stmt.verify, Bool.and_eq_true, Bool.and_eq_true] at verified
    rw [Stmt.owned, List.forall_mem_cons]
    exact ⟨⟨scope, verified.1.2⟩, Stmt.verify_ownedBody verified.2⟩
  | .call _ params, scope, verified => by
    rw [Stmt.verify, List.all_eq_true] at verified
    intro e mem
    exact ⟨scope, (Bool.and_eq_true _ _ ▸ verified e mem).1⟩
  | .store arg indices value _, scope, verified => by
    rw [Stmt.verify, Bool.and_eq_true, Bool.and_eq_true] at verified
    rw [Stmt.owned, List.forall_mem_cons, List.forall_mem_singleton]
    refine ⟨⟨scope, ?_⟩, scope, verified.2⟩
    rw [Expr.verify, Bool.and_eq_true]
    exact ⟨verified.1.1, Decls.verifyAccess_none verified.1.2⟩
  | .storeLocal _ value _, scope, verified => by
    rw [Stmt.verify, Bool.and_eq_true] at verified
    rw [Stmt.owned, List.forall_mem_singleton]
    exact ⟨scope, verified.2⟩

theorem Stmt.verify_ownedBody : ∀ {body : List (Stmt UInt32)} {scope : List LoopId},
    Stmt.verifyBody decls scope body = true →
      ∀ e ∈ Stmt.ownedBody body, ∃ inner, e.verify decls inner = true
  | [], _, _ => by simp [Stmt.ownedBody]
  | s :: rest, _, verified => by
    rw [Stmt.verifyBody, Bool.and_eq_true] at verified
    rw [Stmt.ownedBody, List.forall_mem_append]
    exact ⟨Stmt.verify_owned verified.1, Stmt.verify_ownedBody verified.2⟩

end

mutual

theorem Stmt.fits_items (vars : decls.vars.length < 2 ^ 32) : ∀ {s : Stmt UInt32}
    {scope : List LoopId}, s.verify decls scope = true →
    (∀ t ∈ s.collectStmts, t.numParams < 256) → ∀ (base pos : Nat) (parent : StmtRef),
      ∀ item ∈ s.items base pos parent, item.node.Fits
  | .loop _ body, _, verified, params, base, pos, parent => by
    rw [Stmt.verify, Bool.and_eq_true] at verified
    rw [Stmt.collectStmts, List.forall_mem_cons] at params
    rw [Stmt.items, List.forall_mem_cons]
    exact ⟨trivial, Stmt.fits_itemsBody vars verified.2 params.2 _ _ _⟩
  | .ifRange _ _ _ body, _, verified, params, base, pos, parent => by
    rw [Stmt.verify, Bool.and_eq_true] at verified
    rw [Stmt.collectStmts, List.forall_mem_cons] at params
    rw [Stmt.items, List.forall_mem_cons]
    exact ⟨trivial, Stmt.fits_itemsBody vars verified.2 params.2 _ _ _⟩
  | .call _ list, _, _, params, base, pos, parent => by
    rw [Stmt.collectStmts, List.forall_mem_singleton] at params
    rw [Stmt.items, List.forall_mem_singleton, StmtNode.Fits, Expr.length_pointers]
    exact params
  | .store _ _ _ _, _, _, _, base, pos, parent => by
    rw [Stmt.items, List.forall_mem_singleton]
    trivial
  | .storeLocal var value _, _, verified, _, base, pos, parent => by
    rw [Stmt.verify, Bool.and_eq_true, Decls.verifyLocal] at verified
    rw [Stmt.items, List.forall_mem_singleton]
    cases known : decls.vars[var]? with
    | none =>
      rw [known] at verified
      cases verified.1
    | some decl => exact (List.getElem?_eq_some_iff.mp known).1.trans vars

theorem Stmt.fits_itemsBody (vars : decls.vars.length < 2 ^ 32) : ∀ {body : List (Stmt UInt32)}
    {scope : List LoopId}, Stmt.verifyBody decls scope body = true →
    (∀ t ∈ Stmt.collectStmtsBody body, t.numParams < 256) → ∀ (base pos : Nat) (parent : StmtRef),
      ∀ item ∈ Stmt.itemsBody base pos parent body, item.node.Fits
  | [], _, _, _, _, _, _ => by simp [Stmt.itemsBody]
  | s :: rest, _, verified, params, base, pos, parent => by
    rw [Stmt.verifyBody, Bool.and_eq_true] at verified
    rw [Stmt.collectStmtsBody, List.forall_mem_append] at params
    rw [Stmt.itemsBody, List.forall_mem_append]
    exact ⟨Stmt.fits_items vars verified.1 params.1 _ _ _,
      Stmt.fits_itemsBody vars verified.2 params.2 _ _ _⟩

end

theorem Expr.fits_nodesList (fits : decls.Fits) : ∀ {es : List (Expr UInt32)},
    (∀ e ∈ es, ∃ scope, e.verify decls scope = true) →
      ∀ base, ∀ node ∈ Expr.nodesList base es, node.Fits
  | [], _, _ => by simp [Expr.nodesList]
  | e :: es, each, base => by
    rw [List.forall_mem_cons] at each
    obtain ⟨⟨scope, verified⟩, rest⟩ := each
    rw [Expr.nodesList, List.forall_mem_append]
    exact ⟨Expr.fits_of_verify fits verified base, Expr.fits_nodesList fits rest _⟩

end Verified

mutual

theorem Stmt.collectIndices_owned : ∀ s : Stmt UInt32,
    s.owned.flatMap Expr.collectIndices = s.collectRoots.flatMap Expr.collectIndices
  | .loop _ body => by
    rw [Stmt.owned, Stmt.collectRoots_loop, Stmt.collectIndices_ownedBody body]
  | .ifRange val _ _ body => by
    rw [Stmt.owned, Stmt.collectRoots_ifRange, List.flatMap_cons, List.flatMap_cons,
      Stmt.collectIndices_ownedBody body]
  | .call _ _ => by rw [Stmt.owned, Stmt.collectRoots_call]
  | .store _ indices value _ => by
    rw [Stmt.owned, Stmt.collectRoots_store, List.flatMap_append, List.flatMap_cons,
      Expr.collectIndices, Expr.collectIndicesList_eq]
  | .storeLocal _ _ _ => by rw [Stmt.owned, Stmt.collectRoots_storeLocal]

theorem Stmt.collectIndices_ownedBody : ∀ body : List (Stmt UInt32),
    (Stmt.ownedBody body).flatMap Expr.collectIndices =
      (body.flatMap Stmt.collectRoots).flatMap Expr.collectIndices
  | [] => rfl
  | s :: rest => by
    rw [Stmt.ownedBody, List.flatMap_append, List.flatMap_cons, List.flatMap_append,
      Stmt.collectIndices_owned s, Stmt.collectIndices_ownedBody rest]

end

section Program

variable {p : Program UInt32}

theorem Program.verifyBody_of_verify (verified : p.verify = true) :
    Stmt.verifyBody p.decls [] p.body = true := by
  simp only [Program.verify, Bool.and_eq_true] at verified
  exact verified.1.2

theorem Program.owned_mem_loopIds (verified : p.verify = true) :
    ∀ e ∈ Stmt.ownedBody p.body, ∀ index ∈ e.collectIndices, index.1 ∈ Stmt.loopIds p.body := by
  intro e mem index memIndex
  have memAll : index ∈ (Stmt.ownedBody p.body).flatMap Expr.collectIndices :=
    List.mem_flatMap.mpr ⟨e, mem, memIndex⟩
  rw [Stmt.collectIndices_ownedBody, List.mem_flatMap] at memAll
  obtain ⟨root, memRoot, memIndex⟩ := memAll
  obtain ⟨s, memS, memRoot⟩ := List.mem_flatMap.mp memRoot
  exact Program.index_mem_loopIds verified memS memRoot memIndex

theorem Program.decls_fits (fits : p.Fits) : p.decls.Fits :=
  ⟨fits.args, fits.vars, fun arg mem => (fits.dims arg mem).trans (by decide)⟩

theorem Program.readable_of_verify (verified : p.verify = true) (fits : p.Fits) :
    p.Readable p.finalTables := by
  have loops := Program.owned_mem_loopIds verified
  have small := Program.small_finalTables fits (Program.within_finalTables loops)
  have known := p.known_finalTables
  have bodies := Program.verifyBody_of_verify verified
  have count : (Stmt.nodesBody 0 p.body).length = Stmt.exprCountBody p.body := by
    rw [Stmt.nodesBody_eq, Expr.length_nodesList, Stmt.exprCountBody_eq]
  exact {
    small := small
    known := known
    zero := p.stmtId_program.1
    free := freeIds_program small p.stmtId_program.1 p.stmtId_program.2
      (Program.nodup_loopIds verified) fun item mem => (known.stmts item mem).stmt
    loops := loops
    nodes := by
      rw [Stmt.nodesBody_eq]
      exact Expr.fits_nodesList (Program.decls_fits fits) (Stmt.verify_ownedBody bodies) 0
    items := Stmt.fits_itemsBody fits.vars bodies fits.params 0 1 .program
    args := fits.args
    vars := fits.vars
    exprs := count ▸ fits.exprs
    stmts := by
      rw [Stmt.length_itemsBody]
      exact (Nat.lt_succ_self _).trans fits.stmts }

def Program.readDecls (p : Program UInt32) : Decls := ⟨p.args.map p.finalTables.readArg, p.vars⟩

/-- What `deserialize` makes of the bytecode of a program. -/
theorem Program.deserialize_serialize (verified : p.verify = true) (fits : p.Fits) :
    (Bytecode.serialize p).bind Bytecode.deserialize =
      (Stmt.readBackBody p.finalTables p.readDecls p.body).map fun body =>
        ⟨p.name, p.readDecls.args, p.vars, body⟩ := by
  have within := Program.within_finalTables (Program.owned_mem_loopIds verified)
  have writable := Program.writable_finalTables fits within
  have readable := Program.readable_of_verify verified fits
  have read := (answers_deserializeHeader readable.small within.distinct writable).bind_some
    (answers_deserializeProgram readable) []
  rw [List.append_nil] at read
  rw [Program.serialize_eq writable, Option.bind_some, Bytecode.deserialize, read, Option.map_map,
    Option.map_map]
  rfl

end Program

/-! ## The declarations that are read back -/

/-- The same local variables, and arguments of the same kinds and sizes. -/
structure Decls.Alike (decls decls' : Decls) : Prop where
  vars : decls'.vars = decls.vars
  args : decls'.args.map (fun arg => (arg.type.elementType, arg.type.sizes)) =
    decls.args.map fun arg => (arg.type.elementType, arg.type.sizes)

section Alike

variable {F : Type} {decls decls' : Decls}

theorem Decls.Alike.verifyAccess (alike : decls.Alike decls') (arg : ArgId) (n : Nat)
    (kind : Option ElemKind) : decls'.verifyAccess arg n kind = decls.verifyAccess arg n kind := by
  have same := congrArg (fun args => args[arg]?) alike.args
  simp only [List.getElem?_map] at same
  rw [Decls.verifyAccess, Decls.verifyAccess]
  cases known : decls.args[arg]? with
  | none =>
    rw [known, Option.map_none, Option.map_eq_none_iff] at same
    rw [same]
  | some decl =>
    rw [known, Option.map_some, Option.map_eq_some_iff] at same
    obtain ⟨decl', known', same⟩ := same
    obtain ⟨name, sizes, names, elementType, length⟩ := decl
    obtain ⟨name', sizes', names', elementType', length'⟩ := decl'
    obtain ⟨rfl, rfl⟩ := Prod.mk.inj same
    rw [known']
    rfl

theorem Decls.Alike.verifyLocal (alike : decls.Alike decls') (var : VarId) (type : ExprType) :
    decls'.verifyLocal var type = decls.verifyLocal var type := by
  simp only [Decls.verifyLocal, Decls.isUniqued, alike.vars]

mutual

theorem Expr.verify_alike (alike : decls.Alike decls') (scope : List LoopId) :
    ∀ e : Expr F, e.verify decls' scope = e.verify decls scope
  | .index _ _ | .const _ | .constFP _ | .constString _ => rfl
  | .binary _ lhs rhs => by
    rw [Expr.verify, Expr.verify, Expr.verify_alike alike scope lhs,
      Expr.verify_alike alike scope rhs]
  | .unary _ val => Expr.verify_alike alike scope val
  | .broadcast val _ => by rw [Expr.verify, Expr.verify, Expr.verify_alike alike scope val]
  | .gep _ indices | .load _ indices _ => by
    rw [Expr.verify, Expr.verify, Expr.verifyIndices_alike alike scope indices,
      alike.verifyAccess]
  | .loadLocal _ _ => alike.verifyLocal _ _

theorem Expr.verifyIndices_alike (alike : decls.Alike decls') (scope : List LoopId) :
    ∀ es : List (Expr F),
      Expr.verifyIndices decls' scope es = Expr.verifyIndices decls scope es
  | [] => rfl
  | e :: es => by
    rw [Expr.verifyIndices, Expr.verifyIndices, Expr.verify_alike alike scope e,
      Expr.verifyIndices_alike alike scope es]

end

end Alike

theorem Program.alike_readDecls (p : Program UInt32) : p.decls.Alike p.readDecls := by
  refine ⟨rfl, ?_⟩
  rw [Program.readDecls, List.map_map]
  apply List.map_congr_left
  intro arg mem
  have same := (Tables.readType_spec (p.known_finalTables.args arg mem).2).2.2
  simp only [TensorType.isEqual, Bool.and_eq_true, decide_eq_true_eq] at same
  exact Prod.ext same.1 same.2

/-! ## Statements -/

/-- The range is empty: its start is its end. -/
def Stmt.rangeKept {F : Type} : Stmt F → Bool
  | .ifRange _ start end_ _ => decide (start = end_)
  | _ => true

section Stmts

variable {T : Tables} {decls decls' : Decls}

theorem Expr.faithful_of_readBackList {rename : LoopId → LoopId} : ∀ {es : List (Expr UInt32)},
    Expr.readBackList T decls es = some (es.map (Expr.relabel rename)) →
      ∀ e ∈ es, e.faithful = true
  | [], _ => by simp
  | e :: es, read => by
    obtain ⟨e', known, rest⟩ := Option.bind_eq_some_iff.mp read
    obtain ⟨es', knownRest, same⟩ := Option.map_eq_some_iff.mp rest
    obtain ⟨rfl, rfl⟩ := List.cons.inj same
    rw [List.forall_mem_cons]
    exact ⟨Expr.faithful_of_readBack known, Expr.faithful_of_readBackList knownRest⟩

mutual

theorem Stmt.kept_of_readBack {rename : LoopId → LoopId} : ∀ {s : Stmt UInt32},
    s.readBack T decls = some (s.relabel rename) →
      (∀ t ∈ s.collectStmts, t.rangeKept = true) ∧ ∀ e ∈ s.owned, e.faithful = true
  | .loop header body, read => by
    obtain ⟨body', known, same⟩ := Option.map_eq_some_iff.mp read
    obtain ⟨-, rfl⟩ := Stmt.loop.inj same
    obtain ⟨ranges, exprs⟩ := Stmt.kept_of_readBackBody known
    rw [Stmt.collectStmts, List.forall_mem_cons]
    exact ⟨⟨rfl, ranges⟩, exprs⟩
  | .ifRange val start end_ body, read => by
    obtain ⟨val', known, rest⟩ := Option.bind_eq_some_iff.mp read
    obtain ⟨body', knownBody, same⟩ := Option.map_eq_some_iff.mp rest
    obtain ⟨rfl, -, sameEnd, rfl⟩ := Stmt.ifRange.inj same
    obtain ⟨ranges, exprs⟩ := Stmt.kept_of_readBackBody knownBody
    rw [Stmt.collectStmts, List.forall_mem_cons, Stmt.owned, List.forall_mem_cons]
    exact ⟨⟨decide_eq_true sameEnd, ranges⟩, Expr.faithful_of_readBack known, exprs⟩
  | .call name params, read => by
    obtain ⟨params', known, same⟩ := Option.map_eq_some_iff.mp read
    obtain ⟨-, rfl⟩ := Stmt.call.inj same
    rw [Stmt.collectStmts, List.forall_mem_singleton]
    exact ⟨rfl, Expr.faithful_of_readBackList known⟩
  | .store arg indices value accumulate, read => by
    obtain ⟨value', known, rest⟩ := Option.bind_eq_some_iff.mp read
    obtain ⟨gep, knownGEP, made⟩ := Option.bind_eq_some_iff.mp rest
    rw [Stmt.collectStmts, List.forall_mem_singleton, Stmt.owned, List.forall_mem_cons,
      List.forall_mem_singleton]
    -- The pointer of a store leads to a `GEPExpr` with the same subscripts, or the constructor
    -- fails.
    cases gep with
    | gep arg' indices' =>
      obtain ⟨rfl, rfl, rfl, -⟩ := Stmt.store.inj (Option.some.inj made)
      have access : (Expr.gep arg' indices).readBack T decls =
          some ((Expr.gep arg' indices).relabel rename) := by
        rw [knownGEP, Expr.relabel, Expr.mapIndex, Expr.mapIndexList_eq]
      exact ⟨rfl, Expr.faithful_of_readBack access, Expr.faithful_of_readBack known⟩
    | _ => cases made
  | .storeLocal var value accumulate, read => by
    obtain ⟨value', known, made⟩ := Option.bind_eq_some_iff.mp read
    rw [Decls.mkStoreLocal, Option.ite_none_right_eq_some] at made
    obtain ⟨-, rfl, -⟩ := Stmt.storeLocal.inj (Option.some.inj made.2)
    rw [Stmt.collectStmts, List.forall_mem_singleton, Stmt.owned, List.forall_mem_singleton]
    exact ⟨rfl, Expr.faithful_of_readBack known⟩

theorem Stmt.kept_of_readBackBody {rename : LoopId → LoopId} : ∀ {body : List (Stmt UInt32)},
    Stmt.readBackBody T decls body = some (Stmt.relabelBody rename body) →
      (∀ t ∈ Stmt.collectStmtsBody body, t.rangeKept = true) ∧
        ∀ e ∈ Stmt.ownedBody body, e.faithful = true
  | [], _ => by simp [Stmt.collectStmtsBody, Stmt.ownedBody]
  | s :: rest, read => by
    obtain ⟨s', known, others⟩ := Option.bind_eq_some_iff.mp read
    obtain ⟨rest', knownRest, same⟩ := Option.map_eq_some_iff.mp others
    obtain ⟨rfl, rfl⟩ := List.cons.inj same
    obtain ⟨ranges, exprs⟩ := Stmt.kept_of_readBack known
    obtain ⟨rangesRest, exprsRest⟩ := Stmt.kept_of_readBackBody knownRest
    rw [Stmt.collectStmtsBody, List.forall_mem_append, Stmt.ownedBody, List.forall_mem_append]
    exact ⟨⟨ranges, rangesRest⟩, exprs, exprsRest⟩

end

theorem Expr.readBackList_of_faithful {scope : List LoopId} : ∀ {es : List (Expr UInt32)},
    (∀ e ∈ es, e.verify decls scope = true) → (∀ e ∈ es, e.faithful = true) →
      Expr.readBackList T decls es = some (es.map (Expr.relabel T.loopId))
  | _, verified, faithful => Expr.rebuildList_eq_map fun e mem =>
    Expr.readBack_of_faithful (verified e mem) (faithful e mem)

mutual

/-- A verified statement with empty ranges and leaves that are kept is read back with the ids of its
loops. -/
theorem Stmt.readBack_of_kept (alike : decls.Alike decls') : ∀ {s : Stmt UInt32}
    {scope : List LoopId}, s.verify decls scope = true →
      (∀ t ∈ s.collectStmts, t.rangeKept = true) → (∀ e ∈ s.owned, e.faithful = true) →
      s.readBack T decls' = some (s.relabel T.loopId)
  | .loop header body, _, verified, ranges, faithful => by
    rw [Stmt.verify, Bool.and_eq_true] at verified
    rw [Stmt.collectStmts, List.forall_mem_cons] at ranges
    rw [Stmt.readBack, Stmt.readBackBody_of_kept alike verified.2 ranges.2 faithful,
      Option.map_some, Stmt.relabel]
  | .ifRange val start end_ body, scope, verified, ranges, faithful => by
    rw [Stmt.verify, Bool.and_eq_true, Bool.and_eq_true] at verified
    rw [Stmt.collectStmts, List.forall_mem_cons] at ranges
    rw [Stmt.owned, List.forall_mem_cons] at faithful
    obtain rfl : start = end_ := of_decide_eq_true ranges.1
    have verifiedVal := verified.1.2
    rw [← Expr.verify_alike alike] at verifiedVal
    rw [Stmt.readBack, Expr.readBack_of_faithful verifiedVal faithful.1, Option.bind_some,
      Stmt.readBackBody_of_kept alike verified.2 ranges.2 faithful.2, Option.map_some,
      Stmt.relabel]
  | .call name params, scope, verified, _, faithful => by
    simp only [Stmt.verify, List.all_eq_true, Bool.and_eq_true] at verified
    have verifiedParams : ∀ e ∈ params, e.verify decls' scope = true := fun e mem =>
      (Expr.verify_alike alike scope e).trans (verified e mem).1
    rw [Stmt.readBack, Expr.readBackList_of_faithful verifiedParams faithful, Option.map_some,
      Stmt.relabel]
  | .store arg indices value accumulate, scope, verified, _, faithful => by
    rw [Stmt.verify, Bool.and_eq_true, Bool.and_eq_true] at verified
    rw [Stmt.owned, List.forall_mem_cons, List.forall_mem_singleton] at faithful
    have verifiedValue : value.verify decls' scope = true :=
      (Expr.verify_alike alike scope value).trans verified.2
    have verifiedGEP : (Expr.gep arg indices : Expr UInt32).verify decls' scope = true := by
      rw [Expr.verify_alike alike, Expr.verify, Bool.and_eq_true]
      exact ⟨verified.1.1, Decls.verifyAccess_none verified.1.2⟩
    rw [Stmt.readBack, Expr.readBack_of_faithful verifiedValue faithful.2, Option.bind_some,
      Expr.readBack_of_faithful verifiedGEP faithful.1, Option.bind_some, Expr.relabel,
      Expr.mapIndex, Expr.mapIndexList_eq]
    rfl
  | .storeLocal var value accumulate, scope, verified, _, faithful => by
    rw [Stmt.verify, Bool.and_eq_true, Decls.verifyLocal] at verified
    rw [Stmt.owned, List.forall_mem_singleton] at faithful
    have verifiedValue : value.verify decls' scope = true :=
      (Expr.verify_alike alike scope value).trans verified.2
    -- Other loops do not change types, so the assertions hold as for the statement itself.
    have type : (value.relabel T.loopId).getType = value.getType :=
      Expr.getType_mapIndex fun _ _ => rfl
    cases known : decls.vars[var]? with
    | none =>
      rw [known] at verified
      cases verified.1
    | some decl =>
      simp only [known, Bool.and_eq_true, decide_eq_true_eq] at verified
      rw [Stmt.readBack, Expr.readBack_of_faithful verifiedValue faithful, Option.bind_some,
        Decls.mkStoreLocal, alike.vars, known, Option.any_some, type,
        if_pos (decide_eq_true verified.1.2), Stmt.relabel]

theorem Stmt.readBackBody_of_kept (alike : decls.Alike decls') : ∀ {body : List (Stmt UInt32)}
    {scope : List LoopId}, Stmt.verifyBody decls scope body = true →
      (∀ t ∈ Stmt.collectStmtsBody body, t.rangeKept = true) →
      (∀ e ∈ Stmt.ownedBody body, e.faithful = true) →
      Stmt.readBackBody T decls' body = some (Stmt.relabelBody T.loopId body)
  | [], _, _, _, _ => rfl
  | s :: rest, _, verified, ranges, faithful => by
    rw [Stmt.verifyBody, Bool.and_eq_true] at verified
    rw [Stmt.collectStmtsBody, List.forall_mem_append] at ranges
    rw [Stmt.ownedBody, List.forall_mem_append] at faithful
    rw [Stmt.readBackBody, Stmt.readBack_of_kept alike verified.1 ranges.1 faithful.1,
      Option.bind_some, Stmt.readBackBody_of_kept alike verified.2 ranges.2 faithful.2,
      Option.map_some, Stmt.relabelBody]

end

end Stmts

theorem Program.loopId_injOn {p : Program UInt32} (verified : p.verify = true) (fits : p.Fits) :
    ∀ L ∈ Stmt.loopIds p.body, ∀ L' ∈ Stmt.loopIds p.body,
      p.finalTables.loopId L = p.finalTables.loopId L' → L = L' := by
  have readable := Program.readable_of_verify verified fits
  have inTable : ∀ L ∈ Stmt.loopIds p.body, .loop L ∈ p.finalTables.stmtTable := by
    intro L mem
    obtain ⟨item, memItem, ref, -⟩ := Stmt.loop_mem_itemsBody p.body 0 1 .program L mem
    exact ref ▸ (readable.known.stmts item memItem).stmt
  intro L mem L' mem' same
  exact StmtRef.loop.inj (Tables.stmtId_inj readable.small (inTable L mem) (inTable L' mem')
    (UInt32.toNat_inj.mp same))

/-! ## The tree of a program -/

/-- The tree is read back, up to the identity of the `Loop` objects. -/
def Program.BodyRoundTrips (p : Program UInt32) : Prop :=
  ∃ (q : Program UInt32) (rename : LoopId → LoopId),
    (Bytecode.serialize p).bind Bytecode.deserialize = some q ∧
    (∀ L ∈ Stmt.loopIds p.body, ∀ L' ∈ Stmt.loopIds p.body, rename L = rename L' → L = L') ∧
    q.body = Stmt.relabelBody rename p.body

/-- The tree of a verified program that fits is read back exactly when all its ranges are empty and
all its leaves are kept. -/
theorem Program.bodyRoundTrips_iff {p : Program UInt32} (verified : p.verify = true)
    (fits : p.Fits) : p.BodyRoundTrips ↔
      (∀ s ∈ Stmt.collectStmtsBody p.body, s.rangeKept = true) ∧
        ∀ e ∈ Stmt.ownedBody p.body, e.faithful = true := by
  have read := Program.deserialize_serialize verified fits
  constructor
  · rintro ⟨q, rename, found, -, body⟩
    rw [read] at found
    obtain ⟨body', known, rfl⟩ := Option.map_eq_some_iff.mp found
    subst body
    exact Stmt.kept_of_readBackBody known
  · rintro ⟨ranges, faithful⟩
    have known := Stmt.readBackBody_of_kept (T := p.finalTables) p.alike_readDecls
      (Program.verifyBody_of_verify verified) ranges faithful
    rw [known] at read
    exact ⟨_, p.finalTables.loopId, read, Program.loopId_injOn verified fits, rfl⟩

/-- A nest of two loops around a call, an accumulating store and an empty range. -/
def sampleNest : Program UInt32 where
  name := "nest"
  args := [⟨"A", ⟨[4, 8], ["x", "y"], .float32Ty, twoDims⟩⟩]
  vars := [⟨"t", .scalar .float32Ty⟩]
  body := [.loop ⟨5, "i", 4, 1⟩ [
    .storeLocal 0 (.constFP 0) false,
    .loop ⟨9, "j", 8, 2⟩ [
      .store 0 [.indexOf 5, .indexOf 9] (.loadLocal 0 (.scalar .float32Ty)) true,
      .ifRange (.indexOf 9) 2 2 [.call "note" [.indexOf 5]]]]]

theorem sampleNest_fits : sampleNest.Fits where
  short := by decide +kernel
  strings := by decide
  args := by decide
  vars := by decide
  dims := by decide
  params := by decide
  exprs := by decide
  stmts := by decide

theorem Program.bodyRoundTrips_sampleNest : sampleNest.BodyRoundTrips := by
  have verified : sampleNest.verify = true := by decide
  exact (Program.bodyRoundTrips_iff verified sampleNest_fits).mpr ⟨by decide, by decide⟩

/-- A store under the guard of a range that is not empty. -/
def sampleGuard : Program UInt32 where
  name := "guard"
  args := [⟨"A", ⟨[8], ["x"], .float32Ty, oneDim⟩⟩]
  vars := []
  body := [.loop ⟨5, "i", 8, 1⟩ [
    .ifRange (.indexOf 5) 0 4 [.store 0 [.indexOf 5] (.constFP 0) false]]]

theorem sampleGuard_fits : sampleGuard.Fits where
  short := by decide +kernel
  strings := by decide
  args := by decide
  vars := by decide
  dims := by decide
  params := by decide
  exprs := by decide
  stmts := by decide

/-- The range from 0 to 4 is read back as the range from 0 to 0. -/
theorem Program.range_misread : sampleGuard.verify = true ∧
    (∀ str ∈ sampleGuard.strings, ShortString str) ∧ ¬ sampleGuard.BodyRoundTrips := by
  have verified : sampleGuard.verify = true := by decide
  refine ⟨verified, sampleGuard_fits.short, ?_⟩
  rintro ⟨q, rename, found, -, body⟩
  rw [Program.deserialize_serialize verified sampleGuard_fits] at found
  obtain ⟨body', known, rfl⟩ := Option.map_eq_some_iff.mp found
  subst body
  have kept := (Stmt.kept_of_readBackBody known).1
    (.ifRange (.indexOf 5) 0 4 [.store 0 [.indexOf 5] (.constFP 0) false])
    (by simp [sampleGuard, Stmt.collectStmts])
  exact absurd kept (by decide)

end Bistra

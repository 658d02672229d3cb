import Bistra.Program.Syntax

/-! # Visiting and rewriting the tree

The collectors of `Analysis/Value.cpp` (each is a `NodeVisitor` that walks the whole
tree) and the rewriting that the passes do through handles: replacing the uses of an
index, cloning, and replacing a statement in the body that owns it.
-/

namespace Bistra

variable {F : Type}

/-! ## Collecting from expressions -/

mutual

/-- `collectIndices` on an expression: the loop and the type of every `IndexExpr`. -/
def Expr.collectIndices : Expr F → List (LoopId × ExprType)
  | .index loop type => [(loop, type)]
  | .const _ | .constFP _ | .constString _ | .loadLocal _ _ => []
  | .binary _ lhs rhs => lhs.collectIndices ++ rhs.collectIndices
  | .unary _ val => val.collectIndices
  | .broadcast val _ => val.collectIndices
  | .gep _ indices => Expr.collectIndicesList indices
  | .load _ indices _ => Expr.collectIndicesList indices

def Expr.collectIndicesList : List (Expr F) → List (LoopId × ExprType)
  | [] => []
  | e :: es => e.collectIndices ++ Expr.collectIndicesList es

end

@[simp] theorem Expr.collectIndicesList_eq (es : List (Expr F)) :
    Expr.collectIndicesList es = es.flatMap Expr.collectIndices := by
  induction es with
  | nil => rfl
  | cons e es ih => simp [Expr.collectIndicesList, ih]

/-- `dependsOnLoop` on an expression. -/
def Expr.dependsOnLoop (L : LoopId) (e : Expr F) : Bool :=
  e.collectIndices.any fun index => index.1 = L

/-- The access of a `LoadExpr` or a `StoreStmt`: buffer, subscripts and type of the
loaded or stored value. -/
structure Access (F : Type) where
  arg : ArgId
  indices : List (Expr F)
  type : ExprType

mutual

/-- The loads of an expression, an access before the accesses in its subscripts. -/
def Expr.collectLoads : Expr F → List (Access F)
  | .index _ _ | .const _ | .constFP _ | .constString _ | .loadLocal _ _ => []
  | .binary _ lhs rhs => lhs.collectLoads ++ rhs.collectLoads
  | .unary _ val => val.collectLoads
  | .broadcast val _ => val.collectLoads
  | .gep _ indices => Expr.collectLoadsList indices
  | .load arg indices type => ⟨arg, indices, type⟩ :: Expr.collectLoadsList indices

def Expr.collectLoadsList : List (Expr F) → List (Access F)
  | [] => []
  | e :: es => e.collectLoads ++ Expr.collectLoadsList es

end

@[simp] theorem Expr.collectLoadsList_eq (es : List (Expr F)) :
    Expr.collectLoadsList es = es.flatMap Expr.collectLoads := by
  induction es with
  | nil => rfl
  | cons e es ih => simp [Expr.collectLoadsList, ih]

mutual

/-- The local variables that an expression reads. -/
def Expr.collectLocals : Expr F → List VarId
  | .index _ _ | .const _ | .constFP _ | .constString _ => []
  | .loadLocal var _ => [var]
  | .binary _ lhs rhs => lhs.collectLocals ++ rhs.collectLocals
  | .unary _ val => val.collectLocals
  | .broadcast val _ => val.collectLocals
  | .gep _ indices => Expr.collectLocalsList indices
  | .load _ indices _ => Expr.collectLocalsList indices

def Expr.collectLocalsList : List (Expr F) → List VarId
  | [] => []
  | e :: es => e.collectLocals ++ Expr.collectLocalsList es

end

@[simp] theorem Expr.collectLocalsList_eq (es : List (Expr F)) :
    Expr.collectLocalsList es = es.flatMap Expr.collectLocals := by
  induction es with
  | nil => rfl
  | cons e es ih => simp [Expr.collectLocalsList, ih]

/-! ## Collecting from statements -/

mutual

/-- `collectStmts`: the statement and every statement below it, top-down. -/
def Stmt.collectStmts : Stmt F → List (Stmt F)
  | .loop header body => .loop header body :: Stmt.collectStmtsBody body
  | .ifRange val start end_ body => .ifRange val start end_ body :: Stmt.collectStmtsBody body
  | .call name params => [.call name params]
  | .store arg indices value accumulate => [.store arg indices value accumulate]
  | .storeLocal var value accumulate => [.storeLocal var value accumulate]

def Stmt.collectStmtsBody : List (Stmt F) → List (Stmt F)
  | [] => []
  | s :: rest => s.collectStmts ++ Stmt.collectStmtsBody rest

end

@[simp] theorem Stmt.collectStmtsBody_eq (body : List (Stmt F)) :
    Stmt.collectStmtsBody body = body.flatMap Stmt.collectStmts := by
  induction body with
  | nil => rfl
  | cons s rest ih => simp [Stmt.collectStmtsBody, ih]

theorem Stmt.mem_collectStmts_self (s : Stmt F) : s ∈ s.collectStmts := by
  cases s <;> simp [Stmt.collectStmts]

/-- The expressions that a statement owns itself, in the order of its `visit`. -/
def Stmt.roots : Stmt F → List (Expr F)
  | .loop _ _ => []
  | .ifRange val _ _ _ => [val]
  | .call _ params => params
  | .store _ indices value _ => indices ++ [value]
  | .storeLocal _ value _ => [value]

/-- The expressions owned by a statement or by a statement below it. -/
def Stmt.collectRoots (s : Stmt F) : List (Expr F) := s.collectStmts.flatMap Stmt.roots

/-- `collectIndices` on a statement. -/
def Stmt.collectIndices (s : Stmt F) : List (LoopId × ExprType) :=
  s.collectRoots.flatMap Expr.collectIndices

/-- `collectLoops`: header and body of every loop, outer loops first. -/
def Stmt.collectLoops (s : Stmt F) : List (Loop × List (Stmt F)) :=
  s.collectStmts.filterMap fun
    | .loop header body => some (header, body)
    | _ => none

def Stmt.collectLoopsBody (body : List (Stmt F)) : List (Loop × List (Stmt F)) :=
  body.flatMap Stmt.collectLoops

def Program.collectLoops (p : Program F) : List (Loop × List (Stmt F)) :=
  Stmt.collectLoopsBody p.body

section

attribute [local simp] Stmt.collectStmts Stmt.roots

@[simp] theorem Stmt.collectRoots_loop (header : Loop) (body : List (Stmt F)) :
    (Stmt.loop header body).collectRoots = body.flatMap Stmt.collectRoots := by
  simp only [Stmt.collectRoots, Stmt.collectStmts, Stmt.collectStmtsBody_eq, List.flatMap_cons,
    List.flatMap_assoc, Stmt.roots]
  rfl

@[simp] theorem Stmt.collectRoots_ifRange (val : Expr F) (start end_ : Int32)
    (body : List (Stmt F)) :
    (Stmt.ifRange val start end_ body).collectRoots = val :: body.flatMap Stmt.collectRoots := by
  simp only [Stmt.collectRoots, Stmt.collectStmts, Stmt.collectStmtsBody_eq, List.flatMap_cons,
    List.flatMap_assoc, Stmt.roots]
  rfl

@[simp] theorem Stmt.collectRoots_call (name : String) (params : List (Expr F)) :
    (Stmt.call name params).collectRoots = params := by
  simp [Stmt.collectRoots, Stmt.collectStmts, Stmt.roots]

@[simp] theorem Stmt.collectRoots_store (arg : ArgId) (indices : List (Expr F)) (value : Expr F)
    (accumulate : Bool) :
    (Stmt.store arg indices value accumulate).collectRoots = indices ++ [value] := by
  simp [Stmt.collectRoots, Stmt.collectStmts, Stmt.roots]

@[simp] theorem Stmt.collectRoots_storeLocal (var : VarId) (value : Expr F) (accumulate : Bool) :
    (Stmt.storeLocal var value accumulate).collectRoots = [value] := by
  simp [Stmt.collectRoots, Stmt.collectStmts, Stmt.roots]

@[simp] theorem Stmt.collectLoops_loop (header : Loop) (body : List (Stmt F)) :
    (Stmt.loop header body).collectLoops =
      (header, body) :: body.flatMap Stmt.collectLoops := by
  simp only [Stmt.collectLoops, Stmt.collectStmts, Stmt.collectStmtsBody_eq, List.filterMap_cons,
    List.filterMap_flatMap]
  rfl

@[simp] theorem Stmt.collectLoops_ifRange (val : Expr F) (start end_ : Int32)
    (body : List (Stmt F)) :
    (Stmt.ifRange val start end_ body).collectLoops = body.flatMap Stmt.collectLoops := by
  simp only [Stmt.collectLoops, Stmt.collectStmts, Stmt.collectStmtsBody_eq, List.filterMap_cons,
    List.filterMap_flatMap]
  rfl

@[simp] theorem Stmt.collectLoops_call (name : String) (params : List (Expr F)) :
    (Stmt.call name params).collectLoops = [] := rfl

@[simp] theorem Stmt.collectLoops_store (arg : ArgId) (indices : List (Expr F)) (value : Expr F)
    (accumulate : Bool) : (Stmt.store arg indices value accumulate).collectLoops = [] := rfl

@[simp] theorem Stmt.collectLoops_storeLocal (var : VarId) (value : Expr F)
    (accumulate : Bool) : (Stmt.storeLocal var value accumulate).collectLoops = [] := rfl

/-- `collectIfs`: the value and the range of every guard. -/
def Stmt.collectIfs (s : Stmt F) : List (Expr F × Int32 × Int32) :=
  s.collectStmts.filterMap fun
    | .ifRange val start end_ _ => some (val, start, end_)
    | _ => none

@[simp] theorem Stmt.collectIfs_loop (header : Loop) (body : List (Stmt F)) :
    (Stmt.loop header body).collectIfs = body.flatMap Stmt.collectIfs := by
  simp only [Stmt.collectIfs, Stmt.collectStmts, Stmt.collectStmtsBody_eq, List.filterMap_cons,
    List.filterMap_flatMap]
  rfl

@[simp] theorem Stmt.collectIfs_ifRange (val : Expr F) (start end_ : Int32) (body : List (Stmt F)) :
    (Stmt.ifRange val start end_ body).collectIfs =
      (val, start, end_) :: body.flatMap Stmt.collectIfs := by
  simp only [Stmt.collectIfs, Stmt.collectStmts, Stmt.collectStmtsBody_eq, List.filterMap_cons,
    List.filterMap_flatMap]
  rfl

end

theorem Stmt.mem_collectLoops {s : Stmt F} {loop : Loop × List (Stmt F)} :
    loop ∈ s.collectLoops ↔ .loop loop.1 loop.2 ∈ s.collectStmts := by
  simp only [Stmt.collectLoops, List.mem_filterMap]
  constructor
  · rintro ⟨t, mem, found⟩
    cases t <;> simp only [Option.some.injEq, reduceCtorEq] at found
    exact found ▸ mem
  · exact fun mem => ⟨_, mem, rfl⟩

theorem Stmt.collectStmts_sublist {s t : Stmt F} (mem : t ∈ s.collectStmts) :
    t.collectStmts.Sublist s.collectStmts := by
  induction s using Stmt.inductTree with
  | loop header body ih | ifRange val start end_ body ih =>
    simp only [Stmt.collectStmts, Stmt.collectStmtsBody_eq, List.mem_cons, List.mem_flatMap] at mem
    rcases mem with rfl | ⟨s, memBody, mem⟩
    · exact List.Sublist.refl _
    · rw [Stmt.collectStmts, Stmt.collectStmtsBody_eq]
      have below : s.collectStmts.Sublist (body.flatMap Stmt.collectStmts) := by
        rw [List.flatMap_def]
        exact List.sublist_flatten_of_mem (List.mem_map_of_mem memBody)
      exact ((ih s memBody mem).trans below).trans (List.sublist_cons_self _ _)
  | call | store | storeLocal =>
    simp only [Stmt.collectStmts, List.mem_singleton] at mem
    subst mem
    exact List.Sublist.refl _

theorem Stmt.collectRoots_of_loop {s : Stmt F} {loop : Loop × List (Stmt F)}
    (mem : loop ∈ s.collectLoops) {t : Stmt F} (memBody : t ∈ loop.2) {e : Expr F}
    (memRoot : e ∈ t.collectRoots) : e ∈ s.collectRoots := by
  have inner : e ∈ (Stmt.loop loop.1 loop.2).collectRoots := by
    rw [Stmt.collectRoots_loop]
    exact List.mem_flatMap.mpr ⟨t, memBody, memRoot⟩
  obtain ⟨owner, memOwner, owned⟩ := List.mem_flatMap.mp inner
  exact List.mem_flatMap.mpr
    ⟨owner, (Stmt.collectStmts_sublist (Stmt.mem_collectLoops.mp mem)).subset memOwner, owned⟩

theorem Stmt.collectLoops_sublist {s : Stmt F} {loop : Loop × List (Stmt F)}
    (mem : loop ∈ s.collectLoops) :
    (loop :: Stmt.collectLoopsBody loop.2).Sublist s.collectLoops := by
  have := (Stmt.collectStmts_sublist (Stmt.mem_collectLoops.mp mem)).filterMap fun
    | .loop header body => some (header, body)
    | _ => none
  rwa [← Stmt.collectLoops, ← Stmt.collectLoops, Stmt.collectLoops_loop] at this

def Stmt.loopIds (body : List (Stmt F)) : List LoopId :=
  (Stmt.collectLoopsBody body).map (·.1.id)

/-- The object behind the pointer `L`. -/
def Program.findLoop (p : Program F) (L : LoopId) : Option (Loop × List (Stmt F)) :=
  p.collectLoops.find? (·.1.id = L)

/-- The address of the next `Loop` object that the program allocates. -/
def Program.freshLoop (p : Program F) : LoopId :=
  (Stmt.loopIds p.body).foldl (fun bound id => max bound (id + 1)) 0

/-! ## Rewriting expressions -/

mutual

/-- Replaces every `IndexExpr` by the expression that `f` gives for it
(`IndexExpr::replaceUseWith` on all collected indices). -/
def Expr.mapIndex (f : LoopId → ExprType → Expr F) : Expr F → Expr F
  | .index loop type => f loop type
  | .const val => .const val
  | .constFP val => .constFP val
  | .constString val => .constString val
  | .binary kind lhs rhs => .binary kind (lhs.mapIndex f) (rhs.mapIndex f)
  | .unary kind val => .unary kind (val.mapIndex f)
  | .broadcast val vf => .broadcast (val.mapIndex f) vf
  | .gep arg indices => .gep arg (Expr.mapIndexList f indices)
  | .load arg indices type => .load arg (Expr.mapIndexList f indices) type
  | .loadLocal var type => .loadLocal var type

def Expr.mapIndexList (f : LoopId → ExprType → Expr F) : List (Expr F) → List (Expr F)
  | [] => []
  | e :: es => e.mapIndex f :: Expr.mapIndexList f es

end

@[simp] theorem Expr.mapIndexList_eq (f : LoopId → ExprType → Expr F) (es : List (Expr F)) :
    Expr.mapIndexList f es = es.map (Expr.mapIndex f) := by
  induction es with
  | nil => rfl
  | cons e es ih => simp [Expr.mapIndexList, ih]

theorem Expr.mapIndex_self {f : LoopId → ExprType → Expr F} {e : Expr F}
    (same : ∀ index ∈ e.collectIndices, f index.1 index.2 = .index index.1 index.2) :
    e.mapIndex f = e := by
  induction e using Expr.inductTree with
  | index loop type => exact same (loop, type) (by simp [Expr.collectIndices])
  | const | constFP | constString | loadLocal => rfl
  | binary kind lhs rhs ihL ihR =>
    simp only [Expr.collectIndices, List.mem_append] at same
    rw [Expr.mapIndex, ihL fun i mem => same i (.inl mem), ihR fun i mem => same i (.inr mem)]
  | unary kind val ih | broadcast val vf ih => rw [Expr.mapIndex, ih same]
  | gep arg indices ih | load arg indices type ih =>
    simp only [Expr.collectIndices, Expr.collectIndicesList_eq, List.mem_flatMap] at same
    rw [Expr.mapIndex, Expr.mapIndexList_eq]
    congr 1
    exact (List.map_congr_left fun e mem => ih e mem fun i memI => same i ⟨e, mem, memI⟩).trans
      (List.map_id indices)

theorem Expr.getType_mapIndex {f : LoopId → ExprType → Expr F} {e : Expr F}
    (same : ∀ index ∈ e.collectIndices, (f index.1 index.2).getType = index.2) :
    (e.mapIndex f).getType = e.getType := by
  induction e using Expr.inductTree with
  | index loop type => exact same (loop, type) (by simp [Expr.collectIndices])
  | const | constFP | constString | loadLocal | gep | load => rfl
  | binary kind lhs rhs ihL _ =>
    simp only [Expr.collectIndices, List.mem_append] at same
    exact ihL fun i mem => same i (.inl mem)
  | unary kind val ih => exact ih same
  | broadcast val vf ih => simp only [Expr.mapIndex, Expr.getType, ih same]

/-- The rewriting that puts `replacement` in the place of every index of `L`. -/
def Expr.replaceIndex (L : LoopId) (replacement : Expr F) : Expr F → Expr F :=
  Expr.mapIndex fun loop type => if loop = L then replacement else .index loop type

/-- `Expr::clone`: a clone of an index refers to the loop that the context maps its loop
to.  `IndexExpr::clone` calls the constructor without a type, so the clone of an index is
always scalar. -/
def Expr.clone (ctx : LoopId → LoopId) : Expr F → Expr F :=
  Expr.mapIndex fun loop _ => .indexOf (ctx loop)

/-! ## Rewriting statements -/

mutual

/-- Rewrites every expression owned by the statement or by a statement below it. -/
def Stmt.mapExprs (f : Expr F → Expr F) : Stmt F → Stmt F
  | .loop header body => .loop header (Stmt.mapExprsBody f body)
  | .ifRange val start end_ body => .ifRange (f val) start end_ (Stmt.mapExprsBody f body)
  | .call name params => .call name (params.map f)
  | .store arg indices value accumulate => .store arg (indices.map f) (f value) accumulate
  | .storeLocal var value accumulate => .storeLocal var (f value) accumulate

def Stmt.mapExprsBody (f : Expr F → Expr F) : List (Stmt F) → List (Stmt F)
  | [] => []
  | s :: rest => s.mapExprs f :: Stmt.mapExprsBody f rest

end

@[simp] theorem Stmt.mapExprsBody_eq (f : Expr F → Expr F) (body : List (Stmt F)) :
    Stmt.mapExprsBody f body = body.map (Stmt.mapExprs f) := by
  induction body with
  | nil => rfl
  | cons s rest ih => simp [Stmt.mapExprsBody, ih]

theorem Stmt.mapExprs_self {f : Expr F → Expr F} {s : Stmt F}
    (same : ∀ e ∈ s.collectRoots, f e = e) : s.mapExprs f = s := by
  have lists : ∀ es : List (Expr F), (∀ e ∈ es, f e = e) → es.map f = es := fun es each =>
    (List.map_congr_left each).trans (List.map_id es)
  induction s using Stmt.inductTree with
  | loop header body ih =>
    simp only [Stmt.collectRoots_loop, List.mem_flatMap] at same
    rw [Stmt.mapExprs, Stmt.mapExprsBody_eq]
    congr 1
    exact (List.map_congr_left fun s mem => ih s mem fun e memRoot =>
      same e ⟨s, mem, memRoot⟩).trans (List.map_id body)
  | ifRange val start end_ body ih =>
    simp only [Stmt.collectRoots_ifRange, List.mem_cons, List.mem_flatMap] at same
    rw [Stmt.mapExprs, Stmt.mapExprsBody_eq, same val (.inl rfl)]
    congr 1
    exact (List.map_congr_left fun s mem => ih s mem fun e memRoot =>
      same e (.inr ⟨s, mem, memRoot⟩)).trans (List.map_id body)
  | call name params =>
    rw [Stmt.collectRoots_call] at same
    rw [Stmt.mapExprs, lists params same]
  | store arg indices value accumulate =>
    simp only [Stmt.collectRoots_store, List.mem_append, List.mem_singleton] at same
    rw [Stmt.mapExprs, lists indices fun e mem => same e (.inl mem), same value (.inr rfl)]
  | storeLocal var value accumulate =>
    rw [Stmt.mapExprs, same value (by simp)]

@[simp] theorem Stmt.collectRoots_mapExprs (f : Expr F → Expr F) (s : Stmt F) :
    (s.mapExprs f).collectRoots = s.collectRoots.map f := by
  induction s using Stmt.inductTree with
  | loop header body ih =>
    simp only [Stmt.mapExprs, Stmt.mapExprsBody_eq, Stmt.collectRoots_loop, List.flatMap_map,
      List.map_flatMap]
    exact List.flatMap_congr ih
  | ifRange val start end_ body ih =>
    simp only [Stmt.mapExprs, Stmt.mapExprsBody_eq, Stmt.collectRoots_ifRange, List.flatMap_map,
      List.map_cons, List.map_flatMap]
    rw [List.flatMap_congr ih]
  | call | store | storeLocal => simp [Stmt.mapExprs]

@[simp] theorem Stmt.loopIds_mapExprs (f : Expr F → Expr F) (body : List (Stmt F)) :
    Stmt.loopIds (body.map (Stmt.mapExprs f)) = Stmt.loopIds body := by
  have one : ∀ s : Stmt F, ((s.mapExprs f).collectLoops.map (·.1.id)) =
      s.collectLoops.map (·.1.id) := by
    intro s
    induction s using Stmt.inductTree with
    | loop header body ih =>
      simp only [Stmt.mapExprs, Stmt.mapExprsBody_eq, Stmt.collectLoops_loop, List.flatMap_map,
        List.map_cons, List.map_flatMap]
      rw [List.flatMap_congr ih]
    | ifRange val start end_ body ih =>
      simp only [Stmt.mapExprs, Stmt.mapExprsBody_eq, Stmt.collectLoops_ifRange, List.flatMap_map,
        List.map_flatMap]
      exact List.flatMap_congr ih
    | call | store | storeLocal => rfl
  simp only [Stmt.loopIds, Stmt.collectLoopsBody, List.flatMap_map, List.map_flatMap]
  exact List.flatMap_congr fun s _ => one s

theorem Expr.collectIndices_mapIndex (f : LoopId → ExprType → Expr F) (e : Expr F) :
    (e.mapIndex f).collectIndices =
      e.collectIndices.flatMap fun index => (f index.1 index.2).collectIndices := by
  induction e using Expr.inductTree with
  | index loop type => simp [Expr.mapIndex, Expr.collectIndices]
  | const | constFP | constString | loadLocal => rfl
  | binary kind lhs rhs ihL ihR => simp [Expr.mapIndex, Expr.collectIndices, ihL, ihR]
  | unary kind val ih | broadcast val vf ih => simpa [Expr.mapIndex, Expr.collectIndices] using ih
  | gep arg indices ih | load arg indices type ih =>
    simp only [Expr.mapIndex, Expr.collectIndices, Expr.mapIndexList_eq, Expr.collectIndicesList_eq,
      List.flatMap_map, List.flatMap_assoc]
    exact List.flatMap_congr ih

/-- Replaces every use of the index of `L` below the statements (`collectIndices`
followed by `replaceUseWith`). -/
def Stmt.replaceIndex (L : LoopId) (replacement : Expr F) (body : List (Stmt F)) :
    List (Stmt F) :=
  body.map (Stmt.mapExprs (Expr.replaceIndex L replacement))

mutual

/-- `Stmt::clone`.  The clone of the loop at address `id` is allocated at
`base + id`, and the context of its body maps the loop to its clone. -/
def Stmt.clone (base : LoopId) (ctx : LoopId → LoopId) : Stmt F → Stmt F
  | .loop header body =>
    .loop { header with id := base + header.id }
      (Stmt.cloneBody base (Function.update ctx header.id (base + header.id)) body)
  | .ifRange val start end_ body =>
    .ifRange (val.clone ctx) start end_ (Stmt.cloneBody base ctx body)
  | .call name params => .call name (params.map (Expr.clone ctx))
  | .store arg indices value accumulate =>
    .store arg (indices.map (Expr.clone ctx)) (value.clone ctx) accumulate
  | .storeLocal var value accumulate => .storeLocal var (value.clone ctx) accumulate

def Stmt.cloneBody (base : LoopId) (ctx : LoopId → LoopId) : List (Stmt F) → List (Stmt F)
  | [] => []
  | s :: rest => s.clone base ctx :: Stmt.cloneBody base ctx rest

end

@[simp] theorem Stmt.cloneBody_eq (base : LoopId) (ctx : LoopId → LoopId)
    (body : List (Stmt F)) : Stmt.cloneBody base ctx body = body.map (Stmt.clone base ctx) := by
  induction body with
  | nil => rfl
  | cons s rest ih => simp [Stmt.cloneBody, ih]

/-! ### Statements that are no scope -/

mutual

/-- A leaf statement occurs in the statement. -/
def Stmt.hasLeaf : Stmt F → Bool
  | .loop _ body => Stmt.hasLeafBody body
  | .ifRange _ _ _ body => Stmt.hasLeafBody body
  | _ => true

def Stmt.hasLeafBody : List (Stmt F) → Bool
  | [] => false
  | s :: rest => s.hasLeaf || Stmt.hasLeafBody rest

end

@[simp] theorem Stmt.hasLeafBody_eq (body : List (Stmt F)) :
    Stmt.hasLeafBody body = body.any Stmt.hasLeaf := by
  induction body with
  | nil => rfl
  | cons s rest ih => simp [Stmt.hasLeafBody, ih]

theorem Stmt.collectStmts_leaf {s : Stmt F} (leaf : s.isScope = false) : s.collectStmts = [s] := by
  cases s with
  | loop | ifRange => cases leaf
  | call | store | storeLocal => rfl

theorem Stmt.collectLoops_leaf {s : Stmt F} (leaf : s.isScope = false) : s.collectLoops = [] := by
  cases s with
  | loop | ifRange => cases leaf
  | call | store | storeLocal => rfl

theorem Stmt.collectRoots_leaf {s : Stmt F} (leaf : s.isScope = false) :
    s.collectRoots = s.roots := by
  rw [Stmt.collectRoots, Stmt.collectStmts_leaf leaf, List.flatMap_singleton]

theorem Stmt.clone_leaf {base : LoopId} {ctx : LoopId → LoopId} {s : Stmt F}
    (leaf : s.isScope = false) : s.clone base ctx = s.mapExprs (Expr.clone ctx) := by
  cases s with
  | loop | ifRange => cases leaf
  | call | store | storeLocal => rfl

theorem Stmt.collectLoops_clone (base : LoopId) (s : Stmt F) : ∀ ctx : LoopId → LoopId,
    (s.clone base ctx).collectLoops.map (·.1) =
      s.collectLoops.map fun loop => { loop.1 with id := base + loop.1.id } := by
  induction s using Stmt.inductTree with
  | loop header body ih =>
    intro ctx
    simp only [Stmt.clone, Stmt.cloneBody_eq, Stmt.collectLoops_loop, List.map_cons,
      List.flatMap_map, List.map_flatMap]
    rw [List.flatMap_congr fun s mem => ih s mem _]
  | ifRange val start end_ body ih =>
    intro ctx
    simp only [Stmt.clone, Stmt.cloneBody_eq, Stmt.collectLoops_ifRange, List.flatMap_map,
      List.map_flatMap]
    exact List.flatMap_congr fun s mem => ih s mem _
  | call | store | storeLocal => exact fun _ => rfl

theorem Stmt.loopIds_clone (base : LoopId) (ctx : LoopId → LoopId) (body : List (Stmt F)) :
    Stmt.loopIds (Stmt.cloneBody base ctx body) = (Stmt.loopIds body).map (base + ·) := by
  rw [Stmt.cloneBody_eq, Stmt.loopIds, Stmt.loopIds, Stmt.collectLoopsBody, Stmt.collectLoopsBody,
    List.flatMap_map, List.map_flatMap, List.map_map, List.map_flatMap]
  refine List.flatMap_congr fun s _ => ?_
  have ids := congrArg (List.map Loop.id) (s.collectLoops_clone base ctx)
  simpa only [List.map_map, Function.comp_def] using ids

theorem Expr.scalar_clone {ctx : LoopId → LoopId} {e : Expr F} :
    ∀ index ∈ (e.clone ctx).collectIndices, index.2 = .scalar .indexTy := by
  intro index mem
  rw [Expr.clone, Expr.collectIndices_mapIndex] at mem
  obtain ⟨old, _, mem⟩ := List.mem_flatMap.mp mem
  rw [List.mem_singleton.mp mem]

theorem Stmt.scalar_clone {base : LoopId} {s : Stmt F} : ∀ {ctx : LoopId → LoopId},
    ∀ e ∈ (s.clone base ctx).collectRoots, ∀ index ∈ e.collectIndices,
      index.2 = .scalar .indexTy := by
  induction s using Stmt.inductTree with
  | loop header body ih =>
    intro ctx e memRoot
    simp only [Stmt.clone, Stmt.cloneBody_eq, Stmt.collectRoots_loop, List.mem_flatMap,
      List.mem_map] at memRoot
    obtain ⟨_, ⟨s, mem, rfl⟩, memRoot⟩ := memRoot
    exact ih s mem e memRoot
  | ifRange val start end_ body ih =>
    intro ctx e memRoot
    simp only [Stmt.clone, Stmt.cloneBody_eq, Stmt.collectRoots_ifRange, List.mem_cons,
      List.mem_flatMap, List.mem_map] at memRoot
    cases memRoot with
    | inl same => exact same ▸ Expr.scalar_clone
    | inr inner =>
      obtain ⟨_, ⟨s, mem, rfl⟩, memRoot⟩ := inner
      exact ih s mem e memRoot
  | call name params =>
    intro ctx e memRoot
    simp only [Stmt.clone, Stmt.collectRoots_call, List.mem_map] at memRoot
    obtain ⟨old, _, rfl⟩ := memRoot
    exact Expr.scalar_clone
  | store arg indices value accumulate =>
    intro ctx e memRoot
    simp only [Stmt.clone, Stmt.collectRoots_store, List.mem_append, List.mem_map,
      List.mem_singleton] at memRoot
    cases memRoot with
    | inl subscript =>
      obtain ⟨old, _, rfl⟩ := subscript
      exact Expr.scalar_clone
    | inr same => exact same ▸ Expr.scalar_clone
  | storeLocal var value accumulate =>
    intro ctx e memRoot
    rw [Stmt.clone, Stmt.collectRoots_storeLocal, List.mem_singleton] at memRoot
    exact memRoot ▸ Expr.scalar_clone

mutual

/-- Puts the statements `f leaf` in the place of every statement that is no scope. -/
def Stmt.mapLeaves (f : Stmt F → List (Stmt F)) : Stmt F → List (Stmt F)
  | .loop header body => [.loop header (Stmt.mapLeavesBody f body)]
  | .ifRange val start end_ body => [.ifRange val start end_ (Stmt.mapLeavesBody f body)]
  | leaf => f leaf

def Stmt.mapLeavesBody (f : Stmt F → List (Stmt F)) : List (Stmt F) → List (Stmt F)
  | [] => []
  | s :: rest => s.mapLeaves f ++ Stmt.mapLeavesBody f rest

end

@[simp] theorem Stmt.mapLeavesBody_eq (f : Stmt F → List (Stmt F)) (body : List (Stmt F)) :
    Stmt.mapLeavesBody f body = body.flatMap (Stmt.mapLeaves f) := by
  induction body with
  | nil => rfl
  | cons s rest ih => simp [Stmt.mapLeavesBody, ih]

mutual

/-- Puts the statements `f header body` in the place of the loop `L`, in the body that
owns it (`insertBeforeStmt`, `insertAfterStmt` and `removeStmt` around `L`). -/
def Stmt.substLoop (L : LoopId) (f : Loop → List (Stmt F) → List (Stmt F)) :
    Stmt F → List (Stmt F)
  | .loop header body =>
    if header.id = L then f header body else [.loop header (Stmt.substLoopBody L f body)]
  | .ifRange val start end_ body => [.ifRange val start end_ (Stmt.substLoopBody L f body)]
  | .call name params => [.call name params]
  | .store arg indices value accumulate => [.store arg indices value accumulate]
  | .storeLocal var value accumulate => [.storeLocal var value accumulate]

def Stmt.substLoopBody (L : LoopId) (f : Loop → List (Stmt F) → List (Stmt F)) :
    List (Stmt F) → List (Stmt F)
  | [] => []
  | s :: rest => s.substLoop L f ++ Stmt.substLoopBody L f rest

end

@[simp] theorem Stmt.substLoopBody_eq (L : LoopId) (f : Loop → List (Stmt F) → List (Stmt F))
    (body : List (Stmt F)) :
    Stmt.substLoopBody L f body = body.flatMap (Stmt.substLoop L f) := by
  induction body with
  | nil => rfl
  | cons s rest ih => simp [Stmt.substLoopBody, ih]

def Program.substLoop (p : Program F) (L : LoopId)
    (f : Loop → List (Stmt F) → List (Stmt F)) : Program F :=
  { p with body := Stmt.substLoopBody L f p.body }

theorem Stmt.substLoop_of_not_mem {L : LoopId} {f : Loop → List (Stmt F) → List (Stmt F)}
    {s : Stmt F} (absent : ∀ loop ∈ s.collectLoops, loop.1.id ≠ L) : s.substLoop L f = [s] := by
  have bodies : ∀ body : List (Stmt F), (∀ s ∈ body, s.substLoop L f = [s]) →
      body.flatMap (Stmt.substLoop L f) = body := by
    intro body each
    rw [List.flatMap_congr each]
    exact List.flatMap_singleton' body
  induction s using Stmt.inductTree with
  | loop header body ih =>
    simp only [Stmt.collectLoops_loop, List.mem_cons, List.mem_flatMap] at absent
    rw [Stmt.substLoop, if_neg (absent _ (.inl rfl)), Stmt.substLoopBody_eq, bodies body]
    exact fun s mem => ih s mem fun loop memLoop => absent loop (.inr ⟨s, mem, memLoop⟩)
  | ifRange val start end_ body ih =>
    simp only [Stmt.collectLoops_ifRange, List.mem_flatMap] at absent
    rw [Stmt.substLoop, Stmt.substLoopBody_eq, bodies body]
    exact fun s mem => ih s mem fun loop memLoop => absent loop ⟨s, mem, memLoop⟩
  | call | store | storeLocal => rfl

/-- Two replacements at one loop: the second one is made in what the first one puts there. -/
theorem Stmt.substLoop_substLoop {L : LoopId} {f g : Loop → List (Stmt F) → List (Stmt F)}
    (s : Stmt F) : (s.substLoop L f).flatMap (Stmt.substLoop L g) =
      s.substLoop L fun header body => (f header body).flatMap (Stmt.substLoop L g) := by
  induction s using Stmt.inductTree with
  | loop header body ih =>
    simp only [Stmt.substLoop, Stmt.substLoopBody_eq]
    split
    · rfl
    next miss =>
      simp only [List.flatMap_singleton, Stmt.substLoop, if_neg miss, Stmt.substLoopBody_eq,
        List.flatMap_assoc]
      rw [List.flatMap_congr ih]
  | ifRange val start end_ body ih =>
    simp only [Stmt.substLoop, Stmt.substLoopBody_eq, List.flatMap_singleton, List.flatMap_assoc]
    rw [List.flatMap_congr ih]
  | call | store | storeLocal => rfl

theorem Program.substLoop_substLoop {p : Program F} {L : LoopId}
    {f g : Loop → List (Stmt F) → List (Stmt F)} : (p.substLoop L f).substLoop L g =
      p.substLoop L fun header body => (f header body).flatMap (Stmt.substLoop L g) := by
  simp only [Program.substLoop, Stmt.substLoopBody_eq, List.flatMap_assoc,
    Stmt.substLoop_substLoop]

/-! ## What a statement accesses itself -/

/-- The `StoreStmt` that the statement is, as an access. -/
def Stmt.stores : Stmt F → List (Access F)
  | .store arg indices value _ => [⟨arg, indices, value.getType⟩]
  | _ => []

def Stmt.loads (s : Stmt F) : List (Access F) := s.roots.flatMap Expr.collectLoads

def Stmt.varsWrite : Stmt F → List VarId
  | .storeLocal var _ _ => [var]
  | _ => []

def Stmt.varsRead (s : Stmt F) : List VarId := s.roots.flatMap Expr.collectLocals

/-- The statement adds to the cells that it stores to. -/
def Stmt.accumulates : Stmt F → Bool
  | .store _ _ _ accumulate => accumulate
  | _ => false

def Stmt.isCall : Stmt F → Bool
  | .call _ _ => true
  | _ => false

/-! ## Uses of an index -/

/-- The statement itself, not one below it, uses the index of the loop. -/
def Stmt.usesIndex (L : LoopId) (s : Stmt F) : Bool := s.roots.any (Expr.dependsOnLoop L)

/-- `collectLocals` finds a local variable. -/
def Stmt.usesLocals (body : List (Stmt F)) : Bool :=
  (Stmt.collectStmtsBody body).any fun s =>
    match s with
    | .storeLocal _ _ _ => true
    | s => s.roots.any fun e => !e.collectLocals.isEmpty

theorem Stmt.usesIndex_eq_false {L : LoopId} {s : Stmt F} : s.usesIndex L = false ↔
    ∀ e ∈ s.roots, ∀ index ∈ e.collectIndices, index.1 ≠ L := by
  simp only [Stmt.usesIndex, Expr.dependsOnLoop, List.any_eq_false, Bool.not_eq_true,
    decide_eq_false_iff_not]

/-- The expression has no vector-typed index of the loop. -/
def Expr.ScalarIndex (L : LoopId) (e : Expr F) : Prop :=
  ∀ index ∈ e.collectIndices, index.1 = L → index.2 = .scalar .indexTy

/-- No expression below the statements has a vector-typed index of the loop. -/
def Stmt.ScalarIndex (L : LoopId) (body : List (Stmt F)) : Prop :=
  ∀ s ∈ body, ∀ e ∈ s.collectRoots, e.ScalarIndex L

/-- No index below the statements has a vector type. -/
def Stmt.AllScalar (body : List (Stmt F)) : Prop :=
  ∀ s ∈ body, ∀ e ∈ s.collectRoots, ∀ index ∈ e.collectIndices, index.2 = .scalar .indexTy

end Bistra

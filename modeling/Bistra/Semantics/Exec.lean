import Bistra.Library.IterationSpace
import Bistra.Library.Schedule
import Bistra.Program.Traversal
import Bistra.Semantics.Machine

/-! # What programs do

The reference meaning of expressions and statements.  A `Loop` runs its body with its
index at `0, stride, 2 * stride, ...` while below `end_`; an `IfRange` runs its body
exactly when `start <= value < end_`; a store writes, or adds into, the cells of its
lanes after its value has been computed.
-/

namespace Bistra

/-- The current index of every loop. -/
abbrev Env := LoopId → Int

/-- The values of the index of a loop, in the order of its iterations. -/
def Loop.iterations (header : Loop) : List Int :=
  (IterationSpace.strided header.end_.toNat header.stride.toNat).map Int.ofNat

variable {F : Type} [Field F] [LinearOrder F]

mutual

/-- The lanes of the value of an expression.  The vector index of a loop counts up from
the index, and a vector load reads consecutive cells. -/
def Expr.eval (M : Machine F) (st : State F) (env : Env) : Expr F → Nat → Scalar F
  | .index loop type, lane => .idx (env loop + if type.isVector then lane else 0)
  | .const val, _ => .idx val
  | .constFP val, _ => .flt val
  | .constString val, _ => .idx (M.stringAddr val)
  | .binary kind lhs rhs, lane => M.binOp kind (lhs.eval M st env lane) (rhs.eval M st env lane)
  | .unary kind val, lane => M.unOp kind (val.eval M st env lane)
  | .broadcast val _, _ => val.eval M st env 0
  | .gep arg indices, _ => .idx (M.elemAddr arg (Expr.subscripts M st env indices))
  | .load arg indices type, lane =>
    (st.bufs arg (cellAt (Expr.subscripts M st env indices) lane)).as type.elementType
  | .loadLocal var type, lane => (st.locals var lane).as type.elementType

def Expr.subscripts (M : Machine F) (st : State F) (env : Env) : List (Expr F) → List Int
  | [] => []
  | e :: es => (e.eval M st env 0).toInt :: Expr.subscripts M st env es

end

@[simp] theorem Expr.subscripts_eq (M : Machine F) (st : State F) (env : Env)
    (indices : List (Expr F)) :
    Expr.subscripts M st env indices = indices.map fun e => (e.eval M st env 0).toInt := by
  induction indices with
  | nil => rfl
  | cons e es ih => simp [Expr.subscripts, ih]

def State.storedLanes (st : State F) (M : Machine F) (arg : ArgId) (subs : List Int)
    (type : ExprType) (accumulate : Bool) (value : Nat → Scalar F) (lane : Nat) : Scalar F :=
  if accumulate then
    M.binOp .add ((st.bufs arg (cellAt subs lane)).as type.elementType) (value lane)
  else value lane

def State.store (st : State F) (M : Machine F) (arg : ArgId) (subs : List Int)
    (type : ExprType) (accumulate : Bool) (value : Nat → Scalar F) : State F :=
  st.writeLanes arg subs type.width.val (st.storedLanes M arg subs type accumulate value)

def State.storeLocal (st : State F) (M : Machine F) (var : VarId) (type : ExprType)
    (accumulate : Bool) (value : Nat → Scalar F) : State F :=
  st.writeLocal var fun lane =>
    if lane < type.width.val then
      if accumulate then M.binOp .add ((st.locals var lane).as type.elementType) (value lane)
      else value lane
    else st.locals var lane

/-- The lanes of a parameter of a call. -/
def Expr.lanes (M : Machine F) (st : State F) (env : Env) (e : Expr F) : List (Scalar F) :=
  (List.range e.getType.width.val).map (e.eval M st env)

/-- The condition of an `IfRange`. -/
def inRange (start end_ : Int32) (value : Int) : Bool :=
  start.toInt ≤ value ∧ value < end_.toInt

mutual

/-- Runs a statement. -/
def Stmt.exec (M : Machine F) (env : Env) : Stmt F → State F → State F
  | .loop header body, st =>
    Schedule.run (fun i st => Stmt.execBody M (Function.update env header.id i) body st)
      header.iterations st
  | .ifRange val start end_ body, st =>
    if inRange start end_ (val.eval M st env 0).toInt then Stmt.execBody M env body st else st
  | .call name params, st => st.record ⟨name, params.map (Expr.lanes M st env)⟩
  | .store arg indices value accumulate, st =>
    st.store M arg (Expr.subscripts M st env indices) value.getType accumulate
      (value.eval M st env)
  | .storeLocal var value accumulate, st =>
    st.storeLocal M var value.getType accumulate (value.eval M st env)

def Stmt.execBody (M : Machine F) (env : Env) : List (Stmt F) → State F → State F
  | [], st => st
  | s :: rest, st => Stmt.execBody M env rest (s.exec M env st)

end

/-- Runs a program on the given buffers and locals. -/
def Program.run (M : Machine F) (p : Program F) (st : State F) : State F :=
  Stmt.execBody M (fun _ => 0) p.body st

/-- A body is a schedule of its statements. -/
theorem Stmt.execBody_eq_run (M : Machine F) (env : Env) (body : List (Stmt F)) (st : State F) :
    Stmt.execBody M env body st = Schedule.run (fun s => s.exec M env) body st := by
  induction body generalizing st with
  | nil => rfl
  | cons s rest ih => rw [Stmt.execBody, Schedule.run_cons, ih]

@[simp] theorem Stmt.execBody_nil (M : Machine F) (env : Env) (st : State F) :
    Stmt.execBody M env [] st = st := rfl

@[simp] theorem Stmt.execBody_cons (M : Machine F) (env : Env) (s : Stmt F)
    (rest : List (Stmt F)) (st : State F) :
    Stmt.execBody M env (s :: rest) st = Stmt.execBody M env rest (s.exec M env st) := rfl

@[simp] theorem Stmt.execBody_append (M : Machine F) (env : Env) (body rest : List (Stmt F))
    (st : State F) :
    Stmt.execBody M env (body ++ rest) st =
      Stmt.execBody M env rest (Stmt.execBody M env body st) := by
  simp [Stmt.execBody_eq_run]

theorem Stmt.execBody_singleton (M : Machine F) (env : Env) (s : Stmt F) (st : State F) :
    Stmt.execBody M env [s] st = s.exec M env st := rfl

theorem Stmt.execBody_flatMap {M : Machine F} {env env' : Env} {f : Stmt F → List (Stmt F)}
    {body : List (Stmt F)}
    (same : ∀ s ∈ body, ∀ st, Stmt.execBody M env' (f s) st = s.exec M env st) (st : State F) :
    Stmt.execBody M env' (body.flatMap f) st = Stmt.execBody M env body st := by
  rw [Stmt.execBody_eq_run, Stmt.execBody_eq_run, Schedule.run_flatMap]
  refine Schedule.run_congr ?_ st
  intro s mem st
  rw [← same s mem st, Stmt.execBody_eq_run]

theorem Stmt.execBody_map {M : Machine F} {env env' : Env} {f : Stmt F → Stmt F}
    {body : List (Stmt F)}
    (same : ∀ s ∈ body, ∀ st, (f s).exec M env' st = s.exec M env st) (st : State F) :
    Stmt.execBody M env' (body.map f) st = Stmt.execBody M env body st := by
  rw [Stmt.execBody_eq_run, Stmt.execBody_eq_run, Schedule.run_map]
  exact Schedule.run_congr (fun s mem st => same s mem st) st

theorem Stmt.exec_loop_congr {M : Machine F} {env env' : Env} {header header' : Loop}
    {body body' : List (Stmt F)} (iterations : header'.iterations = header.iterations)
    (same : ∀ i ∈ header.iterations, ∀ st,
      Stmt.execBody M (Function.update env' header'.id i) body' st =
        Stmt.execBody M (Function.update env header.id i) body st) (st : State F) :
    (Stmt.loop header' body').exec M env' st = (Stmt.loop header body).exec M env st := by
  rw [Stmt.exec, Stmt.exec, iterations]
  exact Schedule.run_congr same st

/-! ## Expressions -/

/-- The value of an expression only depends on the indices that occur in it. -/
theorem Expr.eval_mapIndex {M : Machine F} {st : State F} {env env' : Env}
    {f : LoopId → ExprType → Expr F} {e : Expr F}
    (same : ∀ index ∈ e.collectIndices, ∀ lane,
      (f index.1 index.2).eval M st env' lane =
        (Expr.index index.1 index.2 : Expr F).eval M st env lane) :
    (e.mapIndex f).eval M st env' = e.eval M st env := by
  funext lane
  induction e using Expr.inductTree generalizing lane with
  | index loop type => exact same (loop, type) (by simp [Expr.collectIndices]) lane
  | const | constFP | constString | loadLocal => rfl
  | binary kind lhs rhs ihL ihR =>
    simp only [Expr.collectIndices, List.mem_append] at same
    simp only [Expr.mapIndex, Expr.eval, ihL fun i mem => same i (.inl mem),
      ihR fun i mem => same i (.inr mem)]
  | unary kind val ih | broadcast val vf ih =>
    simp only [Expr.mapIndex, Expr.eval, ih same]
  | gep arg indices ih | load arg indices type ih =>
    simp only [Expr.collectIndices, Expr.collectIndicesList_eq, List.mem_flatMap] at same
    have subscripts : Expr.subscripts M st env' (Expr.mapIndexList f indices) =
        Expr.subscripts M st env indices := by
      rw [Expr.subscripts_eq, Expr.subscripts_eq, Expr.mapIndexList_eq, List.map_map]
      refine List.map_congr_left fun e mem => ?_
      rw [Function.comp, ih e mem fun i memI => same i ⟨e, mem, memI⟩]
    simp only [Expr.mapIndex, Expr.eval, subscripts]

theorem Expr.eval_congr {M : Machine F} {st : State F} {env env' : Env} {e : Expr F}
    (same : ∀ index ∈ e.collectIndices, env' index.1 = env index.1) :
    e.eval M st env' = e.eval M st env := by
  have rewritten : (e.mapIndex .index).eval M st env' = e.eval M st env :=
    Expr.eval_mapIndex fun index mem lane => by simp only [Expr.eval, same index mem]
  rwa [Expr.mapIndex_self fun _ _ => rfl] at rewritten

end Bistra

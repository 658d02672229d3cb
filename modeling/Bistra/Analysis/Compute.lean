import Mathlib.Algebra.BigOperators.Group.List.Basic
import Mathlib.Algebra.Group.Prod
import Mathlib.Algebra.Order.Field.Rat
import Mathlib.Data.UInt
import Mathlib.Tactic.Abel
import Bistra.Program.Construct
import Bistra.Semantics.Trace

/-! # The cost model

`ComputeEstimator` and `estimateCompute` of `Value.cpp`, and the memory and arithmetic operations
of an execution, which they are to count.  A result `none` is a failed assertion.
-/

namespace Bistra

/-- `ComputeCostTy`: memory operations and arithmetic operations. -/
abbrev ComputeCost := UInt64 × UInt64

variable {F : Type}

/-! ## The estimate -/

/-- A width as a cost. -/
def ExprType.cost (t : ExprType) : UInt64 := .ofNat t.width.val

mutual

/-- `ComputeEstimator::leave` on an expression, after its operands. -/
def Expr.estimate : Expr F → Option ComputeCost
  -- Loads count as one memory op and zero compute.
  | .load _ indices type => (Expr.estimates indices).map fun _ => (type.cost, 0)
  | .loadLocal _ _ => some (0, 0)
  | .binary kind lhs rhs =>
    match lhs.estimate, rhs.estimate with
    | some LHS, some RHS =>
      -- Don't count index arithmetic as arithmetic.
      let cost := if lhs.getType.isIndexTy then 0 else (Expr.binary kind lhs rhs).getType.cost
      some (LHS.1 + RHS.1, cost + LHS.2 + RHS.2)
    | _, _ => none
  | .unary kind val => val.estimate.map fun VV => (VV.1, VV.2 + (Expr.unary kind val).getType.cost)
  -- Broadcast counts as one arithmetic op.
  | .broadcast val _ => val.estimate.map fun V => (V.1, 1 + V.2)
  | .gep _ indices => (Expr.estimates indices).map fun _ => (0, 0)
  | .index _ _ | .const _ | .constFP _ => some (0, 0)
  -- "Unknown expression"
  | .constString _ => none

def Expr.estimates : List (Expr F) → Option (List ComputeCost)
  | [] => some []
  | e :: es =>
    match e.estimate, Expr.estimates es with
    | some cost, some costs => some (cost :: costs)
    | _, _ => none

end

mutual

/-- `ComputeEstimator::leave` on a statement, after what it consists of. -/
def Stmt.estimate : Stmt F → Option ComputeCost
  -- Loop expressions multiply the cost of the sum of the body cost.
  | .loop header body =>
    let tripcount := (header.end_ / header.stride).toUInt64
    (Stmt.estimates body).map fun costs =>
      costs.foldl (fun total res => (total.1 + res.1 * tripcount, total.2 + res.2 * tripcount)) (0, 0)
  -- We assume 100% success rate.
  | .ifRange val _ _ body =>
    match val.estimate, Stmt.estimates body with
    | some total, some costs =>
      some (costs.foldl (fun total res => (total.1 + res.1, total.2 + res.2)) total)
    | _, _ => none
  -- Stores are considered as one memory op, plus the cost of the value.
  | .store _ indices value accumulate =>
    match Expr.estimates indices, value.estimate with
    | some _, some total =>
      let width := value.getType.cost
      -- Accumulate is load+add+store.
      if accumulate then some (total.1 + 2 * width, total.2 + 1 * width)
      else some (total.1 + 1 * width, total.2)
    | _, _ => none
  -- Stores to locals are considered as zero memory ops.
  | .storeLocal _ value accumulate => value.estimate.map fun total =>
      if accumulate then (total.1, total.2 + value.getType.cost) else total
  -- "Unknown statement"
  | .call _ _ => none

def Stmt.estimates : List (Stmt F) → Option (List ComputeCost)
  | [] => some []
  | s :: rest =>
    match s.estimate, Stmt.estimates rest with
    | some cost, some costs => some (cost :: costs)
    | _, _ => none

end

/-- `estimateCompute` on a program: the cost that the heatmap has for it. -/
def Program.estimateCompute (p : Program F) : Option ComputeCost :=
  (Stmt.estimates p.body).map fun costs =>
    costs.foldl (fun total res => (total.1 + res.1, total.2 + res.2)) (0, 0)

/-! ## What runs -/

/-- An operation that an execution performs, on a number of lanes. -/
inductive Operation where
  | memory (lanes : Nat)
  | arithmetic (lanes : Nat)

/-- The numbers of memory and of arithmetic operations. -/
def Operation.count : Operation → Nat × Nat
  | .memory lanes => (lanes, 0)
  | .arithmetic lanes => (0, lanes)

def Operation.total (ops : List Operation) : Nat × Nat := (ops.map Operation.count).sum

mutual

def Expr.operations : Expr F → List Operation
  | .load _ indices type => Expr.operationsList indices ++ [.memory type.width.val]
  | .binary _ lhs rhs => lhs.operations ++ rhs.operations ++
      if lhs.getType.isIndexTy then [] else [.arithmetic lhs.getType.width.val]
  | .unary _ val => val.operations ++ [.arithmetic val.getType.width.val]
  | .broadcast val _ => val.operations ++ [.arithmetic 1]
  | .gep _ indices => Expr.operationsList indices
  | .index _ _ | .const _ | .constFP _ | .constString _ | .loadLocal _ _ => []

def Expr.operationsList : List (Expr F) → List Operation
  | [] => []
  | e :: es => e.operations ++ Expr.operationsList es

end

/-- The operations that the assignment of a value adds to its evaluation. -/
def Stmt.assignOperations (toMemory accumulate : Bool) (lanes : Nat) : List Operation :=
  (if toMemory then [.memory lanes] else []) ++
    if accumulate then
      (if toMemory then [.memory lanes] else []) ++ [.arithmetic lanes]
    else []

mutual

/-- The operations of an execution of a statement in which every guard holds. -/
def Stmt.operations : Stmt F → List Operation
  | .loop header body => header.iterations.flatMap fun _ => Stmt.operationsBody body
  | .ifRange val _ _ body => val.operations ++ Stmt.operationsBody body
  | .call _ params => Expr.operationsList params
  | .store _ indices value accumulate =>
    Expr.operationsList indices ++ value.operations ++
      Stmt.assignOperations true accumulate value.getType.width.val
  | .storeLocal _ value accumulate =>
    value.operations ++ Stmt.assignOperations false accumulate value.getType.width.val

def Stmt.operationsBody : List (Stmt F) → List Operation
  | [] => []
  | s :: rest => s.operations ++ Stmt.operationsBody rest

end

/-- The operations of an execution of a program in which every guard holds. -/
def Program.operations (p : Program F) : List Operation := Stmt.operationsBody p.body

@[simp] theorem Expr.operationsList_eq (es : List (Expr F)) :
    Expr.operationsList es = es.flatMap Expr.operations := by
  induction es with
  | nil => rfl
  | cons e es ih => simp [Expr.operationsList, ih]

/-! ## Executions -/

section Semantics

variable [Field F] [LinearOrder F]

mutual

/-- The operations that a statement performs from a state. -/
def Stmt.performed (M : Machine F) (env : Env) : Stmt F → State F → List Operation
  | .loop header body, st =>
    Schedule.trace (fun i => Stmt.execBody M (Function.update env header.id i) body)
      (fun i => Stmt.performedBody M (Function.update env header.id i) body) header.iterations st
  | .ifRange val start end_ body, st =>
    val.operations ++
      if inRange start end_ (val.eval M st env 0).toInt then Stmt.performedBody M env body st
      else []
  | .call name params, _ => (Stmt.call name params).operations
  | .store arg indices value accumulate, _ =>
    (Stmt.store arg indices value accumulate).operations
  | .storeLocal var value accumulate, _ => (Stmt.storeLocal var value accumulate).operations

def Stmt.performedBody (M : Machine F) (env : Env) : List (Stmt F) → State F → List Operation
  | [], _ => []
  | s :: rest, st => s.performed M env st ++ Stmt.performedBody M env rest (s.exec M env st)

end

mutual

/-- Every guard that a statement reaches from a state holds. -/
def Stmt.EntersAll (M : Machine F) (env : Env) : Stmt F → State F → Prop
  | .loop header body, st =>
    Schedule.Along (fun i => Stmt.execBody M (Function.update env header.id i) body)
      (fun i => Stmt.EntersAllBody M (Function.update env header.id i) body) header.iterations st
  | .ifRange val start end_ body, st =>
    inRange start end_ (val.eval M st env 0).toInt = true ∧ Stmt.EntersAllBody M env body st
  | _, _ => True

def Stmt.EntersAllBody (M : Machine F) (env : Env) : List (Stmt F) → State F → Prop
  | [], _ => True
  | s :: rest, st => s.EntersAll M env st ∧ Stmt.EntersAllBody M env rest (s.exec M env st)

end

theorem Stmt.performedBody_of {M : Machine F} {env : Env} {body : List (Stmt F)}
    (same : ∀ s ∈ body, ∀ st, s.EntersAll M env st → s.performed M env st = s.operations) :
    ∀ {st}, Stmt.EntersAllBody M env body st →
      Stmt.performedBody M env body st = Stmt.operationsBody body := by
  induction body with
  | nil => exact fun _ => rfl
  | cons s rest ih =>
    intro st enters
    rw [Stmt.performedBody, Stmt.operationsBody, same s List.mem_cons_self st enters.1,
      ih (fun s mem => same s (List.mem_cons_of_mem _ mem)) enters.2]

theorem Stmt.performed_eq {M : Machine F} {s : Stmt F} {env : Env} {st : State F}
    (enters : s.EntersAll M env st) : s.performed M env st = s.operations := by
  induction s using Stmt.inductTree generalizing env st with
  | loop header body ih =>
    rw [Stmt.performed, Stmt.operations]
    exact Schedule.trace_of_along (fun i _ st enters =>
      Stmt.performedBody_of (fun s mem st enters => ih s mem enters) enters) enters
  | ifRange val start end_ body ih =>
    rw [Stmt.performed, Stmt.operations, if_pos enters.1,
      Stmt.performedBody_of (fun s mem st enters => ih s mem enters) enters.2]
  | call | store | storeLocal => rfl

/-- An execution of a program in which every guard holds performs its operations. -/
theorem Program.performed_eq {M : Machine F} {p : Program F} {st : State F}
    (enters : Stmt.EntersAllBody M (fun _ => 0) p.body st) :
    Stmt.performedBody M (fun _ => 0) p.body st = p.operations :=
  Stmt.performedBody_of (fun _ _ _ enters => Stmt.performed_eq enters) enters

end Semantics

/-! ## What is not counted -/

/-- The operations of an expression that stand in subscripts. -/
def Expr.hidden : Expr F → List Operation
  | .load _ indices _ | .gep _ indices => Expr.operationsList indices
  | .binary _ lhs rhs => lhs.hidden ++ rhs.hidden
  | .unary _ val | .broadcast val _ => val.hidden
  | .index _ _ | .const _ | .constFP _ | .constString _ | .loadLocal _ _ => []

mutual

def Stmt.hidden : Stmt F → List Operation
  | .loop header body => header.iterations.flatMap fun _ => Stmt.hiddenBody body
  | .ifRange val _ _ body => val.hidden ++ Stmt.hiddenBody body
  | .call _ params => Expr.operationsList params
  | .store _ indices value _ => Expr.operationsList indices ++ value.hidden
  | .storeLocal _ value _ => value.hidden

def Stmt.hiddenBody : List (Stmt F) → List Operation
  | [] => []
  | s :: rest => s.hidden ++ Stmt.hiddenBody rest

end

def Program.hidden (p : Program F) : List Operation := Stmt.hiddenBody p.body

@[simp] theorem Stmt.hiddenBody_eq (body : List (Stmt F)) :
    Stmt.hiddenBody body = body.flatMap Stmt.hidden := by
  induction body with
  | nil => rfl
  | cons s rest ih => simp [Stmt.hiddenBody, ih]

/-- No string occurs in the expression. -/
def Expr.stringFree (e : Expr F) : Bool :=
  e.atoms.all fun
    | .constString _ => false
    | _ => true

/-- Neither calls nor strings occur in the statement. -/
def Stmt.callFree (s : Stmt F) : Bool :=
  s.collectStmts.all (fun t => !t.isCall) && s.collectRoots.all Expr.stringFree

def Program.callFree (p : Program F) : Bool := p.body.all Stmt.callFree

/-! ## Totals -/

namespace Operation

@[simp] theorem total_nil : total [] = 0 := rfl

@[simp] theorem total_append (ops ops' : List Operation) :
    total (ops ++ ops') = total ops + total ops' := by
  simp [total]

@[simp] theorem total_cons (op : Operation) (ops : List Operation) :
    total (op :: ops) = op.count + total ops := by
  simp [total]

theorem total_repeat {ι : Type} (l : List ι) (ops : List Operation) :
    total (l.flatMap fun _ => ops) = (l.length * (total ops).1, l.length * (total ops).2) := by
  induction l with
  | nil => simp [Prod.mk_zero_zero]
  | cons i l ih =>
    rw [List.flatMap_cons, total_append, ih, List.length_cons]
    ext <;> simp only [Prod.fst_add, Prod.snd_add] <;> ring

end Operation

/-- Numbers of operations as the cost model stores them. -/
def toCost (n : Nat × Nat) : ComputeCost := (.ofNat n.1, .ofNat n.2)

@[simp] theorem toCost_zero : toCost 0 = 0 := rfl

@[simp] theorem toCost_add (m n : Nat × Nat) : toCost (m + n) = toCost m + toCost n := by
  simp [toCost, UInt64.ofNat_add]

theorem foldl_cost (costs : List ComputeCost) (total : ComputeCost) :
    costs.foldl (fun total res => (total.1 + res.1, total.2 + res.2)) total =
      total + costs.sum := by
  induction costs generalizing total with
  | nil => ext <;> simp
  | cons res costs ih =>
    rw [List.foldl_cons, ih, List.sum_cons]
    ext <;> simp [add_assoc]

theorem foldl_cost_mul (k : UInt64) (costs : List ComputeCost) (total : ComputeCost) :
    costs.foldl (fun total res => (total.1 + res.1 * k, total.2 + res.2 * k)) total =
      (total.1 + costs.sum.1 * k, total.2 + costs.sum.2 * k) := by
  induction costs generalizing total with
  | nil => simp
  | cons res costs ih =>
    rw [List.foldl_cons, ih, List.sum_cons]
    simp only [Prod.fst_add, Prod.snd_add, Prod.mk.injEq]
    constructor <;> grind

/-- A verified loop runs as often as the cost model says. -/
theorem Loop.length_iterations {header : Loop} (verified : header.verify = true) :
    UInt64.ofNat header.iterations.length = (header.end_ / header.stride).toUInt64 := by
  obtain ⟨-, ⟨count, same⟩, positive, -⟩ := Loop.verify_iff.mp verified
  have length : header.iterations.length = header.end_.toNat / header.stride.toNat := by
    rw [Loop.iterations, same, Nat.mul_comm, IterationSpace.strided_mul positive,
      Nat.mul_div_cancel _ positive]
    simp
  have small : header.end_.toNat / header.stride.toNat < 2 ^ 64 :=
    Nat.lt_of_le_of_lt (Nat.div_le_self _ _) (by have := header.end_.toNat_lt; omega)
  rw [length, UInt64.ofNat_eq_iff_mod_eq_toNat, Nat.mod_eq_of_lt small]
  simp

/-! ## The estimate is right up to what is hidden -/

theorem Expr.estimates_isSome {es : List (Expr F)}
    (each : ∀ e ∈ es, e.estimate.isSome = e.stringFree) :
    (Expr.estimates es).isSome = es.all Expr.stringFree := by
  induction es with
  | nil => rfl
  | cons e es ih =>
    have first := each e List.mem_cons_self
    have rest := ih fun e mem => each e (List.mem_cons_of_mem _ mem)
    rw [List.all_cons, ← first, ← rest, Expr.estimates]
    cases e.estimate <;> cases Expr.estimates es <;> rfl

theorem Expr.estimate_isSome (e : Expr F) : e.estimate.isSome = e.stringFree := by
  induction e using Expr.inductTree with
  | index | const | constFP | constString | loadLocal => rfl
  | binary kind lhs rhs ihL ihR =>
    rw [Expr.stringFree, Expr.atoms, List.all_append]
    rw [Expr.stringFree] at ihL ihR
    rw [← ihL, ← ihR, Expr.estimate]
    cases lhs.estimate <;> cases rhs.estimate <;> rfl
  | unary kind val ih | broadcast val vf ih =>
    rw [Expr.estimate, Option.isSome_map]
    exact ih
  | gep arg indices ih | load arg indices type ih =>
    rw [Expr.estimate, Option.isSome_map, Expr.estimates_isSome ih, Expr.stringFree, Expr.atoms,
      Expr.atomsList_eq, List.all_flatMap]
    rfl

theorem Expr.estimate_total {e : Expr F} {cost : ComputeCost} (estimated : e.estimate = some cost) :
    toCost (Operation.total e.operations) = cost + toCost (Operation.total e.hidden) := by
  induction e using Expr.inductTree generalizing cost with
  | index | const | constFP | loadLocal =>
    cases estimated
    rfl
  | constString => cases estimated
  | binary kind lhs rhs ihL ihR =>
    simp only [Expr.estimate] at estimated
    split at estimated
    next LHS RHS left right =>
      cases estimated
      simp only [Expr.operations, Expr.hidden, Operation.total_append, toCost_add, ihL left,
        ihR right]
      by_cases index : lhs.getType.isIndexTy = true
      · rw [if_pos index, if_pos index]
        ext <;> simp <;> grind
      · rw [if_neg index, if_neg index]
        ext <;> simp [toCost, Operation.count, ExprType.cost, Expr.getType] <;> grind
    next => cases estimated
  | unary kind val ih =>
    obtain ⟨VV, value, rfl⟩ := Option.map_eq_some_iff.mp estimated
    simp only [Expr.operations, Expr.hidden, Operation.total_append, toCost_add, ih value]
    ext <;> simp [toCost, Operation.count, ExprType.cost, Expr.getType]
    grind
  | broadcast val vf ih =>
    obtain ⟨V, value, rfl⟩ := Option.map_eq_some_iff.mp estimated
    simp only [Expr.operations, Expr.hidden, Operation.total_append, toCost_add, ih value]
    ext <;> simp [toCost, Operation.count]
    grind
  | gep arg indices ih =>
    obtain ⟨_, -, rfl⟩ := Option.map_eq_some_iff.mp estimated
    ext <;> simp [Expr.operations, Expr.hidden]
  | load arg indices type ih =>
    obtain ⟨_, -, rfl⟩ := Option.map_eq_some_iff.mp estimated
    ext <;> simp [Expr.operations, Expr.hidden, toCost, Operation.count, ExprType.cost]
    grind

theorem Stmt.estimates_isSome {body : List (Stmt F)}
    (each : ∀ s ∈ body, s.estimate.isSome = s.callFree) :
    (Stmt.estimates body).isSome = body.all Stmt.callFree := by
  induction body with
  | nil => rfl
  | cons s rest ih =>
    have first := each s List.mem_cons_self
    have later := ih fun s mem => each s (List.mem_cons_of_mem _ mem)
    rw [List.all_cons, ← first, ← later, Stmt.estimates]
    cases s.estimate <;> cases Stmt.estimates rest <;> rfl

theorem Stmt.estimate_isSome (s : Stmt F) : s.estimate.isSome = s.callFree := by
  induction s using Stmt.inductTree with
  | loop header body ih =>
    rw [Stmt.estimate, Option.isSome_map, Stmt.estimates_isSome ih, Bool.eq_iff_iff]
    simp only [Stmt.callFree, Stmt.collectStmts, Stmt.collectStmtsBody_eq, Stmt.collectRoots_loop,
      List.all_cons, List.all_flatMap, Stmt.isCall, Bool.and_eq_true, List.all_eq_true,
      Bool.not_false, true_and]
    exact forall₂_and
  | ifRange val start end_ body ih =>
    have condition := Expr.estimate_isSome val
    have inner := Stmt.estimates_isSome ih
    have both : (Stmt.ifRange val start end_ body).estimate.isSome =
        (val.estimate.isSome && (Stmt.estimates body).isSome) := by
      rw [Stmt.estimate]
      cases val.estimate <;> cases Stmt.estimates body <;> rfl
    rw [both, condition, inner, Bool.eq_iff_iff]
    simp only [Stmt.callFree, Stmt.collectStmts, Stmt.collectStmtsBody_eq,
      Stmt.collectRoots_ifRange, List.all_cons, List.all_flatMap, Stmt.isCall, Bool.and_eq_true,
      List.all_eq_true, Bool.not_false, true_and, forall₂_and]
    tauto
  | call name params => simp [Stmt.estimate, Stmt.callFree, Stmt.collectStmts, Stmt.isCall]
  | store arg indices value accumulate =>
    have subscripts := Expr.estimates_isSome fun e (_ : e ∈ indices) => Expr.estimate_isSome e
    have both : (Stmt.store arg indices value accumulate).estimate.isSome =
        ((Expr.estimates indices).isSome && value.estimate.isSome) := by
      rw [Stmt.estimate]
      cases Expr.estimates indices <;> cases value.estimate <;> cases accumulate <;> rfl
    rw [both, subscripts, Expr.estimate_isSome]
    simp [Stmt.callFree, Stmt.collectStmts, Stmt.isCall]
  | storeLocal var value accumulate =>
    rw [Stmt.estimate, Option.isSome_map, Expr.estimate_isSome]
    simp [Stmt.callFree, Stmt.collectStmts, Stmt.isCall]

theorem Stmt.estimates_total {body : List (Stmt F)}
    (each : ∀ s ∈ body, ∀ {cost}, s.estimate = some cost →
      toCost (Operation.total s.operations) = cost + toCost (Operation.total s.hidden)) :
    ∀ {costs}, Stmt.estimates body = some costs →
      toCost (Operation.total (Stmt.operationsBody body)) =
        costs.sum + toCost (Operation.total (Stmt.hiddenBody body)) := by
  induction body with
  | nil =>
    intro costs estimated
    cases estimated
    rfl
  | cons s rest ih =>
    intro costs estimated
    simp only [Stmt.estimates] at estimated
    split at estimated
    next cost costs first later =>
      cases estimated
      rw [Stmt.operationsBody, Stmt.hiddenBody, Operation.total_append, Operation.total_append,
        toCost_add, toCost_add, each s List.mem_cons_self first,
        ih (fun s mem => each s (List.mem_cons_of_mem _ mem)) later, List.sum_cons]
      ext <;> simp <;> grind
    next => cases estimated

theorem toCost_repeat (k : Nat) (n : Nat × Nat) :
    toCost (k * n.1, k * n.2) = ((toCost n).1 * .ofNat k, (toCost n).2 * .ofNat k) := by
  simp [toCost, UInt64.ofNat_mul, UInt64.mul_comm]

theorem Stmt.estimate_total {s : Stmt F} {cost : ComputeCost}
    (verified : ∀ loop ∈ s.collectLoops, loop.1.verify = true) (estimated : s.estimate = some cost) :
    toCost (Operation.total s.operations) = cost + toCost (Operation.total s.hidden) := by
  induction s using Stmt.inductTree generalizing cost with
  | loop header body ih =>
    simp only [Stmt.collectLoops_loop, List.mem_cons, List.mem_flatMap] at verified
    obtain ⟨costs, estimates, rfl⟩ := Option.map_eq_some_iff.mp estimated
    have whole := Stmt.estimates_total
      (fun s mem _ => ih s mem fun loop memLoop => verified loop (.inr ⟨s, mem, memLoop⟩)) estimates
    -- The number of rounds that the estimate multiplies by is the number of iterations.
    rw [Stmt.operations, Stmt.hidden, Operation.total_repeat, Operation.total_repeat,
      toCost_repeat, toCost_repeat, whole, Loop.length_iterations (verified _ (.inl rfl)),
      foldl_cost_mul]
    ext <;> simp <;> grind
  | ifRange val start end_ body ih =>
    simp only [Stmt.collectLoops_ifRange, List.mem_flatMap] at verified
    simp only [Stmt.estimate] at estimated
    split at estimated
    next total costs condition estimates =>
      cases estimated
      have whole := Stmt.estimates_total
        (fun s mem _ => ih s mem fun loop memLoop => verified loop ⟨s, mem, memLoop⟩) estimates
      rw [Stmt.operations, Stmt.hidden, Operation.total_append, Operation.total_append, toCost_add,
        toCost_add, whole, Expr.estimate_total condition, foldl_cost]
      ext <;> simp <;> grind
    next => cases estimated
  | call name params => cases estimated
  | store arg indices value accumulate =>
    simp only [Stmt.estimate] at estimated
    split at estimated
    next costs total subscripts valued =>
      simp only [Stmt.operations, Stmt.hidden, Operation.total_append, toCost_add,
        Expr.estimate_total valued]
      -- An accumulating store loads first and adds one operation for the sum.
      cases accumulate <;> cases estimated <;>
        ext <;> simp [Stmt.assignOperations, toCost, Operation.count, ExprType.cost] <;> grind
    next => cases estimated
  | storeLocal var value accumulate =>
    obtain ⟨total, valued, rfl⟩ := Option.map_eq_some_iff.mp estimated
    simp only [Stmt.operations, Stmt.hidden, Operation.total_append, toCost_add,
      Expr.estimate_total valued]
    cases accumulate with
    | false => ext <;> simp [Stmt.assignOperations]
    | true =>
      ext <;> simp [Stmt.assignOperations, toCost, Operation.count, ExprType.cost]
      grind

/-! ## Programs -/

section Programs

variable [Field F] [LinearOrder F]

/-- The cost that is recorded for the program is, modulo `2 ^ 64`, that of every execution in which
every guard holds; where none can hold, it is counted as if all did. -/
structure Program.CostCounted (p : Program F) : Prop where
  whole : p.estimateCompute = some (toCost (Operation.total p.operations))
  executions : ∀ (M : Machine F) (st : State F), Stmt.EntersAllBody M (fun _ => 0) p.body st →
    p.estimateCompute =
      some (toCost (Operation.total (Stmt.performedBody M (fun _ => 0) p.body st)))

theorem Program.costCounted_of_whole {p : Program F}
    (whole : p.estimateCompute = some (toCost (Operation.total p.operations))) : p.CostCounted where
  whole := whole
  executions _ _ enters := by rw [Program.performed_eq enters, whole]

/-- The cost model counts what runs exactly if neither calls nor strings occur in the program and
the operations in its subscripts are multiples of `2 ^ 64`, such as none. -/
theorem Program.costCounted_iff {p : Program F} (verified : p.verify = true) :
    p.CostCounted ↔ p.callFree = true ∧
      2 ^ 64 ∣ (Operation.total p.hidden).1 ∧ 2 ^ 64 ∣ (Operation.total p.hidden).2 := by
  have returns : (Stmt.estimates p.body).isSome = p.callFree :=
    Stmt.estimates_isSome fun s _ => Stmt.estimate_isSome s
  refine Iff.trans ⟨Program.CostCounted.whole, Program.costCounted_of_whole⟩ ?_
  rw [Program.estimateCompute]
  cases estimates : Stmt.estimates p.body with
  | none =>
    rw [estimates] at returns
    simp [← returns]
  | some costs =>
    rw [estimates] at returns
    have whole := Stmt.estimates_total (fun s mem _ =>
      Stmt.estimate_total (Stmt.verify_loops (Program.verify_body verified s mem))) estimates
    -- The estimate is the whole exactly if what is hidden vanishes.
    rw [Option.map_some, foldl_cost, Option.some_inj, Program.operations, whole, ← Program.hidden,
      ← returns, Option.isSome_some]
    have vanishes : ∀ n : Nat, UInt64.ofNat n = 0 ↔ 2 ^ 64 ∣ n := fun n => by
      rw [UInt64.ofNat_eq_iff_mod_eq_toNat, Nat.dvd_iff_mod_eq_zero]
      rfl
    rw [Prod.ext_iff]
    simp [toCost, vanishes]

end Programs

/-- `for (i in 0 .. 4) { A[i] += B[index] * B[index]; }` -/
def addSquares (index : Expr ℚ) : Program ℚ where
  name := "add_squares"
  args := [⟨"A", ⟨[4], ["x"], .float32Ty, oneDim⟩⟩, ⟨"B", ⟨[4], ["x"], .float32Ty, oneDim⟩⟩,
    ⟨"P", ⟨[4], ["x"], .indexTy, oneDim⟩⟩]
  vars := []
  body := [.loop ⟨0, "i", 4, 1⟩ [.store 0 [.indexOf 0]
    (.binary .mul (.load 1 [index] (.scalar .float32Ty)) (.load 1 [index] (.scalar .float32Ty)))
    true]]

theorem costCounted_addSquares : (addSquares (.indexOf 0)).CostCounted :=
  (Program.costCounted_iff (by decide +kernel)).mpr (by decide +kernel)

/-- `print(4);` -/
def callPrint : Program ℚ where
  name := "call_print"
  args := []
  vars := []
  body := [.call "print" [.const 4]]

/-- A call fails an assertion, and the loads of `P` in `B[P[i]]` are not counted. -/
theorem costCounted_fails :
    (callPrint.verify = true ∧ ¬ callPrint.CostCounted) ∧
      (addSquares (.load 2 [.indexOf 0] (.scalar .indexTy))).verify = true ∧
        ¬ (addSquares (.load 2 [.indexOf 0] (.scalar .indexTy))).CostCounted := by
  refine ⟨⟨by decide +kernel, fun counted => ?_⟩, by decide +kernel, fun counted => ?_⟩
  · exact absurd counted.whole (by decide +kernel)
  · exact absurd counted.whole (by decide +kernel)

end Bistra

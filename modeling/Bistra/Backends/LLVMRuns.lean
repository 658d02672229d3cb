import Bistra.Backends.LLVMLeaves

/-! # The generated code computes what the program means

The generated blocks with the code for the expressions and the leaf statements in them.  The branch
of a guard is always taken, so the code computes the program without its guards
(`Program.runUnguarded`); that is what the program means as long as every guard around a leaf holds.
On the way no instruction goes wrong, as long as no arithmetic on indices leaves 64 bits and no
access leaves its tensor.
-/

namespace Bistra

open ControlFlow

variable {F : Type} [Field F] [LinearOrder F]

/-! ## The machine -/

/-- The index cells, and the memory as long as nothing has gone wrong. -/
structure Running (F : Type) where
  cells : Cells
  memory : Option (Memory F)

def Instr.perform (p : Program F) (M : Machine F) : Instr F → Running F → Running F
  -- The memory of a new cell holds anything; the emitter stores zero right after.
  | .alloca _, r => r
  | .storeIndex L val, r => { r with cells := Function.update r.cells L val }
  | .addIndex L step, r => { r with cells := Function.update r.cells L (r.cells L + step) }
  | .leaf s _, r => { r with memory := r.memory.bind (s.runLeaf p M r.cells) }

/-- The comparisons; a guard whose index goes wrong has no value to compare. -/
def Cond.holds (p : Program F) (M : Machine F) : Cond F → Running F → Bool
  | .indexBelow L upperBound, r => (r.cells L).slt upperBound
  | .inRange index first second, r =>
    match r.memory.bind (index.runIndex p M r.cells) with
    -- `CreateOr(a, b)` of `ICMP_SGE` and `ICMP_SLT`.
    | some indexVal => first.sle indexVal || indexVal.slt second
    | none => false

abbrev Program.CodeSteps (p : Program F) (M : Machine F) (G : FlowGraph (Instr F) (Cond F)) :
    Config (Running F) → Config (Running F) → Prop :=
  Steps G (Instr.perform p M) (Cond.holds p M)

/-! ## The program without its guards -/

mutual

/-- Runs a statement, with the body of every guard. -/
def Stmt.execUnguarded (M : Machine F) (env : Env) : Stmt F → State F → State F
  | .loop header body, st =>
    Schedule.run (fun i => Stmt.execUnguardedBody M (Function.update env header.id i) body)
      header.iterations st
  | .ifRange _ _ _ body, st => Stmt.execUnguardedBody M env body st
  | leaf, st => leaf.exec M env st

def Stmt.execUnguardedBody (M : Machine F) (env : Env) : List (Stmt F) → State F → State F
  | [], st => st
  | s :: rest, st => Stmt.execUnguardedBody M env rest (s.execUnguarded M env st)

end

mutual

/-- Every leaf statement and every guard is safe where it runs. -/
def Stmt.SafeRun (p : Program F) (M : Machine F) (env : Env) : Stmt F → State F → Prop
  | .loop header body, st =>
    Schedule.Along (fun i => Stmt.execUnguardedBody M (Function.update env header.id i) body)
      (fun i => Stmt.SafeRunBody p M (Function.update env header.id i) body) header.iterations st
  | .ifRange val _ _ body, st => val.Safe p M st env ∧ Stmt.SafeRunBody p M env body st
  | leaf, st => leaf.LeafSafe p M env st

def Stmt.SafeRunBody (p : Program F) (M : Machine F) (env : Env) : List (Stmt F) → State F → Prop
  | [], _ => True
  | s :: rest, st => s.SafeRun p M env st ∧ Stmt.SafeRunBody p M env rest (s.execUnguarded M env st)

end

mutual

instance Stmt.decidableSafeRun (p : Program F) (M : Machine F) (env : Env) :
    (s : Stmt F) → (st : State F) → Decidable (s.SafeRun p M env st)
  | .loop header body, st =>
    have := fun i st => Stmt.decidableSafeRunBody p M (Function.update env header.id i) body st
    inferInstanceAs (Decidable (Schedule.Along _ _ _ st))
  | .ifRange _ _ _ body, st =>
    have := Stmt.decidableSafeRunBody p M env body st
    inferInstanceAs (Decidable (_ ∧ _))
  | .store arg indices value accumulate, st =>
    inferInstanceAs (Decidable ((Stmt.store arg indices value accumulate).LeafSafe p M env st))
  | .storeLocal var value accumulate, st =>
    inferInstanceAs (Decidable ((Stmt.storeLocal var value accumulate).LeafSafe p M env st))
  | .call name params, st =>
    inferInstanceAs (Decidable ((Stmt.call name params).LeafSafe p M env st))

instance Stmt.decidableSafeRunBody (p : Program F) (M : Machine F) (env : Env) :
    (body : List (Stmt F)) → (st : State F) → Decidable (Stmt.SafeRunBody p M env body st)
  | [], _ => .isTrue trivial
  | s :: rest, st =>
    have := s.decidableSafeRun p M env st
    have := Stmt.decidableSafeRunBody p M env rest (s.execUnguarded M env st)
    inferInstanceAs (Decidable (_ ∧ _))

end

mutual

/-- The emitter has code for the statement. -/
def Stmt.emittable : Stmt F → Bool
  | .loop _ body => Stmt.emittableBody body
  | .ifRange val _ _ body => val.emittable && val.getType.isIndexTy && Stmt.emittableBody body
  | leaf => leaf.emittableLeaf

def Stmt.emittableBody : List (Stmt F) → Bool
  | [] => true
  | s :: rest => s.emittable && Stmt.emittableBody rest

end

def Program.runUnguarded (M : Machine F) (p : Program F) (st : State F) : State F :=
  Stmt.execUnguardedBody M (fun _ => 0) p.body st

def Program.SafeRun (M : Machine F) (p : Program F) (st : State F) : Prop :=
  Stmt.SafeRunBody p M (fun _ => 0) p.body st

omit [Field F] [LinearOrder F] in
@[simp] theorem Stmt.emittableBody_eq (body : List (Stmt F)) :
    Stmt.emittableBody body = body.all Stmt.emittable := by
  induction body with
  | nil => rfl
  | cons s rest ih => rw [Stmt.emittableBody, ih, List.all_cons]

theorem Stmt.execUnguardedBody_eq_run (M : Machine F) (env : Env) (body : List (Stmt F))
    (st : State F) :
    Stmt.execUnguardedBody M env body st = Schedule.run (fun s => s.execUnguarded M env) body st := by
  induction body generalizing st with
  | nil => rfl
  | cons s rest ih => rw [Stmt.execUnguardedBody, Schedule.run_cons, ih]

theorem Stmt.safeRunBody_eq {p : Program F} {M : Machine F} {env : Env} {body : List (Stmt F)}
    {st : State F} : Stmt.SafeRunBody p M env body st =
      Schedule.Along (fun s => s.execUnguarded M env) (fun s => s.SafeRun p M env) body st := by
  induction body generalizing st with
  | nil => rfl
  | cons s rest ih => rw [Stmt.SafeRunBody, Schedule.Along, ih]

theorem Stmt.execUnguarded_leafless {M : Machine F} {s : Stmt F} (leafless : s.hasLeaf = false)
    (env : Env) (st : State F) : s.execUnguarded M env st = st := by
  induction s using Stmt.inductTree generalizing env st with
  | loop header body ih =>
    rw [Stmt.hasLeaf, Stmt.hasLeafBody_eq, List.any_eq_false] at leafless
    rw [Stmt.execUnguarded]
    refine Schedule.run_id (fun i _ st => ?_) st
    rw [Stmt.execUnguardedBody_eq_run]
    exact Schedule.run_id (fun s mem st => ih s mem (by simpa using leafless s mem) _ st) st
  | ifRange val start end_ body ih =>
    rw [Stmt.hasLeaf, Stmt.hasLeafBody_eq, List.any_eq_false] at leafless
    rw [Stmt.execUnguarded, Stmt.execUnguardedBody_eq_run]
    exact Schedule.run_id (fun s mem st => ih s mem (by simpa using leafless s mem) _ st) st
  | call | store | storeLocal => cases leafless

theorem Stmt.execUnguardedBody_leafless {M : Machine F} {body : List (Stmt F)}
    (leafless : Stmt.hasLeafBody body = false) (env : Env) (st : State F) :
    Stmt.execUnguardedBody M env body st = st := by
  rw [Stmt.hasLeafBody_eq, List.any_eq_false] at leafless
  rw [Stmt.execUnguardedBody_eq_run]
  exact Schedule.run_id
    (fun s mem st => Stmt.execUnguarded_leafless (by simpa using leafless s mem) env st) st

theorem Stmt.execUnguarded_eq {M : Machine F} {s : Stmt F} {env : Env} {st : State F}
    (guards : s.GuardsHold M env st) : s.execUnguarded M env st = s.exec M env st := by
  induction s using Stmt.inductTree generalizing env st with
  | loop header body ih =>
    rw [Stmt.GuardsHold] at guards
    rw [Stmt.execUnguarded, Stmt.exec]
    refine Schedule.run_of_along (fun i _ st holds => ?_) guards
    rw [Stmt.guardsHoldBody_eq] at holds
    rw [Stmt.execUnguardedBody_eq_run, Stmt.execBody_eq_run]
    exact Schedule.run_of_along (fun s mem st holds => ih s mem holds) holds
  | ifRange val start end_ body ih =>
    rw [Stmt.GuardsHold] at guards
    rw [Stmt.execUnguarded, Stmt.exec]
    split at guards
    next holds =>
      rw [if_pos holds]
      rw [Stmt.guardsHoldBody_eq] at guards
      rw [Stmt.execUnguardedBody_eq_run, Stmt.execBody_eq_run]
      exact Schedule.run_of_along (fun s mem st holds => ih s mem holds) guards
    next fails =>
      rw [if_neg fails]
      exact Stmt.execUnguardedBody_leafless guards env st
  | call | store | storeLocal => rfl

theorem Program.runUnguarded_eq {M : Machine F} {p : Program F} {st : State F}
    (guards : p.GuardsHold M st) : p.runUnguarded M st = p.run M st := by
  rw [Program.GuardsHold, Stmt.guardsHoldBody_eq] at guards
  rw [Program.runUnguarded, Program.run, Stmt.execUnguardedBody_eq_run, Stmt.execBody_eq_run]
  exact Schedule.run_of_along (fun _ _ _ holds => Stmt.execUnguarded_eq holds) guards

/-! ## Pieces of code -/

section Pieces

variable {p : Program F} {M : Machine F} {base : ArgId → Int}

/-- Nothing has gone wrong, and the memory represents the state. -/
def Running.Holds (r : Running F) (p : Program F) (M : Machine F) (base : ArgId → Int)
    (st : State F) : Prop :=
  ∃ mem : Memory F, r.memory = some mem ∧ mem.Represents p M base st

theorem leaf_computes (emittable : p.Emittable) (places : M.Places p base) {s : Stmt F}
    {scope : List LoopId} {env : Env} {st : State F} {r : Running F} (leaf : s.isScope = false)
    (verified : s.verify p.decls scope = true) (supported : s.emittableLeaf = true)
    (called : ∀ call ∈ s.collectCalls, call ∈ Stmt.collectCallsBody p.body)
    (safe : s.LeafSafe p M env st) (agree : r.cells.Agree scope env) (holds : r.Holds p M base st) :
    ((Instr.leaf s scope).perform p M r).Holds p M base (s.exec M env st) := by
  obtain ⟨mem, running, represents⟩ := holds
  have computes : ∃ P : List (LLVMValue F) → Memory F → Prop, P [] mem ∧
      SingleAssignment.Computes (ValueInstr.act M r.cells) P (s.emitLeaf p)
        fun _ _ m => m.Represents p M base (s.exec M env st) := by
    cases s with
    | loop | ifRange => cases leaf
    | call name params =>
      exact ⟨_, rfl, emitCall_computes emittable places represents agree
        (called _ List.mem_cons_self) verified supported safe⟩
    | store arg indices value accumulate =>
      exact ⟨_, ⟨rfl, trivial⟩,
        emitStore_computes emittable places represents agree verified supported safe⟩
    | storeLocal var value accumulate =>
      exact ⟨_, ⟨rfl, trivial⟩,
        emitStoreLocal_computes emittable places represents agree verified supported safe⟩
  obtain ⟨P, pre, computes⟩ := computes
  obtain ⟨_, code, emitted, runs⟩ := computes.whole
  obtain ⟨regs, mem', ran, after⟩ := runs mem pre
  exact ⟨mem', by simp [Instr.perform, running, Stmt.runLeaf, emitted, ran], after⟩

/-- The branch of a guard is taken, because every value satisfies its condition. -/
theorem guard_taken (emittable : p.Emittable) (places : M.Places p base) {val : Expr F}
    {start end_ : Int32} (ordered : start ≤ end_) {scope : List LoopId} {env : Env} {st : State F}
    {r : Running F} (verified : val.verify p.decls scope = true) (supported : val.emittable = true)
    (index : val.getType.isIndexTy = true) (safe : val.Safe p M st env)
    (agree : r.cells.Agree scope env) (holds : r.Holds p M base st) :
    (Cond.inRange val (BitVec.ofInt 64 start.toInt) (BitVec.ofInt 64 end_.toInt)).holds p M r =
      true := by
  obtain ⟨mem, running, represents⟩ := holds
  obtain ⟨op, code, emitted, runs⟩ := (index_yields index
    (Expr.generate_yields emittable places represents agree val verified supported safe)).whole
  obtain ⟨regs, mem', ran, -, v, read, rfl⟩ := runs mem ⟨rfl, trivial⟩
  simp only [Cond.holds, running, Option.bind_some, Expr.runIndex, emitted, ran, read]
  exact inRange_holds ordered _

def Program.codeMachine (p : Program F) (M : Machine F) : CodeMachine F (Running F) where
  act := Instr.perform p M
  test := Cond.holds p M
  cells := Running.cells
  setCells r cells := { r with cells := cells }
  cells_setCells _ _ := rfl
  alloca _ _ := rfl
  storeIndex _ _ _ := rfl
  addIndex _ _ _ := rfl
  cells_leaf _ _ _ := rfl
  indexBelow _ _ _ := rfl

/-- The statement can be run: the emitter has code for it, its calls are calls of the program, and it
is safe. -/
structure Stmt.Runs (p : Program F) (M : Machine F) (env : Env) (s : Stmt F) (st : State F) : Prop where
  supported : s.emittable = true
  called : ∀ call ∈ s.collectCalls, call ∈ Stmt.collectCallsBody p.body
  safe : s.SafeRun p M env st

theorem Stmt.runsBody {env : Env} {body : List (Stmt F)} {st : State F}
    (supported : Stmt.emittableBody body = true)
    (called : ∀ call ∈ Stmt.collectCallsBody body, call ∈ Stmt.collectCallsBody p.body)
    (safe : Stmt.SafeRunBody p M env body st) :
    Schedule.Along (fun s => s.execUnguarded M env) (fun s => s.Runs p M env) body st := by
  rw [Stmt.emittableBody_eq, List.all_eq_true] at supported
  rw [Stmt.collectCallsBody_eq] at called
  rw [Stmt.safeRunBody_eq] at safe
  exact Schedule.Along.imp (fun s mem st safe =>
    ⟨supported s mem, fun call here => called call (List.mem_flatMap.mpr ⟨s, mem, here⟩), safe⟩) safe

def Program.codeMeaning (emittable : p.Emittable) (places : M.Places p base) :
    CodeMeaning (p.codeMachine M) p.decls (State F) where
  holds r st := r.Holds p M base st
  run _ env s st := s.execUnguarded M env st
  safe _ env s st := s.Runs p M env st
  holds_setCells _ holds := holds
  run_loop scope env header body st := by
    rw [Stmt.execUnguarded]
    exact Schedule.run_congr (fun i _ st => Stmt.execUnguardedBody_eq_run M _ body st) st
  run_ifRange scope env val start end_ body st := by
    rw [Stmt.execUnguarded, Stmt.execUnguardedBody_eq_run]
  safe_loop {scope env header body st} runs := by
    have safe := runs.safe
    simp only [Stmt.SafeRun, funext fun i => funext fun st => Stmt.execUnguardedBody_eq_run M
      (Function.update env header.id i) body st] at safe
    exact Schedule.Along.imp (fun i _ st safe => Stmt.runsBody runs.supported runs.called safe) safe
  safe_ifRange {scope env val start end_ body st} runs := by
    have supported := runs.supported
    rw [Stmt.emittable, Bool.and_eq_true] at supported
    exact Stmt.runsBody supported.2 runs.called runs.safe.2
  leaf {scope env s r st} leaf verified runs agree holds := by
    cases s with
    | loop | ifRange => cases leaf
    | call | store | storeLocal =>
      exact leaf_computes emittable places rfl verified runs.supported runs.called runs.safe agree holds
  guard {scope env val start end_ body r st} verified ordered runs agree holds := by
    have supported := runs.supported
    rw [Stmt.emittable, Bool.and_eq_true, Bool.and_eq_true] at supported
    exact guard_taken emittable places ordered verified supported.1.1 supported.1.2 runs.safe.1 agree
      holds

end Pieces

/-! ## Programs -/

/-- The generated code halts in a memory that represents the given state. -/
def Program.CodeComputes (p : Program F) (M : Machine F) (base : ArgId → Int) (cells : Cells)
    (mem : Memory F) (st : State F) : Prop :=
  ∃ c, p.CodeSteps M p.emit ⟨0, 0, ⟨cells, some mem⟩⟩ c ∧ Halted p.emit c ∧ c.state.Holds p M base st

/-- `for (i in 0 .. 2) { x = B[i * 2]; if (i in 0 .. 2) { A[i + 1] += x * 2.0; } show(i);
show(i + 1); }`. -/
def scaledCopy : Program ℚ where
  name := "scaled_copy"
  args := [⟨"A", ⟨[4], ["n"], .float32Ty, oneDim⟩⟩, ⟨"B", ⟨[4], ["n"], .float32Ty, oneDim⟩⟩]
  vars := [⟨"x", .scalar .float32Ty⟩]
  body := [.loop ⟨0, "i", 2, 1⟩
    [.storeLocal 0 (.load 1 [.binary .mul (.indexOf 0) (.const 2)] (.scalar .float32Ty)) false,
      .ifRange (.indexOf 0) 0 2
        [.store 0 [.binary .add (.indexOf 0) (.const 1)]
          (.binary .mul (.loadLocal 0 (.scalar .float32Ty)) (.constFP 2)) true],
      .call "show" [.indexOf 0], .call "show" [.binary .add (.indexOf 0) (.const 1)]]]

def zeroMemory : Memory ℚ where
  bufs _ := ⟨4, fun _ => 0⟩
  locals _ := .floats [0]
  calls := []

/-- A machine that puts the elements of `A` and `B` one behind the other. -/
def placing : Machine ℚ :=
  { Machine.bare with elemAddr := fun _ subs => 4 * RowMajor.offset [4] subs }

theorem placing_places : placing.Places scaledCopy fun _ => 0 := by
  intro A decl subs known _
  have dims : ∀ decl ∈ scaledCopy.args, decl.type.intDims = [4] := by decide
  rw [dims decl (List.mem_of_getElem? known), zero_add]
  rfl

theorem zeroMemory_represents (base : ArgId → Int) :
    zeroMemory.Represents scaledCopy placing base .zero := by
  refine ⟨fun {A decl} known => ?_, fun _ _ => rfl, fun {V decl} known => ?_, rfl⟩
  · have size : ∀ decl ∈ scaledCopy.args, decl.type.numElements = 4 := by decide
    exact (size decl (List.mem_of_getElem? known)).symm
  · have scalars : ∀ decl ∈ scaledCopy.vars, decl.type = .scalar .float32Ty := by decide
    rw [scalars decl (List.mem_of_getElem? known)]
    exact LLVMValue.is_floats rfl rfl

end Bistra

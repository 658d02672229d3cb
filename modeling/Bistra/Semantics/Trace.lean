import Bistra.Program.Verify
import Bistra.Semantics.Exec

/-! # What programs do, in order

The leaf statements (stores, local stores and calls) that a run executes, each with the
indices of the loops around it.
-/

namespace Bistra

/-- A leaf statement that runs while the loops around it are at the given indices, inner
loops first. -/
structure Event (F : Type) where
  stmt : Stmt F
  indices : List (LoopId × Int)

def Env.indices (env : Env) (scope : List LoopId) : List (LoopId × Int) :=
  scope.map fun L => (L, env L)

variable {F : Type}

mutual

/-- The events of a statement in loops `scope` if every guard in it held. -/
def Stmt.allEvents (scope : List LoopId) (env : Env) : Stmt F → List (Event F)
  | .loop header body =>
    header.iterations.flatMap fun i =>
      Stmt.allEventsBody (header.id :: scope) (Function.update env header.id i) body
  | .ifRange _ _ _ body => Stmt.allEventsBody scope env body
  | leaf => [⟨leaf, env.indices scope⟩]

def Stmt.allEventsBody (scope : List LoopId) (env : Env) : List (Stmt F) → List (Event F)
  | [] => []
  | s :: rest => s.allEvents scope env ++ Stmt.allEventsBody scope env rest

end

@[simp] theorem Stmt.allEventsBody_eq (scope : List LoopId) (env : Env) (body : List (Stmt F)) :
    Stmt.allEventsBody scope env body = body.flatMap (Stmt.allEvents scope env) := by
  induction body with
  | nil => rfl
  | cons s rest ih => simp [Stmt.allEventsBody, ih]

theorem Loop.iterations_ne_nil {header : Loop} (verified : header.verify = true) :
    header.iterations ≠ [] := by
  obtain ⟨inhabited, -, positive, -⟩ := Loop.verify_iff.mp verified
  simpa [Loop.iterations] using IterationSpace.strided_ne_nil positive inhabited

/-- Without guards every leaf runs, since verified loops run at least once. -/
theorem Stmt.allEvents_eq_nil {s : Stmt F} (verified : ∀ loop ∈ s.collectLoops, loop.1.verify = true)
    (scope : List LoopId) (env : Env) : s.allEvents scope env = [] ↔ s.hasLeaf = false := by
  induction s using Stmt.inductTree generalizing scope env with
  | loop header body ih =>
    simp only [Stmt.collectLoops_loop, List.mem_cons, List.mem_flatMap] at verified
    obtain ⟨first, rest, split⟩ :=
      List.exists_cons_of_ne_nil (Loop.iterations_ne_nil (verified _ (.inl rfl)))
    -- The loop has an iteration, so without a leaf in the body there are no events, and only then.
    have inner : ∀ i, (body.flatMap (Stmt.allEvents (header.id :: scope)
        (Function.update env header.id i)) = [] ↔ body.any Stmt.hasLeaf = false) := by
      intro i
      simp only [List.flatMap_eq_nil_iff, List.any_eq_false, Bool.not_eq_true]
      constructor
      · intro empty s mem
        exact (ih s mem (fun loop memLoop => verified loop (.inr ⟨s, mem, memLoop⟩)) _ _).mp
          (empty s mem)
      · intro leafless s mem
        exact (ih s mem (fun loop memLoop => verified loop (.inr ⟨s, mem, memLoop⟩)) _ _).mpr
          (leafless s mem)
    simp only [Stmt.allEvents, Stmt.allEventsBody_eq, Stmt.hasLeaf, Stmt.hasLeafBody_eq, split,
      List.flatMap_cons, List.append_eq_nil_iff, inner, and_iff_left_iff_imp]
    intro leafless
    rw [List.flatMap_eq_nil_iff]
    exact fun i _ => (inner i).mpr leafless
  | ifRange val start end_ body ih =>
    simp only [Stmt.collectLoops_ifRange, List.mem_flatMap] at verified
    simp only [Stmt.allEvents, Stmt.allEventsBody_eq, Stmt.hasLeaf, Stmt.hasLeafBody_eq,
      List.flatMap_eq_nil_iff, List.any_eq_false, Bool.not_eq_true]
    constructor
    · intro empty s mem
      exact (ih s mem (fun loop memLoop => verified loop ⟨s, mem, memLoop⟩) _ _).mp (empty s mem)
    · intro leafless s mem
      exact (ih s mem (fun loop memLoop => verified loop ⟨s, mem, memLoop⟩) _ _).mpr
        (leafless s mem)
  | call | store | storeLocal => simp [Stmt.allEvents, Stmt.hasLeaf]

section Semantics

variable [Field F] [LinearOrder F]

mutual

/-- The events of a statement that runs in loops `scope`, from a state. -/
def Stmt.trace (M : Machine F) (scope : List LoopId) (env : Env) : Stmt F → State F → List (Event F)
  | .loop header body, st =>
    Schedule.trace (fun i => Stmt.execBody M (Function.update env header.id i) body)
      (fun i => Stmt.traceBody M (header.id :: scope) (Function.update env header.id i) body)
      header.iterations st
  | .ifRange val start end_ body, st =>
    if inRange start end_ (val.eval M st env 0).toInt then Stmt.traceBody M scope env body st
    else []
  | leaf, _ => [⟨leaf, env.indices scope⟩]

def Stmt.traceBody (M : Machine F) (scope : List LoopId) (env : Env) :
    List (Stmt F) → State F → List (Event F)
  | [], _ => []
  | s :: rest, st => s.trace M scope env st ++ Stmt.traceBody M scope env rest (s.exec M env st)

end

mutual

/-- Every guard around a leaf that a run reaches holds. -/
def Stmt.GuardsHold (M : Machine F) (env : Env) : Stmt F → State F → Prop
  | .loop header body, st =>
    Schedule.Along (fun i => Stmt.execBody M (Function.update env header.id i) body)
      (fun i => Stmt.GuardsHoldBody M (Function.update env header.id i) body)
      header.iterations st
  | .ifRange val start end_ body, st =>
    if inRange start end_ (val.eval M st env 0).toInt then Stmt.GuardsHoldBody M env body st
    else Stmt.hasLeafBody body = false
  | _, _ => True

def Stmt.GuardsHoldBody (M : Machine F) (env : Env) : List (Stmt F) → State F → Prop
  | [], _ => True
  | s :: rest, st =>
    s.GuardsHold M env st ∧ Stmt.GuardsHoldBody M env rest (s.exec M env st)

end

def Program.trace (M : Machine F) (p : Program F) (st : State F) : List (Event F) :=
  Stmt.traceBody M [] (fun _ => 0) p.body st

def Program.GuardsHold (M : Machine F) (p : Program F) (st : State F) : Prop :=
  Stmt.GuardsHoldBody M (fun _ => 0) p.body st

/-! ## Bodies as schedules -/

theorem Stmt.traceBody_eq (M : Machine F) (scope : List LoopId) (env : Env)
    (body : List (Stmt F)) (st : State F) :
    Stmt.traceBody M scope env body st =
      Schedule.trace (fun s => s.exec M env) (fun s => s.trace M scope env) body st := by
  induction body generalizing st with
  | nil => rfl
  | cons s rest ih => rw [Stmt.traceBody, Schedule.trace, ih]

theorem Stmt.guardsHoldBody_eq (M : Machine F) (env : Env) (body : List (Stmt F))
    (st : State F) :
    Stmt.GuardsHoldBody M env body st =
      Schedule.Along (fun s => s.exec M env) (fun s => s.GuardsHold M env) body st := by
  induction body generalizing st with
  | nil => rfl
  | cons s rest ih => rw [Stmt.GuardsHoldBody, Schedule.Along, ih]

/-! ## Guards and events -/

/-- A run executes a part of the leaves, in order, and all of them exactly when every guard
around a leaf holds where the run reaches it. -/
theorem Stmt.trace_sublist {M : Machine F} {s : Stmt F}
    (verified : ∀ loop ∈ s.collectLoops, loop.1.verify = true) (scope : List LoopId) (env : Env)
    (st : State F) :
    (s.trace M scope env st).Sublist (s.allEvents scope env) ∧
      (s.trace M scope env st = s.allEvents scope env ↔ s.GuardsHold M env st) := by
  induction s using Stmt.inductTree generalizing scope env st with
  | loop header body ih =>
    simp only [Stmt.collectLoops_loop, List.mem_cons, List.mem_flatMap] at verified
    simp only [Stmt.trace, Stmt.allEvents, Stmt.GuardsHold]
    apply Schedule.trace_sublist
    intro i _ st
    rw [Stmt.traceBody_eq, Stmt.allEventsBody_eq, Stmt.guardsHoldBody_eq]
    apply Schedule.trace_sublist
    intro s mem st
    exact ih s mem (fun loop memLoop => verified loop (.inr ⟨s, mem, memLoop⟩)) _ _ st
  | ifRange val start end_ body ih =>
    simp only [Stmt.collectLoops_ifRange, List.mem_flatMap] at verified
    simp only [Stmt.trace, Stmt.allEvents, Stmt.GuardsHold]
    split
    -- The guard holds, and the run goes on in the body.
    · rw [Stmt.traceBody_eq, Stmt.allEventsBody_eq, Stmt.guardsHoldBody_eq]
      apply Schedule.trace_sublist
      intro s mem st
      exact ih s mem (fun loop memLoop => verified loop ⟨s, mem, memLoop⟩) _ _ st
    -- The guard fails, so the leaves in the body do not run: all events have been run only if there
    -- is none.
    · have empty := Stmt.allEvents_eq_nil (s := .ifRange val start end_ body)
        (by simpa [Stmt.collectLoops_ifRange] using verified) scope env
      rw [Stmt.allEvents, Stmt.hasLeaf] at empty
      exact ⟨List.nil_sublist _, eq_comm.trans empty⟩
  | call | store | storeLocal => simp [Stmt.trace, Stmt.allEvents, Stmt.GuardsHold]

/-- A verified program executes a part of its leaves, in order, and all of them exactly when
every guard around a leaf holds where the run reaches it. -/
theorem Program.trace_eq_allEvents {M : Machine F} {p : Program F} (verified : p.verify = true)
    (st : State F) :
    p.trace M st = Stmt.allEventsBody [] (fun _ => 0) p.body ↔ p.GuardsHold M st := by
  rw [Program.trace, Program.GuardsHold, Stmt.traceBody_eq, Stmt.allEventsBody_eq,
    Stmt.guardsHoldBody_eq]
  refine (Schedule.trace_sublist (fun s mem st => ?_) st).2
  apply Stmt.trace_sublist
  exact Stmt.verify_loops (Program.verify_body verified s mem)

end Semantics

end Bistra

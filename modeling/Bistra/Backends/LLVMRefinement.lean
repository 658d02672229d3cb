import Mathlib.Algebra.Order.Field.Rat
import Bistra.Backends.LLVMMachine

/-! # What the generated code executes

A loop does what it should, and the branch of a guard is always taken.  So the generated code
executes every leaf, and it executes what the program prescribes exactly when every guard around a
leaf holds.
-/

namespace Bistra

open ControlFlow

variable {F : Type} {low : Lowering F}

/-! ## Statements -/

def Lowering.machine (low : Lowering F) : CodeMachine F (Frame F) where
  act := Instr.act low
  test := Cond.test low
  cells := Frame.cells
  setCells frame cells := { frame with cells := cells }
  cells_setCells _ _ := rfl
  alloca _ _ := rfl
  storeIndex _ _ _ := rfl
  addIndex _ _ _ := rfl
  cells_leaf _ _ _ := rfl
  indexBelow _ _ _ := rfl

/-- The code for a verified statement executes every leaf. -/
def Lowering.execution (low : Lowering F) (decls : Decls) :
    CodeMeaning low.machine decls (List (Event F)) where
  holds frame events := frame.events = events
  run scope env s events := events ++ s.allEvents scope env
  safe _ _ _ _ := True
  holds_setCells _ same := same
  run_loop scope env header body events := by
    simp only [Stmt.allEvents, Stmt.allEventsBody_eq]
    rw [← Schedule.run_collect]
    exact Schedule.run_congr (fun i _ events => (Schedule.run_collect _ _ _).symm) _
  run_ifRange scope env val start end_ body events := by
    simp only [Schedule.run_collect, Stmt.allEvents, Stmt.allEventsBody_eq]
  safe_loop _ := Schedule.along_of_forall (fun _ _ _ => Schedule.along_of_forall (fun _ _ _ => trivial) _) _
  safe_ifRange _ := Schedule.along_of_forall (fun _ _ _ => trivial) _
  leaf {scope env s frame events} leaf _ _ agree same := by
    cases s with
    | loop | ifRange => cases leaf
    | call | store | storeLocal =>
      have indices : frame.cells.env.indices scope = env.indices scope := Cells.Agree.indices agree
      change frame.events ++ [⟨_, frame.cells.env.indices scope⟩] = _
      rw [same, indices]
      rfl
  guard _ ordered _ _ _ := inRange_holds ordered _

/-! ## Programs -/

/-- The generated code halts and has executed exactly the given events. -/
def Program.Executes (low : Lowering F) (p : Program F) (cells : Cells) (st : State F)
    (events : List (Event F)) : Prop :=
  ∃ c, Steps p.emit (Instr.act low) (Cond.test low) ⟨0, 0, ⟨cells, st, []⟩⟩ c ∧
    Halted p.emit c ∧ c.state.events = events

/-- The code for a verified program executes every leaf, guarded or not. -/
theorem Program.executes_allEvents (low : Lowering F) {p : Program F} (verified : p.verify = true)
    (cells : Cells) (st : State F) :
    p.Executes low cells st (Stmt.allEventsBody [] (fun _ => 0) p.body) := by
  obtain ⟨c, runs, halted, events⟩ := (low.execution p.decls).program_computes verified
    (Schedule.along_of_forall (fun _ _ _ => trivial) []) (rfl : (Frame.mk cells st []).events = [])
  refine ⟨c, runs, halted, events.trans ?_⟩
  rw [Stmt.allEventsBody_eq]
  exact Schedule.run_collect _ _ _

theorem Program.Executes.unique {p : Program F} {cells : Cells} {st : State F}
    {events events' : List (Event F)} (first : p.Executes low cells st events)
    (second : p.Executes low cells st events') : events = events' := by
  obtain ⟨c, runs, halted, same⟩ := first
  obtain ⟨c', runs', halted', same'⟩ := second
  rw [← same, ← same', halted_unique runs halted runs' halted']

/-- Code that computes what the reference semantics does, with indices cut to 64 bits. -/
def Lowering.reference [Field F] [LinearOrder F] (M : Machine F) : Lowering F where
  generate e cells st := BitVec.ofInt 64 (e.eval M st cells.env 0).toInt
  leaf s cells st := s.exec M cells.env st

/-- `for (i in 0 .. 10) if (i in 0 .. end) A[i] = 1`. -/
def guardedFill (end_ : Int32) : Program ℚ where
  name := "guarded_fill"
  args := [⟨"A", ⟨[10], ["x"], .float32Ty, oneDim⟩⟩]
  vars := []
  body := [.loop ⟨0, "i", 10, 1⟩
    [.ifRange (.indexOf 0) 0 end_ [.store 0 [.indexOf 0] (.constFP 1) false]]]

end Bistra

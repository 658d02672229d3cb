import Mathlib.Algebra.Field.Rat
import Mathlib.Algebra.Order.Ring.Rat
import Bistra.Parser.FunctionRuns

/-! # What the parser accepts

When `Parser::parse` returns, and what `Program::verify` says about the program that it has
registered then.
-/

namespace Bistra

variable {F : Type} [Field F] [LinearOrder F]

/-- `Parser::parse` on a text: the steps, and the state that it leaves if it returns. -/
def parseText (uninit : Int32) (text : List Char) (lets : List (String × Int32)) :
    List (ParseStep F) × Option (Unit × ParserState F) :=
  (parse uninit).run (.start text lets)

/-- The parser returns on every text on which it meets no illegal step. -/
theorem parseText_returns_iff (uninit : Int32) (text : List Char) (lets : List (String × Int32)) :
    (parseText uninit text lets : List (ParseStep F) × _).2.isSome = true ↔
      ∀ step ∈ (parseText uninit text lets : List (ParseStep F) × _).1, step.legal = true :=
  (builds_parse uninit text lets).returns_iff

/-- The text ends before the closing brace, and `diagnose` cannot report that. -/
example : (parseText 0 "func f(A:float<x:4>) \x7b A[0] = 1.5".toList [] :
    List (ParseStep ℚ) × _).2.isSome = false := by
  decide +kernel

/-- Arguments have different names, and so do local variables, which are those that the run has
declared. -/
theorem parseText_names {uninit : Int32} {text : List Char} {lets : List (String × Int32)}
    {s : ParserState F} (returns : (parseText uninit text lets).2 = some ((), s))
    (noErrors : s.numErrors = 0) {p : Program F} (registered : s.ctx.prog = some p) :
    (p.args.map (·.name)).Nodup ∧ (p.vars.map (·.name)).Nodup ∧
      p.vars.map (·.name) = (parseText uninit text lets : List (ParseStep F) × _).1.filterMap
        ParseStep.newVar? := by
  obtain ⟨_, same, parsed⟩ := (builds_parse uninit text lets).of_returns returns noErrors
  cases registered.symm.trans same
  exact ⟨parsed.args, parsed.vars, parsed.names⟩

/-- The program of a run without errors is verified exactly when the loops, the ranges, the calls
and the stores of the run are well-formed. -/
theorem parseText_verify (uninit : Int32) (text : List Char) (lets : List (String × Int32))
    {s : ParserState F} (returns : (parseText uninit text lets).2 = some ((), s))
    (noErrors : s.numErrors = 0) :
    ∃ p, s.ctx.prog = some p ∧ (p.verify = true ↔
      ∀ step ∈ (parseText uninit text lets : List (ParseStep F) × _).1, step.wellFormed = true) := by
  obtain ⟨p, registered, parsed⟩ := (builds_parse uninit text lets).of_returns returns noErrors
  refine ⟨p, registered, ?_⟩
  rw [parsed.verified, List.all_eq_true]
  rfl

theorem parseText_verify_store : ∃ s : ParserState ℚ,
    (parseText 0 "func f(A:float<x:4>) { A[0] = 1.5 }".toList []).2 = some ((), s) ∧
      ∃ p, s.ctx.prog = some p ∧ p.verify = true := by
  have ran : (parseText 0 "func f(A:float<x:4>) { A[0] = 1.5 }".toList [] :
      List (ParseStep ℚ) × _).2.any (fun result => result.2.numErrors = 0) = true := by
    decide +kernel
  have wellFormed : (parseText 0 "func f(A:float<x:4>) { A[0] = 1.5 }".toList [] :
      List (ParseStep ℚ) × _).1.all ParseStep.wellFormed = true := by
    decide +kernel
  obtain ⟨⟨_, s⟩, returns, noErrors⟩ := (Option.any_eq_true _ _).mp ran
  obtain ⟨p, registered, verified⟩ := parseText_verify 0 _ [] returns (by simpa using noErrors)
  exact ⟨s, returns, p, registered, verified.mpr (List.all_eq_true.mp wellFormed)⟩

/-- An integer is stored to a buffer of floats. -/
theorem parseText_accepts_mismatch : ¬ ∀ uninit text lets (s : ParserState ℚ),
    (parseText uninit text lets).2 = some ((), s) → s.numErrors = 0 →
      ∃ p, s.ctx.prog = some p ∧ p.verify = true := by
  intro accepted
  have ran : (parseText 0 "func f(A:float<x:4>) { A[0] = 1 }".toList [] :
      List (ParseStep ℚ) × _).2.any (fun result => result.2.numErrors = 0 &&
        !result.2.ctx.prog.any Program.verify) = true := by
    decide +kernel
  obtain ⟨⟨_, s⟩, returns, result⟩ := (Option.any_eq_true _ _).mp ran
  simp only [Bool.and_eq_true, decide_eq_true_eq, Bool.not_eq_true'] at result
  obtain ⟨p, registered, verified⟩ := accepted 0 _ [] s returns result.1
  rw [registered, Option.any_some, verified] at result
  exact Bool.noConfusion result.2

end Bistra

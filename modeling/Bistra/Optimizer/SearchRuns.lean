import Mathlib
import Bistra.Optimizer.SearchSpace

/-! # Runs of the search

The evaluator is visited by the candidates of the search space one after another, and remembers the
best one.
-/

namespace Bistra

open SearchM

variable {F : Type}

/-- The first of the fastest programs that take less than the time that the search starts with. -/
def fastest (evaluated : List (Program F × ℚ)) : Option (Program F × ℚ) :=
  (evaluated.filter fun run => run.2 < 1000).argmin (·.2)

/-- The best time and the best program, after these evaluations. -/
def EvaluatorPass.Remembers (ev : EvaluatorPass F) : Option (Program F × ℚ) → Prop
  | none => ev.bestTime = 1000 ∧ ev.bestProgram = none
  | some run => ev.bestTime = run.2 ∧ run.1.clone.isSome = true ∧ ev.bestProgram = run.1.clone

theorem EvaluatorPass.Remembers.bestTime_eq {ev : EvaluatorPass F} {best : Option (Program F × ℚ)}
    (remembers : ev.Remembers best) : ev.bestTime = (best.map (·.2)).getD 1000 := by
  cases best <;> exact remembers.1

theorem EvaluatorPass.Remembers.of_eq {ev ev' : EvaluatorPass F} {best : Option (Program F × ℚ)}
    (remembers : ev.Remembers best) (time : ev'.bestTime = ev.bestTime)
    (program : ev'.bestProgram = ev.bestProgram) : ev'.Remembers best := by
  cases best with
  | none => exact ⟨time.trans remembers.1, program.trans remembers.2⟩
  | some run => exact ⟨time.trans remembers.1, remembers.2.1, program.trans remembers.2.2⟩

section Evaluator

variable (fpWord : F → UInt64) (backend : Backend F)

/-- What the evaluator knows after the candidates `tried`. -/
structure EvaluatorPass.Knows (tried : List (Program F)) (ev : EvaluatorPass F) : Prop where
  /-- The hashes are those of the programs that have been evaluated. -/
  ran : ∀ h, h ∈ ev.alreadyRan ↔ ∃ run ∈ ev.evaluated, run.1.hash fpWord = h
  /-- No program is evaluated twice. -/
  distinct : (ev.evaluated.map fun run => run.1.hash fpWord).Nodup
  covers : ∀ p ∈ tried, p.hash fpWord ∈ ev.alreadyRan
  among : ∀ run ∈ ev.evaluated, run.1 ∈ tried ∧ run.1.verify = true
  measured : ∀ before run after, ev.evaluated = before ++ run :: after →
    run.2 = backend.evaluateCode (before.map (·.1)) run.1
  best : ev.Remembers (fastest ev.evaluated)

variable {fpWord backend} {p : Program F} {ev ev' : EvaluatorPass F}

theorem EvaluatorPass.doIt_cases
    (visited : (EvaluatorPass.doIt fpWord backend p).run ev = some ((), ev')) :
    (p.hash fpWord ∈ ev.alreadyRan ∧ ev' = ev) ∨
      (p.hash fpWord ∉ ev.alreadyRan ∧ p.verify = true ∧
        ev'.alreadyRan = p.hash fpWord :: ev.alreadyRan ∧
        ev'.evaluated =
          ev.evaluated ++ [(p, backend.evaluateCode (ev.evaluated.map (·.1)) p)] ∧
        ((backend.evaluateCode (ev.evaluated.map (·.1)) p < ev.bestTime ∧
            ev'.bestTime = backend.evaluateCode (ev.evaluated.map (·.1)) p ∧
            p.clone.isSome = true ∧ ev'.bestProgram = p.clone) ∨
          (ev.bestTime ≤ backend.evaluateCode (ev.evaluated.map (·.1)) p ∧
            ev'.bestTime = ev.bestTime ∧ ev'.bestProgram = ev.bestProgram))) := by
  obtain ⟨_, _, got, visited⟩ := run_bind.mp visited
  cases got
  split at visited
  next again =>
    -- A program with a known hash is not evaluated again.
    cases visited
    exact .inl ⟨again, rfl⟩
  next new =>
    refine .inr ⟨new, ?_⟩
    obtain ⟨⟨⟩, _, checked, visited⟩ := run_bind.mp visited
    obtain ⟨verified, rfl⟩ := run_guard.mp checked
    obtain ⟨_, _, estimated, visited⟩ := run_bind.mp visited
    obtain ⟨-, rfl⟩ := run_lift.mp estimated
    refine ⟨verified, ?_⟩
    dsimp only at visited
    split at visited
    -- A program is remembered when it is strictly faster than the best one so far.
    next faster =>
      obtain ⟨copy, _, copied, visited⟩ := run_bind.mp visited
      obtain ⟨cloned, rfl⟩ := run_lift.mp copied
      cases visited
      rw [cloned]
      exact ⟨rfl, rfl, .inl ⟨faster, rfl, rfl, rfl⟩⟩
    next slower =>
      cases visited
      exact ⟨rfl, rfl, .inr ⟨not_lt.mp slower, rfl, rfl⟩⟩

theorem fastest_concat (evaluated : List (Program F × ℚ)) (run : Program F × ℚ) :
    fastest (evaluated ++ [run]) =
      if run.2 < ((fastest evaluated).map (·.2)).getD 1000 then some run else fastest evaluated := by
  rw [fastest, List.filter_append]
  by_cases below : run.2 < 1000
  · rw [List.filter_singleton, decide_eq_true below, cond_true, List.argmin_concat, ← fastest]
    cases fastest evaluated with
    | none => simp [below]
    | some best => rfl
  · have slow : ¬ run.2 < ((fastest evaluated).map (·.2)).getD 1000 := by
      cases found : fastest evaluated with
      | none => exact below
      | some best =>
        have known := List.of_mem_filter (List.argmin_mem found)
        rw [Option.map_some, Option.getD_some]
        exact not_lt.mpr ((of_decide_eq_true known).le.trans (not_lt.mp below))
    rw [if_neg slow, List.filter_singleton, decide_eq_false below, cond_false, List.append_nil,
      ← fastest]

theorem EvaluatorPass.Knows.visit {tried : List (Program F)} (knows : ev.Knows fpWord backend tried)
    (visited : (EvaluatorPass.doIt fpWord backend p).run ev = some ((), ev')) :
    ev'.Knows fpWord backend (tried ++ [p]) := by
  obtain ⟨again, rfl⟩ | ⟨new, verified, ran, evaluated, best⟩ := EvaluatorPass.doIt_cases visited
  · exact {
      knows with
      covers := fun q mem => (List.mem_append.mp mem).elim (knows.covers q)
        fun last => List.mem_singleton.mp last ▸ again
      among := fun run mem => ((knows.among run mem).imp_left (List.mem_append_left _)) }
  · constructor
    -- The hashes that are known are those of the programs that have been evaluated.
    · intro h
      rw [ran, evaluated, List.mem_cons, knows.ran]
      constructor
      · rintro (rfl | ⟨run, mem, same⟩)
        · exact ⟨_, List.mem_append_right _ (List.mem_singleton_self _), rfl⟩
        · exact ⟨run, List.mem_append_left _ mem, same⟩
      · rintro ⟨run, mem, same⟩
        obtain old | last := List.mem_append.mp mem
        · exact .inr ⟨run, old, same⟩
        · cases List.mem_singleton.mp last
          exact .inl same.symm
    · rw [evaluated, List.map_append, List.map_singleton]
      refine List.nodup_append_comm.mp (List.nodup_cons.mpr ⟨fun mem => new ?_, knows.distinct⟩)
      obtain ⟨run, mem, same⟩ := List.mem_map.mp mem
      exact (knows.ran _).mpr ⟨run, mem, same⟩
    -- Every candidate has an evaluated program with its hash.
    · intro q mem
      rw [ran]
      obtain old | last := List.mem_append.mp mem
      · exact List.mem_cons_of_mem _ (knows.covers q old)
      · cases List.mem_singleton.mp last
        exact List.mem_cons_self
    · intro run mem
      rw [evaluated] at mem
      obtain old | last := List.mem_append.mp mem
      · exact (knows.among run old).imp_left (List.mem_append_left _)
      · cases List.mem_singleton.mp last
        exact ⟨List.mem_append_right _ (List.mem_singleton_self p), verified⟩
    -- The new evaluation comes last, and its program was not known before.
    · intro before run after same
      rw [evaluated] at same
      obtain rfl | ⟨after, last, rfl⟩ := List.eq_nil_or_concat after
      · obtain ⟨rfl, last⟩ := List.append_inj' same rfl
        cases last
        rfl
      · rw [List.concat_eq_append, ← List.cons_append, ← List.append_assoc] at same
        exact knows.measured before run after (List.append_inj' same rfl).1
    · rw [evaluated, fastest_concat, ← knows.best.bestTime_eq]
      obtain ⟨faster, time, copied, program⟩ | ⟨slower, time, program⟩ := best
      · rw [if_pos faster]
        exact ⟨time, copied, program⟩
      · rw [if_neg (not_lt.mpr slower)]
        exact knows.best.of_eq time program

theorem EvaluatorPass.knows_start : ({} : EvaluatorPass F).Knows fpWord backend [] where
  ran h := by simp
  distinct := List.nodup_nil
  covers p mem := by cases mem
  among run mem := by cases mem
  measured before run after same := by simp at same
  best := ⟨rfl, rfl⟩

end Evaluator

/-! ## The result of the search -/

section Result

variable [Field F] [LinearOrder F] {fpWord : F → UInt64} {backend : Backend F} {p : Program F}
  {ev : EvaluatorPass F}

theorem knows_of_optimizeEvaluate (returned : optimizeEvaluate fpWord backend p = some ev) :
    ∃ outs, (∀ q, q ∈ outs ↔ Candidate backend p q) ∧ ev.Knows fpWord backend outs := by
  obtain ⟨⟨⟨⟩, _⟩, searched, rfl⟩ := Option.map_eq_some_iff.mp returned
  obtain ⟨outs, spec, run⟩ := candidate_offers backend p _ _ _ _ searched
  exact ⟨outs, spec, forM_invariant (fun _ _ _ _ => EvaluatorPass.Knows.visit)
    EvaluatorPass.knows_start run⟩

/-- The evaluator has found the best candidate: it has evaluated every candidate, up to the hash, and none
of them twice, and remembers the first of the fastest ones, unless all of them take too long. -/
structure EvaluatorPass.FindsBest (fpWord : F → UInt64) (backend : Backend F) (p : Program F)
    (ev : EvaluatorPass F) : Prop where
  every : ∀ q, Candidate backend p q → ∃ run ∈ ev.evaluated, run.1.hash fpWord = q.hash fpWord
  once : (ev.evaluated.map fun run => run.1.hash fpWord).Nodup
  only : ∀ before run after, ev.evaluated = before ++ run :: after →
    Candidate backend p run.1 ∧ run.1.verify = true ∧
      run.2 = backend.evaluateCode (before.map (·.1)) run.1
  best : (ev.bestProgram = none ∧ ∀ run ∈ ev.evaluated, 1000 ≤ run.2) ∨
    ∃ run best, fastest ev.evaluated = some run ∧ run ∈ ev.evaluated ∧ run.2 < 1000 ∧
      (∀ other ∈ ev.evaluated, run.2 ≤ other.2) ∧ run.1.clone = some best ∧
      ev.bestProgram = some best

/-- A search that returns has found the best candidate. -/
theorem optimizeEvaluate_findsBest (returned : optimizeEvaluate fpWord backend p = some ev) :
    ev.FindsBest fpWord backend p := by
  obtain ⟨outs, spec, knows⟩ := knows_of_optimizeEvaluate returned
  refine ⟨fun q candidate => (knows.ran _).mp (knows.covers q ((spec q).mpr candidate)),
    knows.distinct, fun before run after same => ?_, ?_⟩
  · have mem : run ∈ ev.evaluated := same ▸ List.mem_append_right _ List.mem_cons_self
    obtain ⟨memOuts, verified⟩ := knows.among run mem
    exact ⟨(spec _).mp memOuts, verified, knows.measured before run after same⟩
  · have best := knows.best
    cases found : fastest ev.evaluated with
    | none =>
      rw [found] at best
      refine .inl ⟨best.2, fun run mem => ?_⟩
      have slow := List.filter_eq_nil_iff.mp (List.argmin_eq_none.mp found) run mem
      exact not_lt.mp fun below => slow (decide_eq_true below)
    | some run =>
      rw [found] at best
      obtain ⟨-, copied, program⟩ := best
      obtain ⟨copy, cloned⟩ := Option.isSome_iff_exists.mp copied
      have mem := List.mem_filter.mp (List.argmin_mem found)
      have below := of_decide_eq_true mem.2
      refine .inr ⟨run, copy, rfl, mem.1, below, fun other memO => ?_, cloned, program.trans cloned⟩
      by_cases slow : other.2 < 1000
      · exact List.le_of_mem_argmin (List.mem_filter.mpr ⟨memO, decide_eq_true slow⟩) found
      · exact below.le.trans (not_lt.mp slow)

end Result

/-- The vectorized program and the original one are evaluated. -/
theorem optimizeEvaluate_findsBest_fill : ∃ ev,
    optimizeEvaluate (fun _ => 0) loopCounter fill = some ev ∧
      ev.FindsBest (fun _ => 0) loopCounter fill := by
  have returns : (optimizeEvaluate (fun _ => 0) loopCounter fill).isSome = true := by decide_cbv
  obtain ⟨ev, returned⟩ := Option.isSome_iff_exists.mp returns
  exact ⟨ev, returned, optimizeEvaluate_findsBest returned⟩

end Bistra

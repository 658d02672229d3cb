import Bistra.Parser.ExprReads

/-! # Functions that change the context

The functions for statements declare variables and create loops, but leave the arguments, the loops
around them and the older let expressions alone.  `Runs` is the rule for them.  Besides the result
and the state, a postcondition sees whether all statements that the run has created meet the
conditions that `verify` has and that the parser does not check.
-/

namespace Bistra

variable {F : Type}

/-- The conditions of `verify` that the parser does not check. -/
def ParseStep.wellFormed : ParseStep F → Bool
  | .newLoop end_ stride => 0 < end_ && end_ % stride = 0 && 0 < stride && stride < 1024
  | .newIfRange start end_ => start ≤ end_
  | .newCall params => params.all fun e => e.getType.isIndexTy
  | .newStore elementType value => value.getType.elementType = elementType
  | _ => true

/-- The name of the variable that a step declares. -/
def ParseStep.newVar? : ParseStep F → Option String
  | .newVar name => some name
  | _ => none

theorem ParseStep.quiet {steps : List (ParseStep F)}
    (created : steps.filter ParseStep.creates = []) :
    steps.all ParseStep.wellFormed = true ∧ steps.filterMap ParseStep.newVar? = [] := by
  rw [List.filter_eq_nil_iff] at created
  rw [List.all_eq_true, List.filterMap_eq_nil_iff]
  constructor
  · intro step mem
    have := created step mem
    cases step <;> first | rfl | exact (this rfl).elim
  · intro step mem
    have := created step mem
    cases step <;> first | rfl | exact (this rfl).elim

/-- The parser has moved ahead, perhaps with new variables, let expressions and loop numbers. -/
structure ParserState.Advances (s s' : ParserState F) : Prop where
  remaining : s'.remaining ≤ s.remaining
  errors : s.numErrors ≤ s'.numErrors
  args : s'.ctx.argMap = s.ctx.argMap
  vars : s.ctx.varMap <+: s'.ctx.varMap
  loops : s'.ctx.loopNextStack = s.ctx.loopNextStack
  lets : s.ctx.letStack <:+ s'.ctx.letStack
  nextLoop : s.ctx.nextLoop ≤ s'.ctx.nextLoop
  valid : s.ctx.Valid → s'.ctx.Valid

theorem ParserState.Moves.advances {s s' : ParserState F} (moves : s.Moves s') : s.Advances s' where
  remaining := moves.remaining
  errors := moves.errors
  args := by rw [moves.ctx]
  vars := moves.ctx.symm ▸ List.prefix_rfl
  loops := by rw [moves.ctx]
  lets := moves.ctx.symm ▸ List.suffix_rfl
  nextLoop := by rw [moves.ctx]
  valid := by rw [moves.ctx]; exact id

theorem ParserState.Advances.trans {s s' s'' : ParserState F} (first : s.Advances s')
    (second : s'.Advances s'') : s.Advances s'' where
  remaining := Nat.le_trans second.remaining first.remaining
  errors := Nat.le_trans first.errors second.errors
  args := second.args.trans first.args
  vars := first.vars.trans second.vars
  loops := second.loops.trans first.loops
  lets := first.lets.trans second.lets
  nextLoop := Nat.le_trans first.nextLoop second.nextLoop
  valid := second.valid ∘ first.valid

theorem ParserState.Advances.scope {s s' : ParserState F} (advances : s.Advances s') :
    s'.ctx.scope = s.ctx.scope := by
  rw [ParserContext.scope, ParserContext.scope, advances.loops]

theorem ParserState.Advances.extends {s s' : ParserState F} (advances : s.Advances s') :
    s.ctx.Extends s'.ctx :=
  ⟨advances.args.symm ▸ List.prefix_rfl, advances.vars, advances.scope.symm ▸ List.Subset.refl _⟩

variable [Field F] [LinearOrder F]

open Procedure

/-- If its steps are legal then `x` returns, and has only advanced; the new variables are those that
its steps declare. -/
def Runs {α : Type} (x : Parse F α) (s : ParserState F) (Q : Bool → α → ParserState F → Prop) :
    Prop :=
  x.wp (fun steps a s' => s.Advances s' ∧
    s'.ctx.varMap.map (·.name) =
      s.ctx.varMap.map (·.name) ++ steps.filterMap ParseStep.newVar? ∧
    Q (steps.all ParseStep.wellFormed) a s') s

section Rules

variable {α β : Type} {s : ParserState F} {Q : Bool → α → ParserState F → Prop}

theorem Runs.mono {x : Parse F α} {P : Bool → α → ParserState F → Prop} (holds : Runs x s P)
    (weaker : ∀ ok a s', s.Advances s' → P ok a s' → Q ok a s') : Runs x s Q :=
  wp_mono holds fun _ a s' post => ⟨post.1, post.2.1, weaker _ a s' post.1 post.2.2⟩

theorem Reads.runs {x : Parse F α} {P : α → ParserState F → Prop} (holds : Reads x s P)
    (weaker : ∀ a s', s.Moves s' → P a s' → Q true a s') : Runs x s Q := by
  apply wp_mono holds
  rintro steps a s' ⟨created, moves, post⟩
  obtain ⟨wellFormed, names⟩ := ParseStep.quiet created
  refine ⟨moves.advances, by rw [names, moves.ctx, List.append_nil], ?_⟩
  rw [wellFormed]
  exact weaker a s' moves post

theorem Runs.pure {a : α} (post : Q true a s) : Runs (pure a) s Q :=
  Reads.runs (P := fun a s' => Q true a s') (Reads.pure post) fun _ _ _ post => post

theorem Runs.bind {x : Parse F β} {f : β → Parse F α} {P : Bool → β → ParserState F → Prop}
    (first : Runs x s P) (next : ∀ ok b s', s.Advances s' → P ok b s' →
      Runs (f b) s' (fun more a s'' => Q (ok && more) a s'')) : Runs (x >>= f) s Q := by
  rw [Runs, wp_bind]
  apply wp_mono first
  rintro steps b s' ⟨advances, names, post⟩
  apply wp_mono (next _ b s' advances post)
  rintro more a s'' ⟨ahead, later, post⟩
  refine ⟨advances.trans ahead, ?_, ?_⟩
  · rw [later, names, List.filterMap_append, List.append_assoc]
  · rw [List.all_append]
    exact post

theorem Runs.bind_reads {x : Parse F β} {f : β → Parse F α} {P : β → ParserState F → Prop}
    (first : Reads x s P) (next : ∀ b s', s.Moves s' → P b s' → Runs (f b) s' Q) :
    Runs (x >>= f) s Q := by
  apply Runs.bind (first.runs (Q := fun ok b s' => ok = true ∧ s.Moves s' ∧ P b s')
    fun b s' moves post => ⟨rfl, moves, post⟩)
  rintro ok b s' _ ⟨rfl, moves, post⟩
  simpa only [Bool.true_and] using next b s' moves post

theorem Runs.bind_getState {f : ParserState F → Parse F α} (next : Runs (f s) s Q) :
    Runs (getState >>= f) s Q := by
  rw [Runs, wp_bind, wp_getState]
  exact next

theorem Runs.bind_getTok {f : Token → Parse F α} (next : Runs (f s.tok) s Q) :
    Runs (getTok >>= f) s Q := by
  simpa only [Runs, getTok, wp_bind, wp_getState, wp_pure, List.nil_append] using next

theorem Runs.bind_getContext {f : ParserContext F → Parse F α} (next : Runs (f s.ctx) s Q) :
    Runs (getContext >>= f) s Q := by
  simpa only [Runs, getContext, wp_bind, wp_getState, wp_pure, List.nil_append] using next

theorem Runs.bind_check {step : ParseStep F} {f : Unit → Parse F α}
    (noVar : step.newVar? = none) (next : step.legal = true →
      Runs (f ()) s (fun ok a s' => Q (step.wellFormed && ok) a s')) :
    Runs (check step >>= f) s Q := by
  rw [Runs, wp_bind, wp_check]
  intro safe
  apply wp_mono (next safe)
  rintro more a s' ⟨advances, names, post⟩
  refine ⟨advances, ?_, ?_⟩
  · rw [names, List.filterMap_append, List.filterMap_cons, noVar]
    rfl
  · rw [List.all_append, List.all_cons, List.all_nil, Bool.and_true]
    exact post

theorem Runs.bind_ofOption {o : Option β} {b : β} {f : β → Parse F α} (value : o = some b)
    (next : Runs (f b) s Q) : Runs (ofOption o >>= f) s Q := by
  rw [Runs, wp_bind, wp_ofOption]
  exact ⟨b, value, next⟩

theorem Runs.bind_modifyContext {g : ParserContext F → ParserContext F} {f : Unit → Parse F α}
    (advances : s.Advances { s with ctx := g s.ctx }) (vars : (g s.ctx).varMap = s.ctx.varMap)
    (next : Runs (f ()) { s with ctx := g s.ctx } Q) : Runs (modifyContext g >>= f) s Q := by
  rw [Runs, wp_bind, modifyContext, wp_modifyState]
  apply wp_mono next
  rintro steps a s' ⟨ahead, names, post⟩
  exact ⟨advances.trans ahead, by rw [names, ← vars]; rfl, post⟩

theorem Runs.ite {c : Prop} [Decidable c] {x y : Parse F α} (holds : c → Runs x s Q)
    (fails : ¬c → Runs y s Q) : Runs (if c then x else y) s Q := by
  rw [Runs, wp_ite]
  exact ⟨holds, fails⟩

theorem Runs.loop {body : β → Parse F (β ⊕ α)} {b : β} {I : Bool → β → ParserState F → Prop}
    (round : ∀ ok b s', s.Advances s' → I ok b s' → Runs (body b) s' (fun more next s'' =>
      match next with
      | .inl b' => s''.remaining < s'.remaining ∧ I (ok && more) b' s''
      | .inr a => Q (ok && more) a s'')) (init : I true b s) : Runs (loop body b) s Q := by
  rw [Bistra.loop]
  apply Runs.bind_getState
  apply wp_iterate (m := ParserState.remaining)
    (I := fun steps b s' => s.Advances s' ∧ s'.ctx.varMap.map (·.name) =
      s.ctx.varMap.map (·.name) ++ steps.filterMap ParseStep.newVar? ∧
      I (steps.all ParseStep.wellFormed) b s')
    _ (Nat.lt_succ_self _) ⟨(ParserState.Moves.refl s).advances, by simp, init⟩
  rintro steps b s' ⟨advances, names, holds⟩
  apply wp_mono (round _ b s' advances holds)
  rintro more (b' | a) s'' ⟨ahead, later, post⟩
  · refine ⟨post.1, advances.trans ahead, ?_, ?_⟩
    · rw [later, names, List.filterMap_append, List.append_assoc]
    · rw [List.all_append]
      exact post.2
  · refine ⟨advances.trans ahead, ?_, ?_⟩
    · rw [later, names, List.filterMap_append, List.append_assoc]
    · rw [List.all_append]
      exact post

theorem runs_diagnose_fail {loc : List Char} {message : String} {a : α}
    (post : ∀ s', s.Moves s' → s.numErrors < s'.numErrors → Q true a s') :
    Runs (do diagnose loc message; Pure.pure a) s Q :=
  (reads_diagnose_fail (Q := fun b s' => b = a ∧ s.numErrors < s'.numErrors)
    fun _ _ error => ⟨rfl, error⟩).runs fun _ s' moves post' => by
      rw [post'.1]
      exact post s' moves post'.2

theorem runs_diagnoseTok_fail {message : String} {a : α}
    (post : ∀ s', s.Moves s' → s.numErrors < s'.numErrors → Q true a s') :
    Runs (do diagnoseTok message; Pure.pure a) s Q :=
  (reads_diagnoseTok_fail (Q := fun b s' => b = a ∧ s.numErrors < s'.numErrors)
    fun _ _ error => ⟨rfl, error⟩).runs fun _ s' moves post' => by
      rw [post'.1]
      exact post s' moves post'.2

end Rules

end Bistra

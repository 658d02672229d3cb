import Bistra.Parser.ScopeRuns

/-! # What a run of the parser leaves

`Builds` is the rule for the functions that also change the arguments and the program.
-/

namespace Bistra

variable {F : Type}

theorem ParserContext.Valid.addArgs {ctx : ParserContext F} (valid : ctx.Valid)
    {args : List Argument} (more : ctx.argMap <+: args) (distinct : (args.map (·.name)).Nodup) :
    ({ ctx with argMap := args } : ParserContext F).Valid := by
  have larger : ctx.Extends { ctx with argMap := args } :=
    ⟨more, List.prefix_rfl, List.Subset.refl _⟩
  exact ⟨fun binding mem => (valid.lets binding mem).extends larger, distinct, valid.vars,
    valid.names, valid.stack, valid.loops⟩

/-- Nothing but the token, the number of errors and the commands have changed. -/
structure ParserState.Keeps (s s' : ParserState F) : Prop where
  prog : s'.ctx.prog = s.ctx.prog
  remaining : s'.remaining ≤ s.remaining
  errors : s.numErrors ≤ s'.numErrors

theorem ParserState.Moves.keeps {s s' : ParserState F} (moves : s.Moves s') : s.Keeps s' :=
  ⟨by rw [moves.ctx], moves.remaining, moves.errors⟩

theorem ParserState.Keeps.trans {s s' s'' : ParserState F} (first : s.Keeps s')
    (second : s'.Keeps s'') : s.Keeps s'' :=
  ⟨second.prog.trans first.prog, Nat.le_trans second.remaining first.remaining,
    Nat.le_trans first.errors second.errors⟩

/-- Arguments with the names that have been parsed so far. -/
structure ArgsParsed (s : ParserState F) (args : List Argument) (s' : ParserState F) : Prop where
  ctx : s'.ctx = { s.ctx with argMap := args }
  remaining : s'.remaining ≤ s.remaining
  errors : s.numErrors ≤ s'.numErrors
  distinct : (args.map (·.name)).Nodup
  more : s.ctx.argMap <+: args
  legal : s'.numErrors = s.numErrors →
    (∀ arg ∈ s.ctx.argMap, isLegalName arg.name = true) → ∀ arg ∈ args, isLegalName arg.name = true

theorem ArgsParsed.moves {s s₁ s' : ParserState F} {args : List Argument}
    (parsed : ArgsParsed s args s₁) (moves : s₁.Moves s') : ArgsParsed s args s' where
  ctx := moves.ctx.trans parsed.ctx
  remaining := Nat.le_trans moves.remaining parsed.remaining
  errors := Nat.le_trans parsed.errors moves.errors
  distinct := parsed.distinct
  more := parsed.more
  legal none := by
    have := parsed.errors
    have := moves.errors
    exact parsed.legal (by omega)

/-- What is known of a program after a run without errors that has declared the variables `newVars`:
it is verified exactly when everything that the run has created is well-formed. -/
structure ProgramParsed (ok : Bool) (newVars : List String) (p : Program F) : Prop where
  verified : p.verify = true ↔ ok = true
  args : (p.args.map (·.name)).Nodup
  vars : (p.vars.map (·.name)).Nodup
  names : p.vars.map (·.name) = newVars

theorem BodyParsed.program {s s' : ParserState F} {ok : Bool} {body : List (Stmt F)}
    (parsed : BodyParsed s ok body s') (noLoops : s.ctx.scope = []) (advances : s.Advances s')
    (valid : s'.ctx.Valid) {name : String} (legal : isLegalName name = true)
    (legalArgs : ∀ arg ∈ s'.ctx.argMap, isLegalName arg.name = true) :
    ProgramParsed ok (s'.ctx.varMap.map (·.name))
      ⟨name, s'.ctx.argMap, s'.ctx.varMap, body⟩ := by
  refine ⟨?_, valid.args, valid.vars, rfl⟩
  have legalVars := List.all_eq_true.mpr valid.names
  have legalArgs := List.all_eq_true.mpr legalArgs
  simp only [Program.verify, Program.decls, legal, legalVars, legalArgs, parsed.nodup,
    Bool.true_and, decide_true, Bool.and_true, Stmt.verifyBody_eq, List.all_eq_true]
  constructor
  · intro verified
    apply parsed.wellFormed s'.ctx.varMap []
    rw [← advances.args]
    exact verified
  · intro wellFormed S mem
    have verified := parsed.verified wellFormed S mem
    rw [noLoops] at verified
    exact verified

theorem ParserState.valid_start (text : List Char) (lets : List (String × Int32)) :
    (ParserState.start text lets : ParserState F).ctx.Valid := by
  refine ⟨fun binding mem => ?_, List.nodup_nil, List.nodup_nil, by rintro _ ⟨⟩, by rintro _ ⟨⟩, by rintro _ ⟨⟩⟩
  simp only [ParserState.start, List.mem_reverse, List.mem_map] at mem
  obtain ⟨constant, -, rfl⟩ := mem
  exact ⟨rfl, by rintro _ ⟨⟩⟩

variable [Field F] [LinearOrder F]

open Procedure

/-- If its steps are legal then `x` returns; the postcondition sees whether what it has created is
well-formed, and the names of the variables. -/
def Builds {α : Type} (x : Parse F α) (s : ParserState F)
    (Q : Bool → List String → α → ParserState F → Prop) : Prop :=
  x.wp (fun steps a s' =>
    Q (steps.all ParseStep.wellFormed) (steps.filterMap ParseStep.newVar?) a s') s

section Rules

variable {α β : Type} {s : ParserState F} {Q : Bool → List String → α → ParserState F → Prop}

theorem Builds.mono {x : Parse F α} {P : Bool → List String → α → ParserState F → Prop}
    (holds : Builds x s P) (weaker : ∀ ok names a s', P ok names a s' → Q ok names a s') :
    Builds x s Q :=
  wp_mono holds fun _ a s' post => weaker _ _ a s' post

theorem Builds.pure {a : α} (post : Q true [] a s) : Builds (pure a) s Q := by
  rw [Builds, wp_pure]
  exact post

theorem Builds.bind {x : Parse F β} {f : β → Parse F α}
    {P : Bool → List String → β → ParserState F → Prop} (first : Builds x s P)
    (next : ∀ ok names b s', P ok names b s' → Builds (f b) s' (fun more vars a s'' =>
      Q (ok && more) (names ++ vars) a s'')) : Builds (x >>= f) s Q := by
  rw [Builds, wp_bind]
  apply wp_mono first
  intro steps b s' post
  apply wp_mono (next _ _ b s' post)
  intro more a s'' post
  rw [List.all_append, List.filterMap_append]
  exact post

theorem Builds.bind_runs {x : Parse F β} {f : β → Parse F α}
    {P : Bool → β → ParserState F → Prop} (first : Runs x s P)
    (next : ∀ ok names b s', s.Advances s' →
      s'.ctx.varMap.map (·.name) = s.ctx.varMap.map (·.name) ++ names → P ok b s' →
        Builds (f b) s' (fun more vars a s'' => Q (ok && more) (names ++ vars) a s'')) :
    Builds (x >>= f) s Q := by
  have builds : Builds x s (fun ok names b s' => s.Advances s' ∧
      s'.ctx.varMap.map (·.name) = s.ctx.varMap.map (·.name) ++ names ∧ P ok b s') := first
  exact builds.bind fun ok names b s' post => next ok names b s' post.1 post.2.1 post.2.2

theorem Reads.builds {x : Parse F α} {P : α → ParserState F → Prop} (holds : Reads x s P)
    (weaker : ∀ a s', s.Moves s' → P a s' → Q true [] a s') : Builds x s Q := by
  apply wp_mono holds
  rintro steps a s' ⟨created, moves, post⟩
  obtain ⟨wellFormed, names⟩ := ParseStep.quiet created
  rw [wellFormed, names]
  exact weaker a s' moves post

theorem Builds.bind_reads {x : Parse F β} {f : β → Parse F α} {P : β → ParserState F → Prop}
    (first : Reads x s P) (next : ∀ b s', s.Moves s' → P b s' → Builds (f b) s' Q) :
    Builds (x >>= f) s Q := by
  apply Builds.bind (first.builds (Q := fun ok names b s' =>
    ok = true ∧ names = [] ∧ s.Moves s' ∧ P b s')
    fun b s' moves post => ⟨rfl, rfl, moves, post⟩)
  rintro ok names b s' ⟨rfl, rfl, moves, post⟩
  simpa only [Bool.true_and, List.nil_append] using next b s' moves post

theorem Builds.ite {c : Prop} [Decidable c] {x y : Parse F α} (holds : c → Builds x s Q)
    (fails : ¬c → Builds y s Q) : Builds (if c then x else y) s Q := by
  rw [Builds, wp_ite]
  exact ⟨holds, fails⟩

theorem Builds.bind_getTok {f : Token → Parse F α} (next : Builds (f s.tok) s Q) :
    Builds (getTok >>= f) s Q := by
  simpa only [Builds, getTok, wp_bind, wp_getState, wp_pure, List.nil_append] using next

theorem Builds.bind_getContext {f : ParserContext F → Parse F α} (next : Builds (f s.ctx) s Q) :
    Builds (getContext >>= f) s Q := by
  simpa only [Builds, getContext, wp_bind, wp_getState, wp_pure, List.nil_append] using next

theorem Builds.modifyContext {g : ParserContext F → ParserContext F}
    {Q : Bool → List String → Unit → ParserState F → Prop}
    (post : Q true [] () { s with ctx := g s.ctx }) : Builds (modifyContext g) s Q := by
  rw [Builds, Bistra.modifyContext, wp_modifyState]
  exact post

theorem Builds.loop {body : β → Parse F (β ⊕ α)} {b : β}
    {I : Bool → List String → β → ParserState F → Prop}
    (round : ∀ ok names b s', I ok names b s' → Builds (body b) s' (fun more vars next s'' =>
      match next with
      | .inl b' => s''.remaining < s'.remaining ∧ I (ok && more) (names ++ vars) b' s''
      | .inr a => Q (ok && more) (names ++ vars) a s'')) (init : I true [] b s) :
    Builds (loop body b) s Q := by
  rw [Builds, Bistra.loop, wp_bind, wp_getState]
  apply wp_iterate (m := ParserState.remaining)
    (I := fun steps b s' => I (steps.all ParseStep.wellFormed)
      (steps.filterMap ParseStep.newVar?) b s') _ (Nat.lt_succ_self _) init
  intro steps b s' holds
  apply wp_mono (round _ _ b s' holds)
  rintro more (b' | a) s'' post
  · rw [List.all_append, List.filterMap_append]
    exact post
  · rw [List.nil_append, List.all_append, List.filterMap_append]
    exact post

end Rules

/-! ## Types and commands -/

section Functions

variable {s : ParserState F}

theorem reads_parseTypePair {name : String} {val : Int32} :
    Reads (parseTypePair name val : Parse F _) s
      (fun dim s' => dim.1 = true → s.numErrors < s'.numErrors) := by
  apply Reads.bind reads_parseIdentifier
  rintro (_ | dimName) s₁ moves₁ -
  · exact reads_diagnoseTok_fail fun _ _ error _ => Nat.lt_of_le_of_lt moves₁.errors error
  · apply Reads.bind (reads_expect (by decide))
    rintro found s₂ moves₂ ⟨-, error⟩
    apply Reads.ite
    · intro missing
      have error := error (by simpa using missing)
      exact Reads.pure fun _ => Nat.lt_of_le_of_lt moves₁.errors error
    · intro _
      apply Reads.bind reads_parseIntegerLiteralOrLetConstant
      rintro (_ | dimVal) s₃ moves₃ -
      · have earlier := (moves₁.trans (moves₂.trans moves₃)).errors
        exact reads_diagnoseTok_fail fun _ _ error _ => Nat.lt_of_le_of_lt earlier error
      · exact Reads.pure nofun

theorem reads_parseDims {uninit : Int32} {dims : List (String × UInt32)} :
    Reads (parseDims uninit dims : Parse F _) s fun _ _ => True := by
  apply Reads.loop (I := fun _ _ => True) _ trivial
  intro dims s₁ _ _
  apply Reads.bind_getTok
  apply Reads.ite
  · intro found
    apply Reads.bind (reads_consumeTokenOf found (by decide))
    intro _ s₂ _ smaller
    apply Reads.bind reads_parseTypePair
    intro dim s₃ moves₃ _
    apply Reads.ite
    · exact fun _ => Reads.bind reads_skipUntil fun _ _ _ _ => Reads.pure trivial
    · exact fun _ => Reads.pure ⟨Nat.lt_of_le_of_lt moves₃.remaining smaller, trivial⟩
  · exact fun _ => Reads.pure trivial

theorem reads_parseNamedType {uninit : Int32} {T : TensorType} :
    Reads (parseNamedType uninit T : Parse F _) s (fun named s' =>
      (named.1 = true → s.numErrors < s'.numErrors) ∧
      (s'.numErrors = s.numErrors → isLegalName named.2.2 = true)) := by
  apply Reads.bind_getTok
  apply Reads.bind (reads_expect (by decide))
  rintro found s₁ moves₁ ⟨found₁, error₁⟩
  apply Reads.ite
  · intro missing
    -- After an error in the name the number of errors has grown.
    have error := error₁ (by simpa using missing)
    exact Reads.pure ⟨fun _ => error, fun none => absurd none (Nat.ne_of_gt error)⟩
  · intro found
    have legal : isLegalName s.tok.getText = true :=
      s.tok.legalName (found₁ (by simpa using found)).1
    apply Reads.bind (reads_expect (by decide))
    intro _ s₂ moves₂ _
    apply Reads.bind reads_parseBuiltinType
    rintro (_ | scalarsTy) s₃ moves₃ ⟨error₃, -⟩
    · have error := Nat.lt_of_le_of_lt (moves₁.trans moves₂).errors (error₃ rfl)
      exact Reads.pure ⟨fun _ => error, fun _ => legal⟩
    · apply Reads.bind (reads_expect (by decide))
      rintro found s₄ moves₄ ⟨-, error₄⟩
      apply Reads.ite
      · intro missing
        -- The same for the bracket behind the type.
        have earlier := (moves₁.trans (moves₂.trans moves₃)).errors
        have error := Nat.lt_of_le_of_lt earlier (error₄ (by simpa using missing))
        exact Reads.pure ⟨fun _ => error, fun _ => legal⟩
      · intro _
        apply Reads.bind reads_parseTypePair
        intro dim s₅ _ _
        apply Reads.bind (reads_onlyIf fun _ => reads_skipUntilOneOf)
        intro _ s₆ _ _
        apply Reads.bind reads_parseDims
        intro dims s₇ _ _
        apply Reads.bind (reads_expect (by decide))
        intro closed s₈ _ _
        apply Reads.bind (reads_onlyIf fun _ => reads_skipUntil)
        intro _ s₉ _ _
        exact Reads.pure ⟨nofun, fun _ => legal⟩

theorem reads_parseTargetName : Reads (parseTargetName : Parse F String) s
    (fun name _ => isLegalName name = true) := by
  apply Reads.bind reads_parseIdentifier
  rintro (_ | targetName) s₁ _ ⟨-, legal⟩
  · apply Reads.bind reads_diagnoseTok
    intro _ s₂ _ _
    apply Reads.bind reads_skipUntil
    intro _ s₃ _ _
    exact Reads.pure (by decide +kernel)
  · exact Reads.pure (legal targetName rfl)

/-! ## Scripts -/

/-- What the functions for scripts leave. -/
def Keeping {α : Type} (s : ParserState F) (ok : Bool) (names : List String) (_ : α)
    (s' : ParserState F) : Prop :=
  ok = true ∧ names = [] ∧ s.Keeps s'

theorem Builds.skip {K : TokenKind} {message : String} :
    Builds (do diagnoseTok message; skipUntil K : Parse F Unit) s (Keeping s) := by
  apply Builds.bind_reads reads_diagnoseTok
  intro _ s₁ moves₁ _
  apply reads_skipUntil.builds
  exact fun _ s₂ moves₂ _ => ⟨rfl, rfl, (moves₁.trans moves₂).keeps⟩

theorem builds_parseCommand {pk : PragmaKind} :
    Builds (parseCommand pk : Parse F Unit) s (Keeping s) := by
  have added : ∀ {s₁ : ParserState F} (pc : PragmaCommand), s.Moves s₁ →
      Builds (addPragma pc) s₁ (Keeping s) := fun pc moves =>
    Builds.modifyContext ⟨rfl, rfl, by rw [moves.ctx], moves.remaining, moves.errors⟩
  apply Builds.bind_reads reads_parseStringLiteral
  rintro (_ | loopName) s₁ moves₁ _
  · exact Builds.skip.mono fun _ _ _ _ kept => ⟨kept.1, kept.2.1, moves₁.keeps.trans kept.2.2⟩
  · apply Builds.ite
    · exact fun _ => added _ moves₁
    · intro _
      apply Builds.bind_reads (reads_consumeIf (by decide))
      intro _ s₂ moves₂ _
      apply Builds.bind_reads reads_parseIntegerLiteral
      rintro (_ | arg0) s₃ moves₃ _
      · have moves₃ := moves₁.trans (moves₂.trans moves₃)
        exact Builds.skip.mono fun _ _ _ _ kept => ⟨kept.1, kept.2.1, moves₃.keeps.trans kept.2.2⟩
      · apply Builds.bind_reads (reads_consumeIf (by decide))
        intro _ s₄ moves₄ _
        have moves₄ := moves₁.trans (moves₂.trans (moves₃.trans moves₄))
        apply Builds.bind_getTok
        apply Builds.ite
        · intro found
          apply Builds.bind_reads (reads_consumeTokenOf found (by decide))
          intro _ s₅ moves₅ _
          apply Builds.bind_reads reads_parseStringLiteral
          rintro (_ | newName) s₆ moves₆ _
          · have moves₆ := moves₄.trans (moves₅.trans moves₆)
            exact Builds.skip.mono fun _ _ _ _ kept =>
              ⟨kept.1, kept.2.1, moves₆.keeps.trans kept.2.2⟩
          · exact added _ (moves₄.trans (moves₅.trans moves₆))
        · exact fun _ => added _ moves₄

theorem builds_parseCommands : Builds (parseCommands : Parse F Bool) s (Keeping s) := by
  apply Builds.loop (I := fun ok names _ s' => ok = true ∧ names = [] ∧ s.Keeps s') _
    ⟨rfl, rfl, (ParserState.Moves.refl s).keeps⟩
  rintro ok names _ s₁ ⟨rfl, rfl, kept₁⟩
  apply Builds.bind_getTok
  apply Builds.ite
  · exact fun _ => Builds.pure ⟨rfl, rfl, kept₁⟩
  · intro _
    split
    next =>
      apply Builds.bind_reads reads_diagnoseTok
      intro _ s₂ moves₂ _
      apply Builds.bind_reads reads_skipUntil
      intro _ s₃ moves₃ _
      exact Builds.pure ⟨rfl, rfl, kept₁.trans (moves₂.trans moves₃).keeps⟩
    next pk command =>
      have notEof : s₁.tok.kind ≠ .eof := fun ended => by simp [ended, commandKind] at command
      apply Builds.bind_reads (reads_consumeToken notEof)
      intro _ s₂ moves₂ smaller
      apply Builds.bind builds_parseCommand
      rintro _ _ _ s₃ ⟨rfl, rfl, kept₃⟩
      have shorter := Nat.lt_of_le_of_lt kept₃.remaining smaller
      exact Builds.pure ⟨shorter, rfl, rfl, kept₁.trans (moves₂.keeps.trans kept₃)⟩

theorem builds_parseScriptDecl (found : s.tok.kind = .kwScript) :
    Builds (parseScriptDecl : Parse F Unit) s (Keeping s) := by
  apply Builds.bind_reads (reads_consumeTokenOf found (by decide))
  intro _ s₁ moves₁ _
  apply Builds.bind_reads (reads_expect (by decide))
  intro _ s₂ moves₂ _
  have moves₂ := moves₁.trans moves₂
  apply Builds.ite
  · exact fun _ => reads_skipUntil.builds fun _ s₃ moves₃ _ => ⟨rfl, rfl, (moves₂.trans moves₃).keeps⟩
  · intro _
    apply Builds.bind_reads reads_parseStringLiteral
    intro progName s₃ moves₃ _
    apply Builds.bind_reads (reads_onlyIf fun _ =>
      Reads.bind reads_diagnoseTok fun _ _ _ _ => reads_skipUntil)
    intro _ s₄ moves₄ _
    apply Builds.bind_reads (reads_expect (by decide))
    intro _ s₅ moves₅ _
    have moves₅ := moves₂.trans (moves₃.trans (moves₄.trans moves₅))
    apply Builds.bind builds_parseCommands
    rintro _ _ complete s₆ ⟨rfl, rfl, kept₆⟩
    have kept₆ := moves₅.keeps.trans kept₆
    apply Builds.ite
    · intro _
      apply Builds.bind_reads (reads_expect (by decide))
      intro _ s₇ moves₇ _
      exact Builds.pure ⟨rfl, rfl, kept₆.trans moves₇.keeps⟩
    · exact fun _ => Builds.pure ⟨rfl, rfl, kept₆⟩

/-! ## Functions -/

theorem builds_registerArg {s₁ : ParserState F} {args : List Argument}
    (parsed : ArgsParsed s args s₁) {arg : Argument} (fresh : s₁.ctx.getArg arg.name = none)
    (named : s₁.numErrors = s.numErrors → isLegalName arg.name = true) :
    Builds (registerArg arg : Parse F Unit) s₁ (fun ok names _ s' => ok = true ∧ names = [] ∧
      s'.remaining = s₁.remaining ∧ ArgsParsed s (args ++ [arg]) s') := by
  have unused : (s₁.ctx.getArg arg.name).isNone = true := by rw [fresh]; rfl
  have argMap : s₁.ctx.argMap = args := by rw [parsed.ctx]
  simp only [Builds, registerArg, getContext, modifyContext, wp_bind, wp_getState, wp_pure,
    wp_assert, wp_modifyState, unused, true_and]
  refine ⟨rfl, rfl, rfl, ?_, parsed.remaining, parsed.errors, ?_, ?_, ?_⟩
  · rw [parsed.ctx]
  · rw [List.map_append, List.nodup_append]
    refine ⟨parsed.distinct, by simp, ?_⟩
    intro name mem name' mem' same
    obtain ⟨other, memOther, rfl⟩ := List.mem_map.mp mem
    rw [ParserContext.getArg, argMap] at fresh
    have absent := List.findIdx?_eq_none_iff.mp fresh other memOther
    simp only [List.map_cons, List.map_nil, List.mem_singleton] at mem'
    simp [same, mem'] at absent
  · exact parsed.more.trans (List.prefix_append _ _)
  · intro none legal other mem
    cases List.mem_append.mp mem with
    | inl old => exact parsed.legal none legal other old
    | inr new => rw [List.mem_singleton.mp new]; exact named none

theorem builds_parseArgs {s₁ : ParserState F} {uninit : Int32} {T : TensorType}
    {args : List Argument} (parsed : ArgsParsed s args s₁) :
    Builds (parseArgs uninit T args : Parse F _) s₁ (fun ok names args' s' =>
      ok = true ∧ names = [] ∧ ArgsParsed s args' s') := by
  apply Builds.loop (I := fun ok names (T : TensorType × List Argument) s' =>
    ok = true ∧ names = [] ∧ ArgsParsed s T.2 s') _ ⟨rfl, rfl, parsed⟩
  rintro ok names ⟨T, args⟩ s₂ ⟨rfl, rfl, parsed₂⟩
  apply Builds.bind_getTok
  apply Builds.ite
  · intro found
    apply Builds.bind_reads (reads_consumeTokenOf found (by decide))
    intro _ s₃ moves₃ smaller₃
    apply Builds.bind_reads reads_parseNamedType
    rintro named s₄ moves₄ ⟨-, legal₄⟩
    apply Builds.bind_reads (reads_onlyIf fun _ => reads_skipUntil)
    intro _ s₅ moves₅ _
    have parsed₅ := parsed₂.moves (moves₃.trans (moves₄.trans moves₅))
    -- Every round consumes a token, so that fuel is left for the next one.
    have smaller₅ := Nat.lt_of_le_of_lt (moves₄.trans moves₅).remaining smaller₃
    apply Builds.bind_getContext
    apply Builds.ite
    · intro _
      apply Builds.bind_reads reads_diagnoseTok
      intro _ s₆ moves₆ _
      exact Builds.pure ⟨Nat.lt_of_le_of_lt moves₆.remaining smaller₅, rfl, rfl,
        parsed₅.moves moves₆⟩
    · intro fresh
      -- A name without errors is legal, and the check for a second argument of the name makes it
      -- new.
      have named : s₅.numErrors = s.numErrors → isLegalName named.2.2 = true := by
        intro none
        have := parsed₂.errors
        have := moves₃.errors
        have := moves₄.errors
        have := moves₅.errors
        exact legal₄ (by omega)
      apply Builds.bind (builds_registerArg parsed₅ (by simpa using fresh) named)
      rintro _ _ _ s₆ ⟨rfl, rfl, remaining₆, parsed₆⟩
      exact Builds.pure ⟨by rw [remaining₆]; exact smaller₅, rfl, rfl, parsed₆⟩
  · exact fun _ => Builds.pure ⟨rfl, rfl, parsed₂⟩

theorem builds_parseFunctionDecl {uninit : Int32} (valid : s.ctx.Valid)
    (found : s.tok.kind = .kwFunc) (noArgs : s.ctx.argMap = []) (noLoops : s.ctx.scope = []) :
    Builds (parseFunctionDecl uninit : Parse F _) s (fun ok names func s' =>
      s.numErrors ≤ s'.numErrors ∧ (func = none → s.numErrors < s'.numErrors) ∧
      ∀ p, func = some p → s'.numErrors = s.numErrors →
        ProgramParsed ok (s.ctx.varMap.map (·.name) ++ names) p) := by
  apply Builds.bind_reads (reads_consumeTokenOf found (by decide))
  intro _ s₁ moves₁ _
  apply Builds.bind_reads reads_parseTargetName
  intro targetName s₂ moves₂ legalTarget
  apply Builds.bind_reads (reads_expect (by decide))
  intro _ s₃ moves₃ _
  have moves₃ := moves₁.trans (moves₂.trans moves₃)
  apply Builds.bind_reads reads_parseNamedType
  rintro named s₄ moves₄ ⟨failed₄, legal₄⟩
  have moves₄' := moves₃.trans moves₄
  apply Builds.ite
  · intro failed
    have error := Nat.lt_of_le_of_lt moves₃.errors (failed₄ failed)
    exact Builds.pure ⟨Nat.le_of_lt error, fun _ => error, nofun⟩
  · intro _
    -- The first argument starts with no argument before it.
    have none₄ : ArgsParsed s [] s₄ := by
      refine ⟨?_, moves₄'.remaining, moves₄'.errors, List.nodup_nil, noArgs.symm ▸ List.prefix_rfl,
        fun _ _ => nofun⟩
      rw [moves₄'.ctx, ← noArgs]
    have fresh : s₄.ctx.getArg (Argument.mk named.2.2 named.2.1).name = none := by
      rw [ParserContext.getArg, none₄.ctx]
      rfl
    have named₄ : s₄.numErrors = s.numErrors → isLegalName named.2.2 = true := by
      intro none
      have := moves₃.errors
      have := moves₄.errors
      exact legal₄ (by omega)
    apply Builds.bind (builds_registerArg none₄ fresh named₄)
    rintro _ _ _ s₅ ⟨rfl, rfl, -, parsed₅⟩
    apply Builds.bind (builds_parseArgs parsed₅)
    rintro _ _ args s₆ ⟨rfl, rfl, parsed₆⟩
    apply Builds.bind_reads (reads_expect (by decide))
    intro _ s₇ moves₇ _
    apply Builds.bind_reads (reads_onlyIf fun _ => reads_skipUntil)
    intro _ s₈ moves₈ _
    have parsed₈ := parsed₆.moves (moves₇.trans moves₈)
    -- In front of the body the context only has the arguments, which are all different.
    have valid₈ : s₈.ctx.Valid := by
      rw [parsed₈.ctx]
      exact valid.addArgs parsed₈.more parsed₈.distinct
    apply Builds.bind_runs (runs_parseScope valid₈)
    rintro ok names body s₉ advances₉ names₉ ⟨-, body₉⟩
    apply Builds.bind_getContext
    apply Builds.pure
    have := parsed₈.errors
    have := advances₉.errors
    -- After a run without errors the program is made of the arguments, the variables and the body.
    refine ⟨by omega, nofun, fun p same none => ?_⟩
    have argMap : s₉.ctx.argMap = args := by rw [advances₉.args, parsed₈.ctx]
    have scope : s₈.ctx.scope = [] := by rw [← noLoops, parsed₈.ctx]; rfl
    have legal₈ := parsed₈.legal (by omega) (by rw [noArgs]; exact nofun)
    rw [← argMap] at same legal₈
    cases same
    have newVars : s₉.ctx.varMap.map (·.name) = s.ctx.varMap.map (·.name) ++ names := by
      rw [names₉, parsed₈.ctx]
    simp only [Bool.true_and, Bool.and_true, List.nil_append, List.append_nil, ← newVars]
    exact (body₉ (by omega)).program scope advances₉ (advances₉.valid valid₈) legalTarget legal₈

theorem builds_parseFunction {uninit : Int32} (valid : s.ctx.Valid)
    (found : s.tok.kind = .kwFunc) (noArgs : s.ctx.argMap = []) (noLoops : s.ctx.scope = []) :
    Builds (parseFunction uninit : Parse F Unit) s (fun ok names _ s' => s'.numErrors = 0 →
      ∃ p, s'.ctx.prog = some p ∧ ProgramParsed ok (s.ctx.varMap.map (·.name) ++ names) p) := by
  apply Builds.bind (builds_parseFunctionDecl valid found noArgs noLoops)
  rintro ok names (_ | func) s₁ ⟨more, error, parsed⟩
  · exact Builds.pure fun none => absurd none (Nat.ne_of_gt (Nat.zero_lt_of_lt (error rfl)))
  · apply Builds.modifyContext
    intro none
    rw [Bool.and_true, List.append_nil]
    have none : s₁.numErrors = 0 := none
    exact ⟨func, rfl, parsed func rfl (by omega)⟩

end Functions

theorem builds_parse (uninit : Int32) (text : List Char) (lets : List (String × Int32)) :
    Builds (parse uninit : Parse F Unit) (.start text lets) (fun ok names _ s' =>
      s'.numErrors = 0 → ∃ p, s'.ctx.prog = some p ∧ ProgramParsed ok names p) := by
  apply Builds.bind_reads (reads_consumeToken (by simp [ParserState.start]))
  intro _ s₁ moves₁ _
  have valid₁ : s₁.ctx.Valid := by
    rw [moves₁.ctx]
    exact ParserState.valid_start text lets
  apply Builds.bind_runs (runs_parseLets valid₁)
  rintro ok names failed s₂ advances₂ names₂ ⟨rfl, error₂⟩
  apply Builds.ite
  · intro failed
    exact Builds.pure fun none => absurd none (Nat.ne_of_gt (Nat.zero_lt_of_lt (error₂ failed)))
  · intro _
    apply Builds.bind_getTok
    apply Builds.ite
    -- The context starts without arguments and without loops.
    · intro found
      have ctx₁ : s₁.ctx = (ParserState.start text lets : ParserState F).ctx := moves₁.ctx
      have noArgs : s₂.ctx.argMap = [] := by rw [advances₂.args, ctx₁]; rfl
      have noLoops : s₂.ctx.scope = [] := by rw [advances₂.scope, ctx₁]; rfl
      apply Builds.bind (builds_parseFunction (advances₂.valid valid₁) found noArgs noLoops)
      intro ok' names' _ s₃ parsed₃
      have names₂ : s₂.ctx.varMap.map (·.name) = names := by rw [names₂, ctx₁]; rfl
      rw [names₂] at parsed₃
      apply Builds.bind_getTok
      apply Builds.bind (P := Keeping s₃)
      -- Behind the function a script may follow, which adds pragmas only.
      · apply Builds.ite
        · exact fun script => builds_parseScriptDecl (by simpa using script)
        · exact fun _ => Builds.pure ⟨rfl, rfl, (ParserState.Moves.refl s₃).keeps⟩
      · rintro _ _ _ s₄ ⟨rfl, rfl, kept₄⟩
        apply Builds.bind_getTok
        apply (reads_onlyIf fun _ => reads_diagnoseTok.mono fun _ _ _ _ => trivial).builds
        intro _ s₅ moves₅ _ none
        have := kept₄.errors
        have := moves₅.errors
        simp only [Bool.true_and, Bool.and_true, List.append_nil]
        rw [moves₅.ctx, kept₄.prog]
        exact parsed₃ (by omega)
    · intro _
      apply reads_diagnoseTok.builds
      exact fun _ s₃ _ error none => absurd none (Nat.ne_of_gt (Nat.zero_lt_of_lt error))

end Bistra

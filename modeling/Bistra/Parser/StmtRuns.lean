import Bistra.Parser.Runs

/-! # What the functions for statements return

On a run without errors the statements that are returned are verified, except for the conditions
that the parser leaves open.
-/

namespace Bistra

variable {F : Type}

/-- What is known of statements that a run without errors creates between two states: they are
verified exactly when the run has created well-formed statements only, and the numbers of their
loops are new. -/
structure BodyParsed (s : ParserState F) (ok : Bool) (body : List (Stmt F)) (s' : ParserState F) :
    Prop where
  verified : ok = true → ∀ S ∈ body, S.verify s'.ctx.decls s.ctx.scope = true
  wellFormed : ∀ vars scope, (∀ S ∈ body, S.verify ⟨s.ctx.argMap, vars⟩ scope = true) → ok = true
  nodup : (Stmt.loopIds body).Nodup
  fresh : ∀ id ∈ Stmt.loopIds body, s.ctx.nextLoop ≤ id ∧ id < s'.ctx.nextLoop

theorem BodyParsed.nil (s s' : ParserState F) : BodyParsed s true [] s' :=
  ⟨nofun, fun _ _ _ => rfl, by simp [Stmt.loopIds, Stmt.collectLoopsBody], by
    simp [Stmt.loopIds, Stmt.collectLoopsBody]⟩

theorem BodyParsed.leaf {s s' : ParserState F} {ok : Bool} {S : Stmt F}
    (noLoops : S.collectLoops = [])
    (verified : ok = true → S.verify s'.ctx.decls s.ctx.scope = true)
    (wellFormed : ∀ vars scope, S.verify ⟨s.ctx.argMap, vars⟩ scope = true → ok = true) :
    BodyParsed s ok [S] s' := by
  have noIds : Stmt.loopIds [S] = [] := by
    simp [Stmt.loopIds, Stmt.collectLoopsBody, noLoops]
  refine ⟨?_, ?_, by rw [noIds]; exact List.nodup_nil, by simp [noIds]⟩
  · intro ok S' mem
    rw [List.mem_singleton.mp mem]
    exact verified ok
  · intro vars scope all
    exact wellFormed vars scope (all S (List.mem_singleton_self S))

theorem BodyParsed.append {s s' s'' : ParserState F} {ok more : Bool} {body rest : List (Stmt F)}
    (before : s.Advances s') (after : s'.Advances s'') (first : BodyParsed s ok body s')
    (second : BodyParsed s' more rest s'') : BodyParsed s (ok && more) (body ++ rest) s'' where
  verified all S mem := by
    rw [Bool.and_eq_true] at all
    cases List.mem_append.mp mem with
    | inl early =>
      have extended := after.extends
      exact Stmt.verify_extends extended.args extended.vars (List.Subset.refl _)
        (first.verified all.1 S early)
    | inr late =>
      rw [← before.scope]
      exact second.verified all.2 S late
  wellFormed vars scope all := by
    -- The first statements are as well formed as before: what is declared later changes nothing.
    have left := first.wellFormed vars scope fun S mem => all S (List.mem_append_left _ mem)
    have right := second.wellFormed vars scope fun S mem => by
      rw [before.args]
      exact all S (List.mem_append_right _ mem)
    rw [left, right]
    rfl
  nodup := by
    rw [Stmt.loopIds_append, List.nodup_append]
    refine ⟨first.nodup, second.nodup, fun id early id' late same => ?_⟩
    -- The loops are numbered as they are parsed, so the numbers of the later ones are greater.
    have below := Nat.lt_of_lt_of_le (first.fresh id early).2 (second.fresh id' late).1
    exact Nat.ne_of_lt below same
  fresh id mem := by
    rw [Stmt.loopIds_append] at mem
    cases List.mem_append.mp mem with
    | inl early => exact ⟨(first.fresh id early).1,
        Nat.lt_of_lt_of_le (first.fresh id early).2 after.nextLoop⟩
    | inr late => exact ⟨Nat.le_trans before.nextLoop (second.fresh id late).1,
        (second.fresh id late).2⟩

theorem BodyParsed.storeLocal {s s' : ParserState F} (advances : s.Advances s') {name : String}
    {var : VarId} {decl : LocalVar} {value : Expr F} (found : s'.ctx.getVar name = some var)
    (known : s'.ctx.varMap[var]? = some decl) (types : value.getType = decl.type)
    (parsed : value.Parsed s'.ctx) (accumulate : Bool) :
    s'.ctx.decls.mkStoreLocal var value accumulate = some (.storeLocal var value accumulate) ∧
      BodyParsed s true [.storeLocal var value accumulate] s' := by
  obtain ⟨other, same, -, uniqued⟩ := ParserContext.getVar_eq_some found
  cases known.symm.trans same
  have declared : s'.ctx.decls.vars[var]? = some decl := known
  constructor
  · rw [Decls.mkStoreLocal, declared]
    simp [types]
  · refine .leaf rfl (fun _ => ?_) fun _ _ _ => rfl
    rw [Stmt.verify, Bool.and_eq_true, ← advances.scope]
    refine ⟨?_, parsed.verify⟩
    rw [Decls.verifyLocal, declared]
    simp [uniqued, types]

/-- A store to a buffer.  Whether the value has the element type of the buffer is left open. -/
theorem BodyParsed.store {s s' : ParserState F} (moves : s.Moves s') {arg : ArgId}
    {decl : Argument} {indices : List (Expr F)} {value : Expr F}
    (known : s.ctx.argMap[arg]? = some decl)
    (load : (Expr.load arg indices ⟨decl.type.elementType, .one⟩).Parsed s.ctx)
    (parsed : value.Parsed s.ctx) (accumulate : Bool) :
    BodyParsed s (ParseStep.newStore decl.type.elementType value).wellFormed
      [.store arg indices value accumulate] s' := by
  have access := load.verify
  simp only [Expr.verify, Bool.and_eq_true] at access
  refine .leaf rfl (fun types => ?_) fun vars scope verified => ?_
  · simp only [ParseStep.wellFormed, decide_eq_true_eq] at types
    simp only [Stmt.verify, Bool.and_eq_true, moves.ctx, types]
    exact ⟨access, parsed.verify⟩
  · simp only [Stmt.verify, Bool.and_eq_true, Decls.verifyAccess, known, Option.all_some,
      decide_eq_true_eq] at verified
    rw [ParseStep.wellFormed, decide_eq_true_eq]
    exact verified.1.2.2

theorem BodyParsed.call {s s' : ParserState F} (moves : s.Moves s') {params : List (Expr F)}
    (parsed : ∀ e ∈ params, e.Parsed s.ctx) (name : String) :
    BodyParsed s (ParseStep.newCall params).wellFormed [.call name params] s' := by
  refine .leaf rfl (fun types => ?_) fun vars scope verified => ?_
  · simp only [ParseStep.wellFormed, List.all_eq_true] at types
    simp only [Stmt.verify, List.all_eq_true, Bool.and_eq_true, moves.ctx]
    exact fun e mem => ⟨(parsed e mem).verify, types e mem⟩
  · simp only [Stmt.verify, List.all_eq_true, Bool.and_eq_true] at verified
    simp only [ParseStep.wellFormed, List.all_eq_true]
    exact fun e mem => (verified e mem).2

/-- `pushLoop` on the context. -/
def ParserContext.enterLoop (ctx : ParserContext F) (indexName : String) (end_ stride : UInt32) :
    ParserContext F :=
  { ctx with
    loopNextStack := ⟨ctx.nextLoop, indexName, end_, stride⟩ :: ctx.loopNextStack
    nextLoop := ctx.nextLoop + 1 }

theorem ParserContext.Valid.enterLoop {ctx : ParserContext F} (valid : ctx.Valid)
    (indexName : String) (end_ stride : UInt32) : (ctx.enterLoop indexName end_ stride).Valid := by
  have larger : ctx.Extends (ctx.enterLoop indexName end_ stride) :=
    ⟨List.prefix_rfl, List.prefix_rfl, List.subset_cons_self _ _⟩
  refine ⟨fun binding mem => (valid.lets binding mem).extends larger, valid.args, valid.vars,
    valid.names, valid.stack, fun id mem => ?_⟩
  cases List.mem_cons.mp mem with
  | inl same => rw [same]; exact Nat.lt_succ_self _
  | inr old => exact Nat.lt_succ_of_lt (valid.loops id old)

theorem ParserContext.Valid.leaveLoop {ctx ctx' : ParserContext F} (valid : ctx.Valid)
    (valid' : ctx'.Valid) (lets : ctx'.letStack = ctx.letStack) (args : ctx'.argMap = ctx.argMap)
    (vars : ctx.varMap <+: ctx'.varMap) (nextLoop : ctx.nextLoop ≤ ctx'.nextLoop)
    (loops : ctx'.loopNextStack.tail = ctx.loopNextStack) :
    ({ ctx' with loopNextStack := ctx'.loopNextStack.tail } : ParserContext F).Valid := by
  have scope : ({ ctx' with loopNextStack := ctx'.loopNextStack.tail } : ParserContext F).scope =
      ctx.scope := by
    rw [ParserContext.scope, loops, ParserContext.scope]
  have larger : ctx.Extends { ctx' with loopNextStack := ctx'.loopNextStack.tail } :=
    ⟨args.symm ▸ List.prefix_rfl, vars, scope.symm ▸ List.Subset.refl _⟩
  refine ⟨fun binding mem => ?_, valid'.args, valid'.vars, valid'.names, valid'.stack,
    fun id mem => ?_⟩
  · rw [lets] at mem
    exact (valid.lets binding mem).extends larger
  · rw [scope] at mem
    exact Nat.lt_of_lt_of_le (valid.loops id mem) nextLoop

theorem BodyParsed.loop {s s₁ s₂ s₃ : ParserState F} {ok : Bool} {body : List (Stmt F)}
    {indexName : String} (legal : isLegalName indexName = true) {end_ stride : UInt32}
    (entered : s₁.ctx = s.ctx.enterLoop indexName end_ stride) (advances : s₁.Advances s₂)
    (left : s₃.ctx.decls = s₂.ctx.decls ∧ s₃.ctx.nextLoop = s₂.ctx.nextLoop)
    (parsed : BodyParsed s₁ ok body s₂) :
    BodyParsed s ((ParseStep.newLoop end_ stride : ParseStep F).wellFormed && ok)
      [.loop ⟨s.ctx.nextLoop, indexName, end_, stride⟩ body] s₃ := by
  -- What the header checks is what the run has recorded about the new loop.
  have header : (⟨s.ctx.nextLoop, indexName, end_, stride⟩ : Loop).verify =
      (ParseStep.newLoop end_ stride : ParseStep F).wellFormed := by
    simp only [Loop.verify, legal, Bool.and_true, ParseStep.wellFormed]
  have scope : s₁.ctx.scope = s.ctx.nextLoop :: s.ctx.scope := by rw [entered]; rfl
  have args : s₁.ctx.argMap = s.ctx.argMap := by rw [entered]; rfl
  have next : s₁.ctx.nextLoop = s.ctx.nextLoop + 1 := by rw [entered]; rfl
  have ids : Stmt.loopIds [Stmt.loop ⟨s.ctx.nextLoop, indexName, end_, stride⟩ body] =
      s.ctx.nextLoop :: Stmt.loopIds body := Stmt.loopIds_loop _ _
  constructor
  · intro all S mem
    rw [List.mem_singleton.mp mem, Stmt.verify, header, left.1]
    rw [Bool.and_eq_true] at all
    rw [all.1, Bool.true_and, Stmt.verifyBody_eq, List.all_eq_true, ← scope]
    exact parsed.verified all.2
  · intro vars scope' verified
    have verified := verified _ (List.mem_singleton_self _)
    rw [Stmt.verify, header, Bool.and_eq_true, Stmt.verifyBody_eq, List.all_eq_true] at verified
    rw [verified.1, Bool.true_and]
    rw [← args] at verified
    exact parsed.wellFormed vars _ verified.2
  · rw [ids, List.nodup_cons]
    -- The loops of the body have been numbered behind this one.
    refine ⟨fun mem => ?_, parsed.nodup⟩
    have new := (parsed.fresh _ mem).1
    rw [next] at new
    exact Nat.not_succ_le_self _ new
  · rw [ids]
    intro id mem
    have grows := advances.nextLoop
    rw [next] at grows
    rw [left.2]
    cases List.mem_cons.mp mem with
    | inl same => rw [same]; exact ⟨Nat.le_refl _, grows⟩
    | inr inside =>
      obtain ⟨new, bound⟩ := parsed.fresh id inside
      rw [next] at new
      exact ⟨Nat.le_of_succ_le new, bound⟩

theorem BodyParsed.ifRange {s s₁ s₂ : ParserState F} {ok : Bool} {body : List (Stmt F)}
    (moves : s.Moves s₁) (advances : s₁.Advances s₂) {val : Expr F} (parsedVal : val.Parsed s.ctx)
    (start end_ : Int32) (parsed : BodyParsed s₁ ok body s₂) :
    BodyParsed s ((ParseStep.newIfRange start end_ : ParseStep F).wellFormed && ok)
      [.ifRange val start end_ body] s₂ := by
  have ids : Stmt.loopIds [Stmt.ifRange val start end_ body] = Stmt.loopIds body :=
    Stmt.loopIds_ifRange _ _ _ _
  constructor
  · intro all S mem
    rw [Bool.and_eq_true] at all
    have range : decide (start ≤ end_) = true := all.1
    rw [List.mem_singleton.mp mem, Stmt.verify, range, Bool.true_and, Bool.and_eq_true,
      Stmt.verifyBody_eq, List.all_eq_true, ← moves.ctx]
    rw [← moves.ctx] at parsedVal
    exact ⟨Expr.verify_extends advances.extends.args advances.extends.vars (List.Subset.refl _)
      parsedVal.verify, parsed.verified all.2⟩
  · intro vars scope verified
    have verified := verified _ (List.mem_singleton_self _)
    simp only [Stmt.verify, Bool.and_eq_true, Stmt.verifyBody_eq, List.all_eq_true] at verified
    rw [ParseStep.wellFormed, verified.1.1, Bool.true_and]
    rw [← moves.ctx] at verified
    exact parsed.wellFormed vars scope verified.2
  · rw [ids]
    exact parsed.nodup
  · rw [ids, ← moves.ctx]
    exact parsed.fresh

/-- The statement that is parsed at `s`, behind tokens that have been consumed before. -/
def StmtRun (s : ParserState F) (ok : Bool) (result : Option (Stmt F)) (s' : ParserState F) :
    Prop :=
  (result = none → s.numErrors < s'.numErrors) ∧
    ∀ S, result = some S → s'.numErrors = s.numErrors → BodyParsed s ok [S] s'

theorem StmtRun.fail {s s' : ParserState F} {ok : Bool} (error : s.numErrors < s'.numErrors) :
    StmtRun s ok none s' :=
  ⟨fun _ => error, nofun⟩

theorem StmtRun.succeed {s s' : ParserState F} {ok : Bool} {S : Stmt F}
    (parsed : s'.numErrors = s.numErrors → BodyParsed s ok [S] s') : StmtRun s ok (some S) s' :=
  ⟨nofun, fun _ same => by cases same; exact parsed⟩

theorem StmtRun.earlier {s s₁ s' : ParserState F} {ok : Bool} {result : Option (Stmt F)}
    (moves : s.Moves s₁) (advances : s₁.Advances s') (run : StmtRun s₁ ok result s') :
    StmtRun s ok result s' := by
  refine ⟨fun failed => Nat.lt_of_le_of_lt moves.errors (run.1 failed), fun S same none => ?_⟩
  have body := run.2 S same (by have := moves.errors; have := advances.errors; omega)
  refine ⟨?_, ?_, body.nodup, ?_⟩
  · rw [← moves.ctx]; exact body.verified
  · rw [← moves.ctx]; exact body.wellFormed
  · rw [← moves.ctx]; exact body.fresh

/-! ## Declarations -/

theorem ParserContext.Valid.pushLet {ctx : ParserContext F} (valid : ctx.Valid) {e : Expr F}
    (parsed : e.Parsed ctx) (name : String) :
    ({ ctx with letStack := (name, e) :: ctx.letStack } : ParserContext F).Valid := by
  have same : ctx.Extends { ctx with letStack := (name, e) :: ctx.letStack } :=
    ⟨List.prefix_rfl, List.prefix_rfl, List.Subset.refl _⟩
  refine ⟨?_, valid.args, valid.vars, valid.names, valid.stack, valid.loops⟩
  intro binding mem
  cases List.mem_cons.mp mem with
  | inl new => rw [new]; exact parsed.extends same
  | inr old => exact (valid.lets binding old).extends same

theorem ParserContext.getVar_append {ctx ctx' : ParserContext F} {decl : LocalVar}
    (vars : ctx'.varMap = ctx.varMap ++ [decl]) (fresh : ctx.getVar decl.name = none) :
    ctx'.getVar decl.name = some ctx.varMap.length ∧
      ∀ {name var}, ctx.getVar name = some var → ctx'.getVar name = some var := by
  rw [ParserContext.getVar] at fresh
  constructor
  · rw [ParserContext.getVar, vars, List.findIdx?_append, fresh]
    simp
  · intro name var found
    rw [ParserContext.getVar] at found
    rw [ParserContext.getVar, vars, List.findIdx?_append, found]
    rfl

def ParserContext.registerVar (ctx : ParserContext F) (decl : LocalVar) : ParserContext F :=
  { ctx with
    varMap := ctx.varMap ++ [decl]
    varStack := (decl.name, ctx.varMap.length) :: ctx.varStack }

theorem ParserContext.Valid.registerVar {ctx : ParserContext F} (valid : ctx.Valid)
    {decl : LocalVar} (fresh : ctx.getVar decl.name = none) (legal : isLegalName decl.name = true) :
    (ctx.registerVar decl).Valid := by
  have appended : (ctx.registerVar decl).varMap = ctx.varMap ++ [decl] := rfl
  obtain ⟨new, old⟩ := ParserContext.getVar_append appended fresh
  have larger : ctx.Extends (ctx.registerVar decl) :=
    ⟨List.prefix_rfl, List.prefix_append _ _, List.Subset.refl _⟩
  refine ⟨fun binding mem => (valid.lets binding mem).extends larger, valid.args, ?_, ?_, ?_,
    valid.loops⟩
  · rw [appended, List.map_append, List.nodup_append]
    refine ⟨valid.vars, by simp, ?_⟩
    intro name mem name' mem' same
    obtain ⟨other, memOther, rfl⟩ := List.mem_map.mp mem
    have absent := List.findIdx?_eq_none_iff.mp fresh other memOther
    simp only [List.map_cons, List.map_nil, List.mem_singleton] at mem'
    simp [same, mem'] at absent
  · intro var mem
    rw [appended] at mem
    cases List.mem_append.mp mem with
    | inl old => exact valid.names var old
    | inr new => rw [List.mem_singleton.mp new]; exact legal
  · intro binding mem
    cases List.mem_cons.mp mem with
    | inl same => rw [same]; exact new
    | inr mem => exact old (valid.stack binding mem)

variable [Field F] [LinearOrder F]

open Procedure

section Functions

variable {s : ParserState F}

theorem reads_parseDeclName {message : String} : Reads (parseDeclName message : Parse F String) s
    (fun name _ => isLegalName name = true) := by
  apply Reads.bind reads_parseIdentifier
  rintro (_ | name) s₁ _ ⟨-, legal⟩
  · exact reads_diagnoseTok_fail fun _ _ _ => rfl
  · exact Reads.pure (legal name rfl)

theorem reads_parseBuiltinType : Reads (parseBuiltinType : Parse F (Option ElemKind)) s
    (fun kind s' => (kind = none → s.numErrors < s'.numErrors) ∧
      (kind.isSome = true → s'.remaining < s.remaining)) := by
  apply Reads.bind_getTok
  split
  iterate 3
    next found =>
      apply Reads.bind (reads_consumeToken (by rw [found]; decide))
      intro _ s₁ _ smaller
      exact Reads.pure ⟨nofun, fun _ => smaller⟩
  next => exact reads_diagnoseTok_fail fun _ _ error => ⟨fun _ => error, nofun⟩

theorem runs_parseLetStmt (valid : s.ctx.Valid) (found : s.tok.kind = .kwLet) :
    Runs (parseLetStmt : Parse F Bool) s (fun ok failed s' => ok = true ∧
      (failed = true → s.numErrors < s'.numErrors) ∧
      (failed = false → s'.remaining < s.remaining)) := by
  apply Runs.bind_reads (reads_consumeTokenOf found (by decide))
  intro _ s₁ moves₁ smaller₁
  apply Runs.bind_reads reads_parseDeclName
  intro varName s₂ moves₂ _
  apply Runs.bind_reads (reads_expect (by decide))
  intro _ s₃ moves₃ _
  have moves₃ := moves₁.trans (moves₂.trans moves₃)
  apply Runs.bind_reads (reads_parseExpr (by rw [moves₃.ctx]; exact valid))
  rintro (_ | storedValue) s₄ moves₄ read
  · have error := Nat.lt_of_le_of_lt moves₃.errors (read.failed rfl)
    exact Runs.pure ⟨rfl, fun _ => error, by rintro ⟨⟩⟩
  · obtain ⟨smaller₄, parsed⟩ := read.parsed storedValue rfl
    have smaller := Nat.lt_of_lt_of_le smaller₄ moves₃.remaining
    apply Runs.bind_check rfl
    intro legal
    simp only [ParseStep.legal, Bool.and_eq_true] at legal
    obtain ⟨simplified, folded⟩ := Option.isSome_iff_exists.mp legal.1
    apply Runs.bind_ofOption folded
    have parsed := parsed.simplifyExpr folded
    rw [← moves₄.ctx] at parsed
    apply Runs.bind_modifyContext _ rfl
    · exact Runs.pure ⟨rfl, by rintro ⟨⟩, fun _ => smaller⟩
    · exact ⟨Nat.le_refl _, Nat.le_refl _, rfl, List.prefix_rfl, rfl, List.suffix_cons _ _,
        Nat.le_refl _, fun valid => valid.pushLet parsed varName⟩

theorem runs_registerVar {varName : String} {type : ExprType}
    (fresh : s.ctx.getVar varName = none) (legal : isLegalName varName = true) :
    Runs (registerVar varName type : Parse F VarId) s (fun ok var s' => ok = true ∧
      s'.remaining = s.remaining ∧ s'.numErrors = s.numErrors ∧
      s'.ctx.getVar varName = some var ∧ s'.ctx.varMap[var]? = some ⟨varName, type⟩) := by
  have unused : (s.ctx.getVar varName).isNone = true := by rw [fresh]; rfl
  have appended : (s.ctx.registerVar ⟨varName, type⟩).varMap = s.ctx.varMap ++ [⟨varName, type⟩] := rfl
  simp only [Runs, registerVar, getContext, modifyContext, wp_bind, wp_check, wp_getState, wp_pure,
    wp_assert, wp_modifyState, unused, List.append_nil, true_and]
  intro _
  exact ⟨⟨Nat.le_refl _, Nat.le_refl _, rfl, List.prefix_append _ _, rfl, List.suffix_rfl,
    Nat.le_refl _, fun valid => valid.registerVar fresh legal⟩, by simp [ParseStep.newVar?], rfl, rfl,
    (ParserContext.getVar_append appended fresh).1, by simp⟩

theorem reads_parseInit (valid : s.ctx.Valid) :
    Reads (parseInit : Parse F (Option (Expr F))) s
      (fun storedValue _ => ∀ e, storedValue = some e → e.Parsed s.ctx) := by
  apply Reads.bind (reads_consumeIf (by decide))
  intro assigned s₁ moves₁ _
  apply Reads.ite
  · intro _
    apply (reads_parseExpr (by rw [moves₁.ctx]; exact valid)).mono
    intro storedValue s₂ _ read e same
    rw [← moves₁.ctx]
    exact (read.parsed e same).2
  · exact fun _ => Reads.pure nofun

theorem runs_parseVarDecl (valid : s.ctx.Valid) (found : s.tok.kind = .kwVar) :
    Runs (parseVarDecl : Parse F (Option (List (Stmt F)))) s (fun ok result s' =>
      (result = none → s.numErrors < s'.numErrors) ∧ ∀ init, result = some init →
        s'.remaining < s.remaining ∧
          (s'.numErrors = s.numErrors → BodyParsed s ok init s')) := by
  apply Runs.bind_reads (reads_consumeTokenOf found (by decide))
  intro _ s₁ moves₁ smaller₁
  apply Runs.bind_reads reads_parseDeclName
  intro varName s₂ moves₂ legal
  apply Runs.bind_reads (reads_expect (by decide))
  intro _ s₃ moves₃ _
  apply Runs.bind_reads reads_parseBuiltinType
  have later := moves₂.trans moves₃
  have moves₃ := moves₁.trans later
  rintro (_ | scalarsTy) s₄ moves₄ ⟨error₄, -⟩
  · have error := Nat.lt_of_le_of_lt moves₃.errors (error₄ rfl)
    exact Runs.pure ⟨fun _ => error, nofun⟩
  · apply Runs.bind_getTok
    have ctx₄ := (moves₃.trans moves₄).ctx
    apply Runs.bind_reads (reads_parseInit (by rw [ctx₄]; exact valid))
    intro storedValue s₆ moves₆ parsed
    rw [ctx₄] at parsed
    have left := (later.trans (moves₄.trans moves₆)).remaining
    have moves₆ := moves₃.trans (moves₄.trans moves₆)
    have smaller₆ := Nat.lt_of_le_of_lt left smaller₁
    apply Runs.bind_getContext
    apply Runs.ite
    · intro _
      apply runs_diagnoseTok_fail
      intro s₇ moves₇ error
      exact ⟨fun _ => Nat.lt_of_le_of_lt moves₆.errors error, nofun⟩
    · intro fresh
      apply Runs.bind (runs_registerVar (by simpa using fresh) legal)
      rintro ok var s₇ advances₇ ⟨rfl, remaining₇, errors₇, found₇, known₇⟩
      have advances₇ := moves₆.advances.trans advances₇
      -- The variable is declared before its value is looked at, so it is there when the value is
      -- bad.
      have smaller₇ : s₇.remaining < s.remaining := by rw [remaining₇]; exact smaller₆
      rcases storedValue with _ | value
      · exact Runs.pure ⟨nofun, fun init same => by
          cases same; exact ⟨smaller₇, fun _ => .nil s s₇⟩⟩
      · apply Runs.ite
        · intro _
          apply runs_diagnose_fail
          intro s₈ _ error
          exact ⟨fun _ => Nat.lt_of_le_of_lt advances₇.errors error, nofun⟩
        -- The assertion of the store compares the type of the value with that of the variable.
        · intro types
          have types : value.getType = .scalar scalarsTy := not_not.mp types
          apply Runs.bind_getContext
          have parsed := (parsed value rfl).extends advances₇.extends
          obtain ⟨made, body⟩ := BodyParsed.storeLocal advances₇ found₇ known₇ types parsed false
          apply Runs.bind_ofOption made
          refine Runs.pure ⟨nofun, fun init same => ?_⟩
          cases same
          exact ⟨smaller₇, fun _ => body⟩

/-! ## Statements -/

theorem reads_parseAssignOp {message : String} :
    Reads (parseAssignOp message : Parse F (Option Bool)) s (fun result s' =>
      (result = none → s.numErrors < s'.numErrors)) := by
  apply Reads.bind_getTok
  split
  iterate 2
    next found =>
      apply Reads.bind (reads_consumeToken (by rw [found]; decide))
      exact fun _ _ _ _ => Reads.pure nofun
  next => exact reads_diagnoseTok_fail fun _ _ error _ => error

theorem runs_parseLocalAssignment (valid : s.ctx.Valid) {name : String} {var : VarId}
    (found : s.ctx.getVar name = some var) {argLoc : List Char} :
    Runs (parseLocalAssignment var argLoc : Parse F _) s (StmtRun s) := by
  apply Runs.bind_reads reads_parseAssignOp
  rintro (_ | accumulate) s₁ moves₁ error₁
  · exact Runs.pure (.fail (error₁ rfl))
  · apply Runs.bind_reads (reads_parseExpr (by rw [moves₁.ctx]; exact valid))
    rintro (_ | storedValue) s₂ moves₂ read
    · exact Runs.pure (.fail (Nat.lt_of_le_of_lt moves₁.errors (read.failed rfl)))
    · obtain ⟨-, parsed⟩ := read.parsed storedValue rfl
      have moves := moves₁.trans moves₂
      rw [← moves₂.ctx] at parsed
      rw [← moves.ctx] at found
      obtain ⟨decl, known, -, -⟩ := ParserContext.getVar_eq_some found
      apply Runs.bind_getContext
      apply Runs.bind_ofOption known
      apply Runs.ite
      · intro _
        apply runs_diagnose_fail
        intro s₃ _ error
        exact .fail (Nat.lt_of_le_of_lt moves.errors error)
      · intro types
        obtain ⟨made, body⟩ := BodyParsed.storeLocal moves.advances found known
          (not_not.mp types).symm parsed accumulate
        apply Runs.bind_ofOption made
        exact Runs.pure (.succeed fun _ => body)

theorem runs_parseBufferAssignment (valid : s.ctx.Valid) {name : String} {arg : ArgId}
    (found : s.ctx.getArg name = some arg) {argLoc : List Char} :
    Runs (parseBufferAssignment arg argLoc : Parse F _) s (StmtRun s) := by
  obtain ⟨bound, -, -⟩ := List.findIdx?_eq_some_iff_getElem.mp found
  have known : s.ctx.argMap[arg]? = some s.ctx.argMap[arg] := List.getElem?_eq_getElem bound
  have later : ReadsLater s parseExpr := fun s' moves _ =>
    reads_parseExpr (by rw [moves.ctx]; exact valid)
  apply Runs.bind_reads (reads_parseSubscriptList later (by decide) (by decide))
  rintro (_ | indices) s₁ moves₁ ⟨read₁, nonempty⟩
  · exact Runs.pure (.fail (read₁.failed rfl))
  · obtain ⟨-, parsed⟩ := read₁.parsed indices rfl
    apply Runs.bind_reads reads_parseAssignOp
    rintro (_ | accumulate) s₂ moves₂ error₂
    · exact Runs.pure (.fail (Nat.lt_of_le_of_lt moves₁.errors (error₂ rfl)))
    · have moves₂ := moves₁.trans moves₂
      apply Runs.bind_reads (reads_parseExpr (by rw [moves₂.ctx]; exact valid))
      rintro (_ | storedValue) s₃ moves₃ read₃
      · exact Runs.pure (.fail (Nat.lt_of_le_of_lt moves₂.errors (read₃.failed rfl)))
      · obtain ⟨-, parsedValue⟩ := read₃.parsed storedValue rfl
        rw [moves₂.ctx] at parsedValue
        have moves := moves₂.trans moves₃
        apply Runs.bind_getContext
        rw [moves.ctx]
        apply Runs.bind_ofOption known
        apply Runs.ite
        · intro _
          apply runs_diagnose_fail
          intro s₄ _ error
          exact .fail (Nat.lt_of_le_of_lt moves.errors error)
        -- The number of subscripts is that of the dimensions, so the constructors of the access
        -- make no objections.
        · intro dims
          apply Runs.bind_check rfl
          intro subscripts
          obtain ⟨madeGEP, parsedLoad⟩ := Expr.Parsed.mkLoad known
            (fun empty => nonempty (by rw [empty])) (by simpa using dims) parsed
            (by simpa [ParseStep.legal] using subscripts) .one
          apply Runs.bind_ofOption madeGEP
          apply Runs.bind_check rfl
          intro _
          apply Runs.bind_ofOption rfl
          apply Runs.pure
          apply StmtRun.succeed
          intro _
          have body := BodyParsed.store moves known parsedLoad parsedValue accumulate
          simpa only [ParseStep.wellFormed, Bool.true_and, Bool.and_true] using body

theorem runs_parseNamedStmt (valid : s.ctx.Valid) (found : s.tok.kind = .identifier) :
    Runs (parseNamedStmt : Parse F _) s (fun ok result s' =>
      s'.remaining < s.remaining ∧ StmtRun s ok result s') := by
  apply Runs.bind_getTok
  apply Runs.bind_reads reads_parseIdentifier
  rintro result s₁ moves₁ ⟨read₁, -⟩
  obtain ⟨varName, rfl⟩ := Option.isSome_iff_exists.mp (read₁.found found)
  have smaller : ∀ {s' : ParserState F}, s₁.Advances s' → s'.remaining < s.remaining :=
    fun advances => Nat.lt_of_le_of_lt advances.remaining (read₁.smaller rfl)
  have valid₁ : s₁.ctx.Valid := by rw [moves₁.ctx]; exact valid
  -- What the statement behind the name leaves is what is left of the whole statement.
  have behind : ∀ {x : Parse F (Option (Stmt F))}, Runs x s₁ (StmtRun s₁) → Runs x s₁
      (fun ok result s' => s'.remaining < s.remaining ∧ StmtRun s ok result s') := fun runs =>
    runs.mono fun _ _ _ advances run => ⟨smaller advances, run.earlier moves₁ advances⟩
  apply Runs.bind_ofOption rfl
  apply Runs.bind_getContext
  split
  next var stacked =>
    exact behind (runs_parseLocalAssignment valid₁ (valid₁.of_getVarFromStack stacked))
  next =>
    apply behind
    apply Runs.bind_getTok
    apply Runs.ite
    · intro _
      have later : ReadsLater s₁ parseExpr := fun s' moves _ =>
        reads_parseExpr (by rw [moves.ctx]; exact valid₁)
      apply Runs.bind_reads (reads_parseSubscriptList later (by decide) (by decide))
      rintro (_ | params) s₂ moves₂ ⟨read₂, -⟩
      · exact Runs.pure (.fail (read₂.failed rfl))
      · obtain ⟨-, parsed⟩ := read₂.parsed params rfl
        apply Runs.bind_check rfl
        intro _
        apply Runs.pure
        apply StmtRun.succeed
        intro _
        rw [Bool.and_true]
        exact .call moves₂ parsed varName
    · intro _
      split
      next => exact runs_diagnoseTok_fail fun _ _ error => .fail error
      next arg named =>
        apply Runs.bind_getTok
        apply Runs.ite
        · exact fun _ => runs_parseBufferAssignment valid₁ named
        · exact fun _ => runs_diagnoseTok_fail fun _ _ error => .fail error

theorem reads_parseLiteralOrDimExpr :
    Reads (parseLiteralOrDimExpr : Parse F (Option Int32)) s fun _ _ => True := by
  apply Reads.bind_getTok
  split
  next => exact reads_parseIntegerLiteral.mono fun _ _ _ _ => trivial
  next found =>
    apply Reads.bind reads_parseIdentifier
    rintro result s₁ moves₁ ⟨read₁, -⟩
    obtain ⟨varName, rfl⟩ := Option.isSome_iff_exists.mp (read₁.found found)
    apply Reads.bind_ofOption rfl
    apply Reads.bind_getContext
    split
    next => exact Reads.pure trivial
    next =>
      split
      next => exact reads_diagnoseTok_fail fun _ _ _ => trivial
      next arg named =>
        obtain ⟨bound, -, -⟩ := List.findIdx?_eq_some_iff_getElem.mp named
        apply Reads.bind (reads_expect (by decide))
        intro found₂ s₂ _ _
        apply Reads.ite
        · exact fun _ => Reads.pure trivial
        · intro _
          apply Reads.bind reads_parseIdentifier
          rintro (_ | dimName) s₃ _ _
          · exact reads_diagnoseTok_fail fun _ _ _ => trivial
          · apply Reads.bind_ofOption (List.getElem?_eq_getElem bound)
            apply Reads.ite
            · exact fun _ => reads_diagnoseTok_fail fun _ _ _ => trivial
            · exact fun _ => Reads.pure trivial
  next => exact reads_diagnoseTok_fail fun _ _ _ => trivial

theorem reads_skipUntil_pure {α : Type} {K : TokenKind} {a : α} {Q : α → ParserState F → Prop}
    (post : ∀ s', s.Moves s' → Q a s') : Reads (do skipUntil K; pure a) s Q := by
  apply Reads.bind reads_skipUntil
  exact fun _ s' moves _ => Reads.pure (post s' moves)

theorem reads_diagnoseTok_skip {α : Type} {message : String} {K : TokenKind} {a : α}
    {Q : α → ParserState F → Prop} (post : ∀ s', s.Moves s' → s.numErrors < s'.numErrors → Q a s') :
    Reads (do diagnoseTok message; skipUntil K; pure a) s Q := by
  apply Reads.bind reads_diagnoseTok
  intro _ s₁ moves₁ error
  apply reads_skipUntil_pure
  intro s₂ moves₂
  exact post s₂ (moves₁.trans moves₂) (Nat.lt_of_lt_of_le error moves₂.errors)

theorem reads_parseForRange :
    Reads (parseForRange : Parse F (Int32 × Int32)) s fun _ _ => True := by
  apply Reads.bind reads_parseIntegerLiteral
  intro zero s₁ _ _
  apply Reads.ite
  · exact fun _ => reads_diagnoseTok_skip fun _ _ _ => trivial
  · intro _
    apply Reads.bind (reads_expect (by decide))
    intro found s₂ _ _
    apply Reads.ite
    · exact fun _ => reads_skipUntil_pure fun _ _ => trivial
    · intro _
      apply Reads.bind reads_parseLiteralOrDimExpr
      rintro (_ | endRange) s₃ _ _
      · exact reads_diagnoseTok_skip fun _ _ _ => trivial
      · apply Reads.bind (reads_consumeIf (by decide))
        intro comma s₄ _ _
        apply Reads.ite
        · intro _
          apply Reads.bind_getTok
          apply Reads.bind reads_parseIntegerLiteralOrLetConstant
          rintro (_ | stride) s₅ _ _
          · exact reads_diagnose_fail fun _ _ _ => trivial
          · exact Reads.pure trivial
        · exact fun _ => Reads.pure trivial

theorem reads_parseIfRange (valid : s.ctx.Valid) :
    Reads (parseIfRange : Parse F (Option (Expr F) × Int32 × Int32)) s (fun range s' =>
      (range.1 = none → s.numErrors < s'.numErrors) ∧ ∀ e, range.1 = some e → e.Parsed s.ctx) := by
  apply Reads.bind (reads_expect (by decide))
  intro _ s₁ moves₁ _
  apply Reads.bind (reads_parseExpr (by rw [moves₁.ctx]; exact valid))
  rintro (_ | indexVal) s₂ moves₂ read
  · have error := Nat.lt_of_le_of_lt moves₁.errors (read.failed rfl)
    exact reads_skipUntil_pure fun s₃ moves₃ =>
      ⟨fun _ => Nat.lt_of_lt_of_le error moves₃.errors, nofun⟩
  · obtain ⟨-, parsed⟩ := read.parsed indexVal rfl
    rw [moves₁.ctx] at parsed
    have same : ∀ {s' : ParserState F}, (some indexVal = none → s.numErrors < s'.numErrors) ∧
        ∀ e, some indexVal = some e → e.Parsed s.ctx := by
      refine ⟨nofun, ?_⟩
      rintro e ⟨⟩
      exact parsed
    apply Reads.bind (reads_expect (by decide))
    intro found s₃ _ _
    apply Reads.ite
    · exact fun _ => reads_skipUntil_pure fun _ _ => same
    · intro _
      apply Reads.bind reads_parseLiteralOrDimExpr
      rintro (_ | startRange) s₄ _ _
      · exact reads_diagnoseTok_skip fun _ _ _ => same
      · apply Reads.bind (reads_expect (by decide))
        intro found s₅ _ _
        apply Reads.ite
        · exact fun _ => reads_skipUntil_pure fun _ _ => same
        · intro _
          apply Reads.bind reads_parseLiteralOrDimExpr
          rintro (_ | endRange) s₆ _ _
          · exact reads_diagnoseTok_skip fun _ _ _ => same
          · exact Reads.pure same

/-! ## Scopes -/

/-- What `parseScope` leaves. -/
def ScopeRun (s : ParserState F) (ok : Bool) (body : List (Stmt F)) (s' : ParserState F) : Prop :=
  s'.ctx.letStack = s.ctx.letStack ∧ (s'.numErrors = s.numErrors → BodyParsed s ok body s')

def ScopesLater (s : ParserState F) (scope : Parse F (List (Stmt F))) : Prop :=
  ∀ s', s'.ctx.Valid → s'.remaining < s.remaining → Runs scope s' (ScopeRun s')

theorem runs_parseLoopBody (valid : s.ctx.Valid) {scope : Parse F (List (Stmt F))}
    {indexName : String} (legal : isLegalName indexName = true) {end_ stride : UInt32}
    (inner : ∀ s', s'.ctx.Valid → s'.remaining = s.remaining → Runs scope s' (ScopeRun s')) :
    Runs (do
      let L ← pushLoop indexName end_ stride
      let body ← scope
      let K ← popLoop
      assert (K = L)
      pure (some (.loop L body))) s (StmtRun s) := by
  let s₁ : ParserState F := { s with ctx := s.ctx.enterLoop indexName end_ stride }
  simp only [Runs, pushLoop, popLoop, getContext, modifyContext, wp_bind, wp_check, wp_getState,
    wp_pure, wp_modifyState, wp_ofOption, wp_assert]
  intro _
  apply wp_mono (inner s₁ (valid.enterLoop indexName end_ stride) rfl)
  rintro steps body s₂ ⟨advances, names, lets, parsed⟩
  have loops : s₂.ctx.loopNextStack = ⟨s.ctx.nextLoop, indexName, end_, stride⟩ ::
      s.ctx.loopNextStack := advances.loops
  have valid₂ := advances.valid (valid.enterLoop indexName end_ stride)
  have nextLoop := Nat.le_trans (Nat.le_succ s.ctx.nextLoop) advances.nextLoop
  refine ⟨_, by rw [loops]; rfl, by simp, ?_, ?_, ?_⟩
  · refine ⟨advances.remaining, advances.errors, advances.args, advances.vars, ?_, ?_, nextLoop, ?_⟩
    · exact congrArg List.tail loops
    · exact lets ▸ List.suffix_rfl
    · exact fun valid => valid.leaveLoop valid₂ lets advances.args advances.vars nextLoop
        (congrArg List.tail loops)
  · rw [names]
    simp [List.filterMap_cons, ParseStep.newVar?, s₁, ParserContext.enterLoop]
  · simp only [List.nil_append, List.append_nil, List.cons_append, List.all_cons]
    apply StmtRun.succeed
    exact fun none => .loop legal rfl advances ⟨rfl, rfl⟩ (parsed none)

variable {scope : Parse F (List (Stmt F))}

/-- `parseForStmt` up to the body: the name of the index, the range and the stride. -/
def parseForHeader : Parse F (Option (String × Int32 × Int32)) := do
  let forLoc := (← getTok).start
  consumeTokenOf .kwFor
  if !(← expect .lParen "expecting left paren in for loop.") then pure none
  else
    match ← parseIdentifier with
    | none =>
      diagnoseTok "expecting index name in for loop."
      pure none
    | some indexName =>
      if !(← expect .kwIn "expecting 'in' keyword in the for loop.") then pure none
      else
        let range ← parseForRange
        let _ ← expect .rParen "expecting right brace in for loop."
        check (.modulo range.1 range.2)
        if range.1 % range.2 ≠ 0 then
          diagnose forLoc "loop stride must divide the loop range"
          pure none
        else pure (some (indexName, range))

/-- `parseForStmt` from the body on. -/
def parseLoopBody (scope : Parse F (List (Stmt F))) (header : String × Int32 × Int32) :
    Parse F (Option (Stmt F)) := do
  let L ← pushLoop header.1 header.2.1.toUInt32 header.2.2.toUInt32
  let body ← scope
  let K ← popLoop
  assert (K = L)
  pure (some (.loop L body))

theorem parseForStmt_eq (scope : Parse F (List (Stmt F))) :
    parseForStmt scope = parseForHeader >>= fun header =>
      match header with
      | none => pure none
      | some header => parseLoopBody scope header := by
  simp only [parseForStmt, parseForHeader, bind_assoc]
  congr 1; funext tok
  congr 1; funext _
  congr 1; funext opened
  cases opened with
  | false => simp
  | true =>
    simp only [Bool.not_true, Bool.false_eq_true, if_false, bind_assoc]
    congr 1; funext name
    cases name with
    | none => simp
    | some indexName =>
      simp only [bind_assoc]
      congr 1; funext found
      cases found with
      | false => simp
      | true =>
        simp only [Bool.not_true, Bool.false_eq_true, if_false, bind_assoc]
        congr 1; funext range
        congr 1; funext _
        congr 1; funext _
        split
        · simp
        · simp [parseLoopBody]

/-- `parseIfStmt` up to the creation of the `IfRange`: the operand and the range. -/
def parseIfHeader : Parse F (Expr F × Int32 × Int32) := do
  consumeTokenOf .kwIf
  let range ← parseIfRange
  let _ ← expect .rParen "expecting right brace in if-range."
  pure (range.1.getD .nullOperand, range.2)

/-- `parseIfStmt` from the creation of the `IfRange` on. -/
def parseIfBody (scope : Parse F (List (Stmt F))) (header : Expr F × Int32 × Int32) :
    Parse F (Option (Stmt F)) := do
  check (.newIfRange header.2.1 header.2.2)
  let body ← scope
  pure (some (.ifRange header.1 header.2.1 header.2.2 body))

theorem parseIfStmt_eq (scope : Parse F (List (Stmt F))) :
    parseIfStmt scope = parseIfHeader >>= parseIfBody scope := by
  simp only [parseIfStmt, parseIfHeader, parseIfBody, bind_assoc, pure_bind]

theorem reads_parseForHeader (found : s.tok.kind = .kwFor) :
    Reads (parseForHeader : Parse F (Option (String × Int32 × Int32))) s (fun header s' =>
      s'.remaining < s.remaining ∧ (header = none → s.numErrors < s'.numErrors) ∧
        ∀ range, header = some range → isLegalName range.1 = true) := by
  apply Reads.bind_getTok
  apply Reads.bind (reads_consumeTokenOf found (by decide))
  intro _ s₁ moves₁ smaller₁
  apply Reads.bind (reads_expect (by decide))
  rintro opened s₂ moves₂ ⟨-, error₂⟩
  have smaller₂ := Nat.lt_of_le_of_lt moves₂.remaining smaller₁
  apply Reads.ite
  -- Each part of the header that is missing is an error, with less of the text left.
  · intro missing
    have error := Nat.lt_of_le_of_lt moves₁.errors (error₂ (by simpa using missing))
    exact Reads.pure ⟨smaller₂, fun _ => error, nofun⟩
  · intro _
    have moves₂ := moves₁.trans moves₂
    apply Reads.bind reads_parseIdentifier
    rintro (_ | indexName) s₃ moves₃ ⟨-, legal⟩
    · apply reads_diagnoseTok_fail
      intro s₄ moves₄ error
      have moves := moves₂.trans moves₃
      exact ⟨Nat.lt_of_le_of_lt (moves₃.trans moves₄).remaining smaller₂,
        fun _ => Nat.lt_of_le_of_lt moves.errors error, nofun⟩
    · have smaller₃ := Nat.lt_of_le_of_lt moves₃.remaining smaller₂
      have moves₃ := moves₂.trans moves₃
      apply Reads.bind (reads_expect (by decide))
      rintro inFound s₄ moves₄ ⟨-, error₄⟩
      have smaller₄ := Nat.lt_of_le_of_lt moves₄.remaining smaller₃
      apply Reads.ite
      · intro missing
        have error := Nat.lt_of_le_of_lt moves₃.errors (error₄ (by simpa using missing))
        exact Reads.pure ⟨smaller₄, fun _ => error, nofun⟩
      · intro _
        apply Reads.bind reads_parseForRange
        intro range s₅ moves₅ _
        apply Reads.bind (reads_expect (by decide))
        intro _ s₆ moves₆ _
        -- Behind the name and the keyword, the range and the stride end the header.
        have smaller₆ := Nat.lt_of_le_of_lt (moves₅.trans moves₆).remaining smaller₄
        have moves₆ := moves₃.trans (moves₄.trans (moves₅.trans moves₆))
        apply Reads.bind_check rfl
        intro _
        apply Reads.ite
        · intro _
          apply reads_diagnose_fail
          intro s₇ moves₇ error
          exact ⟨Nat.lt_of_le_of_lt moves₇.remaining smaller₆,
            fun _ => Nat.lt_of_le_of_lt moves₆.errors error, nofun⟩
        · intro _
          refine Reads.pure ⟨smaller₆, nofun, fun named same => ?_⟩
          cases same
          exact legal indexName rfl

theorem reads_parseIfHeader (valid : s.ctx.Valid) (found : s.tok.kind = .kwIf) :
    Reads (parseIfHeader : Parse F (Expr F × Int32 × Int32)) s (fun header s' =>
      s'.remaining < s.remaining ∧ (s'.numErrors = s.numErrors → header.1.Parsed s.ctx)) := by
  apply Reads.bind (reads_consumeTokenOf found (by decide))
  intro _ s₁ moves₁ smaller₁
  apply Reads.bind (reads_parseIfRange (by rw [moves₁.ctx]; exact valid))
  rintro ⟨indexVal, range⟩ s₂ moves₂ ⟨failed, parsed⟩
  rw [moves₁.ctx] at parsed
  apply Reads.bind (reads_expect (by decide))
  intro _ s₃ moves₃ _
  have smaller := Nat.lt_of_le_of_lt (moves₂.trans moves₃).remaining smaller₁
  refine Reads.pure ⟨smaller, fun none => ?_⟩
  cases indexVal with
  | none =>
    have error := Nat.lt_of_lt_of_le (Nat.lt_of_le_of_lt moves₁.errors (failed rfl)) moves₃.errors
    exact absurd none (Nat.ne_of_gt error)
  | some indexVal => exact parsed indexVal rfl

theorem runs_parseForStmt (valid : s.ctx.Valid) (found : s.tok.kind = .kwFor)
    (inner : ScopesLater s scope) : Runs (parseForStmt scope) s (fun ok result s' =>
      s'.remaining < s.remaining ∧ StmtRun s ok result s') := by
  rw [parseForStmt_eq]
  apply Runs.bind_reads (reads_parseForHeader found)
  rintro (_ | header) s₁ moves₁ ⟨smaller₁, failed, legal⟩
  · exact Runs.pure ⟨smaller₁, .fail (failed rfl)⟩
  · have valid₁ : s₁.ctx.Valid := by rw [moves₁.ctx]; exact valid
    apply (runs_parseLoopBody valid₁ (legal header rfl) fun s' valid' same =>
      inner s' valid' (by rw [same]; exact smaller₁)).mono
    intro ok result s₂ advances run
    exact ⟨Nat.lt_of_le_of_lt advances.remaining smaller₁, run.earlier moves₁ advances⟩

theorem runs_parseIfStmt (valid : s.ctx.Valid) (found : s.tok.kind = .kwIf)
    (inner : ScopesLater s scope) : Runs (parseIfStmt scope) s (fun ok result s' =>
      s'.remaining < s.remaining ∧ StmtRun s ok result s') := by
  rw [parseIfStmt_eq]
  apply Runs.bind_reads (reads_parseIfHeader valid found)
  rintro header s₁ moves₁ ⟨smaller, parsed⟩
  apply Runs.bind_check rfl
  intro _
  apply Runs.bind (inner s₁ (by rw [moves₁.ctx]; exact valid) smaller)
  rintro ok body s₂ advances ⟨-, parsedBody⟩
  apply Runs.pure
  refine ⟨Nat.lt_of_le_of_lt advances.remaining smaller, .succeed fun none => ?_⟩
  have before := moves₁.errors
  have after := advances.errors
  have body := parsedBody (by omega)
  rw [Bool.and_true]
  exact .ifRange moves₁ advances (parsed (by omega)) _ _ body

theorem runs_parseOneStmt (valid : s.ctx.Valid) (inner : ScopesLater s scope) :
    Runs (parseOneStmt scope) s (fun ok result s' =>
      (result.isSome = true → s'.remaining < s.remaining) ∧ StmtRun s ok result s') := by
  have weaken : ∀ {x : Parse F (Option (Stmt F))}, Runs x s (fun ok result s' =>
      s'.remaining < s.remaining ∧ StmtRun s ok result s') → Runs x s (fun ok result s' =>
        (result.isSome = true → s'.remaining < s.remaining) ∧ StmtRun s ok result s') :=
    fun runs => runs.mono fun _ _ _ _ post => ⟨fun _ => post.1, post.2⟩
  apply Runs.bind_getTok
  split
  next found => exact weaken (runs_parseNamedStmt valid found)
  next found => exact weaken (runs_parseForStmt valid found inner)
  next found => exact weaken (runs_parseIfStmt valid found inner)
  next => exact runs_diagnoseTok_fail fun _ _ error => ⟨nofun, .fail error⟩

end Functions

end Bistra

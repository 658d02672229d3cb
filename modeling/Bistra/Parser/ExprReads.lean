import Bistra.Parser.Reads

/-! # What the functions for expressions return

An expression that has been parsed passes `verify` in the declarations and loops of the context, and
a function that returns no expression has reported an error.  Both hold for broken texts too.
-/

namespace Bistra

variable {F : Type}

/-- The expression is well formed where the parser is. -/
structure Expr.Parsed (ctx : ParserContext F) (e : Expr F) : Prop where
  verify : e.verify ctx.decls ctx.scope = true
  scalar : ∀ index ∈ e.collectIndices, index.2 = .scalar .indexTy

/-! ## Larger contexts -/

/-- More declarations and more loops are known. -/
structure ParserContext.Extends (ctx ctx' : ParserContext F) : Prop where
  args : ctx.argMap <+: ctx'.argMap
  vars : ctx.varMap <+: ctx'.varMap
  scope : ctx.scope ⊆ ctx'.scope

theorem Expr.Parsed.extends {ctx ctx' : ParserContext F} (larger : ctx.Extends ctx') {e : Expr F}
    (parsed : e.Parsed ctx) : e.Parsed ctx' :=
  ⟨Expr.verify_extends larger.args larger.vars larger.scope parsed.verify, parsed.scalar⟩

/-! ## New nodes -/

theorem Expr.Parsed.mkBinary {ctx : ParserContext F} {lhs rhs : Expr F} (left : lhs.Parsed ctx)
    (right : rhs.Parsed ctx) (types : lhs.getType = rhs.getType) (kind : BinOpKind) :
    ∃ e, Expr.mkBinary kind lhs rhs = some e ∧ e.Parsed ctx := by
  refine ⟨_, Expr.mkBinary_eq_some.mpr ⟨types, rfl⟩, ?_, ?_⟩
  · simp only [Expr.verify, Bool.and_eq_true, decide_eq_true_eq]
    exact ⟨⟨types, left.verify⟩, right.verify⟩
  · simp only [Expr.collectIndices, List.mem_append]
    exact fun index mem => mem.elim (left.scalar index) (right.scalar index)

theorem Expr.Parsed.mkBroadcast {ctx : ParserContext F} {val : Expr F} (parsed : val.Parsed ctx)
    (scalarType : val.getType.width.val = 1) (vf : VecWidth) :
    ∃ e, Expr.mkBroadcast val vf = some e ∧ e.Parsed ctx := by
  have notVector : val.getType.isVector = false := by simp [ExprType.isVector, scalarType]
  refine ⟨_, Expr.mkBroadcast_eq_some.mpr ⟨notVector, rfl⟩, ?_, parsed.scalar⟩
  simp only [Expr.verify, Bool.and_eq_true, Bool.not_eq_true']
  exact ⟨parsed.verify, notVector⟩

theorem Expr.Parsed.tryToAdjustTypes {ctx : ParserContext F} {LHS RHS : Expr F}
    (left : LHS.Parsed ctx) (right : RHS.Parsed ctx) :
    ∃ adjusted, tryToAdjustTypes LHS RHS = some adjusted ∧ adjusted.1.Parsed ctx ∧
      adjusted.2.Parsed ctx := by
  simp only [Bistra.tryToAdjustTypes]
  split_ifs with same right_scalar left_scalar
  · exact ⟨_, rfl, left, right⟩
  · obtain ⟨e, made, parsed⟩ := right.mkBroadcast right_scalar.2 LHS.getType.width
    exact ⟨(LHS, e), by rw [made]; rfl, left, parsed⟩
  · obtain ⟨e, made, parsed⟩ := left.mkBroadcast left_scalar.2 RHS.getType.width
    exact ⟨(e, RHS), by rw [made]; rfl, parsed, right⟩
  · exact ⟨_, rfl, left, right⟩

theorem Expr.Parsed.mkLoad {ctx : ParserContext F} {A : ArgId} {arg : Argument}
    {exprs : List (Expr F)} (known : ctx.argMap[A]? = some arg) (nonempty : exprs ≠ [])
    (dims : arg.type.getNumDims = exprs.length) (parsed : ∀ e ∈ exprs, e.Parsed ctx)
    (subscripts : ∀ e ∈ exprs, e.getType.isIndexTy = true) (width : VecWidth) :
    ctx.decls.mkGEP A exprs = some (.gep A exprs) ∧
      (Expr.load A exprs ⟨arg.type.elementType, width⟩).Parsed ctx := by
  have declared : ctx.decls.args[A]? = some arg := known
  constructor
  · rw [Decls.mkGEP_eq_some]
    refine ⟨?_, rfl⟩
    rw [Decls.allowsGEP, declared]
    simpa [dims] using subscripts
  · constructor
    · simp only [Expr.verify, Expr.verifyIndices_eq, Bool.and_eq_true, List.all_eq_true]
      refine ⟨fun e mem => ⟨(parsed e mem).verify, subscripts e mem⟩, ?_⟩
      rw [Decls.verifyAccess, declared]
      simp [dims, nonempty]
    · simp only [Expr.collectIndices, Expr.collectIndicesList_eq, List.mem_flatMap]
      rintro index ⟨e, mem, memIndex⟩
      exact (parsed e mem).scalar index memIndex

theorem ParserContext.getVar_eq_some {ctx : ParserContext F} {name : String} {var : VarId}
    (found : ctx.getVar name = some var) :
    ∃ decl, ctx.varMap[var]? = some decl ∧ decl.name = name ∧
      ctx.decls.isUniqued var decl = true := by
  have first := found
  obtain ⟨bound, same, -⟩ := List.findIdx?_eq_some_iff_getElem.mp found
  have same : ctx.varMap[var].name = name := by simpa using same
  refine ⟨ctx.varMap[var], List.getElem?_eq_getElem bound, same, ?_⟩
  rw [Decls.isUniqued, decide_eq_true_eq, same]
  exact first

theorem Expr.Parsed.mkLoadLocal {ctx : ParserContext F} {name : String} {var : VarId}
    (found : ctx.getVar name = some var) :
    ∃ e : Expr F, ctx.decls.mkLoadLocal var = some e ∧ e.Parsed ctx := by
  obtain ⟨decl, known, -, uniqued⟩ := ParserContext.getVar_eq_some found
  have declared : ctx.decls.vars[var]? = some decl := known
  refine ⟨.loadLocal var decl.type, by rw [Decls.mkLoadLocal, declared, Option.map_some], ?_, ?_⟩
  · rw [Expr.verify, Decls.verifyLocal, declared]
    simp [uniqued]
  · simp [Expr.collectIndices]

theorem Expr.Parsed.cloneUnowned {ctx : ParserContext F} {e : Expr F} (parsed : e.Parsed ctx)
    (noLocal : e.loadsNoLocal = true) : e.cloneUnowned ctx.decls = some e := by
  have same : e.mapAtoms (Expr.clonedLeaf id) = e := by
    rw [← Expr.clone_eq_mapAtoms]
    exact Expr.mapIndex_self fun index mem => by rw [parsed.scalar index mem]; rfl
  have rebuilt : e.cloneUnowned ctx.decls = some (e.mapAtoms (Expr.clonedLeaf id)) := by
    apply Expr.rebuild_of_verify _ (by rw [same]; exact parsed.verify)
    intro a mem
    simp only [Expr.loadsNoLocal, List.all_eq_true] at noLocal
    have notLocal := noLocal a mem
    have copied : a.cloneLeaf ctx.decls id = some (a.clonedLeaf id) :=
      Expr.cloneLeaf_of_verify parsed.verify a mem
    cases a <;> first | exact copied | cases notLocal
  rw [rebuilt, same]

section Fold

variable [Field F] [LinearOrder F]

theorem Expr.collectIndices_simplifyExpr {e N : Expr F} {changed : Bool}
    (simplified : e.simplifyExpr = some (N, changed)) :
    ∀ index ∈ N.collectIndices, index ∈ e.collectIndices :=
  Expr.simplifyExpr_keeps (P := fun N => N.collectIndices ⊆ e.collectIndices)
    (fun _ => List.nil_subset _) (fun _ => List.nil_subset _)
    (by simp [Expr.collectIndices]) (List.Subset.refl _) simplified

theorem Expr.Parsed.simplifyExpr {ctx : ParserContext F} {e N : Expr F} {changed : Bool}
    (parsed : e.Parsed ctx) (simplified : e.simplifyExpr = some (N, changed)) : N.Parsed ctx :=
  ⟨(Expr.simplifyExpr_typed parsed.verify simplified).2,
    fun index mem => parsed.scalar index (Expr.collectIndices_simplifyExpr simplified index mem)⟩

end Fold

/-! ## The context -/

/-- What holds of the context all the time. -/
structure ParserContext.Valid (ctx : ParserContext F) : Prop where
  lets : ∀ binding ∈ ctx.letStack, binding.2.Parsed ctx
  args : (ctx.argMap.map (·.name)).Nodup
  vars : (ctx.varMap.map (·.name)).Nodup
  names : ∀ var ∈ ctx.varMap, isLegalName var.name = true
  /-- The stack of the variables leads into the map. -/
  stack : ∀ binding ∈ ctx.varStack, ctx.getVar binding.1 = some binding.2
  /-- The numbers of the loops around the parser have been given away. -/
  loops : ∀ L ∈ ctx.scope, L < ctx.nextLoop

theorem ParserContext.Valid.of_getLet {ctx : ParserContext F} (valid : ctx.Valid) {name : String}
    {e : Expr F} (found : ctx.getLet name = some e) : e.Parsed ctx := by
  obtain ⟨binding, first, rfl⟩ := Option.map_eq_some_iff.mp found
  exact valid.lets binding (List.mem_of_find?_eq_some first)

theorem ParserContext.Valid.of_getVarFromStack {ctx : ParserContext F} (valid : ctx.Valid)
    {name : String} {var : VarId} (found : ctx.getVarFromStack name = some var) :
    ctx.getVar name = some var := by
  obtain ⟨binding, first, rfl⟩ := Option.map_eq_some_iff.mp found
  have same : binding.1 = name := by simpa using List.find?_some first
  rw [← same]
  exact valid.stack binding (List.mem_of_find?_eq_some first)

theorem ParserContext.getLoopByName_mem {ctx : ParserContext F} {name : String} {L : Loop}
    (found : ctx.getLoopByName name = some L) : (Expr.indexOf L.id : Expr F).Parsed ctx := by
  have mem : L.id ∈ ctx.scope := List.mem_map_of_mem (List.mem_of_find?_eq_some found)
  constructor
  · simp [Expr.indexOf, Expr.verify, ExprType.isIndexTy, mem]
  · simp [Expr.indexOf, Expr.collectIndices]

/-! ## The functions -/

/-- What a function that parses an expression leaves. -/
structure ExprRead (s : ParserState F) (result : Option (Expr F)) (s' : ParserState F) : Prop where
  failed : result = none → s.numErrors < s'.numErrors
  parsed : ∀ e, result = some e → s'.remaining < s.remaining ∧ e.Parsed s.ctx

/-- What a function that parses a list of expressions leaves. -/
structure ListRead (s : ParserState F) (result : Option (List (Expr F))) (s' : ParserState F) :
    Prop where
  failed : result = none → s.numErrors < s'.numErrors
  parsed : ∀ es, result = some es → s'.remaining < s.remaining ∧ ∀ e ∈ es, e.Parsed s.ctx

section Results

variable {s s' : ParserState F}

theorem ExprRead.fail (error : s.numErrors < s'.numErrors) : ExprRead s none s' :=
  ⟨fun _ => error, nofun⟩

theorem ListRead.fail (error : s.numErrors < s'.numErrors) : ListRead s none s' :=
  ⟨fun _ => error, nofun⟩

theorem ExprRead.succeed {e : Expr F} (smaller : s'.remaining < s.remaining)
    (parsed : e.Parsed s.ctx) : ExprRead s (some e) s' :=
  ⟨nofun, fun _ same => by cases same; exact ⟨smaller, parsed⟩⟩

theorem ListRead.succeed {es : List (Expr F)} (smaller : s'.remaining < s.remaining)
    (parsed : ∀ e ∈ es, e.Parsed s.ctx) : ListRead s (some es) s' :=
  ⟨nofun, fun _ same => by cases same; exact ⟨smaller, parsed⟩⟩

end Results

variable [Field F] [LinearOrder F]

open Procedure

/-- `expr` parses the expressions that come later. -/
def ReadsLater (s : ParserState F) (expr : Parse F (Option (Expr F))) : Prop :=
  ∀ s', s.Moves s' → s'.remaining < s.remaining → Reads expr s' (ExprRead s')

section Functions

variable {s s' : ParserState F} {expr : Parse F (Option (Expr F))}

theorem ReadsLater.later (reads : ReadsLater s expr) (moves : s.Moves s') : ReadsLater s' expr :=
  fun s'' ahead smaller =>
    reads s'' (moves.trans ahead) (Nat.lt_of_lt_of_le smaller moves.remaining)

theorem reads_diagnose_fail {α : Type} {loc : List Char} {message : String} {a : α}
    {Q : α → ParserState F → Prop} (post : ∀ s', s.Moves s' → s.numErrors < s'.numErrors → Q a s') :
    Reads (do diagnose loc message; pure a) s Q := by
  apply Reads.bind reads_diagnose
  intro _ s' moves error
  exact Reads.pure (post s' moves error)

theorem reads_diagnoseTok_fail {α : Type} {message : String} {a : α}
    {Q : α → ParserState F → Prop} (post : ∀ s', s.Moves s' → s.numErrors < s'.numErrors → Q a s') :
    Reads (do diagnoseTok message; pure a) s Q := by
  apply Reads.bind reads_diagnoseTok
  intro _ s' moves error
  exact Reads.pure (post s' moves error)

theorem reads_parseSubscriptList (inner : ReadsLater s expr) {L R : TokenKind} (notEofL : L ≠ .eof)
    (notEofR : R ≠ .eof) : Reads (parseSubscriptList expr L R) s (fun result s' =>
      ListRead s result s' ∧ result ≠ some []) := by
  apply Reads.bind (reads_expect notEofL)
  rintro found s₁ moves₁ ⟨smaller₁, error₁⟩
  apply Reads.ite
  · intro missing
    exact Reads.pure ⟨.fail (error₁ (by simpa using missing)), nofun⟩
  · intro opened
    have smaller₁ : s₁.remaining < s.remaining := (smaller₁ (by simpa using opened)).2
    apply Reads.bind (P := fun result s' => ListRead s result s' ∧ result ≠ some [] ∧
      (result ≠ none → s'.tok.kind = R))
    · apply Reads.loop (I := fun exprs s' => s'.remaining < s.remaining ∧
        ∀ e ∈ exprs, e.Parsed s.ctx) _ ⟨smaller₁, nofun⟩
      rintro exprs s₂ moves₂ ⟨smaller₂, parsed₂⟩
      have moves₂ := moves₁.trans moves₂
      apply Reads.bind (inner s₂ moves₂ smaller₂)
      rintro (_ | e) s₃ moves₃ read
      · have error := Nat.lt_of_le_of_lt moves₂.errors (read.failed rfl)
        exact Reads.pure ⟨.fail error, nofun, nofun⟩
      · obtain ⟨smaller₃, parsed₃⟩ := read.parsed e rfl
        have smaller := Nat.lt_trans smaller₃ smaller₂
        have parsed : ∀ e' ∈ exprs ++ [e], e'.Parsed s.ctx := by
          intro e' mem
          cases List.mem_append.mp mem with
          | inl early => exact parsed₂ e' early
          | inr last => rw [List.mem_singleton.mp last, ← moves₂.ctx]; exact parsed₃
        apply Reads.bind_getTok
        apply Reads.ite
        · exact fun closed => Reads.pure ⟨.succeed smaller parsed, by simp, fun _ => closed⟩
        · intro _
          apply Reads.bind_getTok
          apply Reads.ite
          · intro comma
            apply Reads.bind (reads_consumeTokenOf comma (by decide))
            intro _ s₄ _ smaller₄
            exact Reads.pure ⟨Nat.lt_trans smaller₄ smaller₃, Nat.lt_trans smaller₄ smaller, parsed⟩
          · intro _
            apply reads_diagnoseTok_fail
            intro s₄ _ error
            have error := Nat.lt_of_le_of_lt (moves₂.trans moves₃).errors error
            exact ⟨.fail error, nofun, nofun⟩
    · rintro (_ | exprs) s₂ _ ⟨read, nonempty, closed⟩
      · exact Reads.pure ⟨read, nofun⟩
      · obtain ⟨smaller₂, parsed⟩ := read.parsed exprs rfl
        apply Reads.bind (reads_consumeTokenOf (closed nofun) notEofR)
        intro _ s₃ _ smaller₃
        exact Reads.pure ⟨.succeed (Nat.lt_trans smaller₃ smaller₂) parsed, nonempty⟩

theorem reads_parseCallArgumentList (inner : ReadsLater s expr) {sameTy : Bool} {expectedArgs : Nat} :
    Reads (parseCallArgumentList expr sameTy expectedArgs) s (fun result s' =>
      ListRead s result s' ∧ ∀ args, result = some args →
        (expectedArgs ≠ 0 → args.length = expectedArgs) ∧
          (sameTy = true → ∀ e ∈ args, ∀ e' ∈ args, e.getType = e'.getType)) := by
  apply Reads.bind_getTok
  apply Reads.bind (reads_expect (by decide))
  rintro found s₁ moves₁ ⟨smaller₁, error₁⟩
  apply Reads.ite
  · intro missing
    exact Reads.pure ⟨.fail (error₁ (by simpa using missing)), nofun⟩
  · intro opened
    have smaller₁ : s₁.remaining < s.remaining := (smaller₁ (by simpa using opened)).2
    apply Reads.bind (inner s₁ moves₁ smaller₁)
    rintro (_ | E) s₂ moves₂ read
    · have error := Nat.lt_of_le_of_lt moves₁.errors (read.failed rfl)
      apply Reads.bind reads_skipUntilOneOf
      intro _ s₃ moves₃ _
      exact Reads.pure ⟨.fail (Nat.lt_of_lt_of_le error moves₃.errors), nofun⟩
    · obtain ⟨smaller₂, parsed₂⟩ := read.parsed E rfl
      have moves₂ := moves₁.trans moves₂
      have smaller₂ := Nat.lt_trans smaller₂ smaller₁
      rw [moves₁.ctx] at parsed₂
      apply Reads.bind (P := fun result s' => ListRead s result s')
      · apply Reads.loop (I := fun args s' => s'.remaining < s.remaining ∧
          ∀ e ∈ args, e.Parsed s.ctx) _ ⟨smaller₂, by simpa using parsed₂⟩
        rintro args s₃ moves₃ ⟨smaller₃, parsed₃⟩
        have moves₃ := moves₂.trans moves₃
        apply Reads.bind_getTok
        apply Reads.ite
        · intro comma
          apply Reads.bind (reads_consumeTokenOf comma (by decide))
          intro _ s₄ moves₄ smaller₄
          have moves₄ := moves₃.trans moves₄
          apply Reads.bind (inner s₄ moves₄ (Nat.lt_trans smaller₄ smaller₃))
          rintro (_ | e) s₅ moves₅ read
          · have error := Nat.lt_of_le_of_lt moves₄.errors (read.failed rfl)
            apply Reads.bind reads_skipUntilOneOf
            intro _ s₆ moves₆ _
            exact Reads.pure (.fail (Nat.lt_of_lt_of_le error moves₆.errors))
          · obtain ⟨smaller₅, parsed₅⟩ := read.parsed e rfl
            have smaller₅ := Nat.lt_trans smaller₅ smaller₄
            refine Reads.pure ⟨smaller₅, Nat.lt_trans smaller₅ smaller₃, ?_⟩
            intro e' mem
            cases List.mem_append.mp mem with
            | inl early => exact parsed₃ e' early
            | inr last => rw [List.mem_singleton.mp last, ← moves₄.ctx]; exact parsed₅
        · exact fun _ => Reads.pure (.succeed smaller₃ parsed₃)
      · rintro (_ | args) s₃ moves₃ read
        · exact Reads.pure ⟨read, nofun⟩
        · have moves₃ := moves₂.trans moves₃
          obtain ⟨smaller₃, parsed⟩ := read.parsed args rfl
          apply Reads.bind (reads_expect (by decide))
          intro closed s₄ moves₄ _
          apply Reads.bind (reads_onlyIf fun _ => reads_skipUntil)
          intro _ s₅ moves₅ _
          have smaller : s₅.remaining < s.remaining :=
            Nat.lt_of_le_of_lt (moves₄.trans moves₅).remaining smaller₃
          have moves₅ := moves₃.trans (moves₄.trans moves₅)
          apply Reads.ite
          · intro _
            apply reads_diagnoseTok_fail
            intro s₆ _ error
            exact ⟨.fail (Nat.lt_of_le_of_lt moves₅.errors error), nofun⟩
          · intro number
            apply Reads.ite
            · intro _
              apply reads_diagnose_fail
              intro s₆ _ error
              exact ⟨.fail (Nat.lt_of_le_of_lt moves₅.errors error), nofun⟩
            · intro types
              apply Reads.pure
              refine ⟨.succeed smaller parsed, fun args' same => ?_⟩
              cases same
              refine ⟨fun expected => by omega, fun required => ?_⟩
              -- All the types are the type of the first argument.
              have first : ∀ e ∈ args, e.getType = E.getType := by
                simpa [required] using types
              exact fun e mem e' mem' => (first e mem).trans (first e' mem').symm

theorem reads_parseBuiltinFunction (inner : ReadsLater s expr) (notEof : s.tok.kind ≠ .eof) :
    Reads (parseBuiltinFunction expr) s (ExprRead s) := by
  apply Reads.bind_getTok
  apply Reads.bind (reads_consumeToken notEof)
  intro _ s₁ moves₁ smaller₁
  split
  next op _ =>
    apply Reads.bind (reads_parseCallArgumentList (inner.later moves₁))
    rintro (_ | args) s₂ moves₂ ⟨read, checked⟩
    · exact Reads.pure (.fail (Nat.lt_of_le_of_lt moves₁.errors (read.failed rfl)))
    · obtain ⟨smaller₂, parsed⟩ := read.parsed args rfl
      obtain ⟨number, types⟩ := checked args rfl
      obtain ⟨lhs, rhs, rfl⟩ := List.length_eq_two.mp (number (by decide))
      rw [moves₁.ctx] at parsed
      obtain ⟨e, made, parsedE⟩ := (parsed lhs (by simp)).mkBinary (parsed rhs (by simp))
        (types rfl lhs (by simp) rhs (by simp)) op
      apply Reads.bind_ofOption rfl
      apply Reads.bind_ofOption rfl
      apply Reads.bind_ofOption made
      exact Reads.pure (.succeed (Nat.lt_trans smaller₂ smaller₁) parsedE)
  next op _ =>
    apply Reads.bind (reads_parseCallArgumentList (inner.later moves₁))
    rintro (_ | args) s₂ moves₂ ⟨read, checked⟩
    · exact Reads.pure (.fail (Nat.lt_of_le_of_lt moves₁.errors (read.failed rfl)))
    · obtain ⟨smaller₂, parsed⟩ := read.parsed args rfl
      obtain ⟨val, rfl⟩ := List.length_eq_one_iff.mp ((checked args rfl).1 (by decide))
      have parsedVal := parsed val (by simp)
      rw [moves₁.ctx] at parsedVal
      apply Reads.bind_ofOption rfl
      exact Reads.pure (.succeed (Nat.lt_trans smaller₂ smaller₁)
        ⟨parsedVal.verify, parsedVal.scalar⟩)
  next =>
    apply reads_diagnoseTok_fail
    intro s₂ _ error
    exact .fail (Nat.lt_of_le_of_lt moves₁.errors error)

theorem reads_parseLoadWidth :
    Reads (parseLoadWidth : Parse F Int32) s (fun _ _ => True) := by
  apply Reads.bind (reads_consumeIf (by decide))
  intro found s₁ _ _
  apply Reads.ite
  · intro _
    apply Reads.bind_getTok
    apply Reads.bind reads_parseIntegerLiteralOrLetConstant
    rintro (_ | loadWidth) s₂ _ _
    · exact reads_diagnose_fail fun _ _ _ => trivial
    · exact Reads.pure trivial
  · exact fun _ => Reads.pure trivial

theorem reads_parseLoad (inner : ReadsLater s expr) {name : String} {A : ArgId}
    (found : s.ctx.getArg name = some A) {argLoc : List Char} :
    Reads (parseLoad expr A argLoc) s (ExprRead s) := by
  obtain ⟨bound, -, -⟩ := List.findIdx?_eq_some_iff_getElem.mp found
  have known : s.ctx.argMap[A]? = some s.ctx.argMap[A] := List.getElem?_eq_getElem bound
  apply Reads.bind (reads_parseSubscriptList inner (by decide) (by decide))
  rintro (_ | exprs) s₁ moves₁ ⟨read, nonempty⟩
  · exact Reads.pure (.fail (read.failed rfl))
  · obtain ⟨smaller₁, parsed⟩ := read.parsed exprs rfl
    apply Reads.bind_getContext
    rw [moves₁.ctx]
    apply Reads.bind_ofOption known
    apply Reads.ite
    · intro _
      apply reads_diagnose_fail
      intro s₂ _ error
      exact .fail (Nat.lt_of_le_of_lt moves₁.errors error)
    · intro dims
      apply Reads.bind reads_parseLoadWidth
      intro loadWidth s₂ moves₂ _
      apply Reads.bind_check rfl
      intro legalWidth
      have bounds : 0 < loadWidth.toUInt32.toNat ∧ loadWidth.toUInt32.toNat < 64 := by
        simpa [ParseStep.legal, UInt32.lt_iff_toNat_lt] using legalWidth
      apply Reads.bind_ofOption (dif_pos bounds)
      apply Reads.bind_check rfl
      intro subscripts
      obtain ⟨madeGEP, parsedLoad⟩ := Expr.Parsed.mkLoad known
        (fun empty => nonempty (by rw [empty])) (by simpa using dims) parsed
        (by simpa [ParseStep.legal] using subscripts) ⟨_, bounds⟩
      apply Reads.bind_ofOption madeGEP
      apply Reads.bind_ofOption rfl
      exact Reads.pure (.succeed (Nat.lt_of_le_of_lt moves₂.remaining smaller₁) parsedLoad)

theorem reads_parseNamedExpr (valid : s.ctx.Valid) (inner : ReadsLater s expr)
    (found : s.tok.kind = .identifier) : Reads (parseNamedExpr expr) s (ExprRead s) := by
  apply Reads.bind_getTok
  apply Reads.bind reads_parseIdentifier
  rintro result s₁ moves₁ ⟨read₁, -⟩
  obtain ⟨varName, rfl⟩ := Option.isSome_iff_exists.mp (read₁.found found)
  have smaller₁ : s₁.remaining < s.remaining := read₁.smaller rfl
  apply Reads.bind_ofOption rfl
  apply Reads.bind_getContext
  rw [moves₁.ctx]
  split
  -- The name of a loop comes first, then local variables, let names and arguments.
  next L loop => exact Reads.pure (.succeed smaller₁ (ParserContext.getLoopByName_mem loop))
  next =>
    split
    next LV var =>
      obtain ⟨e, made, parsed⟩ := Expr.Parsed.mkLoadLocal var
      apply Reads.bind_ofOption made
      exact Reads.pure (.succeed smaller₁ parsed)
    next =>
      apply Reads.bind_getTok
      apply Reads.ite
      · intro _
        split
        next =>
          apply reads_diagnoseTok_fail
          intro s₂ _ error
          exact .fail (Nat.lt_of_le_of_lt moves₁.errors error)
        next A arg =>
          rw [← moves₁.ctx] at arg
          apply (reads_parseLoad (inner.later moves₁) arg).mono
          intro result s₂ moves₂ read
          refine ⟨fun none => Nat.lt_of_le_of_lt moves₁.errors (read.failed none), ?_⟩
          intro e same
          obtain ⟨smaller₂, parsed⟩ := read.parsed e same
          rw [moves₁.ctx] at parsed
          exact ⟨Nat.lt_trans smaller₂ smaller₁, parsed⟩
      · intro _
        split
        next E binding =>
          have parsed := valid.of_getLet binding
          apply Reads.bind_check rfl
          intro noLocal
          apply Reads.bind_ofOption (parsed.cloneUnowned noLocal)
          exact Reads.pure (.succeed smaller₁ parsed)
        next =>
          apply reads_diagnoseTok_fail
          intro s₂ _ error
          exact .fail (Nat.lt_of_le_of_lt moves₁.errors error)

theorem reads_literal {α : Type} {K : TokenKind} {literal : Parse F (Option α)}
    (reads : Reads literal s (TokenRead K s)) (found : s.tok.kind = K) {node : α → Expr F}
    (parsed : ∀ a, (node a).Parsed s.ctx) :
    Reads (do let a ← ofOption (← literal); pure (some (node a))) s (ExprRead s) := by
  apply Reads.bind reads
  intro result s₁ _ read
  obtain ⟨a, rfl⟩ := Option.isSome_iff_exists.mp (read.found found)
  apply Reads.bind_ofOption rfl
  exact Reads.pure (.succeed (read.smaller rfl) (parsed a))

theorem reads_parseExprPrimary (valid : s.ctx.Valid) (inner : ReadsLater s expr) :
    Reads (parseExprPrimary expr) s (ExprRead s) := by
  apply Reads.bind_getTok
  split
  next found =>
    exact reads_literal reads_parseIntegerLiteral found fun _ => ⟨rfl, by simp [Expr.collectIndices]⟩
  next found =>
    exact reads_literal reads_parseFloatLiteral found fun _ => ⟨rfl, by simp [Expr.collectIndices]⟩
  next found =>
    exact reads_literal reads_parseStringLiteral found fun _ => ⟨rfl, by simp [Expr.collectIndices]⟩
  next found => exact reads_parseNamedExpr valid inner found
  next found =>
    apply Reads.bind (reads_consumeTokenOf found (by decide))
    intro _ s₁ moves₁ smaller₁
    apply Reads.bind (inner s₁ moves₁ smaller₁)
    rintro (_ | subExpr) s₂ moves₂ read
    · exact Reads.pure (.fail (Nat.lt_of_le_of_lt moves₁.errors (read.failed rfl)))
    · obtain ⟨smaller₂, parsed⟩ := read.parsed subExpr rfl
      rw [moves₁.ctx] at parsed
      apply Reads.bind_getTok
      apply Reads.ite
      · intro _
        apply reads_diagnoseTok_fail
        intro s₃ _ error
        exact .fail (Nat.lt_of_le_of_lt (moves₁.trans moves₂).errors error)
      · intro closed
        apply Reads.bind (reads_consumeTokenOf (by simpa using closed) (by decide))
        intro _ s₃ _ smaller₃
        exact Reads.pure (.succeed (Nat.lt_trans smaller₃ (Nat.lt_trans smaller₂ smaller₁)) parsed)
  iterate 7
    next found => exact reads_parseBuiltinFunction inner (by rw [found]; decide)
  next => exact reads_diagnoseTok_fail fun s₁ _ error => .fail error

theorem reads_parseOperator {exprs : Nat → Parse F (Option (Expr F))}
    (inner : ∀ LBP, ReadsLater s (exprs LBP)) (moves : s.Moves s') {LHS : Option (Expr F)}
    (left : ExprRead s LHS s') {RBP : Nat} :
    Reads (parseOperator exprs RBP LHS) s' (fun next s'' =>
      match next with
      | .inl LHS => s''.remaining < s'.remaining ∧ ExprRead s LHS s''
      | .inr result => ExprRead s result s'') := by
  apply Reads.bind_getTok
  apply Reads.ite
  · exact fun _ => Reads.pure left
  · intro binds
    -- An operator that binds is no end of the file, so there is a token to consume.
    have notEof : s'.tok.kind ≠ .eof := by
      intro ended
      rw [ended] at binds
      exact binds (Nat.zero_le _)
    apply Reads.bind (reads_consumeToken notEof)
    intro _ s₁ moves₁ smaller₁
    have moves₁ := moves.trans moves₁
    have smaller₁' := Nat.lt_of_lt_of_le smaller₁ moves.remaining
    apply Reads.bind (inner _ s₁ moves₁ smaller₁')
    rintro (_ | RHS) s₂ moves₂ right
    · exact Reads.pure (.fail (Nat.lt_of_le_of_lt moves₁.errors (right.failed rfl)))
    · obtain ⟨smaller₂, parsedR⟩ := right.parsed RHS rfl
      rw [moves₁.ctx] at parsedR
      have moves₂ := moves₁.trans moves₂
      dsimp only
      split
      -- The operator has no node: an error is reported.
      next =>
        apply reads_diagnoseTok_fail
        intro s₃ _ error
        exact .fail (Nat.lt_of_le_of_lt moves₂.errors error)
      next kind _ =>
        apply Reads.bind_check rfl
        intro notNull
        obtain ⟨LHS, rfl⟩ := Option.isSome_iff_exists.mp notNull
        obtain ⟨-, parsedL⟩ := left.parsed LHS rfl
        obtain ⟨adjusted, made, parsedL, parsedR⟩ := parsedL.tryToAdjustTypes parsedR
        apply Reads.bind_ofOption rfl
        apply Reads.bind_ofOption made
        apply Reads.ite
        · intro _
          apply reads_diagnose_fail
          intro s₃ _ error
          exact .fail (Nat.lt_of_le_of_lt moves₂.errors error)
        · intro types
          obtain ⟨e, made, parsed⟩ := parsedL.mkBinary parsedR (not_not.mp types) kind
          apply Reads.bind_ofOption made
          have smaller := Nat.lt_trans smaller₂ smaller₁
          exact Reads.pure ⟨smaller,
            .succeed (Nat.lt_of_lt_of_le smaller moves.remaining) parsed⟩

theorem reads_parseExprFuel (fuel : Nat) : ∀ {s : ParserState F} {RBP : Nat}, s.ctx.Valid →
    s.remaining < fuel → Reads (parseExprFuel fuel RBP) s (ExprRead s) := by
  induction fuel with
  | zero => exact fun _ enough => (Nat.not_lt_zero _ enough).elim
  | succ fuel ih =>
    intro s RBP valid enough
    have inner : ∀ LBP, ReadsLater s (parseExprFuel (F := F) fuel LBP) := by
      intro LBP s' moves smaller
      exact ih (by rw [moves.ctx]; exact valid) (by omega)
    apply Reads.bind (reads_parseExprPrimary valid (inner 1))
    intro LHS s₁ moves₁ left
    apply Reads.loop (I := fun LHS s' => ExprRead s LHS s') _ left
    intro LHS s₂ moves₂ left
    apply (reads_parseOperator inner (moves₁.trans moves₂) left).mono
    rintro (LHS | result) s₃ _ post
    · exact post
    · exact post

theorem reads_parseExpr (valid : s.ctx.Valid) :
    Reads (parseExpr : Parse F (Option (Expr F))) s (ExprRead s) :=
  Reads.bind_getState (reads_parseExprFuel _ valid (Nat.lt_succ_self _))

end Functions

end Bistra

import Bistra.Parser.Acceptance
import Bistra.Parser.StringLiterals
import Bistra.Parser.Outcome

/-! # Operator precedence

The language of `parseExpr`: an expression is a sum of products, and a chain of operators of one level
associates to the left.  A phrase stands for an expression between the state of the parser before its
first token and the state behind its last one.
-/

namespace Bistra

variable {F : Type} [Field F] [LinearOrder F]

open Procedure

/-! ## The grammar -/

/-- What a piece of the text stands for. -/
abbrev Phrase (F : Type) (α : Type) := ParserState F → α → ParserState F → Prop

/-- A token of the kind `K`, and behind it another token. -/
structure IsToken (K : TokenKind) (s s' : ParserState F) : Prop where
  found : s.tok.kind = K
  consumed : Accepts consumeToken s () s'

/-- Operators of one level: the kind of the token, its text, and the node that it stands for. -/
abbrev Operators := List (TokenKind × String × BinOpKind)

def productOperators : Operators := [(.mult, "*", .mul), (.div, "/", .div)]

def sumOperators : Operators := [(.plus, "+", .add), (.minus, "-", .sub)]

section Grammar

/-- Operands with operators of one level between them, which associate to the left. -/
inductive IsInfix (ops : Operators) (operand : Phrase F (Expr F)) : Phrase F (Expr F) where
  | one {s s' : ParserState F} {e : Expr F} : operand s e s' → IsInfix ops operand s e s'
  | next {s s₁ s₂ s' : ParserState F} {K : TokenKind} {kind : BinOpKind} {LHS RHS L R : Expr F} :
      IsInfix ops operand s LHS s₁ → (K, s₁.tok.getText, kind) ∈ ops → IsToken K s₁ s₂ →
      operand s₂ RHS s' → tryToAdjustTypes LHS RHS = some (L, R) → L.getType = R.getType →
      IsInfix ops operand s (.binary kind L R) s'

variable (expr : Phrase F (Expr F))

/-- Expressions with commas between them. -/
inductive IsList : Phrase F (List (Expr F)) where
  | one {s s' : ParserState F} {e : Expr F} : expr s e s' → IsList s [e] s'
  | next {s s₁ s₂ s' : ParserState F} {e : Expr F} {es : List (Expr F)} :
      expr s e s₁ → IsToken .comma s₁ s₂ → IsList s₂ es s' → IsList s (e :: es) s'

/-- The vector extension behind the subscripts of a load. -/
inductive IsWidth : Phrase F VecWidth where
  | none {s : ParserState F} {width : VecWidth} : s.tok.kind ≠ .period → width.val = 1 →
      IsWidth s width s
  | literal {s s₁ s' : ParserState F} {width : VecWidth} : IsToken .period s s₁ →
      IsToken .integerLiteral s₁ s' →
      VecWidth.ofUInt32? (atoi s₁.tok.text).toUInt32 = some width → IsWidth s width s'
  | letName {s s₁ s' : ParserState F} {val : Int} {width : VecWidth} : IsToken .period s s₁ →
      IsToken .identifier s₁ s' → s.ctx.getLet s₁.tok.getText = some (.const val) →
      VecWidth.ofUInt32? val.toInt32.toUInt32 = some width → IsWidth s width s'

/-- What stands between operators. -/
inductive IsPrimary : Phrase F (Expr F) where
  | const {s s' : ParserState F} : IsToken .integerLiteral s s' →
      IsPrimary s (.const (atoi s.tok.text).toInt) s'
  | constFP {s s' : ParserState F} : IsToken .floatLiteral s s' →
      IsPrimary s (.constFP (atof s.tok.text)) s'
  | constString {s s' : ParserState F} : IsToken .stringLiteral s s' →
      IsPrimary s (.constString (String.ofList (unescapeCString s.tok.text))) s'
  | index {s s' : ParserState F} {L : Loop} : IsToken .identifier s s' →
      s.ctx.getLoopByName s.tok.getText = some L → IsPrimary s (.indexOf L.id) s'
  | loadLocal {s s' : ParserState F} {LV : VarId} {e : Expr F} : IsToken .identifier s s' →
      s.ctx.getLoopByName s.tok.getText = none → s.ctx.getVar s.tok.getText = some LV →
      s.ctx.decls.mkLoadLocal LV = some e → IsPrimary s e s'
  | letName {s s' : ParserState F} {e : Expr F} : IsToken .identifier s s' →
      s.ctx.getLoopByName s.tok.getText = none → s.ctx.getVar s.tok.getText = none →
      s'.tok.kind ≠ .lSquare → s.ctx.getLet s.tok.getText = some e → e.loadsNoLocal = true →
      IsPrimary s e s'
  | load {s s₁ s₂ s₃ s₄ s' : ParserState F} {A : ArgId} {arg : Argument} {indices : List (Expr F)}
      {width : VecWidth} : IsToken .identifier s s₁ →
      s.ctx.getLoopByName s.tok.getText = none → s.ctx.getVar s.tok.getText = none →
      s.ctx.getArg s.tok.getText = some A → s.ctx.argMap[A]? = some arg →
      IsToken .lSquare s₁ s₂ → IsList expr s₂ indices s₃ → IsToken .rSquare s₃ s₄ →
      arg.type.getNumDims = indices.length → (∀ e ∈ indices, e.getType.isIndexTy = true) →
      IsWidth s₄ width s' → IsPrimary s (.load A indices ⟨arg.type.elementType, width⟩) s'
  | paren {s s₁ s₂ s' : ParserState F} {e : Expr F} : IsToken .lParen s s₁ → expr s₁ e s₂ →
      IsToken .rParen s₂ s' → IsPrimary s e s'
  | binaryCall {s s₁ s₂ s₃ s' : ParserState F} {K : TokenKind} {kind : BinOpKind} {L R : Expr F} :
      builtinBinary K = some kind → IsToken K s s₁ → IsToken .lParen s₁ s₂ →
      IsList expr s₂ [L, R] s₃ → IsToken .rParen s₃ s' → L.getType = R.getType →
      IsPrimary s (.binary kind L R) s'
  | unaryCall {s s₁ s₂ s₃ s' : ParserState F} {K : TokenKind} {kind : UnaryOpKind} {val : Expr F} :
      builtinUnary K = some kind → IsToken K s s₁ → IsToken .lParen s₁ s₂ →
      IsList expr s₂ [val] s₃ → IsToken .rParen s₃ s' → IsPrimary s (.unary kind val) s'

end Grammar

/-- A sum of products, with brackets nested at most `depth` deep. -/
def IsExprWithin : Nat → Phrase F (Expr F)
  | 0 => fun _ _ _ => False
  | depth + 1 => IsInfix sumOperators (IsInfix productOperators (IsPrimary (IsExprWithin depth)))

/-- The language of expressions. -/
def IsExpr (s : ParserState F) (e : Expr F) (s' : ParserState F) : Prop :=
  ∃ depth, IsExprWithin depth s e s'

/-! ## The equation of the grammar -/

section Equation

variable {expr expr' operand operand' : Phrase F (Expr F)} {s s' : ParserState F} {e : Expr F}

theorem IsInfix.mono {ops : Operators} (more : ∀ s e s', operand s e s' → operand' s e s')
    (isInfix : IsInfix ops operand s e s') : IsInfix ops operand' s e s' := by
  induction isInfix with
  | one isOperand => exact .one (more _ _ _ isOperand)
  | next _ isOp token isOperand adjusted types ih =>
    exact .next ih isOp token (more _ _ _ isOperand) adjusted types

theorem IsList.mono (more : ∀ s e s', expr s e s' → expr' s e s') {es : List (Expr F)}
    (isList : IsList expr s es s') : IsList expr' s es s' := by
  induction isList with
  | one isExpr => exact .one (more _ _ _ isExpr)
  | next isExpr comma _ ih => exact .next (more _ _ _ isExpr) comma ih

theorem IsPrimary.mono (more : ∀ s e s', expr s e s' → expr' s e s')
    (isPrimary : IsPrimary expr s e s') : IsPrimary expr' s e s' := by
  cases isPrimary with
  | const token => exact .const token
  | constFP token => exact .constFP token
  | constString token => exact .constString token
  | index token isLoop => exact .index token isLoop
  | loadLocal token noLoop isVar made => exact .loadLocal token noLoop isVar made
  | letName token noLoop noVar noBracket isLet noLocal =>
    exact .letName token noLoop noVar noBracket isLet noLocal
  | load token noLoop noVar isArg declared opened list closed dims types width =>
    exact .load token noLoop noVar isArg declared opened (list.mono more) closed dims types width
  | paren opened isExpr closed => exact .paren opened (more _ _ _ isExpr) closed
  | binaryCall isBuiltin token opened list closed types =>
    exact .binaryCall isBuiltin token opened (list.mono more) closed types
  | unaryCall isBuiltin token opened list closed =>
    exact .unaryCall isBuiltin token opened (list.mono more) closed

theorem IsExprWithin.succ (depth : Nat) :
    ∀ s e s', IsExprWithin (F := F) depth s e s' → IsExprWithin (depth + 1) s e s' := by
  induction depth with
  | zero =>
    intro s e s' isExpr
    cases isExpr
  | succ depth ih =>
    exact fun s e s' isExpr => IsInfix.mono (fun _ _ _ product => product.mono fun _ _ _ primary =>
      primary.mono ih) isExpr

theorem IsExprWithin.mono {n m : Nat} (deeper : n ≤ m) :
    ∀ s e s', IsExprWithin (F := F) n s e s' → IsExprWithin m s e s' := by
  induction deeper with
  | refl => exact fun _ _ _ isExpr => isExpr
  | step _ ih => exact fun s e s' isExpr => IsExprWithin.succ _ s e s' (ih s e s' isExpr)

theorem IsList.within {es : List (Expr F)} (isList : IsList IsExpr s es s') :
    ∃ depth, IsList (IsExprWithin depth) s es s' := by
  induction isList with
  | one isExpr =>
    obtain ⟨depth, isExpr⟩ := isExpr
    exact ⟨depth, .one isExpr⟩
  | next isExpr comma _ ih =>
    obtain ⟨n, isExpr⟩ := isExpr
    obtain ⟨m, rest⟩ := ih
    exact ⟨max n m, .next (IsExprWithin.mono (le_max_left n m) _ _ _ isExpr) comma
      (rest.mono (IsExprWithin.mono (le_max_right n m)))⟩

theorem IsPrimary.within (isPrimary : IsPrimary IsExpr s e s') :
    ∃ depth, IsPrimary (IsExprWithin depth) s e s' := by
  cases isPrimary with
  | const token => exact ⟨0, .const token⟩
  | constFP token => exact ⟨0, .constFP token⟩
  | constString token => exact ⟨0, .constString token⟩
  | index token isLoop => exact ⟨0, .index token isLoop⟩
  | loadLocal token noLoop isVar made => exact ⟨0, .loadLocal token noLoop isVar made⟩
  | letName token noLoop noVar noBracket isLet noLocal =>
    exact ⟨0, .letName token noLoop noVar noBracket isLet noLocal⟩
  | load token noLoop noVar isArg declared opened list closed dims types width =>
    obtain ⟨depth, list⟩ := list.within
    exact ⟨depth, .load token noLoop noVar isArg declared opened list closed dims types width⟩
  | paren opened isExpr closed =>
    obtain ⟨depth, isExpr⟩ := isExpr
    exact ⟨depth, .paren opened isExpr closed⟩
  | binaryCall isBuiltin token opened list closed types =>
    obtain ⟨depth, list⟩ := list.within
    exact ⟨depth, .binaryCall isBuiltin token opened list closed types⟩
  | unaryCall isBuiltin token opened list closed =>
    obtain ⟨depth, list⟩ := list.within
    exact ⟨depth, .unaryCall isBuiltin token opened list closed⟩

theorem IsInfix.within {ops : Operators} {W : Nat → Phrase F (Expr F)}
    (deeper : ∀ {n m}, n ≤ m → ∀ s e s', W n s e s' → W m s e s')
    (bounded : ∀ s e s', operand s e s' → ∃ depth, W depth s e s')
    (isInfix : IsInfix ops operand s e s') : ∃ depth, IsInfix ops (W depth) s e s' := by
  induction isInfix with
  | one isOperand =>
    obtain ⟨depth, isOperand⟩ := bounded _ _ _ isOperand
    exact ⟨depth, .one isOperand⟩
  | next _ isOp token isOperand adjusted types ih =>
    obtain ⟨n, before⟩ := ih
    obtain ⟨m, isOperand⟩ := bounded _ _ _ isOperand
    exact ⟨max n m, .next (before.mono (deeper (le_max_left n m))) isOp token
      (deeper (le_max_right n m) _ _ _ isOperand) adjusted types⟩

/-- An expression is a sum of products of primary expressions, which have expressions inside. -/
theorem isExpr_iff :
    IsExpr s e s' ↔ IsInfix sumOperators (IsInfix productOperators (IsPrimary IsExpr)) s e s' := by
  constructor
  · rintro ⟨_ | depth, isExpr⟩
    · cases isExpr
    · exact IsInfix.mono (fun _ _ _ product => product.mono fun _ _ _ primary =>
        primary.mono fun _ _ _ isExpr => ⟨depth, isExpr⟩) isExpr
  · intro isInfix
    have deeper : ∀ {n m : Nat}, n ≤ m → ∀ (s : ParserState F) e s',
        IsPrimary (IsExprWithin n) s e s' → IsPrimary (IsExprWithin m) s e s' :=
      fun deeper _ _ _ primary => primary.mono (IsExprWithin.mono deeper)
    obtain ⟨depth, isInfix⟩ := IsInfix.within
      (W := fun depth => IsInfix productOperators (IsPrimary (IsExprWithin depth)))
      (fun deep _ _ _ product => product.mono (deeper deep))
      (fun _ _ _ product => product.within deeper fun _ _ _ primary => primary.within) isInfix
    exact ⟨depth + 1, isInfix⟩

end Equation

/-! ## Phrases take tokens -/

/-- A phrase has at least one token, and the parser knows the same names behind it. -/
def Shortens {α : Type} (phrase : Phrase F α) : Prop :=
  ∀ ⦃s a s'⦄, phrase s a s' → s'.remaining < s.remaining ∧ s'.ctx = s.ctx

section Shortens

theorem IsToken.shortens {K : TokenKind} {s s' : ParserState F} (token : IsToken K s s') :
    s'.remaining < s.remaining ∧ s'.ctx = s.ctx := by
  have inside : s.tok.kind ≠ .eof := by
    have returns := token.consumed.1
    simp only [consumeToken, returns_bind, returns_getTok, returns_assert, decide_eq_true_eq]
      at returns
    obtain ⟨_, _, ⟨rfl, rfl⟩, _, _, ⟨inside, -⟩, -⟩ := returns
    exact inside
  have reads := advances_of_reads (reads_consumeToken inside) token.consumed.1
  exact ⟨reads.2, reads.1.ctx⟩

variable {expr operand : Phrase F (Expr F)} {s s₁ s' : ParserState F}

theorem IsWidth.shortens {width : VecWidth} (isWidth : IsWidth s width s') :
    s'.remaining ≤ s.remaining ∧ s'.ctx = s.ctx := by
  cases isWidth with
  | none => exact ⟨Nat.le_refl _, rfl⟩
  | literal period number | letName period number =>
    have first := period.shortens
    have second := number.shortens
    exact ⟨(second.1.trans first.1).le, second.2.trans first.2⟩

theorem shortens_isList (inner : Shortens expr) : Shortens (IsList expr) := by
  intro s es s' isList
  induction isList with
  | one isExpr => exact inner isExpr
  | next isExpr comma rest ih =>
    have first := inner isExpr
    have second := comma.shortens
    exact ⟨ih.1.trans (second.1.trans first.1), ih.2.trans (second.2.trans first.2)⟩

theorem shortens_isPrimary (inner : Shortens expr) : Shortens (IsPrimary expr) := by
  intro s e s' isPrimary
  cases isPrimary with
  | const token | constFP token | constString token | index token | loadLocal token | letName token =>
    exact token.shortens
  | load name _ _ _ _ opened indices closed _ _ width =>
    have smaller := closed.shortens.1.trans ((shortens_isList inner indices).1.trans
      (opened.shortens.1.trans name.shortens.1))
    have same := closed.shortens.2.trans ((shortens_isList inner indices).2.trans
      (opened.shortens.2.trans name.shortens.2))
    exact ⟨width.shortens.1.trans_lt smaller, width.shortens.2.trans same⟩
  | paren opened isExpr closed =>
    exact ⟨closed.shortens.1.trans ((inner isExpr).1.trans opened.shortens.1),
      closed.shortens.2.trans ((inner isExpr).2.trans opened.shortens.2)⟩
  | binaryCall _ name opened args closed | unaryCall _ name opened args closed =>
    exact ⟨closed.shortens.1.trans ((shortens_isList inner args).1.trans
        (opened.shortens.1.trans name.shortens.1)),
      closed.shortens.2.trans ((shortens_isList inner args).2.trans
        (opened.shortens.2.trans name.shortens.2))⟩

theorem shortens_isInfix {ops : Operators} (inner : Shortens operand) :
    Shortens (IsInfix ops operand) := by
  intro s e s' isInfix
  induction isInfix with
  | one isOperand => exact inner isOperand
  | next _ _ token isOperand _ _ ih =>
    have second := token.shortens
    have third := inner isOperand
    exact ⟨third.1.trans (second.1.trans ih.1), third.2.trans (second.2.trans ih.2)⟩

theorem shortens_isExprWithin (depth : Nat) : Shortens (IsExprWithin (F := F) depth) := by
  induction depth with
  | zero =>
    intro s e s' isExpr
    cases isExpr
  | succ depth ih => exact shortens_isInfix (shortens_isInfix (shortens_isPrimary ih))

end Shortens

/-! ## Accepted steps -/

section Steps

variable {α β : Type} {s s' : ParserState F} {a : α}

theorem Accepts.bind_assert {condition : Bool} {f : Unit → Parse F α} (holds : condition = true)
    (next : Accepts (f ()) s a s') : Accepts (assert condition >>= f) s a s' :=
  .bind ⟨returns_assert.mpr ⟨holds, rfl⟩, rfl⟩ next

theorem Accepts.bind_check {step : ParseStep F} {f : Unit → Parse F α} (legal : step.legal = true)
    (next : Accepts (f ()) s a s') : Accepts (check step >>= f) s a s' :=
  .bind ⟨returns_check.mpr ⟨legal, rfl⟩, rfl⟩ next

theorem Accepts.bind_ofOption {o : Option β} {b : β} {f : β → Parse F α} (value : o = some b)
    (next : Accepts (f b) s a s') : Accepts (ofOption o >>= f) s a s' :=
  .bind ⟨returns_ofOption.mpr ⟨value, rfl⟩, rfl⟩ next

theorem Accepts.bind_getContext {f : ParserContext F → Parse F α} (next : Accepts (f s.ctx) s a s') :
    Accepts (getContext >>= f) s a s' := by
  refine .bind ⟨?_, rfl⟩ next
  simp only [getContext, returns_bind, returns_getState, returns_pure]
  exact ⟨s, s, ⟨rfl, rfl⟩, rfl, rfl⟩

variable {K : TokenKind}

theorem IsToken.accepts_consumeTokenOf (token : IsToken K s s') :
    Accepts (consumeTokenOf K) s () s' :=
  .bind_getTok (.bind_assert (decide_eq_true token.found) token.consumed)

theorem IsToken.accepts_consumeIf (token : IsToken K s s') : Accepts (consumeIf K) s true s' := by
  refine .bind_getTok ?_
  rw [if_pos token.found]
  exact .bind token.accepts_consumeTokenOf (.pure true s')

theorem accepts_consumeIf_other (other : s.tok.kind ≠ K) : Accepts (consumeIf K) s false s := by
  refine .bind_getTok ?_
  rw [if_neg other]
  exact .pure false s

theorem IsToken.accepts_integer (token : IsToken .integerLiteral s s') :
    Accepts parseIntegerLiteral s (some (atoi s.tok.text)) s' := by
  refine .bind_getTok ?_
  rw [if_pos token.found]
  exact .bind token.accepts_consumeTokenOf (.pure _ s')

theorem IsToken.accepts_string (token : IsToken .stringLiteral s s') :
    Accepts parseStringLiteral s (some s.tok.getText) s' := by
  refine .bind_getTok ?_
  rw [if_pos token.found]
  exact .bind token.accepts_consumeTokenOf (.pure _ s')

theorem IsToken.accepts_float (token : IsToken .floatLiteral s s') :
    Accepts parseFloatLiteral s (some (atof s.tok.text)) s' := by
  refine .bind_getTok ?_
  rw [if_pos token.found]
  exact .bind token.accepts_consumeIf (.pure _ s')

theorem IsToken.accepts_identifier (token : IsToken .identifier s s') :
    Accepts parseIdentifier s (some s.tok.getText) s' := by
  refine .bind_getTok ?_
  rw [if_pos token.found]
  exact .bind token.accepts_consumeTokenOf (.pure _ s')

end Steps

/-! ## Primary expressions -/

/-- The function `parse` accepts the phrases that start behind `bound` and end before a token that is no
operator. -/
def Takes (bound : Nat) (parse : Parse F (Option (Expr F))) (expr : Phrase F (Expr F)) : Prop :=
  ∀ ⦃s e s'⦄, s.remaining < bound → s.ctx.Valid → expr s e s' →
    getBinOpPrecedence s'.tok.kind = 0 → Accepts parse s (some e) s'

section Primary

variable {parse : Parse F (Option (Expr F))} {expr : Phrase F (Expr F)} {bound : Nat}
  {s s₁ s' : ParserState F}

theorem accepts_subscripts (inner : Shortens expr)
    {round : List (Expr F) → Parse F (List (Expr F) ⊕ Option (List (Expr F)))}
    (last : ∀ {s e s'} before, s.remaining < bound → s.ctx.Valid → expr s e s' →
      s'.tok.kind = .rSquare → Accepts (round before) s (.inr (some (before ++ [e]))) s')
    (more : ∀ {s e s₁ s'} before, s.remaining < bound → s.ctx.Valid → expr s e s₁ →
      IsToken .comma s₁ s' → Accepts (round before) s (.inl (before ++ [e])) s')
    {es : List (Expr F)} (isList : IsList expr s es s') (later : s.remaining < bound)
    (valid : s.ctx.Valid) (closed : s'.tok.kind = .rSquare) (before : List (Expr F)) :
    Accepts (loop round before) s (some (before ++ es)) s' := by
  induction isList generalizing before with
  | one isExpr => exact accepts_loop_exit (last before later valid isExpr closed)
  | @next _ _ _ _ e es isExpr comma rest ih =>
    have first := inner isExpr
    have second := comma.shortens
    have smaller := second.1.trans first.1
    refine accepts_loop_step (more before later valid isExpr comma) smaller ?_
    rw [List.append_cons before e es]
    exact ih (smaller.trans later) ((second.2.trans first.2) ▸ valid) closed (before ++ [e])

theorem accepts_parseSubscriptList (inner : Shortens expr) (takes : Takes bound parse expr)
    {s₂ : ParserState F} {es : List (Expr F)} (opened : IsToken .lSquare s s₁)
    (isList : IsList expr s₁ es s₂) (closed : IsToken .rSquare s₂ s') (later : s₁.remaining < bound)
    (valid : s.ctx.Valid) :
    Accepts (parseSubscriptList parse .lSquare .rSquare) s (some es) s' := by
  refine .bind (accepts_expect opened.accepts_consumeIf) ?_
  refine .bind (accepts_subscripts inner ?_ ?_ isList later (opened.shortens.2 ▸ valid) closed.found [])
    (.bind closed.accepts_consumeTokenOf (.pure _ _))
  · intro s e s' before later valid isExpr closed
    refine .bind (takes later valid isExpr (by rw [closed]; rfl)) (.bind_getTok ?_)
    rw [if_pos closed]
    exact .pure _ _
  · intro s e s₁ s' before later valid isExpr comma
    refine .bind (takes later valid isExpr (by rw [comma.found]; rfl)) (.bind_getTok ?_)
    rw [if_neg (by rw [comma.found]; decide)]
    refine .bind_getTok ?_
    rw [if_pos comma.found]
    exact .bind comma.accepts_consumeTokenOf (.pure _ _)

theorem accepts_arguments (inner : Shortens expr)
    {round : List (Expr F) → Parse F (List (Expr F) ⊕ Option (List (Expr F)))}
    (last : ∀ {s} before, s.tok.kind = .rParen → Accepts (round before) s (.inr (some before)) s)
    (more : ∀ {s s₁ e s'} before, s₁.remaining < bound → s₁.ctx.Valid → IsToken .comma s s₁ →
      expr s₁ e s' → s'.tok.kind = .comma ∨ s'.tok.kind = .rParen →
      Accepts (round before) s (.inl (before ++ [e])) s')
    {es : List (Expr F)} (isList : IsList expr s₁ es s') (comma : IsToken .comma s s₁)
    (later : s₁.remaining < bound) (valid : s₁.ctx.Valid) (closed : s'.tok.kind = .rParen)
    (before : List (Expr F)) : Accepts (loop round before) s (some (before ++ es)) s' := by
  induction isList generalizing before s with
  | one isExpr =>
    have smaller := (inner isExpr).1.trans comma.shortens.1
    exact accepts_loop_step (more before later valid comma isExpr (.inr closed)) smaller
      (accepts_loop_exit (last _ closed))
  | @next _ _ _ _ e es isExpr again rest ih =>
    have first := inner isExpr
    have second := again.shortens
    refine accepts_loop_step (more before later valid comma isExpr (.inl again.found))
      (first.1.trans comma.shortens.1) ?_
    rw [List.append_cons before e es]
    exact ih again (second.1.trans (first.1.trans later)) ((second.2.trans first.2) ▸ valid) closed
      (before ++ [e])

theorem accepts_parseCallArgumentList (inner : Shortens expr) (takes : Takes bound parse expr)
    {s₂ : ParserState F} {es : List (Expr F)} {sameTy : Bool} {expectedArgs : Nat}
    (opened : IsToken .lParen s s₁) (isList : IsList expr s₁ es s₂) (closed : IsToken .rParen s₂ s')
    (later : s₁.remaining < bound) (valid : s.ctx.Valid) (number : expectedArgs = es.length)
    (types : sameTy = true → ∀ e ∈ es, some e.getType = es.head?.map Expr.getType) :
    Accepts (parseCallArgumentList parse sameTy expectedArgs) s (some es) s' := by
  have valid₁ : s₁.ctx.Valid := opened.shortens.2 ▸ valid
  have ends : ∀ {t : ParserState F}, t.tok.kind = .comma ∨ t.tok.kind = .rParen →
      getBinOpPrecedence t.tok.kind = 0 := by
    rintro t (comma | closed)
    · rw [comma]; rfl
    · rw [closed]; rfl
  refine .bind_getTok (.bind (accepts_expect opened.accepts_consumeIf) ?_)
  -- Behind the arguments, the bracket is closed and the numbers and types are compared.
  have rest : ∀ E : Expr F, es.head? = some E → Accepts (do
      onlyIf (!(← expect .rParen "expecting right paren in argument list")) (skipUntil .gt)
      if expectedArgs ≠ 0 ∧ expectedArgs ≠ es.length then
        diagnoseTok ("expecting " ++ toString expectedArgs ++ " arguments")
        pure none
      else if sameTy && !(es.all fun e => e.getType = E.getType) then
        diagnose s.tok.start "passing arguments of different types."
        pure none
      else pure (some es)) s₂ (some es) s' := by
    intro E first
    refine .bind (accepts_expect closed.accepts_consumeIf) (.bind (.pure () s') ?_)
    rw [if_neg (fun wrong => wrong.2 number), if_neg]
    · exact .pure _ _
    · rw [first] at types
      simpa using types
  cases isList with
  | @one _ _ e isExpr =>
    refine .bind (takes later valid₁ isExpr (ends (.inr closed.found))) ?_
    refine .bind (b := some [e]) (accepts_loop_exit ?_) (rest e rfl)
    refine .bind_getTok ?_
    rw [if_neg (by rw [closed.found]; decide)]
    exact .pure _ _
  | next isExpr comma list =>
    have first := inner isExpr
    have second := comma.shortens
    refine .bind (takes later valid₁ isExpr (ends (.inl comma.found))) ?_
    refine .bind (accepts_arguments inner ?_ ?_ list comma (second.1.trans (first.1.trans later))
      ((second.2.trans first.2) ▸ valid₁) closed.found [_]) (rest _ rfl)
    · intro s before closed
      refine .bind_getTok ?_
      rw [if_neg (by rw [closed]; decide)]
      exact .pure _ _
    · intro s s₁ e s' before later valid comma isExpr behind
      refine .bind_getTok ?_
      rw [if_pos comma.found]
      exact .bind comma.accepts_consumeTokenOf (.bind (takes later valid isExpr (ends behind))
        (.pure _ _))

theorem accepts_parseLoadWidth {width : VecWidth} (isWidth : IsWidth s width s') :
    ∃ n, Accepts parseLoadWidth s n s' ∧ VecWidth.ofUInt32? n.toUInt32 = some width := by
  cases isWidth with
  | none other one =>
    have scalar : VecWidth.ofUInt32? (1 : Int32).toUInt32 = some width := by
      have made : VecWidth.ofUInt32? (1 : Int32).toUInt32 = some ⟨1, by decide⟩ := by decide
      rw [made, Option.some.injEq]
      exact Subtype.ext one.symm
    exact ⟨1, .bind (accepts_consumeIf_other other) (.pure _ _), scalar⟩
  | literal period number fits =>
    refine ⟨_, .bind period.accepts_consumeIf (.bind_getTok ?_), fits⟩
    exact .bind (b := some (atoi _)) (.bind number.accepts_integer (.pure _ _)) (.pure _ _)
  | @letName _ s₁ _ val _ period name isConst fits =>
    have named : Accepts parseIntegerLiteralOrLetConstant s₁ (some val.toInt32) s' := by
      have other : Accepts parseIntegerLiteral s₁ none s₁ := by
        refine .bind_getTok ?_
        rw [if_neg (by rw [name.found]; decide)]
        exact .pure _ _
      refine .bind other (.bind_getTok (.bind name.accepts_identifier (.bind_getContext ?_)))
      rw [name.shortens.2, period.shortens.2, isConst]
      exact .pure _ _
    exact ⟨_, .bind period.accepts_consumeIf (.bind_getTok (.bind named (.pure _ _))), fits⟩

/-- The vector extension of a load makes a width that the type admits. -/
theorem VecWidth.bounds_of_ofUInt32? {n : UInt32} {width : VecWidth}
    (made : VecWidth.ofUInt32? n = some width) : 0 < n ∧ n < 64 := by
  rw [VecWidth.ofUInt32?] at made
  split at made
  next bounds => exact ⟨UInt32.lt_iff_toNat_lt.mpr bounds.1, UInt32.lt_iff_toNat_lt.mpr bounds.2⟩
  next => cases made

theorem accepts_parseLoad (inner : Shortens expr) (takes : Takes bound parse expr)
    {s₂ s₃ : ParserState F} {A : ArgId} {arg : Argument} {indices : List (Expr F)} {width : VecWidth}
    {argLoc : List Char} {ctx : ParserContext F} (declared : ctx.argMap[A]? = some arg)
    (opened : IsToken .lSquare s s₁) (list : IsList expr s₁ indices s₂)
    (closed : IsToken .rSquare s₂ s₃) (dims : arg.type.getNumDims = indices.length)
    (types : ∀ e ∈ indices, e.getType.isIndexTy = true) (isWidth : IsWidth s₃ width s')
    (later : s₁.remaining < bound) (valid : s.ctx.Valid) (same : s.ctx = ctx) :
    Accepts (parseLoad parse A argLoc) s
      (some (.load A indices ⟨arg.type.elementType, width⟩)) s' := by
  obtain ⟨n, wide, made⟩ := accepts_parseLoadWidth isWidth
  have bounds := VecWidth.bounds_of_ofUInt32? made
  have known : s₃.ctx = ctx := closed.shortens.2.trans
    ((shortens_isList inner list).2.trans (opened.shortens.2.trans same))
  refine .bind (accepts_parseSubscriptList inner takes opened list closed later valid)
    (.bind_getContext ?_)
  rw [known]
  refine .bind_ofOption declared ?_
  rw [if_neg (not_not.mpr dims)]
  refine .bind wide (.bind_check ?_ (.bind_ofOption made (.bind_check ?_ ?_)))
  · simpa [ParseStep.legal] using bounds
  · simpa [ParseStep.legal] using types
  · have allowed : ctx.decls.allowsGEP A indices = true := by
      simp only [Decls.allowsGEP, ParserContext.decls, declared, Option.any_some, dims, decide_true,
        Bool.and_true, List.all_eq_true]
      exact types
    exact .bind_ofOption (Decls.mkGEP_eq_some.mpr ⟨allowed, rfl⟩) (.bind_ofOption rfl (.pure _ _))

theorem accepts_binaryCall (inner : Shortens expr) (takes : Takes bound parse expr)
    {s₂ s₃ : ParserState F} {K : TokenKind} {kind : BinOpKind} {L R : Expr F}
    (isBuiltin : builtinBinary K = some kind) (name : IsToken K s s₁)
    (opened : IsToken .lParen s₁ s₂) (list : IsList expr s₂ [L, R] s₃)
    (closed : IsToken .rParen s₃ s') (types : L.getType = R.getType) (later : s.remaining ≤ bound)
    (valid : s.ctx.Valid) : Accepts (parseExprPrimary parse) s (some (.binary kind L R)) s' := by
  have call : Accepts (parseBuiltinFunction parse) s (some (.binary kind L R)) s' := by
    refine .bind_getTok (.bind name.consumed ?_)
    rw [name.found, isBuiltin]
    refine .bind (accepts_parseCallArgumentList inner takes opened list closed
      (opened.shortens.1.trans (name.shortens.1.trans_le later)) (name.shortens.2 ▸ valid) rfl ?_) ?_
    · simp [types]
    · exact .bind_ofOption rfl (.bind_ofOption rfl (.bind_ofOption
        (Expr.mkBinary_eq_some.mpr ⟨types, rfl⟩) (.pure _ _)))
  refine .bind_getTok ?_
  rw [name.found]
  simp only [builtinBinary] at isBuiltin
  split at isBuiltin <;> first | exact call | cases isBuiltin

theorem accepts_unaryCall (inner : Shortens expr) (takes : Takes bound parse expr)
    {s₂ s₃ : ParserState F} {K : TokenKind} {kind : UnaryOpKind} {val : Expr F}
    (isBuiltin : builtinUnary K = some kind) (name : IsToken K s s₁)
    (opened : IsToken .lParen s₁ s₂) (list : IsList expr s₂ [val] s₃)
    (closed : IsToken .rParen s₃ s') (later : s.remaining ≤ bound) (valid : s.ctx.Valid) :
    Accepts (parseExprPrimary parse) s (some (.unary kind val)) s' := by
  have single : builtinBinary K = none := by
    have known := isBuiltin
    simp only [builtinUnary] at known
    split at known <;> first | rfl | cases known
  have call : Accepts (parseBuiltinFunction parse) s (some (.unary kind val)) s' := by
    refine .bind_getTok (.bind name.consumed ?_)
    rw [name.found, single, isBuiltin]
    refine .bind (accepts_parseCallArgumentList inner takes opened list closed
      (opened.shortens.1.trans (name.shortens.1.trans_le later)) (name.shortens.2 ▸ valid) rfl nofun) ?_
    exact .bind_ofOption rfl (.pure _ _)
  refine .bind_getTok ?_
  rw [name.found]
  simp only [builtinUnary] at isBuiltin
  split at isBuiltin <;> first | exact call | cases isBuiltin

theorem accepts_parseExprPrimary (inner : Shortens expr) (takes : Takes bound parse expr) {e : Expr F}
    (isPrimary : IsPrimary expr s e s') (later : s.remaining ≤ bound) (valid : s.ctx.Valid) :
    Accepts (parseExprPrimary parse) s (some e) s' := by
  cases isPrimary with
  | const token =>
    -- Each kind of a primary expression is one branch of the switch on the current token.
    refine .bind_getTok ?_
    rw [token.found]
    exact .bind token.accepts_integer (.bind_ofOption rfl (.pure _ _))
  | constFP token =>
    refine .bind_getTok ?_
    rw [token.found]
    exact .bind token.accepts_float (.bind_ofOption rfl (.pure _ _))
  | constString token =>
    refine .bind_getTok ?_
    rw [token.found]
    refine .bind token.accepts_string (.bind_ofOption rfl ?_)
    rw [Token.getText, String.toList_ofList]
    exact .pure _ _
  | index token isLoop =>
    refine .bind_getTok ?_
    rw [token.found]
    refine .bind_getTok (.bind token.accepts_identifier (.bind_ofOption rfl (.bind_getContext ?_)))
    rw [token.shortens.2, isLoop]
    exact .pure _ _
  | loadLocal token noLoop isVar made =>
    refine .bind_getTok ?_
    rw [token.found]
    refine .bind_getTok (.bind token.accepts_identifier (.bind_ofOption rfl (.bind_getContext ?_)))
    rw [token.shortens.2, noLoop, isVar]
    exact .bind_ofOption made (.pure _ _)
  | letName token noLoop noVar noBracket isLet noLocal =>
    refine .bind_getTok ?_
    rw [token.found]
    refine .bind_getTok (.bind token.accepts_identifier (.bind_ofOption rfl (.bind_getContext ?_)))
    rw [token.shortens.2, noLoop, noVar]
    refine .bind_getTok ?_
    rw [if_neg noBracket, isLet]
    exact .bind_check noLocal (.bind_ofOption ((valid.of_getLet isLet).cloneUnowned noLocal) (.pure _ _))
  | load token noLoop noVar isArg declared opened list closed dims types width =>
    refine .bind_getTok ?_
    rw [token.found]
    refine .bind_getTok (.bind token.accepts_identifier (.bind_ofOption rfl (.bind_getContext ?_)))
    rw [token.shortens.2, noLoop, noVar]
    refine .bind_getTok ?_
    rw [if_pos opened.found, isArg]
    have first := token.shortens
    have second := opened.shortens
    exact accepts_parseLoad inner takes declared opened list closed dims types width
      (second.1.trans (first.1.trans_le later)) (first.2 ▸ valid) first.2
  | paren opened isExpr closed =>
    refine .bind_getTok ?_
    rw [opened.found]
    refine .bind opened.accepts_consumeTokenOf (.bind (takes (opened.shortens.1.trans_le later)
      (opened.shortens.2 ▸ valid) isExpr (by rw [closed.found]; rfl)) (.bind_getTok ?_))
    rw [if_neg (not_not.mpr closed.found)]
    exact .bind closed.accepts_consumeTokenOf (.pure _ _)
  | binaryCall isBuiltin token opened list closed types =>
    exact accepts_binaryCall inner takes isBuiltin token opened list closed types later valid
  | unaryCall isBuiltin token opened list closed =>
    exact accepts_unaryCall inner takes isBuiltin token opened list closed later valid

end Primary

/-! ## Precedence climbing -/

/-- The function that reads the operand of an operator goes on behind a phrase with the operators that
bind more tightly than `RBP`, if all operators of the phrase do, and the next one does not bind more
tightly than those. -/
def Climbs (level : Nat) (phrase : Phrase F (Expr F)) : Prop :=
  ∀ ⦃fuel RBP s e s'⦄, RBP < level → s.remaining ≤ fuel → s.ctx.Valid → phrase s e s' →
    getBinOpPrecedence s'.tok.kind ≤ level →
    ∀ ⦃a t⦄, Accepts (loop (parseOperator (parseExprFuel fuel) RBP) (some e)) s' a t →
      Accepts (parseExprFuel (fuel + 1) RBP) s a t

section Climbing

variable {operand expr : Phrase F (Expr F)} {level : Nat}

theorem climbs_isPrimary (inner : Shortens expr)
    (takes : ∀ fuel, Takes fuel (parseExprFuel fuel 1) expr) : Climbs level (IsPrimary expr) := by
  intro fuel RBP s e s' _ enough valid isPrimary _ a t rest
  exact .bind (accepts_parseExprPrimary inner (takes fuel) isPrimary enough valid) rest

theorem accepts_operator_exit {parse : Nat → Parse F (Option (Expr F))} {RBP : Nat}
    {s : ParserState F} {e : Option (Expr F)} (loose : getBinOpPrecedence s.tok.kind ≤ RBP) :
    Accepts (loop (parseOperator parse RBP) e) s e s := by
  refine accepts_loop_exit (.bind_getTok ?_)
  rw [if_pos loose]
  exact .pure _ _

/-- A chain is read from the left to the right: in each round, the operand on the right ends before the
next operator of the level. -/
theorem climbs_isInfix {ops : Operators} {tighter : Nat} (below : level < tighter)
    (precedence : ∀ op ∈ ops, getBinOpPrecedence op.1 = level)
    (known : ∀ op ∈ ops, operatorKind op.2.1 = some op.2.2) (inner : Shortens operand)
    (climbs : Climbs tighter operand) : Climbs level (IsInfix ops operand) := by
  intro fuel RBP s e s' looser enough valid isInfix
  induction isInfix with
  | one isOperand =>
    intro next a t rest
    exact climbs (looser.trans below) enough valid isOperand (next.trans below.le) rest
  | @next s s₁ s₂ s' K kind LHS RHS L R isInfix isOp token isOperand adjusted types ih =>
    intro next a t rest
    have before := shortens_isInfix inner isInfix
    have second := token.shortens
    have third := inner isOperand
    -- The operator binds as tightly as its level, and the function was called for a lower one.
    have binds : getBinOpPrecedence s₁.tok.kind = level := by
      rw [token.found]
      exact precedence _ isOp
    refine ih enough valid binds.le (accepts_loop_step ?_ (third.1.trans second.1) rest)
    refine .bind_getTok ?_
    rw [binds, if_neg (Nat.not_le.mpr looser)]
    obtain ⟨fuel, rfl⟩ : ∃ n, fuel = n + 1 := ⟨fuel - 1, by omega⟩
    -- The operand on the right ends before the next operator of the level, which does not bind more
    -- tightly.
    have right : Accepts (parseExprFuel (fuel + 1) level) s₂ (some RHS) s' :=
      climbs below (by omega) (second.2.trans before.2 ▸ valid) isOperand (next.trans below.le)
        (accepts_operator_exit next)
    refine .bind token.consumed (.bind right ?_)
    have symbol : operatorKind s₁.tok.getText = some kind := known _ isOp
    rw [symbol]
    refine .bind_check rfl (.bind_ofOption rfl (.bind_ofOption adjusted ?_))
    rw [if_neg (not_not.mpr types)]
    exact .bind_ofOption (Expr.mkBinary_eq_some.mpr ⟨types, rfl⟩) (.pure _ _)

theorem climbs_isExpr (inner : Shortens expr)
    (takes : ∀ fuel, Takes fuel (parseExprFuel fuel 1) expr) :
    Climbs 70 (IsInfix sumOperators (IsInfix productOperators (IsPrimary expr))) := by
  have primaries := shortens_isPrimary inner
  have products : Climbs 80 (IsInfix productOperators (IsPrimary expr)) :=
    climbs_isInfix (show 80 < 81 by omega) (by decide) (by decide) primaries
      (climbs_isPrimary inner takes)
  exact climbs_isInfix (by omega) (by decide) (by decide) (shortens_isInfix primaries) products

theorem takes_isExprWithin (depth : Nat) :
    ∀ fuel, Takes fuel (parseExprFuel fuel 1) (IsExprWithin (F := F) depth) := by
  induction depth with
  | zero =>
    intro fuel s e s' _ _ isExpr
    cases isExpr
  | succ depth ih =>
    intro fuel s e s' later valid isExpr ends
    obtain ⟨fuel, rfl⟩ : ∃ n, fuel = n + 1 := ⟨fuel - 1, by omega⟩
    refine climbs_isExpr (shortens_isExprWithin depth) ih (by omega) (by omega) valid isExpr
      (by omega) (accepts_operator_exit (by omega))

end Climbing

/-! ## Texts -/

/-- The text starts with a token. -/
def lexes (text : List Char) : Bool := (lex text).1.kind ≠ .unknown && !(lex text).1.text.isEmpty

/-- The parser at the beginning of a text. -/
def ParserState.before (s : ParserState F) (text : List Char) : ParserState F :=
  { s with tok := (lex text).1, curPtr := (lex text).2 }

theorem isToken_before (s : ParserState F) {text : List Char} {K : TokenKind}
    (found : (lex text).1.kind = K) (inside : K ≠ .eof) (next : lexes (lex text).2 = true) :
    IsToken K (s.before text) (s.before (lex text).2) := by
  refine ⟨found, .bind_getTok (.bind_assert (decide_eq_true (found ▸ inside)) ?_)⟩
  simp only [lexes, Bool.and_eq_true, decide_eq_true_eq, Bool.not_eq_true', List.isEmpty_eq_false_iff]
    at next
  exact ⟨(returns_lexTok next.1).mpr ⟨next.2, rfl⟩, rfl⟩

/-! ## The parser -/

theorem accepts_parseExpr {s s' : ParserState F} {e : Expr F} (valid : s.ctx.Valid)
    (isExpr : IsExpr s e s') (ends : getBinOpPrecedence s'.tok.kind = 0) :
    Accepts parseExpr s (some e) s' := by
  obtain ⟨depth, isExpr⟩ := isExpr
  refine .bind ⟨returns_getState.mpr ⟨rfl, rfl⟩, rfl⟩ ?_
  exact takes_isExprWithin depth (s.remaining + 1) (Nat.lt_succ_self _) valid isExpr ends

/-- `8 - 2 - 3 * (1 + 1)` -/
def differences : Expr ℚ :=
  .binary .sub (.binary .sub (.const 8) (.const 2))
    (.binary .mul (.const 3) (.binary .add (.const 1) (.const 1)))

theorem isExpr_differences : ∃ s' : ParserState ℚ,
    IsExpr ((ParserState.start [] []).before "8 - 2 - 3 * (1 + 1)".toList) differences s' ∧
      getBinOpPrecedence s'.tok.kind = 0 := by
  let s : ParserState ℚ := ParserState.start [] []
  let text := "8 - 2 - 3 * (1 + 1)".toList
  let text₁ := (lex text).2
  let text₂ := (lex text₁).2
  let text₃ := (lex text₂).2
  let text₄ := (lex text₃).2
  let text₅ := (lex text₄).2
  let text₆ := (lex text₅).2
  let text₇ := (lex text₆).2
  let text₈ := (lex text₇).2
  let text₉ := (lex text₈).2
  let text₁₀ := (lex text₉).2
  let text₁₁ := (lex text₁₀).2
  have number : ∀ {t : List Char} {n : Int} {depth : Nat}, (lex t).1.kind = .integerLiteral →
      (atoi (lex t).1.text).toInt = n → lexes (lex t).2 = true →
      IsInfix productOperators (IsPrimary (IsExprWithin depth)) (s.before t) (.const n)
        (s.before (lex t).2) := by
    rintro t n depth found rfl next
    exact .one (.const (isToken_before s found nofun next))
  have sum : IsExprWithin 1 (s.before text₇) (.binary .add (.const 1) (.const 1)) (s.before text₁₀) :=
    .next (.one (number (by decide +kernel) (by decide +kernel) (by decide +kernel)))
      (by decide +kernel)
      (isToken_before (K := .plus) s (by decide +kernel) (by decide) (by decide +kernel))
      (number (by decide +kernel) (by decide +kernel) (by decide +kernel)) rfl rfl
  have product : IsInfix productOperators (IsPrimary (IsExprWithin 1)) (s.before text₄)
      (.binary .mul (.const 3) (.binary .add (.const 1) (.const 1))) (s.before text₁₁) :=
    .next (number (by decide +kernel) (by decide +kernel) (by decide +kernel)) (by decide +kernel)
      (isToken_before (K := .mult) s (by decide +kernel) (by decide) (by decide +kernel))
      (.paren (isToken_before s (by decide +kernel) (by decide) (by decide +kernel)) sum
        (isToken_before s (by decide +kernel) (by decide) (by decide +kernel))) rfl rfl
  have minus : ∀ {t : List Char}, (lex t).1.kind = .minus → lexes (lex t).2 = true →
      IsToken .minus (s.before t) (s.before (lex t).2) :=
    fun found next => isToken_before s found (by decide) next
  have first : IsExprWithin 2 (s.before text) (.binary .sub (.const 8) (.const 2))
      (s.before text₃) :=
    .next (.one (number (by decide +kernel) (by decide +kernel) (by decide +kernel)))
      (by decide +kernel) (minus (by decide +kernel) (by decide +kernel))
      (number (by decide +kernel) (by decide +kernel) (by decide +kernel)) rfl rfl
  have all : IsExprWithin 2 (s.before text) differences (s.before text₁₁) :=
    .next first (by decide +kernel) (minus (by decide +kernel) (by decide +kernel)) product rfl rfl
  exact ⟨_, ⟨2, all⟩, by decide +kernel⟩

/-- `parseExpr` accepts every expression that ends before a token that is no operator, and returns the
tree in which products bind more tightly than sums and operators of one level associate to the left.
There is no other way to read the text. -/
theorem parseExpr_precedence {s s' : ParserState F} {e : Expr F} (valid : s.ctx.Valid)
    (isExpr : IsExpr s e s') (ends : getBinOpPrecedence s'.tok.kind = 0) :
    Accepts parseExpr s (some e) s' ∧
      ∀ e₂ s₂, IsExpr s e₂ s₂ → getBinOpPrecedence s₂.tok.kind = 0 → e₂ = e ∧ s₂ = s' := by
  have accepted := accepts_parseExpr valid isExpr ends
  refine ⟨accepted, fun e₂ s₂ other ends₂ => ?_⟩
  obtain ⟨same, here⟩ := (accepts_parseExpr valid other ends₂).unique accepted
  exact ⟨Option.some.inj same, here⟩

theorem parseExpr_precedence_differences : ∃ s', Accepts parseExpr
    ((ParserState.start [] []).before "8 - 2 - 3 * (1 + 1)".toList) (some differences) s' := by
  obtain ⟨s', isExpr, ends⟩ := isExpr_differences
  have valid : ((ParserState.start [] []).before "8 - 2 - 3 * (1 + 1)".toList :
      ParserState ℚ).ctx.Valid := ParserState.valid_start [] []
  exact ⟨s', (parseExpr_precedence valid isExpr ends).1⟩

end Bistra

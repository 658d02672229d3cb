import Bistra.Parser.Statements

/-! # Functions that only read tokens

Most functions of the parser leave the context as it is: they move to a later token and report
errors.  `Reads` is the rule for them; its postconditions speak about the result and the state.
-/

namespace Bistra

variable {F : Type}

/-- The parser has moved ahead, and nothing but the token and the number of errors has changed. -/
structure ParserState.Moves (s s' : ParserState F) : Prop where
  ctx : s'.ctx = s.ctx
  remaining : s'.remaining ≤ s.remaining
  errors : s.numErrors ≤ s'.numErrors

theorem ParserState.Moves.refl (s : ParserState F) : s.Moves s :=
  ⟨rfl, Nat.le_refl _, Nat.le_refl _⟩

theorem ParserState.Moves.trans {s s' s'' : ParserState F} (first : s.Moves s')
    (second : s'.Moves s'') : s.Moves s'' :=
  ⟨second.ctx.trans first.ctx, Nat.le_trans second.remaining first.remaining,
    Nat.le_trans first.errors second.errors⟩

/-- The declarations and statements that a run creates. -/
def ParseStep.creates : ParseStep F → Bool
  | .newVar _ | .newLoop _ _ | .newIfRange _ _ | .newCall _ | .newStore _ _ => true
  | _ => false

variable [Field F] [LinearOrder F]

open Procedure

/-- If its steps are legal then `x` returns, has created nothing, and has only moved ahead. -/
def Reads {α : Type} (x : Parse F α) (s : ParserState F) (Q : α → ParserState F → Prop) : Prop :=
  x.wp (fun steps a s' => steps.filter ParseStep.creates = [] ∧ s.Moves s' ∧ Q a s') s

section Rules

variable {α β : Type} {s : ParserState F} {Q : α → ParserState F → Prop}

theorem Reads.mono {x : Parse F α} {P : α → ParserState F → Prop} (holds : Reads x s P)
    (weaker : ∀ a s', s.Moves s' → P a s' → Q a s') : Reads x s Q :=
  wp_mono holds fun _ a s' post => ⟨post.1, post.2.1, weaker a s' post.2.1 post.2.2⟩

theorem Reads.pure {a : α} (post : Q a s) : Reads (pure a) s Q := by
  rw [Reads, wp_pure]
  exact ⟨rfl, .refl s, post⟩

theorem Reads.bind {x : Parse F β} {f : β → Parse F α} {P : β → ParserState F → Prop}
    (first : Reads x s P) (next : ∀ b s', s.Moves s' → P b s' → Reads (f b) s' Q) :
    Reads (x >>= f) s Q := by
  rw [Reads, wp_bind]
  apply wp_mono first
  rintro steps b s' ⟨created, moves, post⟩
  apply wp_mono (next b s' moves post)
  rintro more a s'' ⟨later, ahead, post⟩
  exact ⟨by rw [List.filter_append, created, later, List.append_nil], moves.trans ahead, post⟩

theorem Reads.bind_getState {f : ParserState F → Parse F α} (next : Reads (f s) s Q) :
    Reads (getState >>= f) s Q := by
  rw [Reads, wp_bind, wp_getState]
  exact next

theorem Reads.bind_getTok {f : Token → Parse F α} (next : Reads (f s.tok) s Q) :
    Reads (getTok >>= f) s Q := by
  simpa only [Reads, getTok, wp_bind, wp_getState, wp_pure, List.nil_append] using next

theorem Reads.bind_getContext {f : ParserContext F → Parse F α} (next : Reads (f s.ctx) s Q) :
    Reads (getContext >>= f) s Q := by
  simpa only [Reads, getContext, wp_bind, wp_getState, wp_pure, List.nil_append] using next

theorem Reads.bind_check {step : ParseStep F} {f : Unit → Parse F α} (reads : step.creates = false)
    (next : step.legal = true → Reads (f ()) s Q) : Reads (check step >>= f) s Q := by
  rw [Reads, wp_bind, wp_check]
  intro safe
  apply wp_mono (next safe)
  rintro more a s' ⟨created, post⟩
  refine ⟨?_, post⟩
  rw [List.filter_append, created, List.append_nil, List.filter_singleton, reads]
  rfl

theorem Reads.bind_assert {condition : Bool} {f : Unit → Parse F α} (holds : condition = true)
    (next : Reads (f ()) s Q) : Reads (assert condition >>= f) s Q := by
  rw [Reads, wp_bind, wp_assert]
  exact ⟨holds, next⟩

theorem Reads.bind_ofOption {o : Option β} {b : β} {f : β → Parse F α} (value : o = some b)
    (next : Reads (f b) s Q) : Reads (ofOption o >>= f) s Q := by
  rw [Reads, wp_bind, wp_ofOption]
  exact ⟨b, value, next⟩

theorem Reads.ite {c : Prop} [Decidable c] {x y : Parse F α} (holds : c → Reads x s Q)
    (fails : ¬c → Reads y s Q) : Reads (if c then x else y) s Q := by
  rw [Reads, wp_ite]
  exact ⟨holds, fails⟩

/-- A loop ends because every round that goes on consumes a token. -/
theorem Reads.loop {body : β → Parse F (β ⊕ α)} {b : β} {I : β → ParserState F → Prop}
    (round : ∀ b s', s.Moves s' → I b s' → Reads (body b) s' (fun next s'' =>
      match next with
      | .inl b' => s''.remaining < s'.remaining ∧ I b' s''
      | .inr a => Q a s'')) (init : I b s) : Reads (loop body b) s Q := by
  rw [Bistra.loop]
  apply Reads.bind_getState
  apply wp_iterate (m := ParserState.remaining)
    (I := fun steps b s' => steps.filter ParseStep.creates = [] ∧ s.Moves s' ∧ I b s')
    _ (Nat.lt_succ_self _) ⟨rfl, .refl s, init⟩
  rintro steps b s' ⟨created, moves, holds⟩
  apply wp_mono (round b s' moves holds)
  rintro more (b' | a) s'' ⟨later, ahead, post⟩
  · exact ⟨post.1, by rw [List.filter_append, created, later, List.append_nil], moves.trans ahead,
      post.2⟩
  · exact ⟨by rw [List.filter_append, created, later, List.append_nil], moves.trans ahead, post⟩

end Rules

/-! ## Diagnostics and tokens -/

section Primitives

variable {s : ParserState F}

theorem reads_diagnose {loc : List Char} {message : String} :
    Reads (diagnose loc message) s (fun _ s' => s.numErrors < s'.numErrors) := by
  apply Reads.bind_check rfl
  intro _
  rw [Reads, wp_modifyState]
  exact ⟨rfl, ⟨rfl, Nat.le_refl _, Nat.le_succ _⟩, Nat.lt_succ_self _⟩

theorem reads_diagnoseTok {message : String} :
    Reads (diagnoseTok message) s (fun _ s' => s.numErrors < s'.numErrors) :=
  Reads.bind_getTok reads_diagnose

theorem reads_onlyIf {condition : Bool} {x : Parse F Unit}
    (reads : condition = true → Reads x s fun _ _ => True) :
    Reads (onlyIf condition x) s fun _ _ => True :=
  Reads.ite reads fun _ => Reads.pure trivial

theorem reads_consumeToken (notEof : s.tok.kind ≠ .eof) :
    Reads (consumeToken : Parse F Unit) s (fun _ s' => s'.remaining < s.remaining) := by
  apply Reads.bind_getTok
  apply Reads.bind_assert (by simpa using notEof)
  apply Reads.bind_getState
  have left : s.remaining = s.curPtr.length + 1 := if_neg notEof
  apply Reads.bind (P := fun _ s' => s'.curPtr = s.curPtr ∧ s'.remaining = s.remaining)
  · apply Reads.ite
    · intro _
      apply Reads.bind_check rfl
      intro _
      rw [Reads, wp_modifyState]
      exact ⟨rfl, ⟨rfl, Nat.le_refl _, Nat.le_succ _⟩, rfl, rfl⟩
    · exact fun _ => Reads.pure ⟨rfl, rfl⟩
  · rintro _ s' moves ⟨-, same⟩
    apply Reads.bind_check rfl
    intro _
    -- The lexer takes at least one character for a token, so less of the text is left.
    have smaller : (if (lex s.curPtr).1.kind = .eof then 0 else (lex s.curPtr).2.length + 1) <
        s.remaining := by
      rw [left]
      split
      next => omega
      next notEof =>
        cases lex_length s.curPtr with
        | inl ended => exact (notEof ended).elim
        | inr shorter => omega
    rw [Reads, wp_modifyState]
    refine ⟨rfl, ⟨rfl, ?_, Nat.le_refl _⟩, smaller⟩
    rw [same]
    exact Nat.le_of_lt smaller

theorem reads_consumeTokenOf {K : TokenKind} (found : s.tok.kind = K) (notEof : K ≠ .eof) :
    Reads (consumeTokenOf K : Parse F Unit) s (fun _ s' => s'.remaining < s.remaining) := by
  apply Reads.bind_getTok
  apply Reads.bind_assert (by simpa using found)
  exact reads_consumeToken (by rw [found]; exact notEof)

theorem reads_consumeIf {K : TokenKind} (notEof : K ≠ .eof) :
    Reads (consumeIf K : Parse F Bool) s (fun found s' =>
      (found = true ↔ s.tok.kind = K) ∧ (found = true → s'.remaining < s.remaining)) := by
  apply Reads.bind_getTok
  apply Reads.ite
  · intro found
    apply Reads.bind (reads_consumeTokenOf found notEof)
    intro _ s' _ smaller
    exact Reads.pure ⟨⟨fun _ => found, fun _ => rfl⟩, fun _ => smaller⟩
  · exact fun other => Reads.pure ⟨⟨nofun, fun found => (other found).elim⟩, nofun⟩

theorem reads_expect {K : TokenKind} {message : String} (notEof : K ≠ .eof) :
    Reads (expect K message : Parse F Bool) s (fun found s' =>
      (found = true → s.tok.kind = K ∧ s'.remaining < s.remaining) ∧
        (found = false → s.numErrors < s'.numErrors)) := by
  apply Reads.bind (reads_consumeIf notEof)
  rintro found s' moves ⟨kind, smaller⟩
  apply Reads.ite
  · exact fun same => Reads.pure ⟨fun _ => ⟨kind.mp same, smaller same⟩, nofun⟩
  · intro _
    apply Reads.bind reads_diagnoseTok
    intro _ s'' _ more
    exact Reads.pure ⟨nofun, fun _ => Nat.lt_of_le_of_lt moves.errors more⟩

theorem reads_skipUntilOneOf {kinds : List TokenKind} :
    Reads (skipUntilOneOf kinds : Parse F Unit) s fun _ _ => True := by
  apply Reads.loop (I := fun _ _ => True) _ trivial
  intro _ s' _ _
  apply Reads.bind_getTok
  apply Reads.ite
  · exact fun _ => Reads.pure trivial
  · intro goesOn
    apply Reads.bind (reads_consumeToken fun ended => goesOn (.inl ended))
    intro _ s'' _ smaller
    exact Reads.pure ⟨smaller, trivial⟩

theorem reads_skipUntil {K : TokenKind} : Reads (skipUntil K : Parse F Unit) s fun _ _ => True :=
  Reads.ite (fun _ => Reads.pure trivial) fun _ => reads_skipUntilOneOf

/-! ## Literals and names -/

/-- What a function that reads a token of kind `K` leaves. -/
structure TokenRead {α : Type} (K : TokenKind) (s : ParserState F) (result : Option α)
    (s' : ParserState F) : Prop where
  smaller : result.isSome = true → s'.remaining < s.remaining
  found : s.tok.kind = K → result.isSome = true

theorem reads_token {α : Type} {K : TokenKind} (notEof : K ≠ .eof) {a : α} :
    Reads (if s.tok.kind = K then do consumeTokenOf K; pure (some a) else pure none : Parse F _) s
      (TokenRead K s) := by
  apply Reads.ite
  · intro found
    apply Reads.bind (reads_consumeTokenOf found notEof)
    intro _ s' _ smaller
    exact Reads.pure ⟨fun _ => smaller, fun _ => rfl⟩
  · exact fun other => Reads.pure ⟨nofun, fun found => (other found).elim⟩

theorem reads_parseIntegerLiteral :
    Reads (parseIntegerLiteral : Parse F (Option Int32)) s (TokenRead .integerLiteral s) :=
  Reads.bind_getTok (reads_token (by decide))

theorem reads_parseStringLiteral :
    Reads (parseStringLiteral : Parse F (Option String)) s (TokenRead .stringLiteral s) :=
  Reads.bind_getTok (reads_token (by decide))

theorem reads_parseFloatLiteral :
    Reads (parseFloatLiteral : Parse F (Option F)) s (TokenRead .floatLiteral s) := by
  apply Reads.bind_getTok
  apply Reads.ite
  · intro found
    apply Reads.bind (reads_consumeIf (by decide))
    rintro _ s' _ ⟨consumed, smaller⟩
    exact Reads.pure ⟨fun _ => smaller (consumed.mpr found), fun _ => rfl⟩
  · exact fun other => Reads.pure ⟨nofun, fun found => (other found).elim⟩

theorem reads_parseIdentifier : Reads (parseIdentifier : Parse F (Option String)) s
    (fun result s' => TokenRead .identifier s result s' ∧
      ∀ name, result = some name → isLegalName name = true) := by
  apply Reads.bind_getTok
  apply Reads.ite
  · intro found
    apply Reads.bind (reads_consumeTokenOf found (by decide))
    intro _ s' _ smaller
    apply Reads.pure
    refine ⟨⟨fun _ => smaller, fun _ => rfl⟩, fun name same => ?_⟩
    cases same
    exact s.tok.legalName found
  · exact fun other => Reads.pure ⟨⟨nofun, fun found => (other found).elim⟩, nofun⟩

theorem reads_parseIntegerLiteralOrLetConstant :
    Reads (parseIntegerLiteralOrLetConstant : Parse F (Option Int32)) s (fun result s' =>
      result.isSome = true → s'.remaining < s.remaining) := by
  apply Reads.bind reads_parseIntegerLiteral
  rintro (_ | val) s₁ moves₁ read₁
  · apply Reads.bind_getTok
    apply Reads.bind reads_parseIdentifier
    rintro (_ | varName) s₂ moves₂ ⟨read₂, -⟩
    · exact Reads.pure nofun
    · have smaller := Nat.lt_of_lt_of_le (read₂.smaller rfl) moves₁.remaining
      apply Reads.bind_getContext
      split
      next => exact Reads.pure fun _ => smaller
      next => exact Reads.bind reads_diagnose fun _ _ _ _ => Reads.pure nofun
      next => exact Reads.bind reads_diagnose fun _ _ _ _ => Reads.pure nofun
  · exact Reads.pure read₁.smaller

end Primitives

end Bistra

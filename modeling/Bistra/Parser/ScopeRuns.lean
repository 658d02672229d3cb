import Bistra.Parser.StmtRuns

/-! # What the functions for scopes and functions return -/

namespace Bistra

variable {F : Type}

/-- The statements that a run has added to a scope. -/
def BodyGrows (s : ParserState F) (body : List (Stmt F)) (ok : Bool) (body' : List (Stmt F))
    (s' : ParserState F) : Prop :=
  ∃ new, body' = body ++ new ∧ (s'.numErrors = s.numErrors → BodyParsed s ok new s')

theorem BodyGrows.refl (s s' : ParserState F) (body : List (Stmt F)) : BodyGrows s body true body s' :=
  ⟨[], (List.append_nil body).symm, fun _ => .nil s s'⟩

theorem BodyGrows.trans {s s' s'' : ParserState F} {ok more : Bool}
    {body body' body'' : List (Stmt F)} (before : s.Advances s') (after : s'.Advances s'')
    (first : BodyGrows s body ok body' s') (second : BodyGrows s' body' more body'' s'') :
    BodyGrows s body (ok && more) body'' s'' := by
  obtain ⟨new, rfl, parsed⟩ := first
  obtain ⟨rest, rfl, parsedRest⟩ := second
  refine ⟨new ++ rest, List.append_assoc _ _ _, fun none => ?_⟩
  have := before.errors
  have := after.errors
  exact .append before after (parsed (by omega)) (parsedRest (by omega))

variable [Field F] [LinearOrder F]

open Procedure

section Scopes

variable {s : ParserState F} {scope : Parse F (List (Stmt F))}

theorem runs_parseLets (valid : s.ctx.Valid) :
    Runs (parseLets : Parse F Bool) s (fun ok failed s' => ok = true ∧
      (failed = true → s.numErrors < s'.numErrors)) := by
  apply Runs.loop (I := fun ok _ _ => ok = true) _ rfl
  rintro _ _ s₁ advances₁ rfl
  apply Runs.bind_getTok
  apply Runs.ite
  · intro found
    apply Runs.bind (runs_parseLetStmt (advances₁.valid valid) found)
    rintro _ failed s₂ _ ⟨rfl, error, smaller⟩
    apply Runs.ite
    · intro failed
      exact Runs.pure ⟨rfl, fun _ => Nat.lt_of_le_of_lt advances₁.errors (error failed)⟩
    · intro succeeded
      exact Runs.pure ⟨smaller (by simpa using succeeded), rfl⟩
  · exact fun _ => Runs.pure ⟨rfl, nofun⟩

theorem runs_parseVars (valid : s.ctx.Valid) (body : List (Stmt F)) :
    Runs (parseVars body : Parse F _) s (fun ok vars s' =>
      (vars.1 = true → s.numErrors < s'.numErrors) ∧ BodyGrows s body ok vars.2 s') := by
  apply Runs.loop (I := fun ok body' s' => BodyGrows s body ok body' s') _ (.refl s s body)
  intro ok body' s₁ advances₁ grows
  apply Runs.bind_getTok
  apply Runs.ite
  · intro found
    apply Runs.bind (runs_parseVarDecl (advances₁.valid valid) found)
    rintro more (_ | init) s₂ advances₂ ⟨error, parsed⟩
    · have error := Nat.lt_of_le_of_lt advances₁.errors (error rfl)
      obtain ⟨new, same, -⟩ := grows
      exact Runs.pure ⟨fun _ => error, new, same, fun none => absurd none (Nat.ne_of_gt error)⟩
    · obtain ⟨smaller, parsed⟩ := parsed init rfl
      apply Runs.pure
      refine ⟨smaller, ?_⟩
      rw [Bool.and_true]
      exact grows.trans advances₁ advances₂ ⟨init, rfl, parsed⟩
  · intro _
    apply Runs.pure
    rw [Bool.and_true]
    exact ⟨nofun, grows⟩

/-- What a round of the loop of `parseScope` leaves. -/
def ItemRun (s : ParserState F) (body : List (Stmt F)) (ok : Bool)
    (next : List (Stmt F) ⊕ List (Stmt F)) (s' : ParserState F) : Prop :=
  (next.isLeft = true → s'.remaining < s.remaining) ∧ BodyGrows s body ok (next.elim id id) s'

theorem runs_parseScopeItem (valid : s.ctx.Valid) (inner : ScopesLater s scope)
    (body : List (Stmt F)) : Runs (parseScopeItem scope body) s (ItemRun s body) := by
  -- After an error nothing is claimed of the statements.
  have broken : ∀ {s₁ : ParserState F} (ok : Bool → Bool) (new : List (Stmt F)),
      s.numErrors < s₁.numErrors →
        Runs (do skipUntil .rBrace; pure (.inr (body ++ new))) s₁ (fun more next s' =>
          ItemRun s body (ok more) next s') := by
    intro s₁ ok new error
    apply Runs.bind_reads reads_skipUntil
    intro _ s₂ moves₂ _
    apply Runs.pure
    exact ⟨nofun, new, rfl, fun none => absurd none
      (Nat.ne_of_gt (Nat.lt_of_lt_of_le error moves₂.errors))⟩
  apply Runs.bind_getTok
  apply Runs.ite
  · exact fun _ => Runs.pure ⟨nofun, .refl s s body⟩
  · intro _
    apply Runs.bind (runs_parseLets valid)
    rintro _ failed s₁ advances₁ ⟨rfl, error₁⟩
    apply Runs.ite
    · intro failed
      have skipped := broken (fun more => true && more) [] (error₁ failed)
      rwa [List.append_nil] at skipped
    · intro _
      apply Runs.bind (runs_parseVars (advances₁.valid valid) body)
      rintro ok ⟨failed, body₂⟩ s₂ advances₂ ⟨error₂, new₂, rfl, parsed₂⟩
      have advances₂' := advances₁.trans advances₂
      have grows₂ : BodyGrows s body (true && ok) (body ++ new₂) s₂ :=
        (BodyGrows.refl s s₁ body).trans advances₁ advances₂ ⟨new₂, rfl, parsed₂⟩
      apply Runs.ite
      · exact fun failed => broken _ new₂ (Nat.lt_of_le_of_lt advances₁.errors (error₂ failed))
      · intro _
        have inner₂ : ScopesLater s₂ scope := fun s' valid' smaller =>
          inner s' valid' (Nat.lt_of_lt_of_le smaller advances₂'.remaining)
        apply Runs.bind (runs_parseOneStmt (advances₂'.valid valid) inner₂)
        rintro more (_ | S) s₃ advances₃ ⟨smaller₃, failed₃, parsed₃⟩
        · exact broken _ new₂ (Nat.lt_of_le_of_lt advances₂'.errors (failed₃ rfl))
        · apply Runs.pure
          refine ⟨fun _ => Nat.lt_of_lt_of_le (smaller₃ rfl) advances₂'.remaining, ?_⟩
          rw [Bool.and_true, ← Bool.and_assoc]
          exact grows₂.trans advances₂' advances₃ ⟨[S], rfl, parsed₃ S rfl⟩

theorem runs_parseBraces (valid : s.ctx.Valid) (inner : ScopesLater s scope) :
    Runs (parseBraces scope) s (fun ok body s' =>
      s'.numErrors = s.numErrors → BodyParsed s ok body s') := by
  apply Runs.bind_reads (reads_expect (by decide))
  intro _ s₁ moves₁ _
  apply Runs.bind (P := fun ok body s' => BodyGrows s₁ [] ok body s')
  · apply Runs.loop (I := fun ok body s' => BodyGrows s₁ [] ok body s') _ (.refl s₁ s₁ [])
    intro ok body s₂ advances₂ grows
    have inner₂ : ScopesLater s₂ scope := fun s' valid' smaller =>
      inner s' valid' (Nat.lt_of_lt_of_le smaller
        (Nat.le_trans advances₂.remaining moves₁.remaining))
    have valid₂ := advances₂.valid (by rw [moves₁.ctx]; exact valid)
    apply (runs_parseScopeItem valid₂ inner₂ body).mono
    rintro more (body' | body') s₃ advances₃ ⟨smaller, post⟩
    · exact ⟨smaller rfl, grows.trans advances₂ advances₃ post⟩
    · exact grows.trans advances₂ advances₃ post
  · rintro ok body s₂ advances₂ ⟨new, rfl, parsed⟩
    apply Runs.bind_reads (reads_expect (by decide))
    intro _ s₃ moves₃ _
    apply Runs.pure
    intro none
    have := moves₁.errors
    have := advances₂.errors
    have := moves₃.errors
    have body := parsed (by omega)
    rw [Bool.and_true]
    refine ⟨?_, ?_, body.nodup, ?_⟩
    · rw [moves₃.ctx, ← moves₁.ctx]; exact body.verified
    · rw [← moves₁.ctx]; exact body.wellFormed
    · rw [moves₃.ctx, ← moves₁.ctx]; exact body.fresh

theorem runs_restoreLets {α : Type} {x : Parse F α} {P : Bool → α → ParserState F → Prop}
    (runs : Runs x s P) :
    Runs (do let a ← x; restoreLets s.ctx.letStack.length; pure a) s (fun ok a s' =>
      s'.ctx.letStack = s.ctx.letStack ∧ ∃ s₁, P ok a s₁ ∧ s'.numErrors = s₁.numErrors ∧
        s'.ctx.decls = s₁.ctx.decls ∧ s'.ctx.nextLoop = s₁.ctx.nextLoop) := by
  simp only [Runs, restoreLets, getContext, modifyContext, wp_bind, wp_getState, wp_pure, wp_assert,
    wp_modifyState]
  apply wp_mono runs
  rintro steps a s₁ ⟨advances, names, post⟩
  obtain ⟨more, same⟩ := advances.lets
  have dropped : s₁.ctx.letStack.drop (s₁.ctx.letStack.length - s.ctx.letStack.length) =
      s.ctx.letStack := by
    rw [← same, List.length_append, Nat.add_sub_cancel, List.drop_left]
  refine ⟨by rw [← same]; simp, ?_, by simpa using names, dropped, s₁, by simpa using post, rfl, rfl,
    rfl⟩
  refine ⟨advances.remaining, advances.errors, advances.args, advances.vars, advances.loops,
    dropped.symm ▸ List.suffix_rfl, advances.nextLoop, fun valid => ?_⟩
  have valid₁ := advances.valid valid
  have same : s₁.ctx.Extends { s₁.ctx with
      letStack := s₁.ctx.letStack.drop (s₁.ctx.letStack.length - s.ctx.letStack.length) } :=
    ⟨List.prefix_rfl, List.prefix_rfl, List.Subset.refl _⟩
  exact ⟨fun binding mem => (valid₁.lets binding (List.mem_of_mem_drop mem)).extends same,
    valid₁.args, valid₁.vars, valid₁.names, valid₁.stack, valid₁.loops⟩

theorem runs_parseScopeFuel (fuel : Nat) : ∀ {s : ParserState F}, s.ctx.Valid →
    s.remaining < fuel → Runs (parseScopeFuel fuel) s (ScopeRun s) := by
  induction fuel with
  | zero => exact fun _ enough => (Nat.not_lt_zero _ enough).elim
  | succ fuel ih =>
    intro s valid enough
    have inner : ScopesLater s (parseScopeFuel (F := F) fuel) := fun s' valid' smaller =>
      ih valid' (by omega)
    apply Runs.bind_getContext
    apply (runs_restoreLets (runs_parseBraces valid inner)).mono
    rintro ok body s' _ ⟨lets, s₁, parsed, errors, decls, nextLoop⟩
    refine ⟨lets, fun none => ?_⟩
    have body := parsed (errors.symm.trans none)
    refine ⟨?_, body.wellFormed, body.nodup, ?_⟩
    · rw [decls]; exact body.verified
    · rw [nextLoop]; exact body.fresh

theorem runs_parseScope (valid : s.ctx.Valid) :
    Runs (parseScope : Parse F (List (Stmt F))) s (ScopeRun s) :=
  Runs.bind_getState (runs_parseScopeFuel _ valid (Nat.lt_succ_self _))

end Scopes

end Bistra

import Bistra.Parser.Runs

/-! # Runs without errors

A function accepts a text if it returns and reports no error, and rejects it if it reports an error
whenever it returns.
-/

namespace Bistra

variable {F : Type} [Field F] [LinearOrder F]

open Procedure

/-! ## Acceptance -/

section Acceptance

variable {α β : Type} {s s₁ s' : ParserState F} {a : α} {b : β}

/-- From `s` the function returns `a` in the state `s'`, and reports no error. -/
def Accepts (x : Parse F α) (s : ParserState F) (a : α) (s' : ParserState F) : Prop :=
  x.Returns s a s' ∧ s'.numErrors = s.numErrors

/-- The function does not return without reporting an error. -/
def Rejects (x : Parse F α) (s : ParserState F) : Prop :=
  ∀ a s', x.Returns s a s' → s.numErrors < s'.numErrors

/-- Errors are not forgotten. -/
def KeepsErrors (x : Parse F α) (s : ParserState F) : Prop :=
  ∀ a s', x.Returns s a s' → s.numErrors ≤ s'.numErrors

theorem Accepts.unique {a' : α} {s'' : ParserState F} {x : Parse F α} (first : Accepts x s a s')
    (second : Accepts x s a' s'') : a = a' ∧ s' = s'' := first.1.unique second.1

theorem Rejects.not_accepts {x : Parse F α} (rejects : Rejects x s) : ¬ Accepts x s a s' :=
  fun accepts => absurd accepts.2 (Nat.ne_of_gt (rejects a s' accepts.1))

theorem Accepts.pure (a : α) (s : ParserState F) : Accepts (pure a) s a s :=
  ⟨returns_pure.mpr ⟨rfl, rfl⟩, rfl⟩

theorem Accepts.bind {x : Parse F β} {f : β → Parse F α} (first : Accepts x s b s₁)
    (next : Accepts (f b) s₁ a s') : Accepts (x >>= f) s a s' :=
  ⟨returns_bind.mpr ⟨b, s₁, first.1, next.1⟩, next.2.trans first.2⟩

theorem Rejects.bind {x : Parse F β} {f : β → Parse F α} (first : Accepts x s b s₁)
    (next : Rejects (f b) s₁) : Rejects (x >>= f) s := by
  intro a s' returns
  obtain ⟨b', s₁', early, late⟩ := returns_bind.mp returns
  obtain ⟨rfl, rfl⟩ := first.1.unique early
  exact first.2 ▸ next a s' late

theorem Rejects.bind_keeps {x : Parse F β} {f : β → Parse F α} (first : Rejects x s)
    (next : ∀ b s₁, x.Returns s b s₁ → KeepsErrors (f b) s₁) : Rejects (x >>= f) s := by
  intro a s' returns
  obtain ⟨b, s₁, early, late⟩ := returns_bind.mp returns
  exact Nat.lt_of_lt_of_le (first b s₁ early) (next b s₁ early a s' late)

theorem accepts_getTok (s : ParserState F) : Accepts getTok s s.tok s := by
  refine ⟨?_, rfl⟩
  simp only [getTok, returns_bind, returns_getState, returns_pure]
  exact ⟨s, s, ⟨rfl, rfl⟩, rfl, rfl⟩

theorem Accepts.bind_getTok {f : Token → Parse F α} (next : Accepts (f s.tok) s a s') :
    Accepts (getTok >>= f) s a s' :=
  .bind (accepts_getTok s) next

theorem Rejects.bind_getTok {f : Token → Parse F α} (next : Rejects (f s.tok) s) :
    Rejects (getTok >>= f) s :=
  .bind (accepts_getTok s) next

theorem Runs.keepsErrors {x : Parse F α} {Q : Bool → α → ParserState F → Prop} (runs : Runs x s Q) :
    KeepsErrors x s := fun _ _ returns => (wp.of_returns runs returns).1.errors

theorem Runs.of_returns {x : Parse F α} {Q : Bool → α → ParserState F → Prop} (runs : Runs x s Q)
    (returns : x.Returns s a s') : s.Advances s' ∧ ∃ ok, Q ok a s' :=
  ⟨(wp.of_returns runs returns).1, _, (wp.of_returns runs returns).2.2⟩

end Acceptance

section Tokens

variable {s s₁ s' : ParserState F}

theorem found_of_accepts {K : TokenKind} {found : Bool} (accepts : Accepts (consumeIf K) s found s') :
    found = true → s.tok.kind = K := by
  intro same
  by_contra other
  have absent : Accepts (consumeIf K) s false s :=
    .bind_getTok (by rw [if_neg other]; exact .pure false s)
  cases same.symm.trans (accepts.unique absent).1

theorem advances_of_reads {α : Type} {x : Parse F α} {P : α → ParserState F → Prop} {a : α}
    (reads : Reads x s P) (returns : x.Returns s a s') : s.Moves s' ∧ P a s' := by
  have post := wp.of_returns reads returns
  exact ⟨post.2.1, post.2.2⟩

theorem accepts_expect {K : TokenKind} {message : String}
    (found : Accepts (consumeIf K) s true s₁) : Accepts (expect K message) s true s₁ :=
  found.bind (.pure _ _)

end Tokens

/-! ## Loops -/

section Loops

variable {s s₁ s' : ParserState F}

theorem accepts_loop_exit {α β : Type} {round : β → Parse F (β ⊕ α)} {b : β} {a : α}
    (last : Accepts (round b) s (.inr a) s') : Accepts (loop round b) s a s' := by
  refine ⟨?_, last.2⟩
  simp only [loop, iterate, returns_bind, returns_getState]
  exact ⟨s, s, ⟨rfl, rfl⟩, .inr a, s', last.1, returns_pure.mpr ⟨rfl, rfl⟩⟩

theorem accepts_loop_step {α β : Type} {round : β → Parse F (β ⊕ α)} {b b' : β} {a : α}
    (first : Accepts (round b) s (.inl b') s₁) (smaller : s₁.remaining < s.remaining)
    (rest : Accepts (loop round b') s₁ a s') : Accepts (loop round b) s a s' := by
  refine ⟨?_, rest.2.trans first.2⟩
  simp only [loop, iterate, returns_bind, returns_getState]
  refine ⟨s, s, ⟨rfl, rfl⟩, .inl b', s₁, first.1, ?_⟩
  obtain ⟨_, _, ⟨rfl, rfl⟩, returns⟩ : ∃ t s₂, (t = s₁ ∧ s₂ = s₁) ∧
      (iterate (t.remaining + 1) round b').Returns s₂ a s' := by
    simpa only [loop, returns_bind, returns_getState] using rest.1
  exact returns_iterate_mono smaller returns

end Loops

end Bistra

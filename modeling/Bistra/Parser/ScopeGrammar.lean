import Bistra.Parser.Acceptance
import Bistra.Parser.FunctionRuns

/-! # The grammar of scopes

Which sequences of declarations and statements between braces `parseScope` accepts.  A sequence is
described by the parts that it consists of, each of which is right by itself; the loop of
`parseScope` can still fail between two parts.
-/

namespace Bistra

variable {F : Type} [Field F] [LinearOrder F]

open Procedure

/-! ## The grammar -/

/-- A part of a scope. -/
inductive Item where
  | letDecl
  | varDecl
  /-- A statement that starts with an identifier. -/
  | named
  | forLoop (items : List Item)
  | ifRange (items : List Item)

/-- The token that an item starts with. -/
def Item.kind : Item → TokenKind
  | .letDecl => .kwLet
  | .varDecl => .kwVar
  | .named => .identifier
  | .forLoop _ => .kwFor
  | .ifRange _ => .kwIf

/-- Whether the item declares a name. -/
def Item.declares : Item → Bool
  | .letDecl | .varDecl => true
  | _ => false

mutual

/-- Behind every declaration comes another item, and behind a variable declaration no let
declaration, also in the scopes inside. -/
def Item.ordered : Item → Bool
  | .forLoop items | .ifRange items => Item.orderedAll items
  | _ => true

def Item.orderedAll : List Item → Bool
  | [] => true
  | item :: items =>
    item.ordered && orderedAll items &&
      match item with
      | .letDecl => !items.isEmpty
      | .varDecl => items.head?.any fun next => next.kind ≠ .kwLet
      | _ => true

end

mutual

/-- From `s` to `s'` there is a well-formed item, which adds the statements `body` to the scope. -/
inductive IsItem : Item → ParserState F → List (Stmt F) → ParserState F → Prop
  | letDecl {s s' : ParserState F} (found : s.tok.kind = .kwLet)
      (decl : Accepts parseLetStmt s false s') : IsItem .letDecl s [] s'
  | varDecl {s s' : ParserState F} {init : List (Stmt F)} (found : s.tok.kind = .kwVar)
      (decl : Accepts parseVarDecl s (some init) s') : IsItem .varDecl s init s'
  | named {s s' : ParserState F} {S : Stmt F} (found : s.tok.kind = .identifier)
      (stmt : Accepts parseNamedStmt s (some S) s') : IsItem .named s [S] s'
  | forLoop {items : List Item} {s s₁ s₂ s₃ s' : ParserState F} {range : String × Int32 × Int32}
      {L : Loop} {body : List (Stmt F)} (found : s.tok.kind = .kwFor)
      (header : Accepts parseForHeader s (some range) s₁)
      (push : Accepts (pushLoop range.1 range.2.1.toUInt32 range.2.2.toUInt32) s₁ L s₂)
      (scope : IsScope items s₂ body s₃) (pop : Accepts popLoop s₃ L s') :
      IsItem (.forLoop items) s [.loop L body] s'
  | ifRange {items : List Item} {s s₁ s' : ParserState F} {range : Expr F × Int32 × Int32}
      {body : List (Stmt F)} (found : s.tok.kind = .kwIf)
      (header : Accepts parseIfHeader s range s₁) (scope : IsScope items s₁ body s') :
      IsItem (.ifRange items) s [.ifRange range.1 range.2.1 range.2.2 body] s'

/-- From `s` to `s'` there are well-formed items, one behind the other. -/
inductive IsItems : List Item → ParserState F → List (Stmt F) → ParserState F → Prop
  | nil (s : ParserState F) : IsItems [] s [] s
  | cons {item : Item} {items : List Item} {s s₁ s' : ParserState F} {first rest : List (Stmt F)}
      (head : IsItem item s first s₁) (tail : IsItems items s₁ rest s') :
      IsItems (item :: items) s (first ++ rest) s'

/-- From `s` to `s'` there are well-formed items in braces; the let declarations among them end
with the scope. -/
inductive IsScope : List Item → ParserState F → List (Stmt F) → ParserState F → Prop
  | braces {items : List Item} {s s₁ s₂ s₃ : ParserState F} {body : List (Stmt F)}
      (opens : Accepts (consumeIf .lBrace) s true s₁) (inside : IsItems items s₁ body s₂)
      (closes : Accepts (consumeIf .rBrace) s₂ true s₃) :
      IsScope items s body { s₃ with ctx := { s₃.ctx with letStack := s.ctx.letStack } }

end

section Grammar

variable {s s₁ s' : ParserState F} {item : Item} {items : List Item} {body : List (Stmt F)}

theorem IsItem.found (isItem : IsItem item s body s') : s.tok.kind = item.kind := by
  cases isItem <;> assumption

/-- The token behind the items of a scope is the brace, and the one before them is that of the first
one. -/
theorem IsItems.found (isItems : IsItems items s body s') (closed : s'.tok.kind = .rBrace) :
    s.tok.kind = (items.head?.map Item.kind).getD .rBrace := by
  cases isItems with
  | nil => exact closed
  | cons head tail => exact head.found

theorem IsItems.next (isItems : IsItems items s body s') (closed : s'.tok.kind = .rBrace) :
    (items.head?.any fun next => decide (next.kind ≠ .kwLet)) = true ↔
      s.tok.kind ≠ .rBrace ∧ s.tok.kind ≠ .kwLet := by
  rw [isItems.found closed]
  cases items with
  | nil => simp
  | cons item items => cases item <;> simp [Item.kind]

/-! ## The declarations at a position of a scope -/

theorem IsItem.letDecl_inv (isItem : IsItem item s body s') (found : s.tok.kind = .kwLet) :
    item = .letDecl ∧ body = [] ∧ Accepts parseLetStmt s false s' := by
  cases isItem with
  | letDecl _ decl => exact ⟨rfl, rfl, decl⟩
  | varDecl other | named other | forLoop other | ifRange other => cases found.symm.trans other

theorem IsItem.varDecl_inv (isItem : IsItem item s body s') (found : s.tok.kind = .kwVar) :
    item = .varDecl ∧ Accepts parseVarDecl s (some body) s' := by
  cases isItem with
  | varDecl _ decl => exact ⟨rfl, decl⟩
  | letDecl other | named other | forLoop other | ifRange other => cases found.symm.trans other

/-- What the loop over the let declarations at the front of the items leaves. -/
structure LetsParsed (items : List Item) (s : ParserState F) (body : List (Stmt F))
    (s' : ParserState F) (rest : List Item) (s₁ : ParserState F) : Prop where
  accepts : Accepts parseLets s false s₁
  advances : s.Advances s₁
  stops : s₁.tok.kind ≠ .kwLet
  isItems : IsItems rest s₁ body s'
  length : rest.length ≤ items.length
  ordered : Item.orderedAll items = true ↔ Item.orderedAll rest = true ∧ (rest = [] → items = [])

theorem accepts_parseLets (valid : s.ctx.Valid) (isItems : IsItems items s body s')
    (closed : s'.tok.kind = .rBrace) : ∃ rest s₁, LetsParsed items s body s' rest s₁ := by
  induction items generalizing s body with
  | nil =>
    have other : s.tok.kind ≠ .kwLet := by rw [isItems.found closed]; decide
    exact ⟨[], s, accepts_loop_exit (.bind_getTok (by rw [if_neg other]; exact .pure _ s)),
      (ParserState.Moves.refl s).advances, other, isItems, Nat.le_refl _, by simp⟩
  | cons item items ih =>
    by_cases found : s.tok.kind = .kwLet
    · cases isItems with
      | cons head tail =>
        obtain ⟨rfl, rfl, decl⟩ := head.letDecl_inv found
        obtain ⟨advances, -, -, -, smaller⟩ := (runs_parseLetStmt valid found).of_returns decl.1
        obtain ⟨rest, s₂, parsed⟩ := ih (advances.valid valid) tail
        refine ⟨rest, s₂, ?_, advances.trans parsed.advances, parsed.stops, parsed.isItems,
          Nat.le_succ_of_le parsed.length, ?_⟩
        · refine accepts_loop_step (.bind_getTok ?_) (smaller rfl) parsed.accepts
          rw [if_pos found]
          exact decl.bind (.pure _ _)
        · have ordered := parsed.ordered
          have none : items = [] → rest = [] := fun same =>
            List.eq_nil_of_length_eq_zero (by simpa [same] using parsed.length)
          simp only [Item.orderedAll, Item.ordered, Bool.true_and, Bool.and_eq_true,
            Bool.not_eq_true', List.isEmpty_eq_false_iff]
          grind
    · exact ⟨_, s, accepts_loop_exit (.bind_getTok (by rw [if_neg found]; exact .pure _ s)),
        (ParserState.Moves.refl s).advances, found, isItems, Nat.le_refl _, by simp⟩

/-- What the loop over the variable declarations at the front of the items leaves, behind the
statements `before`. -/
structure VarsParsed (before : List (Stmt F)) (items : List Item) (s : ParserState F)
    (body : List (Stmt F)) (s' : ParserState F) (rest : List Item) (more : List (Stmt F))
    (s₁ : ParserState F) : Prop where
  accepts : ∃ init, body = init ++ more ∧ Accepts (parseVars before) s (false, before ++ init) s₁
  advances : s.Advances s₁
  stops : s₁.tok.kind ≠ .kwVar
  isItems : IsItems rest s₁ more s'
  length : rest.length ≤ items.length
  taken : rest = items ∨ s.tok.kind = .kwVar
  ordered : Item.orderedAll items = true ↔ Item.orderedAll rest = true ∧
    (rest = items ∨ s₁.tok.kind ≠ .rBrace ∧ s₁.tok.kind ≠ .kwLet)

theorem accepts_parseVars (before : List (Stmt F)) (valid : s.ctx.Valid)
    (isItems : IsItems items s body s') (closed : s'.tok.kind = .rBrace) :
    ∃ rest more s₁, VarsParsed before items s body s' rest more s₁ := by
  -- The loop runs over the variable declarations in front, and stops at the first other item.
  induction items generalizing s body before with
  | nil =>
    have other : s.tok.kind ≠ .kwVar := by rw [isItems.found closed]; decide
    refine ⟨[], body, s, ⟨[], rfl, accepts_loop_exit (.bind_getTok ?_)⟩,
      (ParserState.Moves.refl s).advances, other, isItems, Nat.le_refl _, .inl rfl, by simp⟩
    rw [if_neg other, List.append_nil]
    exact .pure _ s
  | cons item items ih =>
    by_cases found : s.tok.kind = .kwVar
    · cases isItems with
      | @cons _ _ _ s₁ _ init later head tail =>
        obtain ⟨rfl, decl⟩ := head.varDecl_inv found
        obtain ⟨advances, _, -, spec⟩ := (runs_parseVarDecl valid found).of_returns decl.1
        obtain ⟨smaller, -⟩ := spec init rfl
        obtain ⟨rest, more, s₂, parsed⟩ := ih (before ++ init) (advances.valid valid) tail
        obtain ⟨inits, rfl, accepts⟩ := parsed.accepts
        refine ⟨rest, more, s₂, ⟨init ++ inits, (List.append_assoc ..).symm, ?_⟩,
          advances.trans parsed.advances, parsed.stops, parsed.isItems,
          Nat.le_succ_of_le parsed.length, .inr found, ?_⟩
        -- The round of the declaration, and the rounds that the induction gives.
        · rw [← List.append_assoc]
          refine accepts_loop_step (.bind_getTok ?_) smaller accepts
          rw [if_pos found]
          exact decl.bind (.pure _ _)
        · have ordered := parsed.ordered
          have next := tail.next closed
          -- The rest is shorter than the items, so the declaration is not the one the loop stops
          -- at.
          have shorter : rest ≠ .varDecl :: items := fun same =>
            absurd parsed.length (by simp [same])
          simp only [Item.orderedAll, Item.ordered, Bool.true_and, Bool.and_eq_true, next, ordered,
            shorter, false_or]
          by_cases same : rest = items
          · subst same
            have here := parsed.isItems.found closed
            rw [← tail.found closed] at here
            simp [here]
          · rw [parsed.taken.resolve_left same]
            simp [same]
    · refine ⟨_, body, s, ⟨[], rfl, accepts_loop_exit (.bind_getTok ?_)⟩,
        (ParserState.Moves.refl s).advances, found, isItems, Nat.le_refl _, .inl rfl, by simp⟩
      rw [if_neg found, List.append_nil]
      exact .pure _ s

/-! ## Statements -/

/-- `scope` accepts the scopes behind `s` that are in order, and rejects the others. -/
def Settles (s : ParserState F) (scope : Parse F (List (Stmt F))) : Prop :=
  ∀ items s₁ body s', s₁.ctx.Valid → s₁.remaining < s.remaining → IsScope items s₁ body s' →
    (Item.orderedAll items = true → Accepts scope s₁ body s') ∧
      (Item.orderedAll items = false → Rejects scope s₁)

variable {scope : Parse F (List (Stmt F))}

theorem accepts_pushLoop (s : ParserState F) (name : String) (end_ stride : UInt32) :
    Accepts (pushLoop name end_ stride) s ⟨s.ctx.nextLoop, name, end_, stride⟩
      { s with ctx := s.ctx.enterLoop name end_ stride } := by
  refine ⟨?_, rfl⟩
  simp only [pushLoop, getContext, modifyContext, returns_bind, returns_check, returns_getState,
    returns_pure, returns_modifyState]
  exact ⟨(), s, ⟨rfl, rfl⟩, s.ctx, s, ⟨s, s, ⟨rfl, rfl⟩, rfl, rfl⟩, (), _, rfl, rfl, rfl⟩

/-- Both outcomes of an item that is a statement. -/
def SettlesStmt (scope : Parse F (List (Stmt F))) (item : Item) (s : ParserState F)
    (body : List (Stmt F)) (s' : ParserState F) : Prop :=
  (item.ordered = true → ∃ S, body = [S] ∧ Accepts (parseOneStmt scope) s (some S) s') ∧
    (item.ordered = false → Rejects (parseOneStmt scope) s)

theorem settles_forLoop (valid : s.ctx.Valid) (settles : Settles s scope)
    (isItem : IsItem (.forLoop items) s body s') :
    SettlesStmt scope (.forLoop items) s body s' := by
  cases isItem with
  | @forLoop _ _ s₁ s₂ s₃ _ range L body found header push inside pop =>
    obtain ⟨moves₁, smaller₁, -, legal⟩ := advances_of_reads (reads_parseForHeader found) header.1
    have valid₁ : s₁.ctx.Valid := by rw [moves₁.ctx]; exact valid
    obtain ⟨rfl, rfl⟩ := push.unique (accepts_pushLoop s₁ _ _ _)
    have valid₂ := valid₁.enterLoop range.1 range.2.1.toUInt32 range.2.2.toUInt32
    obtain ⟨accepts, rejects⟩ := settles items _ body s₃ valid₂ (by exact smaller₁) inside
    rw [SettlesStmt, Item.ordered]
    constructor
    -- A body in order: the loop is pushed, the scope is read, and the loop is popped.
    · intro ordered
      refine ⟨_, rfl, .bind_getTok ?_⟩
      rw [found]
      simp only [parseForStmt_eq]
      refine header.bind (push.bind ((accepts ordered).bind (pop.bind ?_)))
      refine .bind (b := ()) ⟨?_, rfl⟩ (.pure _ _)
      simp
    -- A body that is not in order reports an error, and no error is forgotten behind it.
    · intro unordered
      refine .bind_getTok ?_
      rw [found]
      simp only [parseForStmt_eq]
      refine .bind header (.bind push (.bind_keeps (rejects unordered) fun body s₄ _ => ?_))
      intro S s₅ returns
      simp only [popLoop, getContext, modifyContext, returns_bind, returns_getState, returns_ofOption,
        returns_modifyState, returns_assert, returns_pure] at returns
      obtain ⟨K, _, ⟨_, _, ⟨_, _, ⟨rfl, rfl⟩, rfl, rfl⟩, _, _, ⟨-, rfl⟩, _, _, rfl, rfl, rfl⟩, _, _,
        ⟨-, rfl⟩, -, rfl⟩ := returns
      exact Nat.le_refl _

theorem settles_ifRange (valid : s.ctx.Valid) (settles : Settles s scope)
    (isItem : IsItem (.ifRange items) s body s') :
    SettlesStmt scope (.ifRange items) s body s' := by
  cases isItem with
  | @ifRange _ _ s₁ _ range body found header inside =>
    obtain ⟨moves₁, smaller₁, -⟩ := advances_of_reads (reads_parseIfHeader valid found) header.1
    have valid₁ : s₁.ctx.Valid := by rw [moves₁.ctx]; exact valid
    obtain ⟨accepts, rejects⟩ := settles items s₁ body s' valid₁ smaller₁ inside
    have created : Accepts (check (.newIfRange range.2.1 range.2.2)) s₁ () s₁ :=
      ⟨returns_check.mpr ⟨rfl, rfl⟩, rfl⟩
    rw [SettlesStmt, Item.ordered]
    constructor
    · intro ordered
      refine ⟨_, rfl, .bind_getTok ?_⟩
      rw [found]
      simp only [parseIfStmt_eq]
      exact header.bind (created.bind ((accepts ordered).bind (.pure _ _)))
    · intro unordered
      refine .bind_getTok ?_
      rw [found]
      simp only [parseIfStmt_eq]
      refine .bind header (.bind created (.bind_keeps (rejects unordered) fun body s₄ _ => ?_))
      intro S s₅ returns
      obtain ⟨rfl, rfl⟩ := returns_pure.mp returns
      exact Nat.le_refl _

theorem rejects_parseOneStmt (other : s.tok.kind ≠ .identifier ∧ s.tok.kind ≠ .kwFor ∧
    s.tok.kind ≠ .kwIf) : Rejects (parseOneStmt scope) s := by
  refine .bind_getTok ?_
  have error : Rejects (do diagnoseTok "unknown statement in scope body."; pure (none : Option (Stmt F)))
      s := fun a s' returns =>
    (advances_of_reads (P := fun _ s' => s.numErrors < s'.numErrors)
      (reads_diagnoseTok_fail fun _ _ error => error) returns).2
  split <;> simp_all

theorem settles_stmt (valid : s.ctx.Valid) (settles : Settles s scope)
    (isItem : IsItem item s body s') (isStmt : item.declares = false) :
    SettlesStmt scope item s body s' := by
  cases item with
  | letDecl | varDecl => cases isStmt
  | named =>
    refine ⟨fun _ => ?_, fun unordered => by simp [Item.ordered] at unordered⟩
    cases isItem with
    | named found stmt =>
      refine ⟨_, rfl, .bind_getTok ?_⟩
      rw [found]
      exact stmt
  | forLoop items => exact settles_forLoop valid settles isItem
  | ifRange items => exact settles_ifRange valid settles isItem

/-! ## Scopes -/

theorem Settles.later (settles : Settles s scope) (later : s₁.remaining ≤ s.remaining) :
    Settles s₁ scope :=
  fun items s₂ body s' valid smaller => settles items s₂ body s' valid (smaller.trans_le later)

/-- What is known of a round of the loop of `parseScope` at items: it takes up to a statement, or it
reports an error since the items are not in order. -/
structure RoundAccepts (scope : Parse F (List (Stmt F))) (before : List (Stmt F)) (items : List Item)
    (s : ParserState F) (body : List (Stmt F)) (s' : ParserState F) (rest : List Item)
    (first more : List (Stmt F)) (s₁ : ParserState F) : Prop where
  body : body = first ++ more
  accepts : Accepts (parseScopeItem scope before) s (.inl (before ++ first)) s₁
  advances : s.Advances s₁
  smaller : s₁.remaining < s.remaining
  isItems : IsItems rest s₁ more s'
  length : rest.length < items.length
  ordered : Item.orderedAll items = true ↔ Item.orderedAll rest = true

theorem settles_round (valid : s.ctx.Valid) (settles : Settles s scope)
    (inner : ScopesLater s scope) (isItems : IsItems items s body s')
    (closed : s'.tok.kind = .rBrace) (nonempty : items ≠ []) (before : List (Stmt F)) :
    (∃ rest first more s₁, RoundAccepts scope before items s body s' rest first more s₁) ∨
      (Rejects (parseScopeItem scope before) s ∧ Item.orderedAll items = false) := by
  have opened : s.tok.kind ≠ .rBrace := by
    rw [isItems.found closed]
    obtain ⟨item, rest, rfl⟩ := List.exists_cons_of_ne_nil nonempty
    cases item <;> simp [Item.kind]
  obtain ⟨items₁, s₁, lets⟩ := accepts_parseLets valid isItems closed
  have valid₁ := lets.advances.valid valid
  obtain ⟨items₂, more, s₂, vars⟩ := accepts_parseVars before valid₁ lets.isItems closed
  obtain ⟨init, rfl, taken⟩ := vars.accepts
  have valid₂ := vars.advances.valid valid₁
  have advances := lets.advances.trans vars.advances
  have orderedLets := lets.ordered
  have orderedVars := vars.ordered
  have shorter := vars.length
  have shorter₁ := lets.length
  -- An error in the statement is an error of the round.
  have reject : Rejects (parseOneStmt scope) s₂ → Rejects (parseScopeItem scope before) s := by
    intro rejects
    refine .bind_getTok ?_
    rw [if_neg opened]
    refine .bind lets.accepts (.bind taken (.bind_keeps rejects fun result s₃ _ => ?_))
    cases result with
    | some S => exact Runs.keepsErrors (Q := fun _ _ _ => True) (Runs.pure trivial)
    | none =>
      exact Runs.keepsErrors (Q := fun _ _ _ => True)
        (Runs.bind_reads reads_skipUntil fun _ _ _ _ => Runs.pure trivial)
  cases found : items₂ with
  | nil =>
    subst found
    have here : s₂.tok.kind = .rBrace := vars.isItems.found closed
    refine .inr ⟨reject (rejects_parseOneStmt (by rw [here]; decide)), ?_⟩
    grind
  | cons item rest =>
    subst found
    have here : s₂.tok.kind = item.kind := vars.isItems.found closed
    cases isStmt : item.declares with
    | true =>
      cases item with
      | letDecl =>
        refine .inr ⟨reject (rejects_parseOneStmt (by rw [here]; decide)), ?_⟩
        -- The let declaration is not the first item, so it is behind a variable.
        have behind : Item.letDecl :: rest ≠ items₁ := fun same =>
          lets.stops (by rw [lets.isItems.found closed, ← same]; rfl)
        simp only [here, Item.kind] at orderedVars
        grind
      | varDecl => exact absurd here vars.stops
      | named | forLoop | ifRange => cases isStmt
    | false =>
      have next : s₂.tok.kind ≠ .rBrace ∧ s₂.tok.kind ≠ .kwLet := by
        rw [here]
        cases item <;> simp_all [Item.kind, Item.declares]
      have ordered : Item.orderedAll items = true ↔ item.ordered = true ∧ Item.orderedAll rest = true := by
        have one : Item.orderedAll (item :: rest) = (item.ordered && Item.orderedAll rest) := by
          cases item <;> simp_all [Item.orderedAll, Item.declares]
        simp only [one, Bool.and_eq_true] at orderedVars
        grind
      cases vars.isItems with
      | @cons _ _ _ s₃ _ stmt later head tail =>
        obtain ⟨accepts, rejects⟩ :=
          settles_stmt valid₂ (settles.later advances.remaining) head isStmt
        cases inOrder : item.ordered with
        | false =>
          refine .inr ⟨reject (rejects inOrder), ?_⟩
          grind
        | true =>
          obtain ⟨S, rfl, parsed⟩ := accepts inOrder
          have inner₂ : ScopesLater s₂ scope := fun s' valid' smaller =>
            inner s' valid' (smaller.trans_le advances.remaining)
          obtain ⟨advances₃, _, smaller, -⟩ := (runs_parseOneStmt valid₂ inner₂).of_returns parsed.1
          refine .inl ⟨rest, init ++ [S], later, s₃, (List.append_assoc ..).symm, ?_,
            advances.trans advances₃, (smaller rfl).trans_le advances.remaining, tail, by simp at shorter; omega, ?_⟩
          · refine .bind_getTok ?_
            rw [if_neg opened, ← List.append_assoc]
            exact lets.accepts.bind (taken.bind (parsed.bind (.pure _ _)))
          · grind

theorem accepts_items (valid : s.ctx.Valid) (settles : Settles s scope)
    (inner : ScopesLater s scope) (isItems : IsItems items s body s')
    (closed : s'.tok.kind = .rBrace) (ordered : Item.orderedAll items = true)
    (before : List (Stmt F)) :
    Accepts (loop (parseScopeItem scope) before) s (before ++ body) s' := by
  induction length : items.length using Nat.strong_induction_on
    generalizing items s body before with
  | _ n ih =>
    cases isItems with
    | nil =>
      refine accepts_loop_exit (.bind_getTok ?_)
      rw [if_pos closed, List.append_nil]
      exact .pure _ _
    | @cons item rest _ s₁ _ first later head tail =>
      obtain ⟨rest', first', more, s₂, round⟩ | ⟨-, unordered⟩ := settles_round valid settles inner
        (.cons head tail) closed (List.cons_ne_nil _ _) before
      · rw [round.body, ← List.append_assoc]
        refine accepts_loop_step round.accepts round.smaller ?_
        have left := round.advances.remaining
        exact ih _ (length ▸ round.length) (round.advances.valid valid) (settles.later left)
          (fun s' valid' smaller => inner s' valid' (smaller.trans_le left)) round.isItems
          (round.ordered.mp ordered) _ rfl
      · cases ordered.symm.trans unordered

theorem advances_iterate (n : Nat) (valid : s.ctx.Valid) (inner : ScopesLater s scope)
    {before after : List (Stmt F)}
    (returns : (iterate n (parseScopeItem scope) before).Returns s after s') : s.Advances s' := by
  induction n generalizing s before with
  | zero => cases (returns_ofOption.mp returns).1
  | succ n ih =>
    obtain ⟨next, s₁, first, rest⟩ := returns_bind.mp returns
    have advances := ((runs_parseScopeItem valid inner before).of_returns first).1
    cases next with
    | inl before =>
      exact advances.trans (ih (advances.valid valid)
        (fun s' valid' smaller => inner s' valid' (smaller.trans_le advances.remaining)) rest)
    | inr after =>
      obtain ⟨rfl, rfl⟩ := returns_pure.mp rest
      exact advances

theorem rejects_items (n : Nat) (valid : s.ctx.Valid) (settles : Settles s scope)
    (inner : ScopesLater s scope) (isItems : IsItems items s body s')
    (closed : s'.tok.kind = .rBrace) (unordered : Item.orderedAll items = false)
    (before : List (Stmt F)) : Rejects (iterate n (parseScopeItem scope) before) s := by
  induction n generalizing items s body before with
  | zero => exact fun a s' returns => nomatch (returns_ofOption.mp returns).1
  | succ n ih =>
    have nonempty : items ≠ [] := fun same => by simp [same, Item.orderedAll] at unordered
    obtain ⟨rest, first, more, s₁, round⟩ | ⟨rejects, -⟩ :=
      settles_round valid settles inner isItems closed nonempty before
    · refine .bind round.accepts ?_
      have left := round.advances.remaining
      exact ih (round.advances.valid valid) (settles.later left)
        (fun s' valid' smaller => inner s' valid' (smaller.trans_le left)) round.isItems
        (by have := round.ordered; grind) _
    · refine .bind_keeps rejects fun next s₁ first => ?_
      have advances := ((runs_parseScopeItem valid inner before).of_returns first).1
      cases next with
      | inl before =>
        exact fun _ _ returns => (advances_iterate n (advances.valid valid)
          (fun s' valid' smaller => inner s' valid' (smaller.trans_le advances.remaining))
          returns).errors
      | inr after => exact Runs.keepsErrors (Q := fun _ _ _ => True) (Runs.pure trivial)

theorem accepts_restoreLets {handle : Nat} (enough : handle ≤ s.ctx.letStack.length) :
    Accepts (restoreLets handle) s () { s with ctx := { s.ctx with
      letStack := s.ctx.letStack.drop (s.ctx.letStack.length - handle) } } := by
  refine ⟨?_, rfl⟩
  simp only [restoreLets, getContext, modifyContext, returns_bind, returns_getState, returns_pure,
    returns_assert, returns_modifyState]
  exact ⟨s.ctx, s, ⟨s, s, ⟨rfl, rfl⟩, rfl, rfl⟩, (), s, ⟨decide_eq_true enough, rfl⟩, rfl⟩

/-- Scopes in order are accepted and the others are rejected, however deep they are nested. -/
theorem settles_parseScopeFuel (fuel : Nat) : ∀ items (s : ParserState F) body s', s.ctx.Valid →
    s.remaining < fuel → IsScope items s body s' →
      (Item.orderedAll items = true → Accepts (parseScopeFuel fuel) s body s') ∧
        (Item.orderedAll items = false → Rejects (parseScopeFuel fuel) s) := by
  induction fuel with
  | zero => exact fun _ _ _ _ _ enough => absurd enough (Nat.not_lt_zero _)
  | succ fuel ih =>
    intro items s body s' valid enough isScope
    cases isScope with
    | @braces _ _ s₁ s₂ s₃ _ opens inside closes =>
      obtain ⟨moves, -⟩ := advances_of_reads (reads_consumeIf (by decide)) opens.1
      have valid₁ : s₁.ctx.Valid := by rw [moves.ctx]; exact valid
      -- The scopes inside start behind the brace, where less fuel is needed.
      have left : s₁.remaining ≤ fuel := moves.remaining.trans (Nat.lt_succ_iff.mp enough)
      have settles : Settles s₁ (parseScopeFuel (F := F) fuel) :=
        fun items s₂ body s' valid₂ smaller => ih items s₂ body s' valid₂ (smaller.trans_le left)
      have inner : ScopesLater s₁ (parseScopeFuel (F := F) fuel) :=
        fun s₂ valid₂ smaller => runs_parseScopeFuel fuel valid₂ (smaller.trans_le left)
      have closed := found_of_accepts closes rfl
      have context : Accepts getContext s s.ctx s := by
        refine ⟨?_, rfl⟩
        simp only [getContext, returns_bind, returns_getState, returns_pure]
        exact ⟨s, s, ⟨rfl, rfl⟩, rfl, rfl⟩
      constructor
      · intro ordered
        have braces : Accepts (parseBraces (parseScopeFuel fuel)) s body s₃ :=
          (accepts_expect opens).bind ((accepts_items valid₁ settles inner inside closed ordered []).bind
            ((accepts_expect closes).bind (.pure _ _)))
        have within : ScopesLater s (parseScopeFuel (F := F) fuel) := fun s₂ valid₂ smaller =>
          runs_parseScopeFuel fuel valid₂ (smaller.trans_le (Nat.lt_succ_iff.mp enough))
        -- The let stack is restored to its height at the brace.
        have lets := ((runs_parseBraces valid within).of_returns braces.1).1.lets
        refine context.bind (braces.bind ((accepts_restoreLets lets.length_le).bind ?_))
        rw [← List.suffix_iff_eq_drop.mp lets]
        exact .pure _ _
      -- The error that is reported inside is not forgotten behind the closing brace.
      · intro unordered
        have braces : Rejects (parseBraces (parseScopeFuel (F := F) fuel)) s := by
          refine .bind (accepts_expect opens) (.bind_keeps ?_ fun body s₄ _ => ?_)
          · refine .bind (b := s₁) ⟨returns_getState.mpr ⟨rfl, rfl⟩, rfl⟩ ?_
            exact rejects_items _ valid₁ settles inner inside closed unordered []
          · exact Runs.keepsErrors (Q := fun _ _ _ => True)
              (Runs.bind_reads (reads_expect (by decide)) fun _ _ _ _ => Runs.pure trivial)
        refine .bind context (.bind_keeps braces fun body s₄ _ => ?_)
        intro body' s₅ returns
        simp only [restoreLets, getContext, modifyContext, returns_bind, returns_getState, returns_pure,
          returns_assert, returns_modifyState] at returns
        obtain ⟨_, _, ⟨_, _, ⟨_, _, ⟨rfl, rfl⟩, rfl, rfl⟩, _, _, ⟨-, rfl⟩, rfl⟩, -, rfl⟩ := returns
        exact Nat.le_refl _

/-- Between braces `parseScope` accepts well-formed items exactly when they are in order. -/
theorem parseScope_accepts_iff (valid : s.ctx.Valid) (isScope : IsScope items s body s') :
    Accepts parseScope s body s' ↔ Item.orderedAll items = true := by
  have state : Accepts getState s s s := ⟨returns_getState.mpr ⟨rfl, rfl⟩, rfl⟩
  obtain ⟨accepts, rejects⟩ :=
    settles_parseScopeFuel (s.remaining + 1) items s body s' valid (Nat.lt_succ_self _) isScope
  constructor
  · intro accepted
    by_contra unordered
    have rejected : Rejects parseScope s := .bind state (rejects (by simpa using unordered))
    exact rejected.not_accepts accepted
  · exact fun ordered => state.bind (accepts ordered)

end Grammar

/-! ## Scopes on which it matters -/

/-- The state that `x` leaves. -/
def ParserState.after {α : Type} (s : ParserState F) (x : Parse F α) : ParserState F :=
  ((x.run s).2.map (·.2)).getD s

theorem accepts_after {α : Type} {x : Parse F α} {s : ParserState F} {a : α}
    (value : (x.run s).2.map (fun r => (r.1, r.2.numErrors)) = some (a, s.numErrors)) :
    Accepts x s a (s.after x) := by
  obtain ⟨⟨b, s'⟩, returns, same⟩ := Option.map_eq_some_iff.mp value
  obtain ⟨rfl, errors⟩ := Prod.mk.inj same
  have state : s.after x = s' := by rw [ParserState.after, returns]; rfl
  exact ⟨state ▸ returns, state ▸ errors⟩

/-- A scope at its brace, with the text behind it. -/
def scopeStart (text : String) : ParserState ℚ where
  curPtr := text.toList
  tok := ⟨.lBrace, "\x7b".toList, '\x7b' :: text.toList, nofun⟩
  numErrors := 0
  ctx := (ParserState.start [] []).ctx

theorem valid_scopeStart (text : String) : (scopeStart text).ctx.Valid :=
  ParserState.valid_start [] []

/-- A scope with a loop behind a let declaration. -/
theorem accepts_letThenLoop : ∃ L s',
    Accepts parseScope (scopeStart " let x = 1 for (i in 0 .. 4) \x7b \x7d \x7d") [.loop L []] s' := by
  let s := scopeStart " let x = 1 for (i in 0 .. 4) \x7b \x7d \x7d"
  let s₁ := s.after (consumeIf .lBrace)
  let s₂ := s₁.after parseLetStmt
  let s₃ := s₂.after parseForHeader
  let s₄ := s₃.after (pushLoop "i" 4 1)
  let s₅ := s₄.after (consumeIf .lBrace)
  let s₆ := s₅.after (consumeIf .rBrace)
  let s₇ : ParserState ℚ := { s₆ with ctx := { s₆.ctx with letStack := s₄.ctx.letStack } }
  let s₈ := s₇.after popLoop
  let S : Stmt ℚ := .loop ⟨0, "i", 4, 1⟩ []
  have opens : Accepts (consumeIf .lBrace) s true s₁ := accepts_after (by decide +kernel)
  have decl : IsItem .letDecl s₁ [] s₂ :=
    .letDecl (by decide +kernel) (accepts_after (by decide +kernel))
  have inside : IsScope [] s₄ [] s₇ := by
    have opens : Accepts (consumeIf .lBrace) s₄ true s₅ := accepts_after (by decide +kernel)
    exact .braces opens (.nil s₅) (accepts_after (by decide +kernel))
  have header : Accepts parseForHeader s₂ (some ("i", 4, 1)) s₃ := accepts_after (by decide +kernel)
  have push : Accepts (pushLoop "i" 4 1) s₃ ⟨0, "i", 4, 1⟩ s₄ := accepts_after (by decide +kernel)
  have pop : Accepts popLoop s₇ ⟨0, "i", 4, 1⟩ s₈ := accepts_after (by decide +kernel)
  have loop : IsItem (.forLoop []) s₂ [S] s₈ := .forLoop (by decide +kernel) header push inside pop
  have items : IsItems [.letDecl, .forLoop []] s₁ ([] ++ ([S] ++ [])) s₈ :=
    .cons decl (.cons loop (.nil s₈))
  have isScope : IsScope [.letDecl, .forLoop []] s [S] _ :=
    .braces opens items (accepts_after (by decide +kernel))
  exact ⟨_, _, (parseScope_accepts_iff (valid_scopeStart _) isScope).mpr (by decide)⟩

/-- A scope that ends behind a declaration is an error. -/
theorem rejects_trailingLet : ¬ ∀ items (s : ParserState ℚ) body s', s.ctx.Valid →
    IsScope items s body s' → Accepts parseScope s body s' := by
  intro always
  let s := scopeStart " let x = 1 \x7d"
  let s₁ := s.after (consumeIf .lBrace)
  let s₂ := s₁.after parseLetStmt
  have opens : Accepts (consumeIf .lBrace) s true s₁ := accepts_after (by decide +kernel)
  have decl : IsItem .letDecl s₁ [] s₂ :=
    .letDecl (by decide +kernel) (accepts_after (by decide +kernel))
  have items : IsItems [.letDecl] s₁ ([] ++ []) s₂ := .cons decl (.nil s₂)
  have isScope : IsScope [.letDecl] s [] _ :=
    .braces opens items (accepts_after (by decide +kernel))
  have accepted := always _ s _ _ (valid_scopeStart _) isScope
  have errors : ((parseScope.run s).2.map (·.2.numErrors)) = some 1 := by decide +kernel
  have returns : (parseScope.run s).2 = _ := accepted.1
  rw [returns] at errors
  have one : _ = 1 := Option.some.inj errors
  exact absurd (accepted.2.symm.trans one) (by decide +kernel)

end Bistra

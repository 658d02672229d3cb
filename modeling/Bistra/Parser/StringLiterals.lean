import Bistra.Parser.Expressions

/-! # String literals

`ConstantStringExpr::dump` against the lexer and the parser: which string constants come back from
their printed form.
-/

namespace Bistra

def escapeCString : List Char → List Char
  | [] => []
  | '\n' :: cs => '\\' :: 'n' :: escapeCString cs
  | '\t' :: cs => '\\' :: 't' :: escapeCString cs
  | c :: cs => c :: escapeCString cs

/-- `ConstantStringExpr::dump`. -/
def dumpConstantString (val : List Char) : List Char :=
  [' ', '"'] ++ escapeCString val ++ ['"', ' ']

/-! ## What the decoder drops -/

/-- The characters behind a backslash that the decoder knows. -/
def escapeSequence : Char → Option Char
  | '\\' => some '\\'
  | 'n' => some '\n'
  | 't' => some '\t'
  | _ => none

/-- The text without the backslashes of its escape sequences, and with every other character. -/
def dropBackslashes : List Char → List Char
  | '\\' :: c :: cs =>
    match escapeSequence c with
    | some d => d :: dropBackslashes cs
    | none => '\\' :: c :: dropBackslashes cs
  | c :: cs => c :: dropBackslashes cs
  | [] => []

/-- Every backslash that the decoder comes to starts an escape sequence or ends the text. -/
def escapesKnown : List Char → Bool
  | '\\' :: c :: cs => (escapeSequence c).isSome && escapesKnown cs
  | _ :: cs => escapesKnown cs
  | [] => true

theorem unescapeCString_escape {c : Char} {cs : List Char} :
    unescapeCString ('\\' :: c :: cs) = (escapeSequence c).toList ++ unescapeCString cs := by
  simp only [escapeSequence]
  split
  · simp [unescapeCString]
  · simp [unescapeCString]
  · simp [unescapeCString]
  next slash newline tab => rw [unescapeCString] <;> simp_all

theorem unescapeCString_plain {c : Char} {cs : List Char} (plain : c ≠ '\\') :
    unescapeCString (c :: cs) = c :: unescapeCString cs := by
  rw [unescapeCString]
  rintro _ _ rfl
  exact absurd rfl plain

theorem length_unescapeCString_le (text : List Char) :
    (unescapeCString text).length ≤ (dropBackslashes text).length := by
  fun_induction dropBackslashes text with
  | case1 c cs d known ih => simpa [unescapeCString_escape, known] using ih
  | case2 c cs unknown ih =>
    simp [unescapeCString_escape, unknown]
    omega
  | case3 c cs lone ih =>
    rw [unescapeCString]
    · simpa using ih
    · exact lone
  | case4 => simp [unescapeCString]

/-- The decoder drops nothing but backslashes of escape sequences exactly if it knows every escape
sequence that it comes to. -/
theorem unescapeCString_eq_iff {text : List Char} :
    unescapeCString text = dropBackslashes text ↔ escapesKnown text = true := by
  fun_induction dropBackslashes text with
  | case1 c cs d known ih => simpa [unescapeCString_escape, escapesKnown, known] using ih
  | case2 c cs unknown ih =>
    have shorter := length_unescapeCString_le cs
    have dropped : unescapeCString cs ≠ '\\' :: c :: dropBackslashes cs := by
      intro same
      rw [same, List.length_cons, List.length_cons] at shorter
      omega
    simp [unescapeCString_escape, escapesKnown, unknown, dropped]
  | case3 c cs lone ih =>
    rw [unescapeCString, escapesKnown]
    · simpa using ih
    all_goals exact lone
  | case4 => simp [unescapeCString, escapesKnown]

/-! ## Decoding what was encoded -/

theorem escapeCString_plain {c : Char} {cs : List Char} (newline : c ≠ '\n') (tab : c ≠ '\t') :
    escapeCString (c :: cs) = c :: escapeCString cs := by
  rw [escapeCString] <;> simpa

theorem unescape_escape_cons {c : Char} {cs : List Char} (plain : c ≠ '\\') :
    unescapeCString (escapeCString (c :: cs)) = c :: unescapeCString (escapeCString cs) := by
  by_cases newline : c = '\n'
  · simp [newline, escapeCString, unescapeCString_escape, escapeSequence]
  · by_cases tab : c = '\t'
    · simp [tab, escapeCString, unescapeCString_escape, escapeSequence]
    · rw [escapeCString_plain newline tab, unescapeCString_plain plain]

/-- Behind a backslash the decoder reads the encoding of the next character as an escape
sequence. -/
theorem unescape_escape_backslash {d : Char} {cs : List Char} :
    unescapeCString (escapeCString ('\\' :: d :: cs)) =
      if d = '\n' then '\\' :: 'n' :: unescapeCString (escapeCString cs)
      else if d = '\t' then '\\' :: 't' :: unescapeCString (escapeCString cs)
      else (escapeSequence d).toList ++ unescapeCString (escapeCString cs) := by
  rw [escapeCString_plain (by decide) (by decide)]
  by_cases newline : d = '\n'
  · simp [newline, escapeCString, unescapeCString_escape, escapeSequence, unescapeCString_plain]
  · by_cases tab : d = '\t'
    · simp [tab, escapeCString, unescapeCString_escape, escapeSequence, unescapeCString_plain]
    · rw [if_neg newline, if_neg tab, escapeCString_plain newline tab, unescapeCString_escape]

theorem length_unescape_escape_le : ∀ val : List Char,
    (unescapeCString (escapeCString val)).length ≤ val.length
  | [] => Nat.le_refl _
  | [c] => by
    by_cases plain : c = '\\'
    · simp [plain, escapeCString, unescapeCString]
    · simp [unescape_escape_cons plain, escapeCString, unescapeCString]
  | c :: d :: cs => by
    by_cases plain : c = '\\'
    · have rest := length_unescape_escape_le cs
      rw [plain, unescape_escape_backslash]
      have known : (escapeSequence d).toList.length ≤ 1 := by
        cases escapeSequence d <;> simp
      split_ifs <;> simp <;> omega
    · have rest := length_unescape_escape_le (d :: cs)
      rw [unescape_escape_cons plain]
      simpa using rest

/-- A string comes back from its encoding exactly if no backslash is in it before its last
character. -/
theorem unescape_escape_iff : ∀ val : List Char,
    unescapeCString (escapeCString val) = val ↔ '\\' ∉ val.dropLast
  | [] => by simp [escapeCString, unescapeCString]
  | [c] => by
    by_cases plain : c = '\\'
    · simp [plain, escapeCString, unescapeCString]
    · simp [unescape_escape_cons plain, escapeCString, unescapeCString]
  | c :: d :: cs => by
    by_cases plain : c = '\\'
    · have rest := length_unescape_escape_le cs
      rw [plain, unescape_escape_backslash]
      have lost : (escapeSequence d).toList ++ unescapeCString (escapeCString cs) ≠
          '\\' :: d :: cs := by
        intro same
        have known : (escapeSequence d).toList.length ≤ 1 := by
          cases escapeSequence d <;> simp
        have lengths := congrArg List.length same
        simp only [List.length_append, List.length_cons] at lengths
        omega
      by_cases newline : d = '\n'
      · simp [newline]
      · by_cases tab : d = '\t'
        · simp [tab]
        · simp [newline, tab, lost]
    · rw [unescape_escape_cons plain, List.cons.injEq, unescape_escape_iff (d :: cs)]
      simp [Ne.symm plain]

/-! ## Lexing and parsing what was printed -/

theorem mem_unescapeCString {c : Char} {text : List Char} (mem : c ∈ unescapeCString text) :
    c ∈ text ∨ c ∈ ['\\', '\n', '\t'] := by
  fun_induction unescapeCString text <;> simp_all <;> tauto

theorem mem_escapeCString {c : Char} {val : List Char} (mem : c ∈ escapeCString val) :
    c ∈ val ∨ c ∈ ['\\', 'n', 't'] := by
  fun_induction escapeCString val <;> simp_all <;> tauto

theorem quote_notMem_unescape (cur : List Char) :
    '"' ∉ unescapeCString (lexString cur).1.text := by
  intro mem
  rcases mem_unescapeCString mem with inText | escape
  · simpa using List.mem_takeWhile_imp inText
  · simp at escape

theorem lex_dumpConstantString {val : List Char} (unquoted : '"' ∉ val) :
    lex (dumpConstantString val) = ((lexString (escapeCString val ++ ['"', ' '])).1, [' ']) ∧
      (lexString (escapeCString val ++ ['"', ' '])).1.text = escapeCString val := by
  have plain : ∀ c ∈ escapeCString val, c ≠ '"' := by
    rintro c mem rfl
    rcases mem_escapeCString mem with inVal | escape
    · exact unquoted inVal
    · simp at escape
  have quoted : (escapeCString val ++ ['"', ' ']).takeWhile (· ≠ '"') = escapeCString val := by
    rw [List.takeWhile_append_of_pos (by simpa using plain)]
    simp
  have behind : (escapeCString val ++ ['"', ' ']).dropWhile (· ≠ '"') = ['"', ' '] := by
    rw [List.dropWhile_append_of_pos (by simpa using plain)]
    simp
  refine ⟨?_, quoted⟩
  have start : skipBlanks false (dumpConstantString val) =
      '"' :: (escapeCString val ++ ['"', ' ']) := by
    simp [dumpConstantString, skipBlanks]
  rw [lex, start, lexToken]
  have unnamed : ¬ isNameChar '"' = true := by decide
  simp only [unnamed, if_true, lexString, behind]
  rfl

section Reading

variable {F : Type} [Field F] [LinearOrder F]

open Procedure

/-- Lexes and parses an expression that starts where the lexer stands. -/
def readExpr (expr : Parse F (Option (Expr F))) : Parse F (Option (Expr F)) := do
  lexTok
  parseExprPrimary expr

theorem returns_lexTok {s s' : ParserState F} {u : Unit} (known : (lex s.curPtr).1.kind ≠ .unknown) :
    lexTok.Returns s u s' ↔ (lex s.curPtr).1.text ≠ [] ∧
      s' = { s with tok := (lex s.curPtr).1, curPtr := (lex s.curPtr).2 } := by
  simp [lexTok, known, onlyIf, ParseStep.legal]

theorem returns_getTok {s s' : ParserState F} {tok : Token} :
    (getTok : Parse F Token).Returns s tok s' ↔ tok = s.tok ∧ s' = s := by
  simp only [getTok, returns_bind, returns_getState, returns_pure]
  constructor
  · rintro ⟨_, _, ⟨same, kept⟩, eq, kept'⟩
    exact ⟨by rw [eq, same], kept'.trans kept⟩
  · rintro ⟨same, kept⟩
    exact ⟨s, s, ⟨rfl, rfl⟩, same, kept⟩

theorem returns_consumeTokenOf {s s' : ParserState F} {u : Unit} {K : TokenKind}
    (found : s.tok.kind = K) (inside : K ≠ .eof) :
    (consumeTokenOf K).Returns s u s' ↔ lexTok.Returns s u s' := by
  simp only [consumeTokenOf, consumeToken, returns_bind, returns_getTok, returns_assert,
    decide_eq_true_eq]
  constructor
  · rintro ⟨_, _, ⟨rfl, rfl⟩, _, _, ⟨-, rfl⟩, _, _, ⟨rfl, rfl⟩, _, _, ⟨-, rfl⟩, returns⟩
    exact returns
  · intro returns
    exact ⟨_, s, ⟨rfl, rfl⟩, (), s, ⟨found, rfl⟩, _, s, ⟨rfl, rfl⟩, (), s,
      ⟨found ▸ inside, rfl⟩, returns⟩

theorem returns_stringLiteral {expr : Parse F (Option (Expr F))} {s s' : ParserState F}
    {e : Option (Expr F)} (found : s.tok.kind = .stringLiteral) :
    (parseExprPrimary expr).Returns s e s' ↔ lexTok.Returns s () s' ∧
      e = some (.constString (String.ofList (unescapeCString s.tok.text))) := by
  have literal : ∀ str s'', (parseStringLiteral : Parse F (Option String)).Returns s str s'' ↔
      lexTok.Returns s () s'' ∧ str = some s.tok.getText := fun str s'' => by
    simp only [parseStringLiteral, returns_bind, returns_getTok]
    constructor
    · rintro ⟨_, _, ⟨rfl, rfl⟩, returns⟩
      simp only [if_pos found, returns_bind, returns_pure] at returns
      obtain ⟨_, _, consumed, rfl, rfl⟩ := returns
      exact ⟨(returns_consumeTokenOf found (by decide)).mp consumed, rfl⟩
    · rintro ⟨returns, rfl⟩
      refine ⟨s.tok, s, ⟨rfl, rfl⟩, ?_⟩
      simp only [if_pos found, returns_bind, returns_pure]
      exact ⟨(), s'', (returns_consumeTokenOf found (by decide)).mpr returns, trivial, rfl⟩
  simp only [parseExprPrimary, returns_bind, returns_getTok]
  constructor
  · rintro ⟨_, _, ⟨rfl, rfl⟩, returns⟩
    simp only [found, returns_bind, literal, returns_ofOption, returns_pure] at returns
    obtain ⟨_, _, ⟨consumed, rfl⟩, _, _, ⟨same, rfl⟩, rfl, rfl⟩ := returns
    cases same
    exact ⟨consumed, by simp [Token.getText]⟩
  · rintro ⟨returns, rfl⟩
    refine ⟨s.tok, s, ⟨rfl, rfl⟩, ?_⟩
    simp only [found, returns_bind, literal, returns_ofOption, returns_pure]
    exact ⟨_, s', ⟨returns, rfl⟩, _, s', ⟨rfl, rfl⟩, by simp [Token.getText], rfl⟩

theorem returns_readExpr {expr : Parse F (Option (Expr F))} {val : List Char} {s : ParserState F}
    (unquoted : '"' ∉ val) (e : Option (Expr F)) :
    (∃ s', (readExpr expr).Returns { s with curPtr := dumpConstantString val } e s') ↔ val ≠ [] ∧
      e = some (.constString (String.ofList (unescapeCString (escapeCString val)))) := by
  obtain ⟨lexed, text⟩ := lex_dumpConstantString unquoted
  have known : (lex (dumpConstantString val)).1.kind ≠ .unknown := by rw [lexed]; nofun
  have known' : (lex [' ']).1.kind ≠ .unknown := by decide
  have empty : escapeCString val = [] ↔ val = [] := by
    constructor
    · fun_cases escapeCString val <;> simp
    · rintro rfl; rfl
  simp only [readExpr, returns_bind]
  constructor
  · rintro ⟨s', _, s₁, first, second⟩
    obtain ⟨nonempty, rfl⟩ := (returns_lexTok known).mp first
    simp only [lexed, text] at nonempty second
    obtain ⟨-, rfl⟩ := (returns_stringLiteral rfl).mp second
    exact ⟨mt empty.mpr nonempty, by rw [text]⟩
  · rintro ⟨nonempty, rfl⟩
    have first := (returns_lexTok (u := ()) (s := { s with curPtr := dumpConstantString val })
      known).mpr ⟨by simpa [lexed, text] using mt empty.mp nonempty, rfl⟩
    simp only [lexed] at first
    refine ⟨_, (), _, first, (returns_stringLiteral rfl).mpr ⟨(returns_lexTok known').mpr
      ⟨(by decide : (lex [' ']).1.text ≠ []), rfl⟩, ?_⟩⟩
    rw [text]

/-- Which string constants survive printing, and which literals the decoder keeps whole: for every
text behind an opening quote. -/
theorem constantString_survives_iff (expr : Parse F (Option (Expr F))) (cur : List Char)
    (s : ParserState F) :
    let text := (lexString cur).1.text
    let val := unescapeCString text
    ((∃ s', (readExpr expr).Returns { s with curPtr := dumpConstantString val }
        (some (.constString (String.ofList val))) s') ↔ val ≠ [] ∧ '\\' ∉ val.dropLast) ∧
      (val = dropBackslashes text ↔ escapesKnown text = true) := by
  refine ⟨?_, unescapeCString_eq_iff⟩
  rw [returns_readExpr (quote_notMem_unescape cur), ← unescape_escape_iff]
  simp only [Option.some.injEq, Expr.constString.injEq, String.ofList_inj, eq_comm]

end Reading

/-- The literal `a\\b` stands for `a\b`, whose printed form stands for `a`. -/
theorem unescape_escape_backslash_lost :
    unescapeCString ['a', '\\', '\\', 'b'] = ['a', '\\', 'b'] ∧
      dumpConstantString ['a', '\\', 'b'] = [' ', '"', 'a', '\\', 'b', '"', ' '] ∧
      unescapeCString (escapeCString ['a', '\\', 'b']) = ['a'] := by
  decide

end Bistra

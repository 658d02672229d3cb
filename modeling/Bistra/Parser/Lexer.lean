import Mathlib.Data.List.TakeWhile
import Bistra.Program.Verify

/-! # The lexer

`Lexer` of `Parser/Lexer.cpp`.  The source text is the list of the characters before the
terminating NUL, and a `const char *` into it is the list of the characters from there on, so that
the pointer to the NUL is the empty list.
-/

namespace Bistra

/-- `TokenKind`, in the order of `Tokens.def`. -/
inductive TokenKind where
  | unknown
  | eof | identifier | binaryOperator | integerLiteral | floatLiteral | stringLiteral | comment
  | kwScript | kwFunc | kwFor | kwIn | kwIf | kwVar | kwLet | kwAuto
  | kwAs | kwTo | kwTimes
  | kwVectorize | kwUnroll | kwWiden | kwTile | kwPeel | kwHoist | kwSink | kwFuse | kwRename
  | kwDistribute
  | builtinTypeFloat | builtinTypeInt8 | builtinTypeIndex
  | builtinFuncMin | builtinFuncMax | builtinFuncPow
  | builtinFuncLog | builtinFuncExp | builtinFuncSqrt | builtinFuncAbs
  | hash | period | comma | colon | semi | assign | plus | plusEquals | minus | mult | rem | div
  | lParen | rParen | lBrace | rBrace | lSquare | rSquare | range | gt | gte | lt | lte | bang
  | notEqual | equal
  deriving DecidableEq, Repr

/-- The words that are no identifiers. -/
def keywords : List (String × TokenKind) :=
  [("script", .kwScript), ("func", .kwFunc), ("for", .kwFor), ("in", .kwIn), ("if", .kwIf),
    ("var", .kwVar), ("let", .kwLet), ("auto", .kwAuto), ("as", .kwAs), ("to", .kwTo),
    ("times", .kwTimes), ("vectorize", .kwVectorize), ("unroll", .kwUnroll), ("widen", .kwWiden),
    ("tile", .kwTile), ("peel", .kwPeel), ("hoist", .kwHoist), ("sink", .kwSink),
    ("fuse", .kwFuse), ("rename", .kwRename), ("distribute", .kwDistribute),
    ("float", .builtinTypeFloat), ("int8", .builtinTypeInt8), ("index", .builtinTypeIndex),
    ("min", .builtinFuncMin), ("max", .builtinFuncMax), ("pow", .builtinFuncPow),
    ("log", .builtinFuncLog), ("exp", .builtinFuncExp), ("sqrt", .builtinFuncSqrt),
    ("abs", .builtinFuncAbs)]

/-- `Token`: its kind, its text, and the pointer to its first character.  An identifier is a legal
name. -/
structure Token where
  kind : TokenKind
  text : List Char
  start : List Char
  legalName : kind = .identifier → isLegalName (String.ofList text) = true

def Token.getText (tok : Token) : String := String.ofList tok.text

/-! ## Subroutines -/

/-- The characters that names consist of. -/
def isNameChar (c : Char) : Bool := c.isAlphanum || c = '_'

theorem isLegalName_ofList {text : List Char} :
    isLegalName (String.ofList text) = text.all isNameChar := by
  rw [isLegalName, String.toList_ofList]
  rfl

/-- `lexIdentifier`: `c` is the character before `cur`. -/
def lexIdentifier (c : Char) (cur : List Char) (named : isNameChar c = true) : Token × List Char :=
  let text := c :: cur.takeWhile isNameChar
  let kind := ((keywords.find? fun word => word.1 = String.ofList text).map (·.2)).getD .identifier
  (⟨kind, text, c :: cur, fun _ => by
    rw [isLegalName_ofList, List.all_cons, named, Bool.true_and, List.all_eq_true]
    exact fun _ mem => List.mem_takeWhile_imp mem⟩, cur.dropWhile isNameChar)

/-- The loop of `lexNumber`: the digits with at most one period among them, and whether the period
has been seen. -/
def lexDigits : Bool → List Char → List Char × Bool × List Char
  | seenPoint, [] => ([], seenPoint, [])
  | seenPoint, c :: cur =>
    if c.isDigit then
      let digits := lexDigits seenPoint cur
      (c :: digits.1, digits.2)
    else if c = '.' && !seenPoint then
      let digits := lexDigits true cur
      (c :: digits.1, digits.2)
    else ([], seenPoint, c :: cur)

/-- `lexNumber`: `c` is the character before `cur`. -/
def lexNumber (c : Char) (cur : List Char) : Token × List Char :=
  -- A minus may follow the first character, whatever that is.
  let sign := if cur.head? = some '-' then ['-'] else []
  let digits := lexDigits false (cur.drop sign.length)
  if digits.2.1 then (⟨.floatLiteral, c :: (sign ++ digits.1), c :: cur, nofun⟩, digits.2.2)
  else (⟨.integerLiteral, c :: (sign ++ digits.1), c :: cur, nofun⟩, digits.2.2)

/-- `lexString`: `cur` follows the opening quote. -/
def lexString (cur : List Char) : Token × List Char :=
  (⟨.stringLiteral, cur.takeWhile (· ≠ '"'), cur, nofun⟩, (cur.dropWhile (· ≠ '"')).drop 1)

/-- The tokens that consist of one character. -/
def punctuator : Char → Option TokenKind
  | '#' => some .hash
  | ',' => some .comma
  | ':' => some .colon
  | '.' => some .period
  | '=' => some .assign
  | '<' => some .lt
  | '>' => some .gt
  | '!' => some .bang
  | '+' => some .plus
  | '-' => some .minus
  | '*' => some .mult
  | '/' => some .div
  | '{' => some .lBrace
  | '}' => some .rBrace
  | '(' => some .lParen
  | ')' => some .rParen
  | '[' => some .lSquare
  | ']' => some .rSquare
  | _ => none

/-- The tokens that consist of two characters. -/
def punctuator₂ : Char → Char → Option TokenKind
  | '.', '.' => some .range
  | '=', '=' => some .equal
  | '<', '=' => some .lte
  | '>', '=' => some .gte
  | '!', '=' => some .notEqual
  | '+', '=' => some .plusEquals
  | _, _ => none

theorem punctuator_ne_identifier {c : Char} : punctuator c ≠ some .identifier := by
  simp only [punctuator]
  split <;> simp

theorem punctuator₂_ne_identifier {c d : Char} : punctuator₂ c d ≠ some .identifier := by
  simp only [punctuator₂]
  split <;> simp

/-- The switch of `Lex`, at a character that is not skipped.  The default case, an invalid
character, forms an `unknown` token. -/
def lexToken : List Char → Token × List Char
  | [] => (⟨.eof, ['\x00'], [], nofun⟩, [])
  | c :: cur =>
    if named : isNameChar c = true then
      if c.isDigit then lexNumber c cur else lexIdentifier c cur named
    else if c = '"' then lexString cur
    else if c = '-' ∧ (cur.head?.any Char.isDigit) = true then lexNumber c cur
    else
      match same : cur.head?.bind (punctuator₂ c) with
      | some kind => (⟨kind, c :: cur.take 1, c :: cur, by
          rintro rfl
          obtain ⟨d, -, absurd⟩ := Option.bind_eq_some_iff.mp same
          exact (punctuator₂_ne_identifier absurd).elim⟩, cur.drop 1)
      | none =>
        match same : punctuator c with
        | some kind => (⟨kind, [c], c :: cur, by
            rintro rfl
            exact (punctuator_ne_identifier same).elim⟩, cur)
        | none => (⟨.unknown, [c], c :: cur, nofun⟩, cur)

/-- What `Lex` skips: blanks, semicolons and, when the flag is set, the rest of a comment. -/
def skipBlanks : Bool → List Char → List Char
  | _, [] => []
  | true, c :: cur => skipBlanks (c ≠ '\n' && c ≠ '\r') cur
  | false, c :: cur =>
    if c ∈ [' ', '\t', '\n', '\r', ';'] then skipBlanks false cur
    else if c = '/' ∧ cur.head? = some '/' then skipBlanks true cur
    else c :: cur

/-- `Lexer::Lex`: the next token, and the pointer behind it. -/
def lex (cur : List Char) : Token × List Char := lexToken (skipBlanks false cur)

/-! ## Progress -/

theorem skipBlanks_length (comment : Bool) (cur : List Char) :
    (skipBlanks comment cur).length ≤ cur.length := by
  induction cur generalizing comment with
  | nil => simp [skipBlanks]
  | cons c cur ih =>
    cases comment with
    | true =>
      have := ih (c ≠ '\n' && c ≠ '\r')
      simp only [skipBlanks, List.length_cons]
      omega
    | false =>
      have blank := ih false
      have slashes := ih true
      simp only [skipBlanks]
      split_ifs
      · simp only [List.length_cons]; omega
      · simp only [List.length_cons]; omega
      · exact Nat.le_refl _

theorem lexDigits_length (seenPoint : Bool) (cur : List Char) :
    (lexDigits seenPoint cur).2.2.length ≤ cur.length := by
  induction cur generalizing seenPoint with
  | nil => simp [lexDigits]
  | cons c cur ih =>
    have unseen := ih seenPoint
    have seen := ih true
    simp only [lexDigits]
    split_ifs
    · simp only [List.length_cons]; omega
    · simp only [List.length_cons]; omega
    · exact Nat.le_refl _

theorem lexNumber_length (c : Char) (cur : List Char) : (lexNumber c cur).2.length ≤ cur.length := by
  have digits : ∀ n, (lexDigits false (cur.drop n)).2.2.length ≤ cur.length := fun n =>
    Nat.le_trans (lexDigits_length false _) (by rw [List.length_drop]; exact Nat.sub_le _ _)
  simp only [lexNumber]
  split_ifs <;> exact digits _

theorem lexToken_length (c : Char) (cur : List Char) :
    (lexToken (c :: cur)).2.length ≤ cur.length := by
  simp only [lexToken]
  split_ifs
  · exact lexNumber_length c cur
  · exact (List.dropWhile_sublist _).length_le
  · simp only [lexString, List.length_drop]
    have := (List.dropWhile_sublist (l := cur) (· ≠ '"')).length_le
    omega
  · exact lexNumber_length c cur
  · split
    · simp
    · split <;> exact Nat.le_refl _

theorem lex_length (cur : List Char) :
    (lex cur).1.kind = .eof ∨ (lex cur).2.length < cur.length := by
  have skipped := skipBlanks_length false cur
  rw [lex]
  cases same : skipBlanks false cur with
  | nil => exact .inl rfl
  | cons c rest =>
    have := lexToken_length c rest
    rw [same, List.length_cons] at skipped
    exact .inr (by omega)

end Bistra

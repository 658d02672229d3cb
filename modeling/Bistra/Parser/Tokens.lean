import Bistra.Parser.Context

/-! # The tokens of a text

What the calls of `Lexer::Lex` make of a whole text: where they stop at an assertion, how the tokens
cover the text, and which texts the tokens have.
-/

namespace Bistra

/-! ## Calling the lexer -/

/-- The assertions that a call of `Lex` meets: the location of an error lies in the text, and a
token is not empty. -/
def lexLegal (next : Token × List Char) : Bool :=
  (next.1.kind ≠ .unknown || !next.2.isEmpty) && !next.1.text.isEmpty

theorem lexLegal_iff {next : Token × List Char} :
    lexLegal next = true ↔ (next.1.kind = .unknown → next.2 ≠ []) ∧ next.1.text ≠ [] := by
  simp [lexLegal, imp_iff_not_or]

/-- The tokens up to `eof`, from at most `n` calls of `Lex`. -/
def lexTokens : Nat → List Char → Option (List Token)
  | 0, _ => none
  | n + 1, cur =>
    let next := lex cur
    if lexLegal next then
      if next.1.kind = .eof then some [next.1] else (lexTokens n next.2).map (next.1 :: ·)
    else none

theorem lexTok_run {F : Type} [Field F] [LinearOrder F] (s : ParserState F) :
    ((lexTok : Parse F Unit).run s).2.isSome = lexLegal (lex s.curPtr) := by
  cases same : lex s.curPtr with
  | mk tok rest =>
    by_cases unknown : tok.kind = .unknown
    · cases rest <;> cases text : tok.text <;>
        simp [lexTok, lexLegal, onlyIf, diagnose, bind, Procedure.andThen, Procedure.getState,
          Procedure.check, Procedure.modifyState, ParseStep.legal, same, unknown, text]
    · cases text : tok.text <;>
        simp [lexTok, lexLegal, onlyIf, bind, pure, Procedure.andThen, Procedure.getState,
          Procedure.ret, Procedure.check, Procedure.modifyState, ParseStep.legal, same, unknown,
          text]

/-! ## The grammar of the tokens -/

/-- `[0-9]+`. -/
def IsNumeral (text : List Char) : Prop := text ≠ [] ∧ ∀ c ∈ text, c.isDigit = true

/-- `-?[0-9]+`. -/
def IsInteger (text : List Char) : Prop :=
  ∃ sign digits, text = sign ++ digits ∧ (sign = [] ∨ sign = ['-']) ∧ IsNumeral digits

/-- `-?[0-9]+\.[0-9]*`. -/
def IsFloat (text : List Char) : Prop :=
  ∃ sign digits fraction, text = sign ++ (digits ++ '.' :: fraction) ∧
    (sign = [] ∨ sign = ['-']) ∧ IsNumeral digits ∧ ∀ c ∈ fraction, c.isDigit = true

/-- `[A-Za-z_][A-Za-z_0-9]*`. -/
def IsWord (text : List Char) : Prop :=
  ∃ c rest, text = c :: rest ∧ c.isDigit = false ∧ ∀ d ∈ c :: rest, isNameChar d = true

/-- The text of the token belongs to the class of its kind. -/
structure Token.InClass (tok : Token) : Prop where
  integer : tok.kind = .integerLiteral → IsInteger tok.text
  float : tok.kind = .floatLiteral → IsFloat tok.text
  word : tok.kind = .identifier ∨ tok.kind ∈ keywords.map (·.2) → IsWord tok.text
  string : tok.kind = .stringLiteral → '"' ∉ tok.text

/-- From `text` on, blanks, semicolons and comments lead to `rest`. -/
inductive Skips : List Char → List Char → Prop where
  | done (text : List Char) : Skips text text
  | blank {c : Char} {text rest : List Char} (isBlank : c ∈ [' ', '\t', '\n', '\r', ';'])
      (next : Skips text rest) : Skips (c :: text) rest
  | comment {line text rest : List Char} (inLine : ∀ c ∈ line, c ≠ '\n' ∧ c ≠ '\r')
      (atEnd : ∀ c ∈ text.head?, c = '\n' ∨ c = '\r') (next : Skips text rest) :
      Skips ('/' :: '/' :: (line ++ text)) rest

/-- The tokens, together with what is skipped and the quotes, are the text from left to right. -/
inductive Partitions : List Char → List Token → Prop where
  | eof {text : List Char} {tok : Token} (skipped : Skips text []) (kind : tok.kind = .eof) :
      Partitions text [tok]
  | token {text rest : List Char} {tok : Token} {toks : List Token}
      (skipped : Skips text (tok.text ++ rest)) (start : tok.start = tok.text ++ rest)
      (kind : tok.kind ≠ .eof ∧ tok.kind ≠ .stringLiteral) (next : Partitions rest toks) :
      Partitions text (tok :: toks)
  | string {text rest : List Char} {tok : Token} {toks : List Token}
      (skipped : Skips text ('"' :: (tok.text ++ '"' :: rest)))
      (start : tok.start = tok.text ++ '"' :: rest) (kind : tok.kind = .stringLiteral)
      (next : Partitions rest toks) : Partitions text (tok :: toks)
  | unterminated {text : List Char} {tok : Token} {toks : List Token}
      (skipped : Skips text ('"' :: tok.text)) (start : tok.start = tok.text)
      (kind : tok.kind = .stringLiteral) (next : Partitions [] toks) :
      Partitions text (tok :: toks)

/-- The calls of `Lex` reach the end of the text, and their tokens are what the grammar says. -/
def Tokenizes (text : List Char) : Prop :=
  ∃ n toks, lexTokens n text = some toks ∧ Partitions text toks ∧ ∀ tok ∈ toks, tok.InClass

/-! ## Reading the text character by character -/

/-- Where a character stands. -/
inductive Region where
  | between | name | number (seenPoint : Bool) | comment | string

/-- The region behind the character `c` where a token may begin, with `cur` behind `c`.  A minus
behind a first digit, a quote behind an opening quote, and the end of the text behind an opening
quote or an invalid character lead nowhere. -/
def Region.enter (c : Char) (cur : List Char) : Option Region :=
  if isNameChar c = true then
    if c.isDigit then if cur.head? = some '-' then none else some (.number false)
    else some .name
  else if c = '"' then if cur.head?.all (· = '"') then none else some .string
  else if c = '/' ∧ cur.head? = some '/' then some .comment
  else if c = '-' ∧ (cur.head?.any Char.isDigit) = true then some (.number false)
  else if cur = [] ∧ c ∉ [' ', '\t', '\n', '\r', ';'] ∧ punctuator c = none then none
  else some .between

/-- The region behind the character `c`. -/
def Region.advance : Region → Char → List Char → Option Region
  | .between, c, cur => enter c cur
  | .name, c, cur => if isNameChar c then some .name else enter c cur
  | .number seenPoint, c, cur =>
    if c.isDigit then some (.number seenPoint)
    else if c = '.' && !seenPoint then some (.number true)
    else enter c cur
  | .comment, c, _ => if c ≠ '\n' && c ≠ '\r' then some .comment else some .between
  | .string, c, _ => if c ≠ '"' then some .string else some .between

/-- No character leads nowhere. -/
def scans : Region → List Char → Bool
  | _, [] => true
  | region, c :: cur => (region.advance c cur).any (scans · cur)

theorem scans_name (cur : List Char) :
    scans .name cur = scans .between (cur.dropWhile isNameChar) := by
  induction cur with
  | nil => rfl
  | cons c cur ih =>
    cases named : isNameChar c with
    | true => simp [scans, Region.advance, named, ih]
    | false => simp [scans, Region.advance, named]

theorem scans_number (seenPoint : Bool) (cur : List Char) :
    scans (.number seenPoint) cur = scans .between (lexDigits seenPoint cur).2.2 := by
  induction cur generalizing seenPoint with
  | nil => rfl
  | cons c cur ih =>
    rw [scans, Region.advance, lexDigits]
    split_ifs
    · exact ih seenPoint
    · exact ih true
    · rfl

theorem scans_string (cur : List Char) :
    scans .string cur = scans .between ((cur.dropWhile (· ≠ '"')).drop 1) := by
  induction cur with
  | nil => rfl
  | cons c cur ih =>
    by_cases quote : c = '"'
    · simp [scans, Region.advance, quote]
    · simp [scans, Region.advance, quote, ih]

theorem scans_skipBlanks (comment : Bool) (cur : List Char) :
    scans (if comment then .comment else .between) cur =
      scans .between (skipBlanks comment cur) := by
  induction cur generalizing comment with
  | nil => cases comment <;> rfl
  | cons c cur ih =>
    cases comment with
    | true =>
      rw [skipBlanks, ← ih, if_pos rfl, scans, Region.advance]
      split <;> rfl
    | false =>
      change scans .between (c :: cur) = _
      rw [skipBlanks]
      split_ifs with blank slashes
      · have blanks : [' ', '\t', '\n', '\r', ';'].all fun d =>
            isNameChar d = false ∧ d ≠ '"' ∧ d ≠ '/' ∧ d ≠ '-' := by decide
        obtain ⟨named, quote, slash, minus⟩ :=
          of_decide_eq_true (List.all_eq_true.mp blanks c blank)
        rw [← ih, if_neg (by decide), scans, Region.advance]
        simp only [Region.enter, named, quote, slash, minus, blank, not_true_eq_false, false_and,
          and_false, if_false, Bool.false_eq_true, Option.any_some]
      · have ran := ih true
        rw [if_pos rfl] at ran
        have named : isNameChar '/' = false := by decide
        rw [← ran, scans, Region.advance, slashes.1]
        simp [Region.enter, named, slashes.2]
      · rfl

/-! ## One token -/

theorem lexDigits_spec (seenPoint : Bool) (cur : List Char) :
    (lexDigits seenPoint cur).1 ++ (lexDigits seenPoint cur).2.2 = cur ∧
      ((lexDigits seenPoint cur).2.1 = seenPoint ∧
          (∀ c ∈ (lexDigits seenPoint cur).1, c.isDigit = true) ∨
        (lexDigits seenPoint cur).2.1 = true ∧ seenPoint = false ∧
          ∃ digits fraction, (lexDigits seenPoint cur).1 = digits ++ '.' :: fraction ∧
            (∀ c ∈ digits, c.isDigit = true) ∧ ∀ c ∈ fraction, c.isDigit = true) := by
  induction cur generalizing seenPoint with
  | nil => simp [lexDigits]
  | cons c cur ih =>
    rw [lexDigits]
    split_ifs with digit point
    · obtain ⟨covers, digits | ⟨seen, unseen, digits, fraction, same, whole, part⟩⟩ := ih seenPoint
      · exact ⟨congrArg (c :: ·) covers, .inl ⟨digits.1, List.forall_mem_cons.mpr ⟨digit, digits.2⟩⟩⟩
      · have wholes : ∀ d ∈ c :: digits, d.isDigit = true :=
          List.forall_mem_cons.mpr ⟨digit, whole⟩
        exact ⟨congrArg (c :: ·) covers,
          .inr ⟨seen, unseen, c :: digits, fraction, congrArg (c :: ·) same, wholes, part⟩⟩
    · -- The period: what follows are digits only.
      simp only [Bool.and_eq_true, decide_eq_true_eq, Bool.not_eq_true'] at point
      obtain ⟨rfl, unseen⟩ := point
      obtain ⟨covers, digits | ⟨-, absurd, -⟩⟩ := ih true
      · exact ⟨congrArg ('.' :: ·) covers, .inr ⟨digits.1, unseen, [], _, rfl, by simp, digits.2⟩⟩
      · cases absurd
    · simp

theorem not_minus_of_isDigit {c : Char} (digit : c.isDigit = true) : c ≠ '-' := by
  rintro rfl
  exact absurd digit (by decide)

theorem Token.InClass.no_minus {tok : Token} (inClass : tok.InClass)
    (number : tok.kind = .integerLiteral ∨ tok.kind = .floatLiteral) : '-' ∉ tok.text.tail := by
  have behind : ∀ {sign body : List Char}, tok.text = sign ++ body → (sign = [] ∨ sign = ['-']) →
      '-' ∉ body → '-' ∉ tok.text.tail := by
    rintro sign body same (rfl | rfl) none mem
    · rw [same] at mem
      exact none (List.mem_of_mem_tail mem)
    · rw [same] at mem
      exact none mem
  cases number with
  | inl integer =>
    obtain ⟨sign, digits, same, signs, numeral⟩ := inClass.integer integer
    exact behind same signs fun mem => not_minus_of_isDigit (numeral.2 _ mem) rfl
  | inr float =>
    obtain ⟨sign, digits, fraction, same, signs, numeral, part⟩ := inClass.float float
    refine behind same signs fun mem => ?_
    rcases List.mem_append.mp mem with mem | mem
    · exact not_minus_of_isDigit (numeral.2 _ mem) rfl
    · rcases List.mem_cons.mp mem with same | mem
      · exact absurd same (by decide)
      · exact not_minus_of_isDigit (part _ mem) rfl

theorem Token.InClass.of_kind {tok : Token}
    (other : tok.kind ∉ [.integerLiteral, .floatLiteral, .identifier, .stringLiteral] ++
      keywords.map (·.2)) : tok.InClass := by
  constructor <;> intro kind <;> refine (other ?_).elim
  · simp [kind]
  · simp [kind]
  · exact kind.elim (fun same => by simp [same]) (List.mem_append_right _)
  · simp [kind]

section Number

variable {c : Char} {cur : List Char}

/-- Without a second minus a number consists of its first character and of digits. -/
theorem lexNumber_eq (unsigned : cur.head? ≠ some '-') :
    lexNumber c cur =
      (⟨if (lexDigits false cur).2.1 then .floatLiteral else .integerLiteral,
        c :: (lexDigits false cur).1, c :: cur, by split <;> nofun⟩, (lexDigits false cur).2.2) := by
  simp only [lexNumber, unsigned, if_false, List.length_nil, List.drop_zero, List.nil_append]
  split <;> rfl

theorem lexNumber_kind (c : Char) (cur : List Char) :
    (lexNumber c cur).1.kind = .integerLiteral ∨ (lexNumber c cur).1.kind = .floatLiteral := by
  simp only [lexNumber]
  split_ifs <;> simp

theorem lexNumber_covers (c : Char) (cur : List Char) :
    (lexNumber c cur).1.text ++ (lexNumber c cur).2 = c :: cur := by
  have sign : ∀ n, cur.take n ++
      ((lexDigits false (cur.drop n)).1 ++ (lexDigits false (cur.drop n)).2.2) = cur := fun n => by
    rw [(lexDigits_spec false _).1, List.take_append_drop]
  by_cases signed : cur.head? = some '-'
  · obtain ⟨rest, rfl⟩ : ∃ rest, cur = '-' :: rest := by
      cases cur with
      | nil => cases signed
      | cons d rest => exact ⟨rest, by rw [Option.some.inj signed]⟩
    have := sign 1
    simp only [lexNumber, signed, if_true, List.length_singleton]
    split <;> simpa using this
  · rw [lexNumber_eq signed]
    exact congrArg (c :: ·) (sign 0)

theorem lexNumber_legal (c : Char) (cur : List Char) : lexLegal (lexNumber c cur) = true := by
  refine lexLegal_iff.mpr ⟨fun unknown => ?_, ?_⟩
  · have number := lexNumber_kind c cur
    rw [unknown] at number
    cases number <;> contradiction
  · simp only [lexNumber]
    split_ifs <;> exact List.cons_ne_nil _ _

theorem lexNumber_inClass
    (first : c.isDigit = true ∨ c = '-' ∧ (cur.head?.any Char.isDigit) = true) :
    (lexNumber c cur).1.InClass ↔ cur.head? ≠ some '-' := by
  constructor
  · intro inClass signed
    have absurd := inClass.no_minus (lexNumber_kind c cur)
    simp only [lexNumber, signed, if_true] at absurd
    split at absurd <;> simp at absurd
  · intro unsigned
    rw [lexNumber_eq unsigned]
    obtain ⟨-, spec⟩ := lexDigits_spec false cur
    -- The first character is a digit of the number or its sign, which a digit follows.
    have inClass : ∀ {digits tail : List Char}, (∀ d ∈ digits, d.isDigit = true) →
        (lexDigits false cur).1 = digits ++ tail → (tail = [] ∨ tail.head? = some '.') →
        ∃ sign whole, c :: (digits ++ tail) = sign ++ (whole ++ tail) ∧
          (sign = [] ∨ sign = ['-']) ∧ IsNumeral whole := by
      intro digits tail numeral same ending
      rcases first with digit | ⟨rfl, digit⟩
      · exact ⟨[], c :: digits, rfl, .inl rfl, by simp,
          List.forall_mem_cons.mpr ⟨digit, numeral⟩⟩
      · refine ⟨['-'], digits, rfl, .inr rfl, ?_, numeral⟩
        rintro rfl
        cases cur with
        | nil => cases digit
        | cons d cur =>
          have digit : d.isDigit = true := digit
          rw [lexDigits, if_pos digit, List.nil_append] at same
          rcases ending with rfl | point
          · cases same
          · rw [← same] at point
            exact absurd (Option.some.inj point ▸ digit) (by decide)
    rcases spec with ⟨unseen, numeral⟩ | ⟨seen, -, digits, fraction, same, whole, part⟩
    · obtain ⟨sign, whole, text, signs, numerals⟩ :=
        inClass numeral (List.append_nil _).symm (.inl rfl)
      rw [List.append_nil, List.append_nil] at text
      refine ⟨fun _ => ⟨sign, whole, text, signs, numerals⟩, ?_, ?_, ?_⟩ <;>
        simp [unseen, keywords]
    · obtain ⟨sign, whole, text, signs, numerals⟩ := inClass whole same (.inr rfl)
      refine ⟨?_, fun _ => ⟨sign, whole, fraction, ?_, signs, numerals, part⟩, ?_, ?_⟩
      · simp [seen]
      · simpa [same] using text
      · simp [seen, keywords]
      · simp [seen]

end Number

section Word

variable {c : Char} (cur : List Char) (named : isNameChar c = true)

theorem lexIdentifier_kind :
    (lexIdentifier c cur named).1.kind ∈ .identifier :: keywords.map (·.2) := by
  cases found : keywords.find? fun word =>
      word.1 = String.ofList (c :: cur.takeWhile isNameChar) with
  | none =>
    simp only [lexIdentifier, found]
    exact List.mem_cons_self
  | some keyword =>
    have mem := List.mem_map_of_mem (f := (·.2)) (List.mem_of_find?_eq_some found)
    simp only [lexIdentifier, found]
    exact List.mem_cons_of_mem _ mem

theorem lexIdentifier_inClass (letter : c.isDigit = false) :
    (lexIdentifier c cur named).1.InClass := by
  have word : IsWord (lexIdentifier c cur named).1.text :=
    ⟨c, _, rfl, letter, List.forall_mem_cons.mpr ⟨named, fun _ => List.mem_takeWhile_imp⟩⟩
  have other : ∀ kind ∈ .identifier :: keywords.map (·.2),
      kind ≠ .integerLiteral ∧ kind ≠ .floatLiteral ∧ kind ≠ .stringLiteral := by decide
  obtain ⟨integer, float, string⟩ := other _ (lexIdentifier_kind cur named)
  exact ⟨fun kind => (integer kind).elim, fun kind => (float kind).elim, fun _ => word,
    fun kind => (string kind).elim⟩

theorem lexIdentifier_legal : lexLegal (lexIdentifier c cur named) = true := by
  have other : ∀ kind ∈ .identifier :: keywords.map (·.2), kind ≠ .unknown := by decide
  exact lexLegal_iff.mpr ⟨fun unknown => (other _ (lexIdentifier_kind cur named) unknown).elim,
    List.cons_ne_nil _ _⟩

end Word

theorem lexString_inClass (cur : List Char) : (lexString cur).1.InClass := by
  refine ⟨nofun, nofun, fun kind => ?_, fun _ mem => ?_⟩
  · exact absurd kind (by simp [lexString, keywords])
  · simpa using List.mem_takeWhile_imp mem

theorem punctuator_of_punctuator₂ {c d : Char} {kind : TokenKind}
    (two : punctuator₂ c d = some kind) :
    punctuator c ≠ none ∧ (d = '.' ∨ d = '=') ∧
      kind ∉ [TokenKind.eof, .unknown, .integerLiteral, .floatLiteral, .identifier,
        .stringLiteral] ++ keywords.map (·.2) := by
  simp only [punctuator₂] at two
  split at two <;> cases two <;> decide

theorem punctuator_kind {c : Char} {kind : TokenKind} (one : punctuator c = some kind) :
    kind ∉ [TokenKind.eof, .unknown, .integerLiteral, .floatLiteral, .identifier,
      .stringLiteral] ++ keywords.map (·.2) := by
  simp only [punctuator] at one
  split at one <;> cases one <;> decide

section Switch

variable {c : Char} (cur : List Char)

theorem lexToken_digit (digit : c.isDigit = true) :
    lexToken (c :: cur) = lexNumber c cur := by
  have named : isNameChar c = true := by simp [isNameChar, Char.isAlphanum, digit]
  simp [lexToken, named, digit]

theorem lexToken_word (named : isNameChar c = true) (letter : c.isDigit = false) :
    lexToken (c :: cur) = lexIdentifier c cur named := by
  simp [lexToken, named, letter]

theorem lexToken_quote : lexToken ('"' :: cur) = lexString cur := by
  have named : isNameChar '"' = false := by decide
  simp [lexToken, named]

theorem lexToken_minus (digit : (cur.head?.any Char.isDigit) = true) :
    lexToken ('-' :: cur) = lexNumber '-' cur := by
  have named : isNameChar '-' = false := by decide
  simp [lexToken, named, digit]

end Switch

/-- No token, no comment and no number begins at the second character of a mark. -/
theorem Region.enter_second {d : Char} (second : d = '.' ∨ d = '=') (cur : List Char) :
    enter d cur = some .between := by
  have named : isNameChar '.' = false ∧ isNameChar '=' = false := by decide
  have marks : punctuator '.' ≠ none ∧ punctuator '=' ≠ none := by decide
  rcases second with rfl | rfl <;> simp [enter, named, marks]

section Mark

variable {c : Char} {cur : List Char}

theorem lexToken_mark (named : isNameChar c = false) (quote : c ≠ '"')
    (number : ¬(c = '-' ∧ (cur.head?.any Char.isDigit) = true)) :
    (lexToken (c :: cur)).1.text ++ (lexToken (c :: cur)).2 = c :: cur ∧
      (lexToken (c :: cur)).1.start = c :: cur ∧ (lexToken (c :: cur)).1.text ≠ [] ∧
      (lexToken (c :: cur)).1.kind ∉ [TokenKind.eof, .integerLiteral, .floatLiteral, .identifier,
        .stringLiteral] ++ keywords.map (·.2) ∧
      ((lexToken (c :: cur)).1.kind = .unknown ↔ punctuator c = none) ∧
      ((lexToken (c :: cur)).2 = cur ∨ punctuator c ≠ none ∧
        ∃ d rest, cur = d :: rest ∧ (d = '.' ∨ d = '=') ∧ (lexToken (c :: cur)).2 = rest) := by
  simp only [lexToken, named, quote, number, if_false, dif_neg, Bool.false_eq_true,
    not_false_eq_true]
  split
  · next kind two =>
    obtain ⟨d, head, two⟩ := Option.bind_eq_some_iff.mp two
    obtain ⟨rest, rfl⟩ := List.head?_eq_some_iff.mp head
    obtain ⟨one, second, other⟩ := punctuator_of_punctuator₂ two
    refine ⟨rfl, rfl, List.cons_ne_nil _ _, fun mem => other ?_,
      ⟨?_, fun none => (one none).elim⟩,
      .inr ⟨one, d, rest, rfl, second, rfl⟩⟩
    · simp only [List.cons_append, List.mem_cons] at mem ⊢
      tauto
    · rintro rfl
      simp at other
  · split
    · next kind one =>
      have other := punctuator_kind one
      refine ⟨rfl, rfl, List.cons_ne_nil _ _, fun mem => other ?_, ⟨?_, fun none => ?_⟩, .inl rfl⟩
      · simp only [List.cons_append, List.mem_cons] at mem ⊢
        tauto
      · rintro rfl
        simp at other
      · rw [one] at none
        cases none
    · next one =>
      exact ⟨rfl, rfl, List.cons_ne_nil _ _, by simp [keywords], by simp [one], .inl rfl⟩

/-- A text that begins at a token is regular if the token is, and the text behind it. -/
theorem scans_token (blank : c ∉ [' ', '\t', '\n', '\r', ';'])
    (slashes : ¬(c = '/' ∧ cur.head? = some '/')) :
    scans .between (c :: cur) = true ↔
      (lexLegal (lexToken (c :: cur)) = true ∧ (lexToken (c :: cur)).1.InClass) ∧
        scans .between (lexToken (c :: cur)).2 = true := by
  have regular : ∀ {next : Token × List Char} {scanned : Bool}, lexLegal next = true →
      next.1.InClass → scanned = scans .between next.2 →
      (scanned = true ↔ (lexLegal next = true ∧ next.1.InClass) ∧
        scans .between next.2 = true) := fun legal inClass same =>
    ⟨fun scanned => ⟨⟨legal, inClass⟩, same ▸ scanned⟩, fun all => same ▸ all.2⟩
  -- A number is in its class unless a minus stands behind the first character; in this case the
  -- minus leads nowhere.
  have numbers : ∀ region : Option Region, (cur.head? ≠ some '-' → region = some (.number false)) →
      (cur.head? = some '-' → region = none) →
      (c.isDigit = true ∨ c = '-' ∧ (cur.head?.any Char.isDigit) = true) →
      (region.any (scans · cur) = true ↔
        (lexLegal (lexNumber c cur) = true ∧ (lexNumber c cur).1.InClass) ∧
          scans .between (lexNumber c cur).2 = true) := by
    intro region unsigned irregular first
    by_cases signed : cur.head? = some '-'
    · simp [lexNumber_inClass first, irregular signed, signed]
    · refine regular (lexNumber_legal c cur) ((lexNumber_inClass first).mpr signed) ?_
      rw [unsigned signed, Option.any_some, scans_number, lexNumber_eq signed]
  rw [scans, Region.advance, Region.enter]
  -- The first character decides: a name or a number, a quote, a sign, or a mark.
  by_cases named : isNameChar c = true
  · rw [if_pos named]
    by_cases digit : c.isDigit = true
    · rw [if_pos digit, lexToken_digit cur digit]
      exact numbers _ (fun unsigned => if_neg unsigned) (fun signed => if_pos signed) (.inl digit)
    · have letter : c.isDigit = false := by simpa using digit
      rw [if_neg digit, lexToken_word cur named letter]
      exact regular (lexIdentifier_legal cur named) (lexIdentifier_inClass cur named letter)
        (scans_name cur)
  rw [if_neg named]
  by_cases quote : c = '"'
  · subst quote
    rw [if_pos rfl, lexToken_quote]
    by_cases empty : (cur.head?.all (· = '"')) = true
    · have text : (lexString cur).1.text = [] := by
        cases cur with
        | nil => rfl
        | cons d cur => simpa [lexString] using empty
      rw [if_pos empty, lexLegal_iff, text]
      simp
    · have text : (lexString cur).1.text ≠ [] := by
        cases cur with
        | nil => simp at empty
        | cons d cur => simpa [lexString] using empty
      rw [if_neg empty]
      have known : (lexString cur).1.kind ≠ .unknown := by simp [lexString]
      exact regular (lexLegal_iff.mpr ⟨fun none => absurd none known, text⟩) (lexString_inClass cur) (scans_string cur)
  rw [if_neg quote, if_neg slashes]
  by_cases minus : c = '-' ∧ (cur.head?.any Char.isDigit) = true
  · rw [if_pos minus]
    obtain ⟨rfl, digit⟩ := minus
    rw [lexToken_minus cur digit]
    refine numbers _ (fun _ => rfl) (fun signed => ?_) (.inr ⟨rfl, digit⟩)
    rw [signed] at digit
    exact absurd digit (by decide)
  · obtain ⟨-, -, text, kind, unknown, rest⟩ :=
      lexToken_mark (Bool.not_eq_true _ ▸ named) quote minus
    have inClass : (lexToken (c :: cur)).1.InClass :=
      .of_kind fun mem => kind (List.mem_cons_of_mem _ mem)
    rw [if_neg minus]
    by_cases last : cur = [] ∧ c ∉ [' ', '\t', '\n', '\r', ';'] ∧ punctuator c = none
    · -- An invalid character at the end of the text.
      rcases rest with rest | ⟨valid, -⟩
      · rw [if_pos last, lexLegal_iff, unknown, rest]
        simp [last]
      · exact (valid last.2.2).elim
    · rw [if_neg last]
      refine regular (lexLegal_iff.mpr ⟨fun isUnknown => ?_, text⟩) inClass ?_
      · rcases rest with rest | ⟨valid, -⟩
        · exact fun none => last ⟨rest ▸ none, blank, unknown.mp isUnknown⟩
        · exact (valid (unknown.mp isUnknown)).elim
      · rcases rest with rest | ⟨-, d, rest, rfl, second, same⟩
        · rw [rest, Option.any_some]
        · rw [same, Option.any_some, scans, Region.advance, Region.enter_second second rest,
            Option.any_some]

end Mark

/-! ## All tokens -/

/-- `Lex` skips blanks, semicolons and comments only. -/
theorem skips_skipBlanks (cur : List Char) :
    Skips cur (skipBlanks false cur) ∧
      ∃ line text, cur = line ++ text ∧ (∀ c ∈ line, c ≠ '\n' ∧ c ≠ '\r') ∧
        (∀ c ∈ text.head?, c = '\n' ∨ c = '\r') ∧ Skips text (skipBlanks true cur) := by
  -- Both outcomes of skipping, in code and in a comment, are needed for the one that follows.
  induction cur with
  | nil => exact ⟨.done [], [], [], rfl, nofun, nofun, .done []⟩
  | cons c cur ih =>
    obtain ⟨skipped, line, text, same, inLine, atEnd, next⟩ := ih
    constructor
    · rw [skipBlanks]
      split_ifs with blank slashes
      · exact .blank blank skipped
      · -- The second slash belongs to the line that is skipped.
        obtain ⟨rfl, second⟩ := slashes
        cases line with
        | nil =>
          rw [List.nil_append] at same
          rw [same] at second
          exact absurd (atEnd '/' second) (by decide)
        | cons d line =>
          rw [same] at second
          cases Option.some.inj second
          rw [same]
          rw [same] at next
          exact .comment (fun c mem => inLine c (List.mem_cons_of_mem _ mem)) atEnd next
      · exact .done _
    · rw [skipBlanks]
      by_cases newline : c = '\n' ∨ c = '\r'
      · refine ⟨[], c :: cur, rfl, nofun, fun d head => Option.some.inj head ▸ newline, ?_⟩
        have blank : c ∈ [' ', '\t', '\n', '\r', ';'] := by
          rcases newline with rfl | rfl <;> decide
        have ended : (c ≠ '\n' && c ≠ '\r') = false := by
          rcases newline with rfl | rfl <;> rfl
        rw [ended]
        exact .blank blank skipped
      · push Not at newline
        refine ⟨c :: line, text, congrArg (c :: ·) same,
          List.forall_mem_cons.mpr ⟨newline, inLine⟩, atEnd, ?_⟩
        rw [show (c ≠ '\n' && c ≠ '\r') = true by simp [newline]]
        exact next

theorem skipBlanks_start {comment : Bool} {cur rest : List Char} {c : Char}
    (left : skipBlanks comment cur = c :: rest) :
    c ∉ [' ', '\t', '\n', '\r', ';'] ∧ ¬(c = '/' ∧ rest.head? = some '/') := by
  induction cur generalizing comment with
  | nil => cases comment <;> cases left
  | cons d cur ih =>
    cases comment with
    | true => exact ih left
    | false =>
      rw [skipBlanks] at left
      split_ifs at left with blank slashes
      · exact ih left
      · exact ih left
      · cases left
        exact ⟨blank, slashes⟩

theorem lexToken_covers (c : Char) (cur : List Char) :
    (lexToken (c :: cur)).1.kind ≠ .eof ∧
      ((lexToken (c :: cur)).1.kind ≠ .stringLiteral ∧
          (lexToken (c :: cur)).1.text ++ (lexToken (c :: cur)).2 = c :: cur ∧
          (lexToken (c :: cur)).1.start = c :: cur ∨
        c = '"' ∧ lexToken (c :: cur) = lexString cur) := by
  have numbers : (lexNumber c cur).1.kind ≠ .eof ∧ (lexNumber c cur).1.kind ≠ .stringLiteral ∧
      (lexNumber c cur).1.start = c :: cur := by
    simp only [lexNumber]
    split_ifs <;> simp
  -- The cases are those of the switch of `Lex`.
  by_cases named : isNameChar c = true
  · by_cases digit : c.isDigit = true
    · rw [lexToken_digit cur digit]
      exact ⟨numbers.1, .inl ⟨numbers.2.1, lexNumber_covers c cur, numbers.2.2⟩⟩
    · have letter : c.isDigit = false := by simpa using digit
      have other : ∀ kind ∈ .identifier :: keywords.map (·.2),
          kind ≠ .eof ∧ kind ≠ .stringLiteral := by decide
      have kinds := other _ (lexIdentifier_kind cur named)
      rw [lexToken_word cur named letter]
      exact ⟨kinds.1, .inl ⟨kinds.2, congrArg (List.cons c) List.takeWhile_append_dropWhile, rfl⟩⟩
  by_cases quote : c = '"'
  · subst quote
    rw [lexToken_quote]
    exact ⟨by simp [lexString], .inr ⟨rfl, rfl⟩⟩
  by_cases minus : c = '-' ∧ (cur.head?.any Char.isDigit) = true
  · obtain ⟨rfl, digit⟩ := minus
    rw [lexToken_minus cur digit]
    exact ⟨numbers.1, .inl ⟨numbers.2.1, lexNumber_covers '-' cur, numbers.2.2⟩⟩
  · obtain ⟨text, start, -, kind, -⟩ := lexToken_mark (Bool.not_eq_true _ ▸ named) quote minus
    refine ⟨fun eof => kind (by simp [eof]), .inl ⟨fun string => kind ?_, text, start⟩⟩
    simp [string]

theorem Partitions.lex {text : List Char} {toks : List Token} (kind : (lex text).1.kind ≠ .eof)
    (next : Partitions (lex text).2 toks) : Partitions text ((lex text).1 :: toks) := by
  have skipped := (skips_skipBlanks text).1
  rw [Bistra.lex] at kind next ⊢
  cases same : skipBlanks false text with
  | nil =>
    rw [same] at kind
    exact (kind rfl).elim
  | cons c cur =>
    rw [same] at skipped kind next
    obtain ⟨-, ⟨notString, covers, start⟩ | ⟨rfl, string⟩⟩ := lexToken_covers c cur
    · exact .token (covers.symm ▸ skipped) (start.trans covers.symm) ⟨kind, notString⟩ next
    · rw [string] at next ⊢
      have covers := List.takeWhile_append_dropWhile (p := (· ≠ '"')) (l := cur)
      have behind : (lexString cur).2 = (cur.dropWhile (· ≠ '"')).drop 1 := rfl
      cases closing : cur.dropWhile (· ≠ '"') with
      | nil =>
        rw [closing, List.append_nil] at covers
        refine .unterminated ?_ covers.symm rfl ?_
        · exact (congrArg ('"' :: ·) covers).symm ▸ skipped
        · rw [behind, closing] at next
          exact next
      -- What stops the scan of a string is its closing quote.
      | cons d rest =>
        have quote : d = '"' := by
          have stopped := List.head?_dropWhile_not (· ≠ '"') cur
          rw [closing] at stopped
          simpa using stopped
        subst quote
        rw [closing] at covers
        refine .string ?_ covers.symm rfl ?_
        · exact (congrArg ('"' :: ·) covers).symm ▸ skipped
        · rw [behind, closing] at next
          exact next

/-- What the run of the lexer through a text shows. -/
theorem lexTokens_spec {n : Nat} {text : List Char} {toks : List Token}
    (lexed : lexTokens n text = some toks) :
    Partitions text toks ∧
      ((∀ tok ∈ toks, tok.InClass) → scans .between text = true) := by
  induction n generalizing text toks with
  | zero => cases lexed
  | succ n ih =>
    simp only [lexTokens] at lexed
    split_ifs at lexed with legal kind
    -- The lexer has come to the end: all that is left is skipped.
    · cases lexed
      have ended : skipBlanks false text = [] := by
        cases same : skipBlanks false text with
        | nil => rfl
        | cons c cur =>
          rw [lex, same] at kind
          exact ((lexToken_covers c cur).1 kind).elim
      refine ⟨.eof (ended ▸ (skips_skipBlanks text).1) kind, fun _ => ?_⟩
      exact (scans_skipBlanks false text).trans (by rw [ended]; rfl)
    -- A token, and what the lexer finds behind it.
    · obtain ⟨rest, later, rfl⟩ := Option.map_eq_some_iff.mp lexed
      obtain ⟨covers, scanned⟩ := ih later
      refine ⟨covers.lex kind, fun inClass => ?_⟩
      obtain ⟨first, others⟩ := List.forall_mem_cons.mp inClass
      refine (scans_skipBlanks false text).trans ?_
      rw [lex] at legal first scanned
      cases same : skipBlanks false text with
      | nil => rfl
      | cons c cur =>
        rw [same] at legal first scanned
        obtain ⟨blank, slashes⟩ := skipBlanks_start same
        exact (scans_token blank slashes).mpr ⟨⟨legal, first⟩, scanned others⟩

theorem lexTokens_of_scans (text : List Char) (scanned : scans .between text = true) :
    ∃ n toks, lexTokens n text = some toks ∧ ∀ tok ∈ toks, tok.InClass := by
  have skipped := (scans_skipBlanks false text).symm.trans scanned
  have shorter := skipBlanks_length false text
  cases same : skipBlanks false text with
  | nil =>
    refine ⟨1, [(lexToken []).1], ?_, ?_⟩
    · simp [lexTokens, lex, same, lexLegal, lexToken]
    · rintro tok (_ | ⟨_, ⟨⟩⟩)
      exact .of_kind (by decide)
  | cons c cur =>
    rw [same] at skipped shorter
    obtain ⟨blank, slashes⟩ := skipBlanks_start same
    obtain ⟨⟨legal, first⟩, rest⟩ := (scans_token blank slashes).mp skipped
    have decreases := lexToken_length c cur
    obtain ⟨n, toks, lexed, others⟩ := lexTokens_of_scans _ rest
    refine ⟨n + 1, (lexToken (c :: cur)).1 :: toks, ?_, List.forall_mem_cons.mpr ⟨first, others⟩⟩
    simp only [lexTokens, lex, same, legal, if_true, if_neg (lexToken_covers c cur).1, lexed,
      Option.map_some]
termination_by text.length
decreasing_by
  rw [same, List.length_cons] at shorter
  omega

/-- The lexer tokenizes exactly the texts in which, outside of comments and strings, no number
begins with a digit and a minus, no string is empty, and no invalid character is the last one. -/
theorem tokenizes_iff (text : List Char) : Tokenizes text ↔ scans .between text = true := by
  constructor
  · rintro ⟨n, toks, lexed, -, inClass⟩
    exact (lexTokens_spec lexed).2 inClass
  · intro scanned
    obtain ⟨n, toks, lexed, inClass⟩ := lexTokens_of_scans text scanned
    exact ⟨n, toks, lexed, (lexTokens_spec lexed).1, inClass⟩

theorem not_tokenizes_of_illegal {text : List Char} (illegal : lexLegal (lex text) = false) :
    ¬ Tokenizes text := by
  rintro ⟨_ | n, toks, lexed, -⟩
  · cases lexed
  · simp only [lexTokens, illegal, Bool.false_eq_true, if_false, reduceCtorEq] at lexed

/-- `3-2` is one token, and an empty string and an invalid last character stop the lexer. -/
theorem not_tokenizes :
    ¬ Tokenizes "3-2".toList ∧ ¬ Tokenizes "\"\"".toList ∧ ¬ Tokenizes "@".toList := by
  refine ⟨?_, not_tokenizes_of_illegal (by decide +kernel),
    not_tokenizes_of_illegal (by decide +kernel)⟩
  rintro ⟨n, toks, lexed, -, inClass⟩
  exact absurd ((lexTokens_spec lexed).2 inClass) (by decide +kernel)

end Bistra

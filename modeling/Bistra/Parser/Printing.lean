import Bistra.Parser.Precedence
import Bistra.Parser.Tokens

/-! # Printed expressions

`Expr::dump` against the lexer and the parser: expressions that come back from their printed form.
-/

namespace Bistra

variable {F : Type}

/-! ## Printing -/

/-- `std::to_string` of an integer. -/
def decimal : Int → List Char
  | .ofNat n => Nat.toDigits 10 n
  | .negSucc n => '-' :: Nat.toDigits 10 (n + 1)

def BinOpKind.getOpSymbol : BinOpKind → List Char
  | .add => " + ".toList
  | .mul => " * ".toList
  | .sub => " - ".toList
  | .div => " / ".toList
  | .max => "max".toList
  | .min => "min".toList
  | .pow => "pow".toList

def UnaryOpKind.getOpSymbol : UnaryOpKind → List Char
  | .exp => "exp".toList
  | .sqrt => "sqrt".toList
  | .log => "log".toList
  | .abs => "abs".toList

/-- What the printer reads behind the nodes of an expression: the names of the loops, and
`std::to_string` of a floating-point number. -/
structure Printer (F : Type) where
  loopName : LoopId → String
  toString : F → List Char

/-- `Argument::getName` and `LocalVar::getName`. -/
def Decls.argName (decls : Decls) (arg : ArgId) : List Char :=
  ((decls.args[arg]?).map fun decl => decl.name.toList).getD []

def Decls.varName (decls : Decls) (var : VarId) : List Char :=
  ((decls.vars[var]?).map fun decl => decl.name.toList).getD []

section Dump

variable (printer : Printer F) (decls : Decls)

mutual

def Expr.dump : Expr F → List Char
  | .index loop _ => (printer.loopName loop).toList
  | .const val => decimal val
  | .constFP val => printer.toString val
  | .constString val => dumpConstantString val.toList
  | .binary kind lhs rhs =>
    match kind with
    | .mul | .add | .div | .sub =>
      '(' :: (lhs.dump ++ ' ' :: (kind.getOpSymbol ++ ' ' :: (rhs.dump ++ [')'])))
    | .max | .min | .pow =>
      '(' :: ' ' :: (kind.getOpSymbol ++ '(' :: (lhs.dump ++ ',' :: ' ' :: (rhs.dump ++ [')', ')'])))
  | .unary kind val => ' ' :: (kind.getOpSymbol ++ '(' :: (val.dump ++ [')']))
  | .broadcast val _ => '(' :: (val.dump ++ [')'])
  | .gep arg indices => decls.argName arg ++ '[' :: (Expr.dumpList indices ++ [']'])
  | .load arg indices type =>
    decls.argName arg ++ '[' :: (Expr.dumpList indices ++
      ']' :: (if type.isVector then '.' :: Nat.toDigits 10 type.width.val else []))
  | .loadLocal var _ => decls.varName var

def Expr.dumpList : List (Expr F) → List Char
  | [] => []
  | [e] => e.dump
  | e :: es => e.dump ++ ',' :: Expr.dumpList es

end

end Dump

/-! ## Numbers -/

theorem isDigit_toDigits (n : Nat) : ∀ c ∈ Nat.toDigits 10 n, c.isDigit = true :=
  fun _ mem => Nat.isDigit_of_mem_toDigits (by decide) (by decide) mem

theorem takeWhile_toDigits (n : Nat) :
    (Nat.toDigits 10 n).takeWhile Char.isDigit = Nat.toDigits 10 n :=
  List.takeWhile_eq_self_iff.mpr (isDigit_toDigits n)

theorem foldl_toDigits (n : Nat) :
    (Nat.toDigits 10 n).foldl (fun n c => 10 * n + (c.toNat - '0'.toNat)) 0 = n := by
  rw [← Nat.ofDigitChars_eq_foldl, Nat.ofDigitChars_ten_toDigits]

theorem strtol_decimal {val : Int} (fits : -2 ^ 63 ≤ val ∧ val ≤ 2 ^ 63 - 1) :
    strtol (decimal val) = val := by
  cases val with
  | ofNat n =>
    have unsigned : ∀ rest, Nat.toDigits 10 n ≠ '-' :: rest := by
      intro rest same
      have digit := isDigit_toDigits n '-' (by rw [same]; exact List.mem_cons_self)
      exact not_minus_of_isDigit digit rfl
    rw [decimal, strtol]
    · simp only [takeWhile_toDigits, foldl_toDigits]
      exact min_eq_right fits.2
    · exact unsigned
  | negSucc n =>
    simp only [decimal, strtol, takeWhile_toDigits, foldl_toDigits]
    exact max_eq_right fits.1

theorem atoi_decimal {val : Int} (fits : -2 ^ 31 ≤ val ∧ val < 2 ^ 31) :
    (atoi (decimal val)).toInt = val := by
  rw [atoi, strtol_decimal (by omega)]
  exact Int32.toInt_ofInt_of_le (by omega) (by omega)

/-! ## Tokens of a printed text -/

/-- The first token of a text, and what is behind it. -/
structure FirstToken (text : List Char) (K : TokenKind) (word rest : List Char) : Prop where
  kind : (lex text).1.kind = K
  word : (lex text).1.text = word
  rest : (lex text).2 = rest

/-- The text does not go on with the word or the number before it. -/
def separate (rest : List Char) : Bool :=
  rest.head?.all fun c => !isNameChar c && c ≠ '.' && c ≠ '-'

theorem lex_blank (text : List Char) : lex (' ' :: text) = lex text := by
  simp [lex, skipBlanks]

theorem FirstToken.blank {text word rest : List Char} {K : TokenKind}
    (first : FirstToken text K word rest) : FirstToken (' ' :: text) K word rest := by
  constructor
  · rw [lex_blank, first.kind]
  · rw [lex_blank, first.word]
  · rw [lex_blank, first.rest]

theorem lex_eq_lexToken {c : Char} {cur : List Char} (blank : c ∉ [' ', '\t', '\n', '\r', ';'])
    (slashes : ¬(c = '/' ∧ cur.head? = some '/')) : lex (c :: cur) = lexToken (c :: cur) := by
  rw [lex, skipBlanks, if_neg blank, if_neg slashes]

theorem FirstToken.of_lexToken {c : Char} {cur rest : List Char} {tok : Token}
    (blank : c ∉ [' ', '\t', '\n', '\r', ';']) (slashes : ¬(c = '/' ∧ cur.head? = some '/'))
    (lexed : lexToken (c :: cur) = (tok, rest)) : FirstToken (c :: cur) tok.kind tok.text rest := by
  have lexed := (lex_eq_lexToken blank slashes).trans lexed
  exact ⟨by rw [lexed], by rw [lexed], by rw [lexed]⟩

theorem punctuator_char {c : Char} {K : TokenKind} (mark : punctuator c = some K) :
    c ∉ [' ', '\t', '\n', '\r', ';'] ∧ isNameChar c = false ∧ c ≠ '"' := by
  simp only [punctuator] at mark
  split at mark <;> first | decide | cases mark

theorem firstToken_mark {c : Char} {cur : List Char} {K : TokenKind} (mark : punctuator c = some K)
    (single : cur.head?.bind (punctuator₂ c) = none)
    (number : ¬(c = '-' ∧ (cur.head?.any Char.isDigit) = true))
    (slashes : ¬(c = '/' ∧ cur.head? = some '/')) : FirstToken (c :: cur) K [c] cur := by
  obtain ⟨blank, named, quote⟩ := punctuator_char mark
  have lexed : lexToken (c :: cur) = (⟨K, [c], c :: cur, by
      rintro rfl
      exact (punctuator_ne_identifier mark).elim⟩, cur) := by
    simp only [lexToken, named, quote, number, Bool.false_eq_true, dif_neg, if_false,
      not_false_eq_true]
    split
    next two =>
      rw [single] at two
      cases two
    next =>
      split
      next one =>
        rw [mark] at one
        cases one
        rfl
      next one =>
        rw [mark] at one
        cases one
  exact .of_lexToken blank slashes lexed

/-- The marks that no character behind them changes. -/
def brackets : List (Char × TokenKind) :=
  [('(', .lParen), (')', .rParen), ('[', .lSquare), (']', .rSquare), (',', .comma)]

theorem firstToken_bracket {c : Char} {K : TokenKind} (bracket : (c, K) ∈ brackets)
    (cur : List Char) : FirstToken (c :: cur) K [c] cur := by
  have marks : ∀ b ∈ brackets, punctuator b.1 = some b.2 ∧
      b.1 ∉ ['.', '=', '<', '>', '!', '+', '-', '/'] := by decide
  obtain ⟨mark, alone⟩ := marks _ bracket
  simp only [List.mem_cons, not_or] at alone
  obtain ⟨period, assign, lt, gt, bang, plus, minus, slash, -⟩ := alone
  have single : ∀ d, punctuator₂ c d = none := by
    intro d
    simp only [punctuator₂]
    split <;> first | rfl | contradiction
  refine firstToken_mark mark ?_ ?_ ?_
  · exact Option.bind_eq_none_iff.mpr fun d _ => single d
  · exact fun number => minus number.1
  · exact fun comment => slash comment.1

theorem firstToken_operator {c : Char} {K : TokenKind} (mark : punctuator c = some K)
    (cur : List Char) : FirstToken (c :: ' ' :: cur) K [c] (' ' :: cur) := by
  refine firstToken_mark mark ?_ (by simp) (by simp)
  simp [punctuator₂]

theorem firstToken_period {d : Char} {cur : List Char} (digit : d.isDigit = true) :
    FirstToken ('.' :: d :: cur) .period ['.'] (d :: cur) := by
  refine firstToken_mark rfl ?_ (by simp) (by simp)
  have other : d ≠ '.' := by
    rintro rfl
    exact absurd digit (by decide)
  simp [punctuator₂, other]

/-! ### Words -/

theorem span_append {p : Char → Bool} {text rest : List Char} (all : ∀ c ∈ text, p c = true)
    (stops : ∀ d ∈ rest.head?, p d = false) :
    (text ++ rest).takeWhile p = text ∧ (text ++ rest).dropWhile p = rest := by
  rw [List.takeWhile_append_of_pos all, List.dropWhile_append_of_pos all]
  cases rest with
  | nil => simp
  | cons d rest => simp [stops d rfl]

theorem separate_head {rest : List Char} {d : Char} (apart : separate rest = true)
    (head : d ∈ rest.head?) : isNameChar d = false ∧ d ≠ '.' ∧ d ≠ '-' := by
  rw [separate, Option.all_eq_true] at apart
  simpa [and_assoc] using apart d head

theorem firstToken_word {text rest : List Char} (word : IsWord text) (apart : separate rest = true) :
    FirstToken (text ++ rest)
      (((keywords.find? fun word => word.1 = String.ofList text).map (·.2)).getD .identifier)
      text rest := by
  obtain ⟨c, cs, rfl, letter, named⟩ := word
  obtain ⟨first, others⟩ := List.forall_mem_cons.mp named
  obtain ⟨taken, dropped⟩ :=
    span_append others fun d head => (separate_head apart head).1
  have blank : c ∉ [' ', '\t', '\n', '\r', ';'] := by
    intro mem
    have unnamed : [' ', '\t', '\n', '\r', ';'].all (fun d => !isNameChar d) = true := by decide
    have apart := List.all_eq_true.mp unnamed c mem
    rw [first] at apart
    cases apart
  have slashes : ¬(c = '/' ∧ (cs ++ rest).head? = some '/') := by
    rintro ⟨rfl, -⟩
    exact absurd first (by decide)
  have lexed := lexToken_word (cs ++ rest) first letter
  rw [lexIdentifier] at lexed
  have result := FirstToken.of_lexToken blank slashes lexed
  simp only [taken, dropped] at result
  exact result

theorem isWord_of_all {text : List Char} (starts : text.head?.any (fun c => !c.isDigit) = true)
    (named : text.all isNameChar = true) : IsWord text := by
  cases text with
  | nil => cases starts
  | cons c rest => exact ⟨c, rest, rfl, by simpa using starts, List.all_eq_true.mp named⟩

/-- The name is read as one identifier. -/
def IsName (name : String) : Prop := IsWord name.toList ∧ ∀ word ∈ keywords, word.1 ≠ name

theorem IsName.ne_nil {name : String} (isName : IsName name) : name.toList ≠ [] := by
  obtain ⟨⟨c, rest, same, -⟩, -⟩ := isName
  rw [same]
  exact List.cons_ne_nil _ _

theorem firstToken_name {name : String} {rest : List Char} (isName : IsName name)
    (apart : separate rest = true) :
    FirstToken (name.toList ++ rest) .identifier name.toList rest := by
  have token := firstToken_word isName.1 apart
  have noKeyword : (keywords.find? fun word => word.1 = String.ofList name.toList) = none := by
    rw [String.ofList_toList]
    exact List.find?_eq_none.mpr fun word mem => by simpa using isName.2 word mem
  rwa [noKeyword] at token

/-! ### Numbers -/

theorem lexDigits_append {digits : List Char} (numeral : ∀ c ∈ digits, c.isDigit = true)
    (seenPoint : Bool) (cur : List Char) :
    lexDigits seenPoint (digits ++ cur) =
      (digits ++ (lexDigits seenPoint cur).1, (lexDigits seenPoint cur).2) := by
  induction digits with
  | nil => rfl
  | cons c digits ih =>
    obtain ⟨digit, others⟩ := List.forall_mem_cons.mp numeral
    rw [List.cons_append, lexDigits, if_pos digit, ih others]
    rfl

theorem lexDigits_separate {rest : List Char} (apart : separate rest = true) (seenPoint : Bool) :
    lexDigits seenPoint rest = ([], seenPoint, rest) := by
  cases rest with
  | nil => rfl
  | cons d rest =>
    obtain ⟨unnamed, point, -⟩ := separate_head apart (Option.mem_some_self d)
    have noDigit : d.isDigit = false := by
      simp only [isNameChar, Char.isAlphanum, Bool.or_eq_false_iff] at unnamed
      exact unnamed.1.2
    simp [lexDigits, noDigit, point]

theorem lexDigits_fraction {fraction rest : List Char} (apart : separate rest = true)
    (point : fraction = [] ∨ ∃ digits, fraction = '.' :: digits ∧ ∀ c ∈ digits, c.isDigit = true) :
    lexDigits false (fraction ++ rest) = (fraction, !fraction.isEmpty, rest) := by
  obtain rfl | ⟨digits, rfl, numeral⟩ := point
  · exact lexDigits_separate apart false
  · have noDigit : '.'.isDigit = false := by decide
    rw [List.cons_append, lexDigits, if_neg (by simp [noDigit]), if_pos (by decide),
      lexDigits_append numeral, lexDigits_separate apart]
    simp

theorem firstToken_lexNumber {c : Char} {digits fraction rest : List Char}
    (start : c.isDigit = true ∨ c = '-' ∧ digits ≠ []) (numeral : ∀ c ∈ digits, c.isDigit = true)
    (point : fraction = [] ∨ ∃ digits, fraction = '.' :: digits ∧ ∀ c ∈ digits, c.isDigit = true)
    (apart : separate rest = true) :
    FirstToken (c :: (digits ++ (fraction ++ rest)))
      (if fraction.isEmpty then .integerLiteral else .floatLiteral) (c :: (digits ++ fraction))
      rest := by
  have scanned : lexDigits false (digits ++ (fraction ++ rest)) =
      (digits ++ fraction, !fraction.isEmpty, rest) := by
    rw [lexDigits_append numeral, lexDigits_fraction apart point]
  -- A sign behind the number would be taken as a part of it.
  have unsigned : (digits ++ (fraction ++ rest)).head? ≠ some '-' := by
    intro sign
    cases digits with
    | cons d digits =>
      cases sign
      exact not_minus_of_isDigit (numeral _ List.mem_cons_self) rfl
    | nil =>
      obtain rfl | ⟨digits, rfl, -⟩ := point
      · exact (separate_head apart sign).2.2 rfl
      · cases sign
  have lexed : lexToken (c :: (digits ++ (fraction ++ rest))) =
      lexNumber c (digits ++ (fraction ++ rest)) := by
    obtain digit | ⟨rfl, some⟩ := start
    · exact lexToken_digit _ digit
    · obtain ⟨d, ds, rfl⟩ := List.exists_cons_of_ne_nil some
      exact lexToken_minus _ (numeral d List.mem_cons_self)
  -- The first character of a number starts neither a comment nor a mark.
  have first : isNameChar c = true ∨ c = '-' := by
    refine start.imp (fun digit => ?_) And.left
    simp [isNameChar, Char.isAlphanum, digit]
  have noMark : c ∉ ['/', ' ', '\t', '\n', '\r', ';'] := by
    intro mem
    have others : ['/', ' ', '\t', '\n', '\r', ';'].all
        (fun d => !isNameChar d && decide (d ≠ '-')) = true := by decide
    have apart := List.all_eq_true.mp others c mem
    simp only [Bool.and_eq_true, Bool.not_eq_true', decide_eq_true_eq] at apart
    exact first.elim (fun named => by simp [named] at apart) apart.2
  rw [List.mem_cons, not_or] at noMark
  rw [lexNumber_eq unsigned, scanned] at lexed
  have token := FirstToken.of_lexToken noMark.2 (fun comment => noMark.1 comment.1) lexed
  cases fraction <;> exact token

theorem firstToken_number {sign digits fraction rest : List Char} (signs : sign = [] ∨ sign = ['-'])
    (numeral : IsNumeral digits)
    (point : fraction = [] ∨ ∃ digits, fraction = '.' :: digits ∧ ∀ c ∈ digits, c.isDigit = true)
    (apart : separate rest = true) :
    FirstToken (sign ++ (digits ++ fraction) ++ rest)
      (if fraction.isEmpty then .integerLiteral else .floatLiteral) (sign ++ (digits ++ fraction))
      rest := by
  obtain rfl | rfl := signs
  · obtain ⟨d, ds, rfl⟩ := List.exists_cons_of_ne_nil numeral.1
    obtain ⟨digit, others⟩ := List.forall_mem_cons.mp numeral.2
    have token := firstToken_lexNumber (.inl digit) others point apart
    simpa only [List.nil_append, List.cons_append, List.append_assoc] using token
  · have token := firstToken_lexNumber (.inr ⟨rfl, numeral.1⟩) numeral.2 point apart
    simpa only [List.cons_append, List.nil_append, List.append_assoc] using token

theorem decimal_ne_nil (val : Int) : decimal val ≠ [] := by
  cases val with
  | ofNat n => exact Nat.toDigits_ne_nil
  | negSucc n => exact List.cons_ne_nil _ _

theorem IsFloat.ne_nil {text : List Char} (float : IsFloat text) : text ≠ [] := by
  obtain ⟨sign, digits, fraction, rfl, -⟩ := float
  simp

theorem firstToken_decimal (val : Int) {rest : List Char} (apart : separate rest = true) :
    FirstToken (decimal val ++ rest) .integerLiteral (decimal val) rest := by
  have numeral : ∀ n, IsNumeral (Nat.toDigits 10 n) := fun n =>
    ⟨Nat.toDigits_ne_nil, isDigit_toDigits n⟩
  cases val with
  | ofNat n =>
    have token := firstToken_number (.inl rfl) (numeral n) (.inl rfl) apart
    rw [List.append_nil] at token
    exact token
  | negSucc n =>
    have token := firstToken_number (.inr rfl) (numeral (n + 1)) (.inl rfl) apart
    rw [List.append_nil] at token
    exact token

theorem firstToken_float {text rest : List Char} (float : IsFloat text)
    (apart : separate rest = true) : FirstToken (text ++ rest) .floatLiteral text rest := by
  obtain ⟨sign, digits, fraction, rfl, signs, numeral, part⟩ := float
  exact firstToken_number signs numeral (.inr ⟨fraction, rfl, part⟩) apart

/-! ### Strings -/

theorem escapeCString_ne_nil {val : List Char} (some : val ≠ []) : escapeCString val ≠ [] := by
  fun_cases escapeCString val <;> first | exact List.cons_ne_nil _ _ | exact (some rfl).elim

theorem firstToken_string {val : List Char} (unquoted : '"' ∉ val) (rest : List Char) :
    FirstToken (dumpConstantString val ++ rest) .stringLiteral (escapeCString val) (' ' :: rest) := by
  have plain : ∀ c ∈ escapeCString val, c ≠ '"' := by
    rintro c mem rfl
    rcases mem_escapeCString mem with inVal | escape
    · exact unquoted inVal
    · simp at escape
  have stops : ∀ d ∈ ('"' :: ' ' :: rest).head?, decide (d ≠ '"') = false := by simp
  obtain ⟨quoted, behind⟩ := span_append (by simpa using plain) stops
  have lexed : lexToken ('"' :: (escapeCString val ++ '"' :: ' ' :: rest)) =
      lexString (escapeCString val ++ '"' :: ' ' :: rest) := lexToken_quote _
  have token := FirstToken.of_lexToken (by decide) (by simp) lexed
  simp only [quoted, behind] at token
  simpa [dumpConstantString] using token.blank

/-! ## Expressions that come back -/

/-- An operand of an operator as it is read: the parser inserts the broadcasts itself. -/
def Expr.operand : Expr F → Expr F
  | .broadcast val _ => val
  | e => e

section Printable

variable [Field F] [LinearOrder F]

/-- The printed form stands for the expression: its names mean what they meant, its numbers are those
that their texts denote, and its broadcasts are those that the parser inserts. -/
inductive Expr.Printable (printer : Printer F) (ctx : ParserContext F) : Expr F → Prop where
  | index {L : Loop} : IsName (printer.loopName L.id) →
      ctx.getLoopByName (printer.loopName L.id) = some L → Printable printer ctx (.indexOf L.id)
  | const {val : Int} : -2 ^ 31 ≤ val ∧ val < 2 ^ 31 → Printable printer ctx (.const val)
  | constFP {val : F} : IsFloat (printer.toString val) → atof (printer.toString val) = val →
      Printable printer ctx (.constFP val)
  | constString {val : String} : val.toList ≠ [] → '"' ∉ val.toList → '\\' ∉ val.toList.dropLast →
      Printable printer ctx (.constString val)
  | loadLocal {LV : VarId} {var : LocalVar} : IsName var.name → ctx.varMap[LV]? = some var →
      ctx.getLoopByName var.name = none → ctx.getVar var.name = some LV →
      Printable printer ctx (.loadLocal LV var.type)
  | load {A : ArgId} {arg : Argument} {indices : List (Expr F)} {width : VecWidth} :
      IsName arg.name → ctx.argMap[A]? = some arg → ctx.getLoopByName arg.name = none →
      ctx.getVar arg.name = none → ctx.getArg arg.name = some A → indices ≠ [] →
      arg.type.getNumDims = indices.length → (∀ e ∈ indices, e.getType.isIndexTy = true) →
      (∀ e ∈ indices, Printable printer ctx e) →
      Printable printer ctx (.load A indices ⟨arg.type.elementType, width⟩)
  | unary {kind : UnaryOpKind} {val : Expr F} : Printable printer ctx val →
      Printable printer ctx (.unary kind val)
  | operation {kind : BinOpKind} {lhs rhs : Expr F} : kind ∈ [.add, .mul, .sub, .div] →
      Printable printer ctx lhs.operand → Printable printer ctx rhs.operand →
      tryToAdjustTypes lhs.operand rhs.operand = some (lhs, rhs) → lhs.getType = rhs.getType →
      Printable printer ctx (.binary kind lhs rhs)
  | call {kind : BinOpKind} {lhs rhs : Expr F} : kind ∈ [.max, .min, .pow] →
      Printable printer ctx lhs → Printable printer ctx rhs → lhs.getType = rhs.getType →
      Printable printer ctx (.binary kind lhs rhs)

end Printable

/-! ## Reading what was printed -/

section Reading

variable {s : ParserState F} {text word rest : List Char} {K : TokenKind}

theorem FirstToken.getText (first : FirstToken text K word rest) :
    (s.before text).tok.getText = String.ofList word := by
  rw [Token.getText, ← first.word]
  rfl

theorem FirstToken.lexes_text (first : FirstToken text K word rest) (known : K ≠ .unknown)
    (some : word ≠ []) : lexes text = true := by
  rw [lexes, first.kind, first.word]
  simp [known, some]

theorem ParserState.before_blank (s : ParserState F) (text : List Char) :
    s.before (' ' :: text) = s.before text := by
  rw [before, lex_blank, before]

/-- What may stand behind an expression. -/
structure EndsOperand (rest : List Char) : Prop where
  apart : separate rest = true
  lexed : lexes rest = true
  noPeriod : (lex rest).1.kind ≠ .period

theorem endsOperand_bracket {c : Char} {K : TokenKind} (bracket : (c, K) ∈ brackets)
    (cur : List Char) : EndsOperand (c :: cur) := by
  have marks : ∀ b ∈ brackets, isNameChar b.1 = false ∧ b.1 ≠ '.' ∧ b.1 ≠ '-' ∧
      b.2 ≠ .unknown ∧ b.2 ≠ .period := by decide
  obtain ⟨unnamed, period, minus, known, noPeriod⟩ := marks _ bracket
  have token := firstToken_bracket bracket cur
  refine ⟨?_, token.lexes_text known (List.cons_ne_nil _ _), ?_⟩
  · simp [separate, unnamed, period, minus]
  · rw [token.kind]
    exact noPeriod

theorem endsOperand_operator {c : Char} {K : TokenKind} (mark : punctuator c = some K)
    (known : K ≠ .unknown ∧ K ≠ .period) (cur : List Char) : EndsOperand (' ' :: ' ' :: c :: ' ' :: cur) := by
  have token := (firstToken_operator mark cur).blank.blank
  refine ⟨rfl, token.lexes_text known.1 (List.cons_ne_nil _ _), ?_⟩
  rw [token.kind]
  exact known.2

variable [Field F] [LinearOrder F]

theorem FirstToken.isToken (first : FirstToken text K word rest) (inside : K ≠ .eof)
    (next : lexes rest = true) : IsToken K (s.before text) (s.before rest) := by
  have token := isToken_before s first.kind inside (by rw [first.rest, next])
  rwa [first.rest] at token

/-- In front of the text the parser finds a primary expression. -/
def StandsFor (s : ParserState F) (text : List Char) (e : Expr F) : Prop :=
  ∀ ⦃rest⦄, EndsOperand rest → lexes (text ++ rest) = true ∧
    IsPrimary IsExpr (s.before (text ++ rest)) e (s.before rest)

theorem StandsFor.isExpr {e : Expr F} (reads : StandsFor s text e) (follows : EndsOperand rest) :
    IsExpr (s.before (text ++ rest)) e (s.before rest) :=
  isExpr_iff.mpr (.one (.one (reads follows).2))

theorem standsFor_word {e : Expr F} (name : String) (isName : IsName name)
    (primary : ∀ {t t' : ParserState F}, IsToken .identifier t t' → t.tok.getText = name →
      t.ctx = s.ctx → IsPrimary IsExpr t e t') : StandsFor s name.toList e := by
  intro rest follows
  have token := firstToken_name isName follows.apart
  have text : String.ofList name.toList = name := String.ofList_toList
  exact ⟨token.lexes_text (by decide) isName.ne_nil,
    primary (token.isToken (by decide) follows.lexed) (token.getText.trans text) rfl⟩

theorem standsFor_paren {e : Expr F} (inner : ∀ ⦃rest⦄, EndsOperand rest → lexes (text ++ rest) = true ∧
    IsExpr (s.before (text ++ rest)) e (s.before rest)) :
    StandsFor s ('(' :: (text ++ [')'])) e := by
  intro rest follows
  have closing := endsOperand_bracket (c := ')') (K := .rParen) (by decide) rest
  obtain ⟨lexed, isExpr⟩ := inner closing
  have opened := firstToken_bracket (c := '(') (K := .lParen) (by decide) (text ++ ')' :: rest)
  have closed := firstToken_bracket (c := ')') (K := .rParen) (by decide) rest
  rw [List.cons_append, List.append_assoc, List.cons_append, List.nil_append]
  exact ⟨opened.lexes_text (by decide) (List.cons_ne_nil _ _),
    .paren (opened.isToken (by decide) lexed) isExpr (closed.isToken (by decide) follows.lexed)⟩

section Nodes

variable {printer : Printer F} {decls : Decls}

/-- The operands of an operator are read without their broadcasts. -/
theorem standsFor_operand {e : Expr F} (reads : StandsFor s (e.operand.dump printer decls) e.operand) :
    StandsFor s (e.dump printer decls) e.operand := by
  cases e with
  | broadcast val vf =>
    rw [Expr.dump]
    exact standsFor_paren fun rest follows => ⟨(reads follows).1, reads.isExpr follows⟩
  | index | const | constFP | constString | binary | unary | gep | load | loadLocal => exact reads

/-- In front of the text the parser finds expressions with commas between them. -/
def ListStandsFor (s : ParserState F) (text : List Char) (es : List (Expr F)) : Prop :=
  ∀ ⦃rest⦄, EndsOperand rest → lexes (text ++ rest) = true ∧
    IsList IsExpr (s.before (text ++ rest)) es (s.before rest)

theorem listStandsFor_one {e : Expr F} (reads : StandsFor s text e) : ListStandsFor s text [e] :=
  fun _ follows => ⟨(reads follows).1, .one (reads.isExpr follows)⟩

theorem listStandsFor_cons {e : Expr F} {es : List (Expr F)} {more : List Char}
    (first : StandsFor s text e) (others : ListStandsFor s more es) :
    ListStandsFor s (text ++ ',' :: more) (e :: es) := by
  intro rest follows
  obtain ⟨lexed, list⟩ := others follows
  have behind := endsOperand_bracket (c := ',') (K := .comma) (by decide) (more ++ rest)
  have comma := firstToken_bracket (c := ',') (K := .comma) (by decide) (more ++ rest)
  rw [List.append_assoc, List.cons_append]
  exact ⟨(first behind).1, .next (first.isExpr behind) (comma.isToken (by decide) lexed) list⟩

theorem listStandsFor_blank {es : List (Expr F)} (reads : ListStandsFor s text es) :
    ListStandsFor s (' ' :: text) es := by
  intro rest follows
  rw [List.cons_append, ParserState.before_blank, lexes, lex_blank]
  exact reads follows

theorem listStandsFor_dumpList {es : List (Expr F)} (some : es ≠ [])
    (reads : ∀ e ∈ es, StandsFor s (e.dump printer decls) e) :
    ListStandsFor s (Expr.dumpList printer decls es) es := by
  induction es with
  | nil => exact (some rfl).elim
  | cons e es ih =>
    obtain ⟨first, others⟩ := List.forall_mem_cons.mp reads
    cases es with
    | nil =>
      rw [Expr.dumpList]
      exact listStandsFor_one first
    | cons e' es =>
      rw [Expr.dumpList]
      · exact listStandsFor_cons first (ih (List.cons_ne_nil _ _) others)
      · exact List.cons_ne_nil _ _

theorem isExpr_operation {kind : BinOpKind} {op : TokenKind × String × BinOpKind}
    {LHS RHS L R : Expr F} {s₁ s₂ s' : ParserState F}
    (isOp : op ∈ productOperators ∨ op ∈ sumOperators) (same : op.2.2 = kind)
    (left : IsPrimary IsExpr s LHS s₁) (token : IsToken op.1 s₁ s₂)
    (symbol : s₁.tok.getText = op.2.1) (right : IsPrimary IsExpr s₂ RHS s')
    (adjusted : tryToAdjustTypes LHS RHS = some (L, R)) (types : L.getType = R.getType) :
    IsExpr s (.binary kind L R) s' := by
  subst same
  refine isExpr_iff.mpr ?_
  cases isOp with
  | inl product => exact .one (.next (.one left) (symbol ▸ product) token right adjusted types)
  | inr sum => exact .next (.one (.one left)) (symbol ▸ sum) token (.one right) adjusted types

theorem operator_cases {kind : BinOpKind} (operator : kind ∈ [.add, .mul, .sub, .div]) :
    ∃ c op, kind.getOpSymbol = [' ', c, ' '] ∧ punctuator c = some op ∧
      op ≠ .eof ∧ op ≠ .unknown ∧ op ≠ .period ∧
      ((op, String.ofList [c], kind) ∈ productOperators ∨
        (op, String.ofList [c], kind) ∈ sumOperators) := by
  cases kind with
  | add => exact ⟨'+', .plus, by decide⟩
  | sub => exact ⟨'-', .minus, by decide⟩
  | mul => exact ⟨'*', .mult, by decide⟩
  | div => exact ⟨'/', .div, by decide⟩
  | max | min | pow => exact absurd operator (by decide)

theorem builtinUnary_cases (kind : UnaryOpKind) : ∃ name K, kind.getOpSymbol = String.toList name ∧
    IsWord name.toList ∧ keywords.find? (fun word => word.1 = name) = some (name, K) ∧
    builtinUnary K = some kind := by
  cases kind with
  | exp => exact ⟨"exp", .builtinFuncExp, rfl, isWord_of_all (by decide) (by decide), by decide⟩
  | log => exact ⟨"log", .builtinFuncLog, rfl, isWord_of_all (by decide) (by decide), by decide⟩
  | sqrt => exact ⟨"sqrt", .builtinFuncSqrt, rfl, isWord_of_all (by decide) (by decide), by decide⟩
  | abs => exact ⟨"abs", .builtinFuncAbs, rfl, isWord_of_all (by decide) (by decide), by decide⟩

theorem builtinBinary_cases {kind : BinOpKind} (call : kind ∈ [.max, .min, .pow]) :
    ∃ name K, kind.getOpSymbol = String.toList name ∧ IsWord name.toList ∧
      keywords.find? (fun word => word.1 = name) = some (name, K) ∧ builtinBinary K = some kind := by
  cases kind with
  | max => exact ⟨"max", .builtinFuncMax, rfl, isWord_of_all (by decide) (by decide), by decide⟩
  | min => exact ⟨"min", .builtinFuncMin, rfl, isWord_of_all (by decide) (by decide), by decide⟩
  | pow => exact ⟨"pow", .builtinFuncPow, rfl, isWord_of_all (by decide) (by decide), by decide⟩
  | add | mul | sub | div => exact absurd call (by decide)

theorem standsFor_operation {kind : BinOpKind} {left right : List Char} {LHS RHS L R : Expr F}
    (operator : kind ∈ [.add, .mul, .sub, .div]) (readsL : StandsFor s left LHS)
    (readsR : StandsFor s right RHS) (adjusted : tryToAdjustTypes LHS RHS = some (L, R))
    (types : L.getType = R.getType) :
    StandsFor s ('(' :: (left ++ ' ' :: (kind.getOpSymbol ++ ' ' :: (right ++ [')']))))
      (.binary kind L R) := by
  obtain ⟨c, op, symbol, mark, inside, known, period, isOp⟩ := operator_cases operator
  have reads : StandsFor s ('(' :: ((left ++ ' ' :: ' ' :: c :: ' ' :: ' ' :: right) ++ [')']))
      (.binary kind L R) := by
    refine standsFor_paren fun rest follows => ?_
    obtain ⟨lexedR, primaryR⟩ := readsR follows
    obtain ⟨lexedL, primaryL⟩ := readsL (endsOperand_operator mark ⟨known, period⟩ (' ' :: right ++ rest))
    have token := firstToken_operator mark (' ' :: right ++ rest)
    have spaced : lexes (' ' :: ' ' :: (right ++ rest)) = true := by
      rw [lexes, lex_blank, lex_blank]
      exact lexedR
    have taken := token.isToken (s := s) inside spaced
    simp only [List.cons_append, ParserState.before_blank] at primaryL taken
    rw [List.append_assoc]
    refine ⟨lexedL, isExpr_operation isOp rfl primaryL taken token.getText primaryR adjusted types⟩
  rw [symbol]
  simpa only [List.append_assoc, List.cons_append, List.nil_append] using reads

theorem standsFor_call {name : String} {K : TokenKind} {es : List (Expr F)} {e : Expr F}
    (isWord : IsWord name.toList)
    (isKeyword : keywords.find? (fun word => word.1 = name) = some (name, K))
    (reads : ListStandsFor s text es)
    (primary : ∀ {s₀ s₁ s₂ s₃ s₄ : ParserState F}, IsToken K s₀ s₁ → IsToken .lParen s₁ s₂ →
      IsList IsExpr s₂ es s₃ → IsToken .rParen s₃ s₄ → IsPrimary IsExpr s₀ e s₄) :
    StandsFor s (' ' :: (name.toList ++ '(' :: (text ++ [')']))) e := by
  have kind : K ≠ .eof ∧ K ≠ .unknown := by
    have others : ∀ word ∈ keywords, word.2 ≠ .eof ∧ word.2 ≠ .unknown := by decide
    exact others _ (List.mem_of_find?_eq_some isKeyword)
  intro rest follows
  have closing := endsOperand_bracket (c := ')') (K := .rParen) (by decide) rest
  obtain ⟨lexed, list⟩ := reads closing
  have opened := firstToken_bracket (c := '(') (K := .lParen) (by decide) (text ++ ')' :: rest)
  have closed := firstToken_bracket (c := ')') (K := .rParen) (by decide) rest
  have apart : separate ('(' :: (text ++ ')' :: rest)) = true := rfl
  have word := firstToken_word isWord apart
  rw [String.ofList_toList, isKeyword] at word
  have named : name.toList ≠ [] := by
    obtain ⟨c, cs, same, -⟩ := isWord
    rw [same]
    exact List.cons_ne_nil _ _
  simp only [List.cons_append, List.append_assoc, List.nil_append, ParserState.before_blank]
  refine ⟨word.blank.lexes_text kind.2 named, primary (word.isToken kind.1 ?_)
    (opened.isToken (by decide) lexed) list (closed.isToken (by decide) follows.lexed)⟩
  exact opened.lexes_text (by decide) (List.cons_ne_nil _ _)

omit [Field F] [LinearOrder F] in
theorem atoi_width (width : VecWidth) :
    VecWidth.ofUInt32? (atoi (Nat.toDigits 10 width.val)).toUInt32 = some width := by
  have bounds := width.2
  have same : atoi (Nat.toDigits 10 width.val) = Int32.ofNat width.val := by
    have fits : -2 ^ 31 ≤ Int.ofNat width.val ∧ Int.ofNat width.val < 2 ^ 31 := by
      rw [Int.ofNat_eq_natCast]
      omega
    have read := atoi_decimal fits
    rw [← Int32.toInt_inj, Int32.toInt_ofNat_of_lt (by omega)]
    exact read
  have number : (UInt32.ofNat width.val).toNat = width.val :=
    UInt32.toNat_ofNat_of_lt' (by rw [UInt32.size]; omega)
  rw [same, Int32.toUInt32_ofNat', VecWidth.ofUInt32?, dif_pos (by rw [number]; exact bounds),
    Option.some.injEq]
  exact Subtype.ext number

theorem reads_width (kind : ElemKind) (width : VecWidth) (follows : EndsOperand rest) :
    lexes ((if (⟨kind, width⟩ : ExprType).isVector then '.' :: Nat.toDigits 10 width.val else []) ++
        rest) = true ∧
      IsWidth (s.before ((if (⟨kind, width⟩ : ExprType).isVector then
        '.' :: Nat.toDigits 10 width.val else []) ++ rest)) width (s.before rest) := by
  by_cases vector : (⟨kind, width⟩ : ExprType).isVector = true
  · rw [if_pos vector, List.cons_append]
    have number : FirstToken (Nat.toDigits 10 width.val ++ rest) .integerLiteral
        (Nat.toDigits 10 width.val) rest := firstToken_decimal (.ofNat width.val) follows.apart
    obtain ⟨d, ds, digits⟩ := List.exists_cons_of_ne_nil (@Nat.toDigits_ne_nil width.val 10)
    have digit : d.isDigit = true :=
      isDigit_toDigits width.val d (by rw [digits]; exact List.mem_cons_self)
    have period : FirstToken ('.' :: (Nat.toDigits 10 width.val ++ rest)) .period ['.']
        (Nat.toDigits 10 width.val ++ rest) := by
      rw [digits]
      exact firstToken_period digit
    refine ⟨period.lexes_text (by decide) (List.cons_ne_nil _ _), .literal (period.isToken (by decide)
      (number.lexes_text (by decide) Nat.toDigits_ne_nil)) (number.isToken (by decide) follows.lexed) ?_⟩
    rw [ParserState.before, number.word]
    exact atoi_width width
  · rw [if_neg vector, List.nil_append]
    have one : width.val = 1 := by simpa [ExprType.isVector] using vector
    exact ⟨follows.lexed, .none follows.noPeriod one⟩

theorem standsFor_load {A : ArgId} {arg : Argument} {indices : List (Expr F)} {width : VecWidth}
    (isName : IsName arg.name) (declared : s.ctx.argMap[A]? = some arg)
    (noLoop : s.ctx.getLoopByName arg.name = none) (noVar : s.ctx.getVar arg.name = none)
    (isArg : s.ctx.getArg arg.name = some A) (dims : arg.type.getNumDims = indices.length)
    (types : ∀ e ∈ indices, e.getType.isIndexTy = true) (reads : ListStandsFor s text indices) :
    StandsFor s (arg.name.toList ++ '[' :: (text ++ ']' ::
        (if (⟨arg.type.elementType, width⟩ : ExprType).isVector then
          '.' :: Nat.toDigits 10 width.val else [])))
      (.load A indices ⟨arg.type.elementType, width⟩) := by
  intro rest follows
  obtain ⟨lexedW, isWidth⟩ := reads_width (s := s) arg.type.elementType width follows
  generalize (if (⟨arg.type.elementType, width⟩ : ExprType).isVector then
    '.' :: Nat.toDigits 10 width.val else []) = extension at lexedW isWidth ⊢
  obtain ⟨lexedL, list⟩ :=
    reads (endsOperand_bracket (c := ']') (K := .rSquare) (by decide) (extension ++ rest))
  have opened := firstToken_bracket (c := '[') (K := .lSquare) (by decide)
    (text ++ ']' :: (extension ++ rest))
  have closed := firstToken_bracket (c := ']') (K := .rSquare) (by decide) (extension ++ rest)
  have apart : separate ('[' :: (text ++ ']' :: (extension ++ rest))) = true := rfl
  have name := firstToken_name isName apart
  simp only [List.append_assoc, List.cons_append]
  refine ⟨name.lexes_text (by decide) isName.ne_nil, ?_⟩
  have text := name.getText (s := s)
  rw [String.ofList_toList] at text
  refine .load (name.isToken (by decide) (opened.lexes_text (by decide) (List.cons_ne_nil _ _))) ?_ ?_ ?_
    declared (opened.isToken (by decide) lexedL) list (closed.isToken (by decide) lexedW) dims types
    isWidth
  · rw [text]; exact noLoop
  · rw [text]; exact noVar
  · rw [text]; exact isArg

theorem Expr.Printable.standsFor {e : Expr F} (printable : e.Printable printer s.ctx) :
    StandsFor s (e.dump printer s.ctx.decls) e := by
  induction printable with
  | index isName isLoop =>
    refine standsFor_word _ isName fun token text same => ?_
    exact .index token (by rw [same, text, isLoop])
  | @const val fits =>
    intro rest follows
    have token := firstToken_decimal val follows.apart
    have primary : IsPrimary IsExpr (s.before (decimal val ++ rest)) _ (s.before rest) :=
      .const (token.isToken (by decide) follows.lexed)
    rw [show (s.before (decimal val ++ rest)).tok.text = decimal val from token.word,
      atoi_decimal fits] at primary
    exact ⟨token.lexes_text (by decide) (decimal_ne_nil val), primary⟩
  | @constFP val isFloat value =>
    intro rest follows
    have token := firstToken_float isFloat follows.apart
    have primary : IsPrimary IsExpr (s.before (printer.toString val ++ rest)) _ (s.before rest) :=
      .constFP (token.isToken (by decide) follows.lexed)
    rw [show (s.before (printer.toString val ++ rest)).tok.text = printer.toString val from token.word,
      value] at primary
    exact ⟨token.lexes_text (by decide) isFloat.ne_nil, primary⟩
  | @constString val some unquoted backslash =>
    intro rest follows
    have token := firstToken_string unquoted rest
    have spaced : lexes (' ' :: rest) = true := by
      rw [lexes, lex_blank]
      exact follows.lexed
    have primary : IsPrimary IsExpr (s.before (dumpConstantString val.toList ++ rest)) _
        (s.before (' ' :: rest)) :=
      .constString (token.isToken (by decide) spaced)
    rw [show (s.before (dumpConstantString val.toList ++ rest)).tok.text = escapeCString val.toList
      from token.word, (unescape_escape_iff _).mpr backslash, String.ofList_toList,
      ParserState.before_blank] at primary
    exact ⟨token.lexes_text (by decide) (escapeCString_ne_nil some), primary⟩
  | @loadLocal LV var isName declared noLoop isVar =>
    have name : s.ctx.decls.varName LV = var.name.toList := by
      rw [Decls.varName, ParserContext.decls, declared, Option.map_some, Option.getD_some]
    rw [Expr.dump, name]
    refine standsFor_word _ isName fun {t _} token text same => ?_
    have isVar : t.ctx.getVar t.tok.getText = some LV := by rw [same, text, isVar]
    refine .loadLocal token ?_ isVar ?_
    · rw [same, text, noLoop]
    · rw [same, Decls.mkLoadLocal, ParserContext.decls, declared, Option.map_some]
  | @load A arg indices width isName declared noLoop noVar isArg some dims types printable ih =>
    have name : s.ctx.decls.argName A = arg.name.toList := by
      rw [Decls.argName, ParserContext.decls, declared, Option.map_some, Option.getD_some]
    rw [Expr.dump, name]
    exact standsFor_load isName declared noLoop noVar isArg dims types (listStandsFor_dumpList some ih)
  | @unary kind val printable ih =>
    obtain ⟨name, K, symbol, isWord, isKeyword, isBuiltin⟩ := builtinUnary_cases kind
    rw [Expr.dump, symbol]
    exact standsFor_call isWord isKeyword (listStandsFor_one ih) fun token opened list closed =>
      .unaryCall isBuiltin token opened list closed
  | @operation kind lhs rhs operator left right adjusted types ihL ihR =>
    -- The operators with a symbol stand between brackets, the other ones are printed as calls.
    have reads := standsFor_operation operator (standsFor_operand ihL) (standsFor_operand ihR) adjusted types
    cases kind with
    | add | mul | sub | div =>
      rw [Expr.dump]
      exact reads
    | max | min | pow => exact absurd operator (by decide)
  | @call kind lhs rhs isCall left right types ihL ihR =>
    obtain ⟨name, K, symbol, isWord, isKeyword, isBuiltin⟩ := builtinBinary_cases isCall
    have args := listStandsFor_cons ihL (listStandsFor_blank (listStandsFor_one ihR))
    have call := standsFor_call isWord isKeyword args fun token opened list closed =>
      .binaryCall isBuiltin token opened list closed types
    have reads := standsFor_paren fun rest follows => ⟨(call follows).1, call.isExpr follows⟩
    rw [← symbol] at reads
    cases kind with
    | add | mul | sub | div => exact absurd isCall (by decide)
    | max | min | pow =>
      rw [Expr.dump]
      simpa only [List.append_assoc, List.cons_append, List.nil_append] using reads

end Nodes

/-- A printable expression comes back from its printed form. -/
theorem parseExpr_dump {printer : Printer F} {e : Expr F} (valid : s.ctx.Valid)
    (printable : e.Printable printer s.ctx) (follows : EndsOperand rest)
    (ends : getBinOpPrecedence (lex rest).1.kind = 0) :
    Accepts parseExpr (s.before (e.dump printer s.ctx.decls ++ rest)) (some e) (s.before rest) :=
  accepts_parseExpr valid (printable.standsFor.isExpr follows) ends

end Reading

/-! ## Printing what was read -/

section Reprint

/-- The current token comes from the lexer. -/
def ParserState.Lexed (s : ParserState F) : Prop := ∃ text, s.tok = (lex text).1

theorem lexToken_cases (c : Char) (cur : List Char) :
    lexToken (c :: cur) = lexNumber c cur ∨
      (∃ named, c.isDigit = false ∧ lexToken (c :: cur) = lexIdentifier c cur named) ∨
      lexToken (c :: cur) = lexString cur ∨
      (lexToken (c :: cur)).1.kind ∉ [TokenKind.identifier, .stringLiteral] := by
  by_cases named : isNameChar c = true
  · cases digit : c.isDigit with
    | true => exact .inl (lexToken_digit cur digit)
    | false => exact .inr (.inl ⟨named, rfl, lexToken_word cur named digit⟩)
  by_cases quote : c = '"'
  · subst quote
    exact .inr (.inr (.inl (lexToken_quote cur)))
  by_cases minus : c = '-' ∧ (cur.head?.any Char.isDigit) = true
  · obtain ⟨rfl, digit⟩ := minus
    exact .inl (lexToken_minus cur digit)
  · have other := (lexToken_mark (Bool.not_eq_true _ ▸ named) quote minus).2.2.2.1
    refine .inr (.inr (.inr fun mem => other (List.mem_append_left _ ?_)))
    have more : ∀ K ∈ [TokenKind.identifier, .stringLiteral],
        K ∈ [TokenKind.eof, .integerLiteral, .floatLiteral, .identifier, .stringLiteral] := by decide
    exact more _ mem

theorem isName_lexIdentifier {c : Char} {cur : List Char} {named : isNameChar c = true}
    (letter : c.isDigit = false) (identifier : (lexIdentifier c cur named).1.kind = .identifier) :
    IsName (lexIdentifier c cur named).1.getText := by
  have inClass := lexIdentifier_inClass cur named letter
  refine ⟨by simpa [Token.getText] using inClass.word (.inl identifier), fun word mem same => ?_⟩
  cases found : keywords.find? fun word => word.1 = String.ofList (c :: cur.takeWhile isNameChar) with
  | none =>
    refine List.find?_eq_none.mp found word mem ?_
    simpa [Token.getText, lexIdentifier] using same
  | some keyword =>
    have kinds : ∀ word ∈ keywords, word.2 ≠ .identifier := by decide
    simp only [lexIdentifier, found] at identifier
    exact kinds keyword (List.mem_of_find?_eq_some found) identifier

theorem isName_of_lex {text : List Char} (identifier : (lex text).1.kind = .identifier) :
    IsName (lex text).1.getText := by
  rw [lex] at identifier ⊢
  cases start : skipBlanks false text with
  | nil =>
    rw [start] at identifier
    cases identifier
  | cons c cur =>
    rw [start] at identifier
    obtain number | ⟨named, letter, word⟩ | string | other := lexToken_cases c cur
    · rw [number] at identifier
      have kinds := lexNumber_kind c cur
      rw [identifier] at kinds
      cases kinds <;> contradiction
    · rw [word] at identifier ⊢
      exact isName_lexIdentifier letter identifier
    · rw [string] at identifier
      cases identifier
    · exact (other (by rw [identifier]; decide)).elim

theorem unquoted_of_lex {text : List Char} (literal : (lex text).1.kind = .stringLiteral) :
    '"' ∉ (lex text).1.text := by
  rw [lex] at literal ⊢
  cases start : skipBlanks false text with
  | nil =>
    rw [start] at literal
    cases literal
  | cons c cur =>
    rw [start] at literal
    obtain number | ⟨named, letter, word⟩ | string | other := lexToken_cases c cur
    · rw [number] at literal
      have kinds := lexNumber_kind c cur
      rw [literal] at kinds
      cases kinds <;> contradiction
    · rw [word] at literal
      have kind := lexIdentifier_kind cur named
      rw [literal] at kind
      exact absurd kind (by decide)
    · rw [string]
      exact (lexString_inClass cur).string rfl
    · exact (other (by rw [literal]; decide)).elim

variable [Field F] [LinearOrder F] {s s' : ParserState F}

open Procedure

theorem IsToken.lexed {K : TokenKind} (token : IsToken K s s') : s'.Lexed := by
  have returns := token.consumed.1
  simp only [consumeToken, lexTok, returns_bind, returns_getTok, returns_assert, returns_getState,
    returns_check, returns_modifyState] at returns
  obtain ⟨_, _, ⟨rfl, rfl⟩, _, _, ⟨-, rfl⟩, _, _, ⟨rfl, rfl⟩, _, _, -, _, _, ⟨-, rfl⟩, rfl⟩ := returns
  exact ⟨_, rfl⟩

theorem IsToken.isName (token : IsToken .identifier s s') (lexed : s.Lexed) :
    IsName s.tok.getText := by
  obtain ⟨text, same⟩ := lexed
  have identifier := token.found
  rw [same] at identifier ⊢
  exact isName_of_lex identifier

structure Expr.ConstantsSurvive (printer : Printer F) (e : Expr F) : Prop where
  floats : ∀ val, .constFP val ∈ e.atoms →
    IsFloat (printer.toString val) ∧ atof (printer.toString val) = val
  strings : ∀ val, .constString val ∈ e.atoms → val.toList ≠ [] ∧ '\\' ∉ val.toList.dropLast

/-- The names that the printer finds are those of the context. -/
structure Printer.Knows (printer : Printer F) (ctx : ParserContext F) : Prop where
  loops : ∀ L ∈ ctx.loopNextStack, printer.loopName L.id = L.name
  lets : ∀ binding ∈ ctx.letStack, binding.2.Printable printer ctx

variable {printer : Printer F} {expr operand : Phrase F (Expr F)}

/-- What such a phrase stands for survives printing. -/
def Survives (printer : Printer F) (phrase : Phrase F (Expr F)) : Prop :=
  ∀ ⦃s e s'⦄, s.Lexed → printer.Knows s.ctx → phrase s e s' → e.ConstantsSurvive printer →
    e.Printable printer s.ctx

omit [Field F] [LinearOrder F] in
theorem ParserContext.getArg_name {ctx : ParserContext F} {name : String} {A : ArgId} {arg : Argument}
    (found : ctx.getArg name = some A) (declared : ctx.argMap[A]? = some arg) : arg.name = name := by
  obtain ⟨bound, same, -⟩ := List.findIdx?_eq_some_iff_getElem.mp found
  rw [List.getElem?_eq_getElem bound, Option.some.injEq] at declared
  simpa [declared] using same

omit [LinearOrder F] in
theorem Expr.ConstantsSurvive.of_subset {e e' : Expr F} (constants : e.ConstantsSurvive printer)
    (part : e'.atoms ⊆ e.atoms) : e'.ConstantsSurvive printer :=
  ⟨fun val mem => constants.floats val (part mem), fun val mem => constants.strings val (part mem)⟩

theorem IsList.survives (inner : Shortens expr) (survives : Survives printer expr)
    {es : List (Expr F)} (isList : IsList expr s es s') (lexed : s.Lexed)
    (knows : printer.Knows s.ctx) (constants : ∀ e ∈ es, e.ConstantsSurvive printer) :
    es ≠ [] ∧ ∀ e ∈ es, e.Printable printer s.ctx := by
  induction isList with
  | one isExpr =>
    refine ⟨List.cons_ne_nil _ _, List.forall_mem_singleton.mpr ?_⟩
    exact survives lexed knows isExpr (constants _ (List.mem_singleton_self _))
  | @next s s₁ s₂ s' e es isExpr comma rest ih =>
    have same : s₂.ctx = s.ctx := comma.shortens.2.trans (inner isExpr).2
    obtain ⟨first, others⟩ := List.forall_mem_cons.mp constants
    have printable := (ih comma.lexed (same ▸ knows) others).2
    rw [same] at printable
    exact ⟨List.cons_ne_nil _ _, List.forall_mem_cons.mpr ⟨survives lexed knows isExpr first, printable⟩⟩

theorem builtinBinary_call {K : TokenKind} {kind : BinOpKind} (isBuiltin : builtinBinary K = some kind) :
    kind ∈ [.max, .min, .pow] := by
  simp only [builtinBinary] at isBuiltin
  split at isBuiltin <;> cases isBuiltin <;> decide

theorem IsPrimary.survives (inner : Shortens expr) (survives : Survives printer expr) :
    Survives printer (IsPrimary expr) := by
  intro s e s' lexed knows isPrimary constants
  cases isPrimary with
  | const token => exact .const ⟨Int32.le_toInt _, Int32.toInt_lt _⟩
  | constFP token =>
    obtain ⟨isFloat, value⟩ := constants.floats _ (List.mem_singleton_self _)
    exact .constFP isFloat value
  | constString token =>
    obtain ⟨some, backslash⟩ := constants.strings _ (List.mem_singleton_self _)
    refine .constString some ?_ backslash
    obtain ⟨text, same⟩ := lexed
    have literal := token.found
    rw [same] at literal ⊢
    rw [String.toList_ofList]
    intro mem
    -- A character of the string is one of the token, or comes from an escape sequence.
    rcases mem_unescapeCString mem with inText | escape
    · exact unquoted_of_lex literal inText
    · simp at escape
  | @index _ _ L token isLoop =>
    have mem := List.mem_of_find?_eq_some isLoop
    have same : L.name = s.tok.getText := by simpa using List.find?_some isLoop
    have name : printer.loopName L.id = s.tok.getText := (knows.loops L mem).trans same
    exact .index (name ▸ token.isName lexed) (name ▸ isLoop)
  | @loadLocal _ _ LV _ token noLoop isVar made =>
    obtain ⟨var, declared, same, -⟩ := ParserContext.getVar_eq_some isVar
    rw [Decls.mkLoadLocal, ParserContext.decls, declared, Option.map_some, Option.some.injEq] at made
    rw [← made]
    exact .loadLocal (same ▸ token.isName lexed) declared (same ▸ noLoop) (same ▸ isVar)
  | letName token noLoop noVar noBracket isLet noLocal =>
    obtain ⟨binding, first, rfl⟩ := Option.map_eq_some_iff.mp isLet
    exact knows.lets binding (List.mem_of_find?_eq_some first)
  | load token noLoop noVar isArg declared opened list closed dims types width =>
    have name := ParserContext.getArg_name isArg declared
    have same := opened.shortens.2.trans token.shortens.2
    obtain ⟨some, printable⟩ := list.survives inner survives opened.lexed (same ▸ knows)
      fun e mem => constants.of_subset fun a atom => by
        rw [Expr.atoms, Expr.atomsList_eq, List.mem_flatMap]
        exact ⟨e, mem, atom⟩
    rw [same] at printable
    exact .load (name ▸ token.isName lexed) declared (name ▸ noLoop) (name ▸ noVar) (name ▸ isArg) some
      dims types printable
  | paren opened isExpr closed =>
    have knows₁ : printer.Knows _ := opened.shortens.2 ▸ knows
    have printable := survives opened.lexed knows₁ isExpr constants
    rwa [opened.shortens.2] at printable
  | @binaryCall _ _ _ _ _ _ _ L R isBuiltin token opened list closed types =>
    have same := opened.shortens.2.trans token.shortens.2
    -- The constants of an operand are constants of the call.
    have parts : ∀ e ∈ [L, R], e.ConstantsSurvive printer := by
      refine List.forall_mem_cons.mpr ⟨?_, List.forall_mem_singleton.mpr ?_⟩
      · exact constants.of_subset (List.subset_append_left _ _)
      · exact constants.of_subset (List.subset_append_right _ _)
    obtain ⟨-, printable⟩ := list.survives inner survives opened.lexed (same ▸ knows) parts
    rw [same] at printable
    exact .call (builtinBinary_call isBuiltin) (printable L List.mem_cons_self)
      (printable R (List.mem_cons_of_mem _ (List.mem_singleton_self R))) types
  | @unaryCall _ _ _ _ _ _ _ val isBuiltin token opened list closed =>
    have same := opened.shortens.2.trans token.shortens.2
    have part : ∀ e ∈ [val], e.ConstantsSurvive printer :=
      List.forall_mem_singleton.mpr (constants.of_subset (List.Subset.refl _))
    obtain ⟨-, printable⟩ := list.survives inner survives opened.lexed (same ▸ knows) part
    rw [same] at printable
    exact .unary (printable val (List.mem_singleton_self val))

omit [Field F] [LinearOrder F] in
theorem tryToAdjustTypes_cases {LHS RHS L R : Expr F}
    (adjusted : tryToAdjustTypes LHS RHS = some (L, R)) :
    (L = LHS ∨ ∃ vf, L = .broadcast LHS vf) ∧ (R = RHS ∨ ∃ vf, R = .broadcast RHS vf) := by
  simp only [tryToAdjustTypes] at adjusted
  split_ifs at adjusted
  · cases adjusted
    exact ⟨.inl rfl, .inl rfl⟩
  · obtain ⟨e, made, same⟩ := Option.map_eq_some_iff.mp adjusted
    cases same
    exact ⟨.inl rfl, .inr ⟨_, (Expr.mkBroadcast_eq_some.mp made).2.symm⟩⟩
  · obtain ⟨e, made, same⟩ := Option.map_eq_some_iff.mp adjusted
    cases same
    exact ⟨.inr ⟨_, (Expr.mkBroadcast_eq_some.mp made).2.symm⟩, .inl rfl⟩
  · cases adjusted
    exact ⟨.inl rfl, .inl rfl⟩

omit [LinearOrder F] in
theorem Expr.Printable.operand_eq {ctx : ParserContext F} {e e' : Expr F}
    (printable : e.Printable printer ctx) (around : e' = e ∨ ∃ vf, e' = .broadcast e vf) :
    e'.operand = e := by
  obtain rfl | ⟨vf, rfl⟩ := around
  · cases printable <;> rfl
  · rfl

omit [Field F] [LinearOrder F] in
theorem Expr.atoms_around {e e' : Expr F} (around : e' = e ∨ ∃ vf, e' = .broadcast e vf) :
    e'.atoms = e.atoms := by
  obtain rfl | ⟨vf, rfl⟩ := around <;> rfl

theorem IsInfix.survives {ops : Operators}
    (arithmetic : ∀ op ∈ ops, op.2.2 ∈ [BinOpKind.add, .mul, .sub, .div]) (inner : Shortens operand)
    (survives : Survives printer operand) : Survives printer (IsInfix ops operand) := by
  intro s e s' lexed knows isInfix
  induction isInfix with
  | one isOperand => exact survives lexed knows isOperand
  | @next s s₁ s₂ s' K kind LHS RHS L R isInfix isOp token isOperand adjusted types ih =>
    intro constants
    obtain ⟨left, right⟩ := tryToAdjustTypes_cases adjusted
    have constantsL : LHS.ConstantsSurvive printer := constants.of_subset <| by
      rw [Expr.atoms, Expr.atoms_around left]
      exact List.subset_append_left _ _
    have constantsR : RHS.ConstantsSurvive printer := constants.of_subset <| by
      rw [Expr.atoms, Expr.atoms_around right]
      exact List.subset_append_right _ _
    have same := token.shortens.2.trans (shortens_isInfix inner isInfix).2
    have readableL := ih lexed knows constantsL
    have readableR := survives token.lexed (same ▸ knows) isOperand constantsR
    rw [same] at readableR
    have operandL := readableL.operand_eq left
    have operandR := readableR.operand_eq right
    refine .operation (arithmetic _ isOp) ?_ ?_ ?_ types
    · rwa [operandL]
    · rwa [operandR]
    · rwa [operandL, operandR]

theorem IsExprWithin.survives (depth : Nat) : Survives printer (IsExprWithin (F := F) depth) := by
  induction depth with
  | zero =>
    intro s e s' _ _ isExpr
    cases isExpr
  | succ depth ih =>
    have primary := IsPrimary.survives (shortens_isExprWithin depth) ih
    have shorter := shortens_isPrimary (shortens_isExprWithin (F := F) depth)
    exact IsInfix.survives (by decide) (shortens_isInfix shorter)
      (IsInfix.survives (by decide) shorter primary)

/-- What has been read comes back from its printed form, at every place where the names mean the same, if
its constants do. -/
theorem parseExpr_reprint {text rest : List Char} {t s' : ParserState F} {e : Expr F}
    (valid : t.ctx.Valid) (knows : printer.Knows t.ctx) (isExpr : IsExpr (t.before text) e s')
    (ends : getBinOpPrecedence s'.tok.kind = 0) (constants : e.ConstantsSurvive printer)
    (follows : EndsOperand rest) (ends' : getBinOpPrecedence (lex rest).1.kind = 0) :
    Accepts parseExpr (t.before text) (some e) s' ∧
      Accepts parseExpr (t.before (e.dump printer t.ctx.decls ++ rest)) (some e) (t.before rest) := by
  refine ⟨accepts_parseExpr valid isExpr ends, ?_⟩
  obtain ⟨depth, isExpr⟩ := isExpr
  have lexed : (t.before text).Lexed := ⟨text, rfl⟩
  have read := IsExprWithin.survives depth lexed knows isExpr constants
  have printable : e.Printable printer t.ctx := read
  exact accepts_parseExpr valid (printable.standsFor.isExpr follows) ends'

/-- `8 - 2 - 3 * (1 + 1)` is printed as `((8  -  2)  -  (3  *  (1  +  1)))`. -/
theorem parseExpr_reprint_differences : ∃ s' : ParserState ℚ,
    let printer : Printer ℚ := ⟨fun _ => "i", fun _ => []⟩
    let s : ParserState ℚ := ParserState.start [] []
    differences.dump printer s.ctx.decls = "((8  -  2)  -  (3  *  (1  +  1)))".toList ∧
      Accepts parseExpr (s.before "8 - 2 - 3 * (1 + 1)".toList) (some differences) s' ∧
      Accepts parseExpr (s.before "((8  -  2)  -  (3  *  (1  +  1)))".toList) (some differences)
        (s.before []) := by
  obtain ⟨s', isExpr, ends⟩ := isExpr_differences
  refine ⟨s', ?_⟩
  intro printer s
  have text : differences.dump printer s.ctx.decls = "((8  -  2)  -  (3  *  (1  +  1)))".toList := by
    decide +kernel
  have follows : EndsOperand [] := ⟨rfl, by decide, by decide⟩
  have knows : printer.Knows s.ctx := ⟨by simp [s, ParserState.start], by simp [s, ParserState.start]⟩
  have constants : differences.ConstantsSurvive printer := by
    constructor <;> simp [differences, Expr.atoms]
  have both := parseExpr_reprint (ParserState.valid_start [] []) knows isExpr ends constants follows
    (by decide)
  rw [text, List.append_nil] at both
  exact ⟨text, both⟩

end Reprint

/-- A parser in the body of a loop `i`, with a matrix `A` and a variable `x`. -/
def insideLoop : ParserState ℚ :=
  let start : ParserState ℚ := ParserState.start [] []
  { start with ctx := { start.ctx with
    argMap := [⟨"A", ⟨[8, 8], ["x", "y"], .float32Ty, twoDims⟩⟩]
    varMap := [⟨"x", .scalar .float32Ty⟩]
    loopNextStack := [⟨0, "i", 4, 1⟩]
    nextLoop := 1 } }

/-- `(A[i,(i  +  1)].4  *  (x))` -/
theorem parseExpr_dump_row :
    let printer : Printer ℚ := ⟨fun _ => "i", fun _ => []⟩
    let row : Expr ℚ := .binary .mul
      (.load 0 [.indexOf 0, .binary .add (.indexOf 0) (.const 1)] ⟨.float32Ty, ⟨4, VecWidth.fits_four⟩⟩)
      (.broadcast (.loadLocal 0 (.scalar .float32Ty)) ⟨4, VecWidth.fits_four⟩)
    row.dump printer insideLoop.ctx.decls = "(A[i,(i  +  1)].4  *  (x))".toList ∧
      Accepts parseExpr (insideLoop.before ("(A[i,(i  +  1)].4  *  (x))".toList ++ [')'])) (some row)
        (insideLoop.before [')']) := by
  intro printer row
  have text : row.dump printer insideLoop.ctx.decls = "(A[i,(i  +  1)].4  *  (x))".toList := by
    decide +kernel
  have loopName : IsName "i" := ⟨isWord_of_all (by decide) (by decide), by decide⟩
  have argName : IsName "A" := ⟨isWord_of_all (by decide) (by decide), by decide⟩
  have varName : IsName "x" := ⟨isWord_of_all (by decide) (by decide), by decide⟩
  have isArg : insideLoop.ctx.argMap[0]? = some ⟨"A", ⟨[8, 8], ["x", "y"], .float32Ty, twoDims⟩⟩ := rfl
  have isVar : insideLoop.ctx.varMap[0]? = some ⟨"x", .scalar .float32Ty⟩ := rfl
  have index : (Expr.indexOf 0).Printable printer insideLoop.ctx :=
    .index (L := ⟨0, "i", 4, 1⟩) loopName rfl
  have next : (Expr.binary .add (Expr.indexOf 0) (.const 1)).Printable printer insideLoop.ctx :=
    .operation (by decide) index (.const (by decide)) rfl rfl
  have load : (Expr.load 0 [.indexOf 0, .binary .add (.indexOf 0) (.const 1)]
      ⟨.float32Ty, ⟨4, VecWidth.fits_four⟩⟩).Printable printer insideLoop.ctx := by
    refine .load argName isArg rfl rfl rfl (List.cons_ne_nil _ _) rfl ?_ ?_
    · decide
    · simpa using ⟨index, next⟩
  have printable : row.Printable printer insideLoop.ctx :=
    .operation (by decide) load (.loadLocal varName isVar rfl rfl) rfl rfl
  have valid : insideLoop.ctx.Valid :=
    ⟨nofun, by decide, by decide, by decide, nofun, by decide⟩
  have follows : EndsOperand [')'] := endsOperand_bracket (K := .rParen) (by decide) []
  exact ⟨text, text ▸ parseExpr_dump valid printable follows (by decide)⟩

end Bistra

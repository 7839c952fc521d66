import RegexDiagram.Lexeme

/-!
Hints explain a lexeme to the reader of a regex: what it is, and the text that it encloses or
applies to.
-/
namespace RegexDiagram

/-- What there is to say about a lexeme on its own. -/
structure Hint.Entry where
  kind : String
  name : String
  description : String
  warning : Option String := none

structure Hint where
  label : List Char
  /-- Missing where there is no lexeme to explain. -/
  kind : Option String := none
  name : String
  description : String
  warning : Option String := none
  /-- The text between brackets or parentheses. -/
  range : Option (List Char) := none
  /-- The text to the left that an operator applies to. -/
  left : Option (List Char) := none
  /-- The text to the right that an operator applies to. -/
  right : Option (List Char) := none

namespace Hint.Entry

def charClass : CharClass → Bool → Entry
  | .digit, false =>
      { kind := "Value"
        name := "Digits character class"
        description := "Match a single digit character (0123456789)." }
  | .digit, true =>
      { kind := "Value"
        name := "Non-digits character class"
        description := "Match a single non-digit character (0123456789)." }
  | .word, false =>
      { kind := "Value"
        name := "Alphanumeric character class"
        description := "Match a single alphanumeric character (a-z, A-Z, 0-9, _)." }
  | .word, true =>
      { kind := "Value"
        name := "Non-alphanumeric character class"
        description := "Match a single non-alphanumeric character (a-z, A-Z, 0-9, _)." }
  | .space, false =>
      { kind := "Value"
        name := "White space character class"
        description :=
          "Match a single white space character (space, \\f, \\n, \\r, \\t, \\v)." }
  | .space, true =>
      { kind := "Value"
        name := "Non white space character class"
        description :=
          "Match a single non white space character (space, \\f, \\n, \\r, \\t, \\v)." }

def escapedChar : Entry where
  kind := "Value"
  name := "Escaped character"
  description := "Match exactly that character."

def value : Value → Entry
  | .wildcard =>
      { kind := "Value"
        name := "Wildcard character"
        description := "Match any character." }
  | .escape c =>
      match CharClass.ofLetter? c with
      | some (cls, negated) => charClass cls negated
      | none => escapedChar
  | .danglingEscape => escapedChar
  | .literal _ | .bracket _ =>
      { kind := "Value"
        name := "Character literal"
        description := "Match exactly that character." }

def quantifier : Quantifier → Entry
  | .optional =>
      { kind := "Quantifier"
        name := "0 or 1 quantifier"
        description := "Match the preceding item 0 or 1 times." }
  | .star =>
      { kind := "Quantifier"
        name := "0 to any quantifier"
        description := "Match the preceding item 0 or more times." }
  | .plus =>
      { kind := "Quantifier"
        name := "1 to any quantifier"
        description := "Match the preceding item 1 or more times." }

def piece : Piece → Entry
  | .value v => value v
  | .quantifier q => quantifier q
  | .alternation =>
      { kind := "Operator"
        name := "Alternation operator"
        description := "Match either of the items preceding and following." }
  | .groupOpen =>
      { kind := "Delimiter"
        name := "Left parenthesis"
        description := "Open a parentheses pair to manage precedence and set a capture group." }
  | .groupClose =>
      { kind := "Delimiter"
        name := "Right parenthesis"
        description := "Close a parentheses pair to manage precedence and set a capture group." }

def glyph : Glyph → Entry
  | .whole p => piece p
  | .bracketOpen _ =>
      { kind := "Delimiter"
        name := "Left bracket"
        description := "Open a bracketed character class." }
  | .bracketClose _ =>
      { kind := "Delimiter"
        name := "Right bracket"
        description := "Close a bracketed character class." }
  | .negation =>
      { kind := "Operator"
        name := "Negation operator"
        description := "Negate a bracket expression to match characters not in it."
        warning := some "Has to be positioned as the first character in the expression." }
  | .member _ =>
      { kind := "Value"
        name := "Character literal (brackets)"
        description := "Add an alternative in the bracketed expression." }
  | .rangeLow _ =>
      { kind := "Value"
        name := "Range beginning"
        description := "Define the beginning of a character range in a bracketed expression." }
  | .rangeDash =>
      { kind := "Operator"
        name := "Range operator"
        description := "Add a character range as alternatives in a bracketed expression."
        warning := some "Has to be neither at the end or beginning of the expression." }
  | .rangeHigh _ =>
      { kind := "Value"
        name := "Range ending"
        description := "Define the ending of a character range in a bracketed expression." }

end Hint.Entry

namespace Hint

/-- What is shown where there is no lexeme. -/
def general : Hint where
  label := ['?']
  name := "Questions ..."
  description := "Hover over any character in the regex to get information on it."

/-- The source text of the lexemes from `first` to before `stop`. -/
def sourceText (lexemes : List Lexeme) (first stop : Nat) : List Char :=
  ((lexemes.drop first).take (stop - first)).flatMap (·.label)

def operandText (lexemes : List Lexeme) (o : Operand) : Option (List Char) :=
  match o.first, o.last with
  | some first, some last => some (sourceText lexemes first (last + 1))
  | _, _ => none

def ofLexeme (lexemes : List Lexeme) (l : Lexeme) : Hint :=
  let entry := Entry.glyph l.glyph
  { label := l.label
    kind := some entry.kind
    name := entry.name
    description := entry.description
    warning := entry.warning
    range := l.extent.map fun e => sourceText lexemes (e.first + 1) e.last
    left := operandText lexemes l.left
    right := operandText lexemes l.right }

def atIndex (lexemes : List Lexeme) (index : Int) : Hint :=
  if index < 0 then general
  else
    match lexemes[index.toNat]? with
    | some l => ofLexeme lexemes l
    | none => general

end Hint
end RegexDiagram

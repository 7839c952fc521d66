/-!
Values are the parts of a regex that stand for one character of the input: a value has a source
text, a label it is printed with, and the set of characters it accepts.
-/
namespace RegexDiagram

/-- The classes that an escaped letter can name. -/
inductive CharClass
  | digit
  | word
  | space
deriving DecidableEq

namespace CharClass

def contains : CharClass → Char → Bool
  | digit, c => c.isDigit
  | word, c => c.isAlphanum || c == '_'
  | space, c => c ∈ [' ', '\x0c', '\n', '\r', '\t', '\x0b']

/-- The class behind a backslash and a letter. The flag says that it is the complement. -/
def ofLetter? : Char → Option (CharClass × Bool)
  | 'd' => some (digit, false)
  | 'D' => some (digit, true)
  | 'w' => some (word, false)
  | 'W' => some (word, true)
  | 's' => some (space, false)
  | 'S' => some (space, true)
  | _ => none

end CharClass

/-- One member or one range between brackets. A range whose ends are reversed is empty. -/
inductive BracketItem
  | single (c : Char)
  | range (low high : Char)
deriving DecidableEq

namespace BracketItem

def contains : BracketItem → Char → Bool
  | single d, c => c == d
  | range low high, c => low ≤ c && c ≤ high

def text : BracketItem → List Char
  | single c => [c]
  | range low high => [low, '-', high]

/-- The characters of an item in code point order. -/
def chars : BracketItem → List Char
  | single c => [c]
  | range low high =>
      (List.range' low.toNat (high.toNat + 1 - low.toNat)).filterMap fun n =>
        if n.isValidChar then some (Char.ofNat n) else none

end BracketItem

/-- A bracket expression. One that is not `closed` ran to the end of the source. -/
structure Bracket where
  negated : Bool
  items : List BracketItem
  closed : Bool
deriving DecidableEq

namespace Bracket

def contains (b : Bracket) (c : Char) : Bool := b.items.any (·.contains c)

def accepts (b : Bracket) (c : Char) : Bool := b.contains c != b.negated

/-- The source text up to the closing bracket. -/
def body (b : Bracket) : List Char :=
  '[' :: (if b.negated then ['^'] else []) ++ b.items.flatMap BracketItem.text

def text (b : Bracket) : List Char := b.body ++ (if b.closed then [']'] else [])

/-- The source text with the closing bracket, present or not. -/
def label (b : Bracket) : List Char := b.body ++ [']']

/-- The characters of `items` that no item of `earlier` contains, each where it first occurs. -/
def membersAfter (earlier : List BracketItem) : List BracketItem → List Char
  | [] => []
  | i :: items =>
      i.chars.filter (fun c => !earlier.any (·.contains c)) ++ membersAfter (i :: earlier) items

/-- The listed characters without repetition, in order of first occurrence. -/
def members (b : Bracket) : List Char := membersAfter [] b.items

end Bracket

inductive Value
  | literal (c : Char)
  | wildcard
  | escape (c : Char)
  /-- A backslash with nothing after it. -/
  | danglingEscape
  | bracket (b : Bracket)
deriving DecidableEq

namespace Value

def accepts : Value → Char → Bool
  | literal d, c => c == d
  | wildcard, _ => true
  | escape d, c =>
      match CharClass.ofLetter? d with
      | some (cls, negated) => cls.contains c != negated
      | none => c == d
  | danglingEscape, _ => true
  | bracket b, c => b.accepts c

def text : Value → List Char
  | literal c => [c]
  | wildcard => ['.']
  | escape c => ['\\', c]
  | danglingEscape => ['\\']
  | bracket b => b.text

def label : Value → List Char
  | bracket b => b.label
  | v => v.text

/-- The name of the kind of a value. -/
def name : Value → String
  | literal _ => "charLiteral"
  | wildcard => "."
  | escape c => if (CharClass.ofLetter? c).isSome then "charClass" else "escapedChar"
  | danglingEscape => "escapedChar"
  | bracket _ => "bracketClass"

end Value
end RegexDiagram
